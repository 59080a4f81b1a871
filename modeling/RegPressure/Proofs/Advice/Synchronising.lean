import RegPressure.Proofs.Advice.Veto
import RegPressure.Proofs.Faultless.Accepted

namespace RegPressure

/-- An access to memory or a fence with an order stronger than `monotonic`. -/
def Instr.Synchronises (i : Instr) : Prop :=
  i.op ∈ [Op.load, .store, .atomicrmw, .cmpxchg, .fence] ∧
    MemOrder.monotonic.rank < i.ordering.rank

instance (i : Instr) : Decidable i.Synchronises := inferInstanceAs (Decidable (_ ∧ _))

variable {s : Symbols} {m : Memory.Model} {region : List Nat} {i : Instr} {id : Int}

namespace Memory.Model

/-- Of the synchronising instructions only the updates, the fences and the stores that meet a place
may write to it. -/
theorem mayWrite_iff_of_synchronises (hi : m.func.instr? id = some i) (hsync : i.Synchronises)
    (place : Location) :
    m.MayWrite place id ↔ i.op ∈ [Op.atomicrmw, .cmpxchg, .fence] ∨
      i.op = .store ∧ m.touches i place = .ok true := by
  have heffect : m.MayWrite place id ↔ ∃ e, m.effect i place = .ok e ∧ e.writes = true := by
    simp [MayWrite, hi]
  have hstrong : i.ordering.rank > MemOrder.monotonic.rank := hsync.2
  rw [heffect]
  cases hop : i.op with
  | load =>
    refine iff_of_false ?_ (by simp)
    rintro ⟨e, he, hwrites⟩
    simp only [effect, hop] at he
    obtain ⟨touched, -, he⟩ := Checked.bind_eq_ok.mp he
    cases touched <;> cases he <;> cases hwrites
  | store =>
    simp only [effect, hop]
    constructor
    · rintro ⟨e, he, hwrites⟩
      obtain ⟨touched, ht, he⟩ := Checked.bind_eq_ok.mp he
      cases touched with
      | true => exact .inr ⟨trivial, ht⟩
      | false =>
        cases he
        cases hwrites
    · rintro (h | ⟨-, ht⟩)
      · exact absurd h (by decide)
      · exact ⟨{ writes := true }, by rw [ht]; rfl, rfl⟩
  | atomicrmw | cmpxchg =>
    exact iff_of_true ⟨.both, by simp only [effect, hop, if_pos hstrong]; rfl, rfl⟩ (by simp)
  | fence => exact iff_of_true ⟨.both, by simp only [effect, hop]; rfl, rfl⟩ (by simp)
  | _ => exact absurd (hop ▸ hsync.1) (by decide)

theorem writtenIn_go_eq_false {place : Location} {ids : List Int}
    (h : Checked.Answers (writtenIn.go m place ids)) (hids : ∀ w ∈ ids, ¬ m.MayWrite place w) :
    writtenIn.go m place ids = .ok false := by
  induction ids with
  | nil => rfl
  | cons w ids ih =>
    obtain ⟨found, h⟩ := h
    rw [h]
    simp only [writtenIn.go, Checked.bind_eq_ok, Func.instr_eq_ok] at h
    obtain ⟨j, hj, e, he, h⟩ := h
    have hwrites : ¬ e.writes = true := fun hw =>
      hids w List.mem_cons_self ⟨j, e, hj, he, hw⟩
    rw [if_neg hwrites] at h
    rw [← h]
    exact ih ⟨found, h⟩ fun x hx => hids x (List.mem_cons_of_mem w hx)

theorem writtenIn_eq_false {place : Location} (h : Checked.Answers (m.writtenIn place region))
    (hregion : ∀ b ∈ region, ∀ w, m.func.Stands b w → ¬ m.MayWrite place w) :
    m.writtenIn place region = .ok false := by
  induction region with
  | nil => rfl
  | cons b region ih =>
    obtain ⟨found, h⟩ := h
    rw [h]
    simp only [writtenIn, Checked.bind_eq_ok, Func.block_eq_ok] at h
    obtain ⟨blk, hblk, here, hgo, h⟩ := h
    rw [writtenIn_go_eq_false ⟨here, hgo⟩ fun w hw =>
      hregion b List.mem_cons_self w ⟨blk, hblk, hw⟩] at hgo
    cases hgo
    rw [← h]
    exact ih ⟨found, h⟩ fun c hc => hregion c (List.mem_cons_of_mem b hc)

end Memory.Model

/-- A load that moves unless its place is written: it is neither checked nor ordered, and nothing else
says that what it reads stays the same. -/
def Memory.Model.LeavesToRegion (m : Memory.Model) (i : Instr) : Prop :=
  i.op = .load ∧ i.checked = false ∧ i.isUnordered = true ∧ i.access.invariant = false ∧
    ∃ addr, element i.operands 0 = .ok addr ∧ m.isImmutable addr = .ok false

theorem Memory.Model.leavesToRegion_of_verdict
    (h : verdict m.oracle region i = .ok .unmodifiedLoad) : m.LeavesToRegion i := by
  obtain ⟨hop, -⟩ := verdict_unmodified h
  obtain ⟨hchecked, -⟩ := verdict_movable h rfl
  rw [verdict_load hop hchecked] at h
  rcases loadVerdict_cases h with
    ⟨-, h⟩ | ⟨hu, addr, haddr, ⟨-, h⟩ | ⟨himm, ⟨-, h⟩ | ⟨hinv, -⟩⟩⟩
  · cases h
  · cases h
  · cases h
  · exact ⟨hop, hchecked, hu, hinv, addr, haddr, himm⟩

/-- The verdict on a load that may move is whether something in the region may write to its place.
-/
theorem verdict_unmodified_iff (h : m.Solid s)
    (hregion : ∀ b ∈ region, ∃ blk, m.func.block? b = some blk) (hi : m.func.instr? id = some i) :
    verdict m.oracle region i = .ok .unmodifiedLoad ↔ m.LeavesToRegion i ∧
      ∃ place, ReadsPlace m.func id place ∧
        ∀ b ∈ region, ∀ w, m.func.Stands b w → ¬ m.MayWrite place w := by
  constructor
  · intro hv
    obtain ⟨hop, addr, haddr, hquiet⟩ := verdict_unmodified hv
    refine ⟨Memory.Model.leavesToRegion_of_verdict hv, _, ⟨i, addr, hi, hop, haddr, rfl⟩,
      fun b hb w hw => ?_⟩
    rw [AliasOracle.modified, if_neg (List.ne_nil_of_mem hb)] at hquiet
    exact Memory.Model.not_mayWrite hquiet hb hw
  · rintro ⟨⟨hop, hchecked, hu, hinv, addr, haddr, himm⟩, place, ⟨j, addr', hj, -, haddr', rfl⟩,
      hquiet⟩
    cases hi.symm.trans hj
    cases haddr.symm.trans haddr'
    obtain ⟨r, hr⟩ := answers_verdict h hregion hi
    rw [hr]
    rw [verdict_load hop hchecked] at hr
    rcases loadVerdict_cases hr with
      ⟨hordered, -⟩ | ⟨-, a, ha, ⟨himm', -⟩ | ⟨-, ⟨hinv', -⟩ | ⟨-, modified, hm, rfl⟩⟩⟩
    · cases hu.symm.trans hordered
    · cases haddr.symm.trans ha
      cases himm.symm.trans himm'
    · cases hinv.symm.trans hinv'
    · cases haddr.symm.trans ha
      -- Asking about a region gives an answer, and where nothing in it may write that is no.
      have hfalse : m.oracle.modified ⟨addr, i.ty.storeSize.getD 0, i.access⟩ region = .ok false := by
        unfold AliasOracle.modified at hm ⊢
        split
        · rfl
        · next hne =>
          rw [if_neg hne] at hm
          exact Memory.Model.writtenIn_eq_false ⟨modified, hm⟩ hquiet
      cases hm.symm.trans hfalse
      rfl

theorem ReadsPlace.refers {load : Int} {place : Memory.Location} (h : m.Solid s)
    (hload : ReadsPlace m.func load place) : m.func.Refers s place.ptr := by
  obtain ⟨i, addr, hi, hop, haddr, rfl⟩ := hload
  have hc := h.func.complete load i hi
  simp only [Instr.Complete, hop] at hc
  obtain ⟨v, hv, -, hrefers⟩ := h.func.exists_operand hi (n := 0) (by omega)
  have hv : element i.operands 0 = .ok v := hv
  cases haddr.symm.trans hv
  exact hrefers

/-- The blocks between the ends of a link are there. -/
theorem Chain.LinkSound.exists_block {f : Func} {d : DomOracle} {dst src : Nat} {between : List Nat}
    (h : Chain.LinkSound f.graph d dst src between) :
    ∀ b ∈ between, ∃ blk, f.block? b = some blk := by
  intro b hb
  rw [h.between_eq] at hb
  have hlt := List.mem_range.mp (List.mem_of_mem_filter hb)
  rw [Func.graph_size] at hlt
  exact Func.exists_block_of_lt hlt

/-- Advice moves a load for want of writes between if and only if it leaves that to the blocks between
and no instruction there may write to its place. A synchronising instruction there counts as a write
to the place if it is an update or a fence, or a store that meets the place, and never if it is a load.
So no such load moves over a synchronising update or fence, but each may move over synchronising loads
and over synchronising stores to other places. -/
theorem unmodified_load_over_synchronising_iff {file : String} {text : Bytes} {p : Parsed} {f : Func}
    {report : Report} {r : Record} (hp : parse file text = .ok p) (he : p.errors = [])
    (hf : f ∈ p.module.funcs) (ha : advise (some p.module.symbols) f = .ok report)
    (hr : r ∈ report.records) :
    ∃ m, Memory.Model.of (some p.module.symbols) f = .ok m ∧
      (∀ load i, f.instr? load = some i →
        (verdict m.oracle r.between i = .ok .unmodifiedLoad ↔ m.LeavesToRegion i ∧
          ∃ place, ReadsPlace f load place ∧
            ∀ b ∈ r.between, ∀ w, f.Stands b w → ¬ m.MayWrite place w)) ∧
      (∀ place w i, f.instr? w = some i → i.Synchronises →
        (m.MayWrite place w ↔ i.op ∈ [Op.atomicrmw, .cmpxchg, .fence] ∨
          i.op = .store ∧ m.touches i place = .ok true)) ∧
      ∀ c ∈ r.candidates, c.reason = .unmodifiedLoad → ∃ place, ReadsPlace f c.instr place ∧
        ∀ b ∈ r.between, ∀ w i, f.Stands b w → f.instr? w = some i → i.Synchronises →
          i.op = .load ∨ i.op = .store ∧ m.touches i place = .ok false := by
  obtain ⟨m, hm, hsolid, rfl⟩ := Memory.exists_model ((read_of_parse hp he).funcs f hf).solid
  simp only [advise, Checked.bind_eq_ok] at ha
  obtain ⟨d, -, m', hm', ha⟩ := ha
  cases hm.symm.trans hm'
  obtain ⟨hlink, hcollect⟩ := analyze_spec ha r hr
  have hregion := hlink.exists_block
  refine ⟨m, hm, fun load i hi => verdict_unmodified_iff hsolid hregion hi,
    fun place w i hi hsync => Memory.Model.mayWrite_iff_of_synchronises hi hsync place,
    fun c hc hreason => ?_⟩
  obtain ⟨_, -, hcs⟩ := collect_spec hcollect
  obtain ⟨i, hi, hv, -⟩ := hcs.each c hc
  rw [hreason] at hv
  obtain ⟨-, place, hreads, hquiet⟩ := (verdict_unmodified_iff hsolid hregion hi).mp hv
  refine ⟨place, hreads, fun b hb w j hw hj hsync => ?_⟩
  have hno := mt (Memory.Model.mayWrite_iff_of_synchronises hj hsync place).mpr (hquiet b hb w hw)
  obtain ⟨touched, ht⟩ := Memory.Model.answers_touches hsolid (hreads.refers hsolid) hj
  have hkind := hsync.1
  simp only [List.mem_cons, List.not_mem_nil, or_false, not_or] at hno hkind
  obtain ⟨⟨hrmw, hcmpxchg, hfence⟩, hstore⟩ := hno
  rcases hkind with hop | hop | hop | hop | hop
  · exact .inl hop
  · cases touched with
    | true => exact absurd ⟨hop, ht⟩ hstore
    | false => exact .inr ⟨hop, ht⟩
  · exact absurd hop hrmw
  · exact absurd hop hcmpxchg
  · exact absurd hop hfence

/-- On one of two ways to the load a word is taken from elsewhere and put into a local place, both with
an order. -/
def handover.text : Bytes := Bytes.ofString
  ("func @f(%p: ptr, %q: ptr, %c: i1) -> i32 \x7b\na:\n  %r = alloca i32\n  condbr %c, b, d\nb:\n" ++
    "  %w = load atomic acquire i32, %q\n  store atomic release i32 %w, %r\n  br d\nd:\n" ++
    "  %v = load i32, %p\n  ret i32 %v\n\x7d\n")

def handover : Func where
  name := "f"
  params := [⟨"p", some .ptr⟩, ⟨"q", some .ptr⟩, ⟨"c", some .i1⟩]
  ret := .i32
  blocks := #[{ name := "a", instrs := [0, 1], succs := [1, 2] },
    { name := "b", instrs := [2, 3, 4], succs := [2], preds := [0] },
    { name := "d", instrs := [5, 6], preds := [0, 1] }]
  instrs := #[
    { home := some 0, name := "r", op := .alloca, ty := .ptr, elem := some .i32
      pos := ⟨3, 3⟩ },
    { home := some 0, op := .condbr, operands := [.arg 2], targets := [1, 2], pos := ⟨4, 3⟩ },
    { home := some 1, name := "w", op := .load, ty := .i32, operands := [.arg 1], elem := some .i32
      ordering := .acquire, pos := ⟨6, 3⟩ },
    { home := some 1, op := .store, operands := [.instr 2, .instr 0], elem := some .i32
      ordering := .release, pos := ⟨7, 3⟩ },
    { home := some 1, op := .br, targets := [2], pos := ⟨8, 3⟩ },
    { home := some 2, name := "v", op := .load, ty := .i32, operands := [.arg 0], elem := some .i32
      pos := ⟨10, 3⟩ },
    { home := some 2, op := .ret, operands := [.instr 5], pos := ⟨11, 3⟩ }]
  entry := some 0
  file := "f.mir"

def handover.record : Record := ⟨2, 0, [1], [⟨5, .unmodifiedLoad, 1⟩]⟩

def handover.report : Report := ⟨[⟨[0, 2], [[1]]⟩], [record]⟩

theorem handover.parsed : ∃ p, parse "f.mir" text = .ok p ∧ p.errors = [] ∧
    handover ∈ p.module.funcs ∧ p.module.symbols = {} := by
  have h : ((fun p => (p.module, p.errors.length)) <$> parse "f.mir" text) =
      .ok ({ name := "f", funcs := [handover] }, 0) := by
    decide +kernel
  obtain ⟨p, hp, he⟩ := Checked.map_eq_ok.mp h
  simp only [Prod.mk.injEq, List.length_eq_zero_iff] at he
  exact ⟨p, hp, he.2, by simp [he.1], by rw [he.1]⟩

theorem handover.advised : advise (some {}) handover = .ok report := by decide +kernel

/-- The store with an order does not meet the place of the load that moves over it. -/
theorem handover_store_apart : ∃ m place i, Memory.Model.of (some {}) handover = .ok m ∧
    ReadsPlace handover 5 place ∧ handover.instr? 3 = some i ∧ i.Synchronises ∧
      m.touches i place = .ok false := by
  obtain ⟨p, hp, he, hf, hsymbols⟩ := handover.parsed
  obtain ⟨m, hm, -, -, hall⟩ := unmodified_load_over_synchronising_iff hp he hf
    (hsymbols ▸ handover.advised) (List.mem_singleton.mpr rfl)
  obtain ⟨place, hreads, hapart⟩ := hall _ (List.mem_singleton.mpr rfl) rfl
  have hstands : handover.Stands (1 : Nat) 3 := ⟨_, rfl, by decide⟩
  obtain ⟨i, hi, hsync, hop⟩ : ∃ i, handover.instr? 3 = some i ∧ i.Synchronises ∧ i.op = .store :=
    ⟨_, rfl, by decide, rfl⟩
  obtain h | ⟨-, h⟩ := hapart 1 (List.mem_singleton.mpr rfl) 3 i hstands hi hsync
  · cases hop.symm.trans h
  · exact ⟨m, place, i, hsymbols ▸ hm, hreads, hi, hsync, h⟩

/-- Advice moves a load over another one that acquires, and over a store that releases. -/
theorem load_moved_over_acquire_and_release :
    ∃ p report r c, parse "f.mir" handover.text = .ok p ∧ p.errors = [] ∧
      handover ∈ p.module.funcs ∧ advise (some p.module.symbols) handover = .ok report ∧
      r ∈ report.records ∧ c ∈ r.candidates ∧ c.reason = .unmodifiedLoad ∧
      ∃ b ∈ r.between,
        handover.Stands b 2 ∧ (∃ i, handover.instr? 2 = some i ∧ i.op = .load ∧ i.Synchronises) ∧
        handover.Stands b 3 ∧ ∃ i, handover.instr? 3 = some i ∧ i.op = .store ∧ i.Synchronises := by
  obtain ⟨p, hp, he, hf, hsymbols⟩ := handover.parsed
  have hload : ∃ i, handover.instr? 2 = some i ∧ i.op = .load ∧ i.Synchronises :=
    ⟨_, rfl, rfl, by decide⟩
  have hstore : ∃ i, handover.instr? 3 = some i ∧ i.op = .store ∧ i.Synchronises :=
    ⟨_, rfl, rfl, by decide⟩
  exact ⟨p, handover.report, handover.record, ⟨5, .unmodifiedLoad, 1⟩, hp, he, hf,
    hsymbols ▸ handover.advised, List.mem_singleton.mpr rfl, List.mem_singleton.mpr rfl, rfl,
    1, List.mem_singleton.mpr rfl, ⟨_, rfl, by decide⟩, hload, ⟨_, rfl, by decide⟩, hstore⟩

end RegPressure
