import RegPressure.Proofs.Advice.Records
import RegPressure.Proofs.Asm.Accepted
import RegPressure.Proofs.Graph.Region

namespace RegPressure

section Between

variable {g : Digraph} {a b x : Nat}

def OnDetour (g : Digraph) (a b x : Nat) : Prop :=
  ∃ l, Walk g.succ b b l ∧ a ∉ l ∧ x ∈ l.tail

/-- Whatever is left on the way from `a` to `b` lies between them or on a way round. -/
theorem between_or_onDetour (hg : g.Mirrored) (ha : a < g.size) (hb : b < g.size) (hab : a ≠ b)
    {s : Nat} (hs : s ∈ g.succ a) {l : List Nat} (w : Walk g.succ s b l) (hl : a ∉ l)
    (hx : x ∈ l.tail) : x ∈ g.between a b ∨ OnDetour g a b x := by
  cases w with
  | here => simp at hx
  | @step c _ l w hc =>
    rw [List.tail_cons] at hx
    have hal : a ∉ l := fun h => hl (List.mem_cons_of_mem _ h)
    obtain ⟨k, hk, v⟩ := w.upTo hx
    obtain ⟨m, hm, u, _⟩ := w.onwards hx
    by_cases hbk : b ∈ k
    · -- The way has passed `b` before it meets `x`.
      obtain ⟨j, hj, t, _⟩ := v.onwards hbk
      obtain ⟨n, hn, hmem⟩ := t.append u
      refine .inr ⟨b :: n, hn.step hc, ?_, (hmem x).mpr (.inl t.end_mem)⟩
      intro hmem'
      rcases List.mem_cons.mp hmem' with e | hmem'
      · exact hab e
      · rcases (hmem a).mp hmem' with h | h
        · exact hal (hk.subset (hj h))
        · exact hal (hm h)
    · left
      refine (mem_between hg ha hb hab).mpr ⟨?_, ?_, ?_, b :: m, u.step hc, ?_⟩
      · rintro rfl
        exact hal hx
      · rintro rfl
        exact hbk v.end_mem
      · obtain ⟨n, hn, hmem⟩ := v.behind hs
        exact ⟨n, hn, fun h => ((hmem b).mp h).elim (Ne.symm hab) hbk⟩
      · intro hmem
        rcases List.mem_cons.mp hmem with e | hmem
        · exact hab e
        · exact hal (hm hmem)

end Between

/-- The instruction may write to the place. -/
def Memory.Model.MayWrite (m : Memory.Model) (place : Memory.Location) (w : Int) : Prop :=
  ∃ i e, m.func.instr? w = some i ∧ m.effect i place = .ok e ∧ e.writes = true

theorem Memory.Model.not_mayWrite_of_go {m : Memory.Model} {place : Memory.Location} {ids : List Int}
    (h : writtenIn.go m place ids = .ok false) : ∀ w ∈ ids, ¬ m.MayWrite place w := by
  induction ids with
  | nil => simp
  | cons id ids ih =>
    simp only [writtenIn.go, Checked.bind_eq_ok, Func.instr_eq_ok] at h
    obtain ⟨i, hi, e, he, h⟩ := h
    split at h
    · cases h
    · next hwrites =>
      intro w hw
      rcases List.mem_cons.mp hw with rfl | hw
      · rintro ⟨j, e', hj, he', hwrites'⟩
        rw [hi] at hj
        cases hj
        rw [he] at he'
        cases he'
        exact hwrites hwrites'
      · exact ih h w hw

theorem Memory.Model.not_mayWrite {m : Memory.Model} {place : Memory.Location} {region : List Nat}
    (h : m.writtenIn place region = .ok false) {b : Nat} (hb : b ∈ region) {w : Int}
    (hw : m.func.Stands b w) : ¬ m.MayWrite place w := by
  induction region with
  | nil => simp at hb
  | cons c region ih =>
    simp only [writtenIn, Checked.bind_eq_ok, Func.block_eq_ok] at h
    obtain ⟨blk, hblk, found, hgo, h⟩ := h
    cases found with
    | true => cases h
    | false =>
      rcases List.mem_cons.mp hb with rfl | hb
      · obtain ⟨blk', hblk', hw⟩ := hw
        rw [hblk] at hblk'
        cases hblk'
        exact not_mayWrite_of_go hgo w hw
      · exact ih h hb

/-- The place that a load reads. -/
def ReadsPlace (f : Func) (load : Int) (place : Memory.Location) : Prop :=
  ∃ i addr, f.instr? load = some i ∧ i.op = .load ∧ element i.operands 0 = .ok addr ∧
    place = ⟨addr, i.ty.storeSize.getD 0, i.access⟩

/-- On some way from the end of `dst` to the load in `src` instruction `w` runs, and `dst` is not
passed again. -/
def RunsBetween (f : Func) (dst src : Nat) (load w : Int) : Prop :=
  ∃ s l, s ∈ f.graph.succ dst ∧ Walk f.graph.succ s src l ∧ dst ∉ l ∧
    ((∃ b ∈ l.tail, f.Stands b w) ∨ [w, load].Sublist (f.bodyOf src))

/-- Nothing that may write to the place comes before the load in `src` or stands on a way round
from `src` to `src`. -/
structure QuietSource (m : Memory.Model) (f : Func) (dst src : Nat) (load : Int)
    (place : Memory.Location) : Prop where
  before : ∀ w, [w, load].Sublist (f.bodyOf src) → ¬ m.MayWrite place w
  around : ∀ b w, OnDetour f.graph dst src b → f.Stands b w → ¬ m.MayWrite place w

theorem quietSource_iff {scope : Option Symbols} {f : Func} {m : Memory.Model} {d : DomOracle}
    {dst src : Nat} {between : List Nat} {load : Int} {place : Memory.Location}
    (hwf : f.WellFormed scope) (hm : m.func = f)
    (hlink : Chain.LinkSound f.graph d dst src between)
    (hquiet : m.oracle.modified place between = .ok false) :
    (∀ w, RunsBetween f dst src load w → ¬ m.MayWrite place w) ↔
      QuietSource m f dst src load place := by
  have hg := hwf.mirrored
  have hsrc : src < f.graph.size := hg.succ_lt dst src hlink.succ
  have hdst : dst < f.graph.size := hg.pred_lt src dst ((hg.mem_pred dst src).mpr hlink.succ)
  constructor
  · intro h
    refine ⟨fun w hw => h w ?_, fun b w hb hw => h w ?_⟩
    · exact ⟨src, [src], hlink.succ, .here, by simpa using hlink.ne, .inr hw⟩
    · obtain ⟨l, hl, hnot, hbl⟩ := hb
      exact ⟨src, l, hlink.succ, hl, hnot, .inl ⟨b, hbl, hw⟩⟩
  · rintro ⟨hbefore, haround⟩ w ⟨s, l, hs, hl, hnot, ⟨b, hb, hw⟩ | hw⟩
    · rcases between_or_onDetour hg hdst hsrc hlink.ne hs hl hnot hb with hbetween | hdetour
      · rw [← hlink.between_eq] at hbetween
        have hne : between ≠ [] := List.ne_nil_of_mem hbetween
        rw [AliasOracle.modified, if_neg hne] at hquiet
        exact Memory.Model.not_mayWrite hquiet hbetween (hm ▸ hw)
      · exact haround b w hdetour hw
    · exact hbefore w hw

/-- A load that advice moves because nothing between writes to its place is not passed by a write
exactly if its own block and the ways round to it are quiet. -/
theorem unmodified_load_unwritten_iff {file : String} {text : Bytes} {p : Parsed} {f : Func}
    {report : Report} {r : Record} {c : Candidate} (hp : parse file text = .ok p)
    (he : p.errors = []) (hf : f ∈ p.module.funcs)
    (ha : advise (some p.module.symbols) f = .ok report) (hr : r ∈ report.records)
    (hc : c ∈ r.candidates) (hreason : c.reason = .unmodifiedLoad) :
    ∃ m place, Memory.Model.of (some p.module.symbols) f = .ok m ∧ ReadsPlace f c.instr place ∧
      ((∀ w, RunsBetween f r.dst r.src c.instr w → ¬ m.MayWrite place w) ↔
        QuietSource m f r.dst r.src c.instr place) := by
  have hwf := wellFormed_of_parse hp he f hf
  simp only [advise, Checked.bind_eq_ok] at ha
  obtain ⟨d, _, m, hm, ha⟩ := ha
  have hfunc : m.func = f := by
    simp only [Memory.Model.of, Checked.bind_eq_ok, Checked.pure_eq_ok] at hm
    obtain ⟨_, _, rfl⟩ := hm
    rfl
  obtain ⟨hlink, hcollect⟩ := analyze_spec ha r hr
  obtain ⟨blk, _, hcs⟩ := collect_spec hcollect
  obtain ⟨i, hi, hv, _⟩ := hcs.each c hc
  rw [hreason] at hv
  obtain ⟨hop, addr, haddr, hquiet⟩ := verdict_unmodified hv
  exact ⟨m, _, hm, ⟨i, addr, hi, hop, haddr, rfl⟩, quietSource_iff hwf hfunc hlink hquiet⟩

/-- A block writes to a place and then reads it. -/
def storeThenLoad.text : Bytes := Bytes.ofString
  ("func @f(%p: ptr) -> i32 \x7b\na:\n  br b\nb:\n  store i32 1, %p\n  %v = load i32, %p\n" ++
    "  ret i32 %v\n\x7d\n")

def storeThenLoad : Func where
  name := "f"
  params := [⟨"p", some .ptr⟩]
  ret := .i32
  blocks := #[{ name := "a", instrs := [0], succs := [1] },
    { name := "b", instrs := [1, 2, 3], preds := [0] }]
  instrs := #[{ home := some 0, op := .br, targets := [1], pos := ⟨3, 3⟩ },
    { home := some 1, op := .store, operands := [.int (some .i32) 1, .arg 0], elem := some .i32
      pos := ⟨5, 3⟩ },
    { home := some 1, name := "v", op := .load, ty := .i32, operands := [.arg 0], elem := some .i32
      pos := ⟨6, 3⟩ },
    { home := some 1, op := .ret, operands := [.instr 2], pos := ⟨7, 3⟩ }]
  entry := some 0
  file := "f.mir"

def storeThenLoad.report : Report :=
  ⟨[⟨[0, 1], [[]]⟩], [⟨1, 0, [], [⟨2, .unmodifiedLoad, 1⟩]⟩]⟩

theorem storeThenLoad.parsed : ∃ p, parse "f.mir" text = .ok p ∧ p.errors = [] ∧
    storeThenLoad ∈ p.module.funcs ∧ p.module.symbols = {} := by
  have h : ((fun p => (p.module, p.errors.length)) <$> parse "f.mir" text) =
      .ok ({ name := "f", funcs := [storeThenLoad] }, 0) := by
    decide +kernel
  obtain ⟨p, hp, he⟩ := Checked.map_eq_ok.mp h
  simp only [Prod.mk.injEq, List.length_eq_zero_iff] at he
  exact ⟨p, hp, he.2, by simp [he.1], by rw [he.1]⟩

theorem storeThenLoad.advised : advise (some {}) storeThenLoad = .ok report := by decide +kernel

/-- The load of this text is not quiet, and it moves all the same. -/
theorem storeThenLoad_unwritten_iff :
    ∃ m place, Memory.Model.of (some {}) storeThenLoad = .ok m ∧ ReadsPlace storeThenLoad 2 place ∧
      ((∀ w, RunsBetween storeThenLoad 0 1 2 w → ¬ m.MayWrite place w) ↔
        QuietSource m storeThenLoad 0 1 2 place) := by
  obtain ⟨p, hp, he, hf, hsymbols⟩ := storeThenLoad.parsed
  have h := unmodified_load_unwritten_iff hp he hf (hsymbols ▸ storeThenLoad.advised)
    (List.mem_singleton.mpr rfl) (List.mem_singleton.mpr rfl) rfl
  rwa [hsymbols] at h

/-- Advice moves a load over a store to the same place. -/
theorem store_before_load_not_vetoed :
    ∃ p report r c m place w, parse "f.mir" storeThenLoad.text = .ok p ∧ p.errors = [] ∧
      storeThenLoad ∈ p.module.funcs ∧ advise (some p.module.symbols) storeThenLoad = .ok report ∧
      r ∈ report.records ∧ c ∈ r.candidates ∧ c.reason = .unmodifiedLoad ∧
      Memory.Model.of (some p.module.symbols) storeThenLoad = .ok m ∧
      ReadsPlace storeThenLoad c.instr place ∧ RunsBetween storeThenLoad r.dst r.src c.instr w ∧
      m.MayWrite place w := by
  obtain ⟨p, hp, he, hf, hsymbols⟩ := storeThenLoad.parsed
  refine ⟨p, storeThenLoad.report, ⟨1, 0, [], [⟨2, .unmodifiedLoad, 1⟩]⟩, ⟨2, .unmodifiedLoad, 1⟩,
    ⟨some {}, storeThenLoad, []⟩, ⟨.arg 0, 4, {}⟩, 1, hp, he, hf,
    hsymbols ▸ storeThenLoad.advised, List.mem_singleton.mpr rfl, List.mem_singleton.mpr rfl, rfl,
    ?_, ?_, ?_, ?_⟩
  · rw [hsymbols]
    rfl
  · exact ⟨_, .arg 0, rfl, rfl, rfl, by decide +kernel⟩
  · exact ⟨1, [1], by decide +kernel, .here, by decide, .inr (by decide +kernel)⟩
  · exact ⟨_, { writes := true }, rfl, by decide +kernel, rfl⟩

end RegPressure
