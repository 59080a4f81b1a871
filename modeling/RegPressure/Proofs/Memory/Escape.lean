import RegPressure.Proofs.IR.Verified
import RegPressure.Proofs.Memory.Symmetry

namespace RegPressure.Memory

open Checked

variable {scope : Option Symbols} {f : Func} {m : Model} {r p u : Int} {i j : Instr}
  {users : Array (List Int)}

inductive Carried (f : Func) (r : Int) : Int → Prop
  | root : Carried f r r
  | use {p u : Int} {i : Instr} : Carried f r p → u ∈ f.users p → f.instr? u = some i →
      i.op ∈ [.gep, .bitcast, .phi, .select] → Carried f r u

def KeepsInside (f : Func) (r p u : Int) : Prop := ∃ i, f.instr? u = some i ∧
  (i.op = .load ∨ i.op = .icmp ∨ (Carried f r u ∧ u ≠ r) ∨
    (i.op = .store ∧ i.operands.head? ≠ some (.instr p)))

/-- No use of the address, or of one that is made from it, lets others learn it. -/
def StaysInside (f : Func) (r : Int) : Prop :=
  ∀ p, Carried f r p → ∀ u ∈ f.users p, KeepsInside f r p u

theorem derives_iff {op : Op} : derives op = true ↔ op ∈ [.gep, .bitcast, .phi, .select] := by
  have hmem : derives op = decide (op ∈ [.gep, .bitcast, .phi, .select]) := by cases op <;> rfl
  rw [hmem, decide_eq_true_iff]

theorem leaks_iff : leaks i p = false ↔ i.op = .load ∨ i.op = .icmp ∨ derives i.op = true ∨
    (i.op = .store ∧ i.operands.head? ≠ some (.instr p)) := by
  unfold leaks
  split
  · next hop => simp [hop]
  · next hop => simp [hop]
  · next hop => simp [hop, derives]
  · next hload hicmp hstore =>
    rw [or_iff_right hload, or_iff_right hicmp, or_iff_left fun h => hstore h.1]
    simp

theorem Carried.derives (h : Carried f r p) (hne : p ≠ r) (hi : f.instr? p = some i) :
    derives i.op = true := by
  cases h with
  | root => exact absurd rfl hne
  | use _ _ hj hop =>
    cases hi.symm.trans hj
    exact derives_iff.mpr hop

theorem Carried.nonneg (h : Carried f r p) (hr : 0 ≤ r) : 0 ≤ p := by
  cases h with
  | root => exact hr
  | use _ _ hi => exact (Func.lt_of_instr? hi).1

theorem keepsInside_iff (hr : f.instr? r = some j) (hop : j.op = .alloca) (hp : Carried f r p)
    (hu : u ∈ f.users p) (hi : f.instr? u = some i) : KeepsInside f r p u ↔ leaks i p = false := by
  rw [leaks_iff]
  constructor
  · intro h
    obtain ⟨i', hi', h⟩ := h
    cases hi.symm.trans hi'
    exact h.imp_right (Or.imp_right (Or.imp_left fun hc => hc.1.derives hc.2 hi))
  · intro h
    refine ⟨i, hi, h.imp_right (Or.imp_right (Or.imp_left fun hd => ?_))⟩
    refine ⟨hp.use hu hi (derives_iff.mp hd), fun he => ?_⟩
    subst he
    cases hr.symm.trans hi
    rw [hop] at hd
    cases hd

def instrAt (f : Func) (u : Nat) : Instr := f.instrs.getD u { op := .invalid }

def carriers (f : Func) (p : Nat) : List Nat :=
  ((f.users p).map Int.toNat).filter fun u => derives (instrAt f u).op

def isLeaked (f : Func) (p : Nat) : Bool :=
  ((f.users p).map Int.toNat).any fun u => leaks (instrAt f u) p

theorem instrAt_eq (h : f.instr? u = some i) : instrAt f u.toNat = i := by
  obtain ⟨hpos, hlt⟩ := Func.lt_of_instr? h
  rw [Func.instr?, if_neg (by omega)] at h
  rw [instrAt, Array.getD_eq_getD_getElem?, h]
  rfl

theorem mem_carriers {a b : Nat} : b ∈ carriers f a ↔
    (b : Int) ∈ f.users a ∧ ∃ i, f.instr? b = some i ∧ derives i.op = true := by
  simp only [carriers, List.mem_filter, List.mem_map]
  constructor
  · intro h
    obtain ⟨⟨u, hu, rfl⟩, hop⟩ := h
    obtain ⟨i, hi, -⟩ := Func.mem_users.mp hu
    rw [instrAt_eq hi] at hop
    rw [Int.toNat_of_nonneg (Func.lt_of_instr? hi).1]
    exact ⟨hu, i, hi, hop⟩
  · intro h
    obtain ⟨hb, i, hi, hop⟩ := h
    refine ⟨⟨b, hb, Int.toNat_natCast b⟩, ?_⟩
    have hat := instrAt_eq hi
    rw [Int.toNat_natCast] at hat
    rwa [hat]

theorem carriers_lt {a b : Nat} (h : b ∈ carriers f a) : b < f.instrs.size := by
  obtain ⟨-, i, hi, -⟩ := mem_carriers.mp h
  exact Int.ofNat_lt.mp (Func.lt_of_instr? hi).2

theorem reaches_carriers_iff {a b : Nat} :
    Reaches (carriers f) a b ↔ Carried f a b := by
  constructor
  · intro h
    obtain ⟨l, w⟩ := h
    induction w with
    | here => exact .root
    | step _ hc ih =>
      obtain ⟨hu, i, hi, hop⟩ := mem_carriers.mp hc
      exact ih.use hu hi (derives_iff.mp hop)
  · intro h
    generalize hp : (b : Int) = p at h
    induction h generalizing b with
    | root =>
      obtain rfl := Int.ofNat.inj hp
      exact .refl _ _
    | @use q u i hq hu hi hop ih =>
      subst hp
      obtain ⟨c, rfl⟩ := Int.eq_ofNat_of_zero_le (hq.nonneg (Int.natCast_nonneg a))
      exact (ih rfl).step (mem_carriers.mpr ⟨hu, i, hi, derives_iff.mpr hop⟩)

theorem getD_userMap (h : f.userMap = .ok users) (a : Nat) : users.getD a [] = f.users a := by
  have hnoted := Func.noted_of_userMap h
  rw [Array.getD_eq_getD_getElem?]
  by_cases ha : a < f.instrs.size
  · rw [hnoted.getElem? a ha]
    rfl
  · have hnone : f.users a = [] := by
      refine List.eq_nil_iff_forall_not_mem.mpr fun u hu => ha ?_
      obtain ⟨i, hi, hlive, hmem⟩ := Func.mem_users.mp hu
      have hused := Func.answers_userMap_iff.mp ⟨users, h⟩ u i hi hlive a hmem
      obtain ⟨d, hd, -⟩ := Func.isLive_iff.mp hused
      exact Int.ofNat_lt.mp (Func.lt_of_instr? hd).2
    rw [Array.getElem?_eq_none (by rw [hnoted.size]; omega), hnone]
    rfl

theorem escapedAllocas_eq (h : f.userMap = .ok users) : escapedAllocas f =
    .ok ((((List.range f.instrs.size).filter fun r =>
        !(instrAt f r).isErased && (instrAt f r).op = .alloca).filter fun r =>
      (Digraph.visit (carriers f) f.instrs.size {} r).seen.any (isLeaked f)).map Int.ofNat) := by
  simp only [escapedAllocas, h, ok_bind, getD_userMap h]
  rfl

theorem isLeaked_iff {a : Nat} : isLeaked f a = false ↔
    ∀ u ∈ f.users a, ∀ i, f.instr? u = some i → leaks i a = false := by
  simp only [isLeaked, List.any_map, List.any_eq_false, Bool.not_eq_true, Function.comp_apply]
  constructor
  · intro h u hu i hi
    rw [← instrAt_eq hi]
    exact h u hu
  · intro h u hu
    obtain ⟨i, hi, -⟩ := Func.mem_users.mp hu
    rw [instrAt_eq hi]
    exact h u hu i hi

theorem of_eq_ok (h : Model.of scope f = .ok m) :
    (∃ users, f.userMap = .ok users) ∧ ∃ ids, escapedAllocas f = .ok ids ∧ m = ⟨scope, f, ids⟩ := by
  simp only [Model.of, bind_eq_ok, pure_eq_ok] at h
  obtain ⟨ids, hids, rfl⟩ := h
  refine ⟨?_, ids, hids, rfl⟩
  simp only [escapedAllocas, bind_eq_ok] at hids
  obtain ⟨users, husers, -⟩ := hids
  exact ⟨users, husers⟩

theorem answers_of_iff : Answers (Model.of scope f) ↔ ∀ u i, f.instr? u = some i →
    i.isErased = false → ∀ d, .instr d ∈ i.operands → f.isLive d = true := by
  rw [← Func.answers_userMap_iff]
  constructor
  · intro h
    obtain ⟨m, hm⟩ := h
    exact (of_eq_ok hm).1
  · intro h
    obtain ⟨users, husers⟩ := h
    exact ⟨⟨scope, f, _⟩, by rw [Model.of, escapedAllocas_eq husers]; rfl⟩

theorem contains_escaped_iff (hm : Model.of scope f = .ok m) (hr : f.instr? r = some j)
    (hlive : j.isErased = false) (hop : j.op = .alloca) :
    m.escaped.contains r = false ↔ StaysInside f r := by
  obtain ⟨⟨users, husers⟩, ids, hids, rfl⟩ := of_eq_ok hm
  obtain ⟨hpos, hlt⟩ := Func.lt_of_instr? hr
  obtain ⟨a, rfl⟩ := Int.eq_ofNat_of_zero_le hpos
  have hat : instrAt f a = j := instrAt_eq hr
  have hmem : (a : Int) ∈ ids ↔
      ∃ b ∈ (Digraph.visit (carriers f) f.instrs.size {} a).seen, isLeaked f b = true := by
    rw [escapedAllocas_eq husers, Except.ok.injEq] at hids
    subst hids
    have hlt : a < f.instrs.size := Int.ofNat_lt.mp hlt
    simp [hat, hlive, hop, hlt]
  have hseen : ∀ b, b ∈ (Digraph.visit (carriers f) f.instrs.size {} a).seen ↔ Carried f a b := by
    intro b
    rw [Digraph.mem_visit (fun _ _ => carriers_lt) (Int.ofNat_lt.mp hlt), reaches_carriers_iff]
  simp only [Bool.eq_false_iff, Ne, List.contains_iff_mem, hmem, hseen, not_exists, not_and]
  simp only [← Ne.eq_def, ← Bool.eq_false_iff, isLeaked_iff]
  constructor
  · intro h p hp u hu
    obtain ⟨b, rfl⟩ := Int.eq_ofNat_of_zero_le (hp.nonneg hpos)
    obtain ⟨i, hi, -⟩ := Func.mem_users.mp hu
    exact (keepsInside_iff hr hop hp hu hi).mpr (h b hp u hu i hi)
  · intro h b hb u hu i hi
    exact (keepsInside_iff hr hop hb hu hi).mp (h b hb u hu)

/-- Taking the address apart leads to this object. -/
def BasedOn (f : Func) (v root : Value) : Prop := ∃ b, decompose f v = .ok b ∧ b.object = root

theorem LeadsTo.basedOn {root v : Value} {ids : List Int} (hroot : IsRoot f root)
    (h : LeadsTo f root v ids) : BasedOn f v root := by
  obtain ⟨off, hoff, -⟩ := h.decompose_eq hroot
  exact ⟨_, hoff, rfl⟩

/-- What no pointer to the local object `r` can be, as long as the address of `r` stays inside. -/
def IsForeign (f : Func) (r : Int) : Value → Prop
  | .arg _ | .global _ | .str _ => True
  | .instr id => id ≠ r ∧ ∃ i, f.instr? id = some i ∧ i.op ≠ .phi ∧ i.op ≠ .select
  | _ => False

theorem sameAs_foreign {v : Value} (hv : IsForeign f r v) : (Value.instr r).sameAs v = false := by
  cases v with
  | instr id => exact beq_eq_false_iff_ne.mpr (Ne.symm hv.1)
  | _ => rfl

theorem isPrivateFrom_foreign {v : Value} (hescaped : m.escaped.contains r = false)
    (hv : IsForeign m.func r v) :
    ∃ o, origin m.func v = .ok o ∧ m.isPrivateFrom r v o = .ok true := by
  have hnot : r ∉ m.escaped := by simpa using hescaped
  cases v with
  | arg n => exact ⟨.arg, rfl, rfl⟩
  | str s => exact ⟨.string, rfl, rfl⟩
  | global n => exact ⟨.global, rfl, by simp [Model.isPrivateFrom, hnot]⟩
  | instr id =>
    obtain ⟨-, i, hi, hphi, hselect⟩ := hv
    refine ⟨if i.op = .alloca then .alloca id else .unknown, ?_, ?_⟩
    · rw [origin, Func.instr_eq_ok.mpr hi, ok_bind]
      rfl
    · by_cases hop : i.op = .alloca
      · simp [Model.isPrivateFrom, hnot, Func.instr_eq_ok.mpr hi, hop]
      · simp [Model.isPrivateFrom, hnot, Func.instr_eq_ok.mpr hi, hop, hphi, hselect]
  | _ => exact hv.elim

theorem overlap_foreign {a b : Location} {v : Value} (hr : m.func.instr? r = some j)
    (hop : j.op = .alloca) (hescaped : m.escaped.contains r = false)
    (ha : BasedOn m.func a.ptr (.instr r)) (hb : BasedOn m.func b.ptr v)
    (hv : IsForeign m.func r v) : m.overlap a b = .ok .none ∧ m.overlap b a = .ok .none := by
  obtain ⟨ba, hba, ha⟩ := ha
  obtain ⟨bb, hbb, rfl⟩ := hb
  have hsame := sameAs_foreign hv
  rw [← ha] at hsame
  have horigin : origin m.func ba.object = .ok (.alloca r) := by
    simp [ha, origin, Func.instr_eq_ok.mpr hr, hop]
  obtain ⟨o, ho, hprivate⟩ := isPrivateFrom_foreign hescaped hv
  have hrefers : m.func.Refers {} ba.object := ha ▸ ⟨j, hr⟩
  obtain ⟨q, hq⟩ := answers_keepsOff o hrefers (.alloca r)
  cases hmeta : metaApart a.access b.access with
  | true =>
    have hmeta' := metaApart_comm a.access b.access ▸ hmeta
    exact ⟨by simp [Model.overlap, hmeta], by simp [Model.overlap, hmeta']⟩
  | false =>
    have hmeta' := metaApart_comm a.access b.access ▸ hmeta
    have hsame' := sameAs_comm ba.object bb.object ▸ hsame
    constructor
    · rw [overlap_of_not_sameAs hmeta hba hbb hsame horigin ho hprivate hq]
      simp
    · rw [overlap_of_not_sameAs hmeta' hbb hba hsame' ho horigin hq hprivate]
      simp

theorem effect_call {loc : Location} (hr : m.func.instr? r = some j) (hop : j.op = .alloca)
    (hescaped : m.escaped.contains r = false) (hcall : i.op = .call)
    (hloc : BasedOn m.func loc.ptr (.instr r)) : m.effect i loc = .ok {} := by
  obtain ⟨b, hb, hobject⟩ := hloc
  have horigin : origin m.func b.object = .ok (.alloca r) := by
    simp [hobject, origin, Func.instr_eq_ok.mpr hr, hop]
  have hcallee : m.effect i loc = m.callEffect i loc := by simp [Model.effect, hcall]
  rw [hcallee, Model.callEffect]
  -- Whether the callee is known to be harmless no longer matters.
  simp only [hb, horigin, ok_bind, hescaped, Bool.not_false, if_true]
  exact ite_self _

/-- Escapes can be told for every function whose uses are all of instructions that are there, such as
one that the check accepts. A live local object is then not marked if and only if each use of its
address, and of all that is made from it, is a load, a comparison, a store to it, or makes another
address from it. In that case no call affects it, and it overlaps with nothing foreign. -/
theorem escaped_iff_leaks (scope : Option Symbols) (f : Func) :
    (Answers (Model.of scope f) ↔ ∀ u i, f.instr? u = some i → i.isErased = false →
      ∀ d, .instr d ∈ i.operands → f.isLive d = true) ∧
    (f.Arena → f.verify scope = .ok [] → Answers (Model.of scope f)) ∧
    ∀ m, Model.of scope f = .ok m → ∀ r j, f.instr? r = some j → j.isErased = false →
      j.op = .alloca →
      (m.escaped.contains r = false ↔ StaysInside f r) ∧
      (m.escaped.contains r = false →
        (∀ call loc, call.op = .call → BasedOn f loc.ptr (.instr r) →
          m.effect call loc = .ok {}) ∧
        ∀ a b v, BasedOn f a.ptr (.instr r) → BasedOn f b.ptr v → IsForeign f r v →
          m.overlap a b = .ok .none ∧ m.overlap b a = .ok .none) := by
  -- Working out what escapes faults on dangling operands only, and a checked function has none.
  refine ⟨answers_of_iff, fun hf hv => answers_of_iff.mpr fun u i hi hlive d hd => ?_,
    fun m hm r j hr hlive hop => ⟨contains_escaped_iff hm hr hlive hop, fun hescaped => ?_⟩⟩
  · obtain ⟨b, blk, hblk, hmem⟩ := hf.exists_block hi hlive
    obtain ⟨i', hi', -, hrefs⟩ := ((Func.verify_eq_nil.mp hv).block b blk hblk).body.member u hmem
    cases hi.symm.trans hi'
    exact hrefs.operands _ hd
  · obtain ⟨-, ids, -, rfl⟩ := of_eq_ok hm
    constructor
    · intro call loc hcall hloc
      exact effect_call hr hop hescaped hcall hloc
    · intro a b v ha hb hv
      exact overlap_foreign hr hop hescaped ha hb hv

def turned : Func :=
  Func.after { name := "turned", params := [⟨"c", some .i1⟩, ⟨"p", some .ptr⟩] } [.addBlock "a",
    .append 0 { op := .alloca, ty := .ptr, elem := some .i64 },
    .append 0 { op := .select, ty := .ptr, operands := [.arg 0, .instr 0, .instr 2] },
    .append 0 { op := .gep, ty := .ptr, elem := some .i8,
                operands := [.instr 1, .int (some .i64) 1] },
    .append 0 { op := .store, operands := [.int (some .i8) 7, .instr 2] },
    .append 0 { op := .call, callee := "g", operands := [.arg 1] },
    .append 0 { op := .gep, ty := .ptr, elem := some .i8,
                operands := [.instr 0, .int (some .i64) 4] },
    .append 0 { op := .ret }]

theorem turned_stays_inside : turned.Arena ∧ turned.verify none = .ok [] ∧
    StaysInside turned 0 ∧ ∃ m, Model.of none turned = .ok m ∧ m.escaped.contains 0 = false ∧
      m.effect { op := .call, callee := "g", operands := [.arg 1] } ⟨.instr 5, 4, {}⟩ = .ok {} ∧
      m.overlap ⟨.instr 5, 4, {}⟩ ⟨.arg 1, 8, {}⟩ = .ok .none := by
  have hf : turned.Arena := (Func.after_keeps (Func.Arena.empty ..) _).1
  have hv : turned.verify none = .ok [] := by decide +kernel
  obtain ⟨-, hanswers, hall⟩ := escaped_iff_leaks none turned
  obtain ⟨m, hm⟩ := hanswers hf hv
  have hescaped : m.escaped.contains 0 = false := by
    obtain ⟨-, ids, hids, rfl⟩ := of_eq_ok hm
    have hnone : escapedAllocas turned = .ok [] := by decide +kernel
    cases hids.symm.trans hnone
    rfl
  obtain ⟨hiff, hapart⟩ := hall m hm 0 _ rfl rfl rfl
  obtain ⟨hcall, hoverlap⟩ := hapart hescaped
  have hroot : IsRoot turned (.instr 0) := by
    rintro _ ⟨⟩
    exact ⟨_, rfl, by decide, by decide⟩
  have hlocal : BasedOn turned (.instr 5) (.instr 0) :=
    LeadsTo.basedOn hroot (.step rfl (.inl rfl) rfl .here)
  have harg : BasedOn turned (.arg 1) (.arg 1) := ⟨_, rfl, rfl⟩
  exact ⟨hf, hv, hiff.mp hescaped, m, hm, hescaped, hcall _ ⟨.instr 5, 4, {}⟩ rfl hlocal,
    (hoverlap ⟨.instr 5, 4, {}⟩ ⟨.arg 1, 8, {}⟩ _ hlocal harg trivial).1⟩

def countedBySelf : Func where
  name := "f"
  ret := .void
  blocks := #[{ name := "a", instrs := [0, 1] }]
  instrs := #[
    { home := some 0, name := "r", op := .alloca, ty := .ptr, elem := some .i32,
      operands := [.instr 0], pos := ⟨3, 3⟩ },
    { home := some 0, op := .ret, pos := ⟨4, 3⟩ }]
  entry := some 0
  file := "in.mir"

def countedText : Bytes :=
  Bytes.ofString "func @f() \x7b\na:\n  %r = alloca i32, %r\n  ret\n\x7d\n"

/-- An object counted by its own address is marked, although its address leads to nothing but
itself. -/
theorem countedBySelf_marked : ∃ p m, parse "in.mir" countedText = .ok p ∧ p.errors = [] ∧
    countedBySelf ∈ p.module.funcs ∧ countedBySelf.verify (some p.module.symbols) = .ok [] ∧
      Model.of (some p.module.symbols) countedBySelf = .ok m ∧ m.escaped.contains 0 = true ∧
      ∀ q, Carried countedBySelf 0 q → ∀ u ∈ countedBySelf.users q, Carried countedBySelf 0 u := by
  obtain ⟨p, hp, he, hf⟩ := parse_alone "in.mir" countedText countedBySelf (by decide +kernel)
  have hsolid := ((read_of_parse hp he).funcs _ hf).solid
  obtain ⟨m, hm, -, -⟩ := exists_model hsolid
  refine ⟨p, m, hp, he, hf, Func.verify_eq_nil.mpr hsolid.wellFormed, hm, ?_, ?_⟩
  · obtain ⟨-, ids, hids, rfl⟩ := of_eq_ok hm
    have hself : escapedAllocas countedBySelf = .ok [0] := by decide +kernel
    cases hids.symm.trans hself
    rfl
  · intro q _ u hu
    obtain ⟨i, hi, -, hmem⟩ := Func.mem_users.mp hu
    have hu : u ∈ [0, 1] := Func.mem_instrIds.mpr ⟨i, hi⟩
    rcases List.mem_pair.mp hu with rfl | rfl
    · exact .root
    · cases hi
      cases hmem

end RegPressure.Memory
