import RegPressure.Proofs.IR.Precedence
import Mathlib.Algebra.Order.Ring.Int

namespace RegPressure

namespace Ty

def Valid : Ty → Prop
  | .int n => 1 ≤ n ∧ n ≤ 256
  | _ => True

/-- The values of a type. Integers are signed, and there is one value of type `void`; other values
go by arbitrary numbers. -/
def Holds : Ty → Int → Prop
  | .int n, x => -2 ^ (n - 1) ≤ x ∧ x < 2 ^ (n - 1)
  | .void, x => x = 0
  | _, _ => True

instance : (t : Ty) → Decidable t.Valid
  | .int n => inferInstanceAs (Decidable (1 ≤ n ∧ n ≤ 256))
  | .void | .float _ | .ptr | .vector _ _ | .array _ _ | .struct _ | .label =>
    inferInstanceAs (Decidable True)

instance : (t : Ty) → (x : Int) → Decidable (t.Holds x)
  | .int n, x => inferInstanceAs (Decidable (-2 ^ (n - 1) ≤ x ∧ x < 2 ^ (n - 1)))
  | .void, x => inferInstanceAs (Decidable (x = 0))
  | .float _, _ | .ptr, _ | .vector _ _, _ | .array _ _, _ | .struct _, _ | .label, _ =>
    inferInstanceAs (Decidable True)

end Ty

def Op.isArith : Op → Bool
  | .add | .sub | .mul | .udiv | .sdiv | .urem | .srem | .shl | .lshr | .ashr | .and | .or
  | .xor => true
  | _ => false

theorem Op.isPure_of_isArith {op : Op} (h : op.isArith = true) : op.isPure = true := by
  cases op <;> first | rfl | cases h

theorem Op.not_isCast_of_isArith {op : Op} (h : op.isArith = true) : op.isCast = false := by
  cases op <;> first | rfl | cases h

namespace Func

def ConstFits (t : Ty) (c : Int64) : Prop := t = .i1 ∨ t.Holds c.toInt

def HasTy (f : Func) : Value → Ty → Prop
  | .instr id, t => f.Computes id ∧ ∃ i, f.instr? id = some i ∧ i.ty = t
  | .arg n, t => 0 ≤ n ∧ ∃ p, f.params[n.toNat]? = some p ∧ p.ty = some t
  | .int ty c, t => ty = some t ∧ t.Valid ∧ ConstFits t c
  | .undef ty, t => ty = some t ∧ t.Valid
  | .float ty _, t => ty = some t ∧ t.isFloat = true
  | .null, t | .str _, t | .global _, t => t = .ptr

/-- The operands of an instruction have the types that it needs. -/
def Typed (f : Func) (i : Instr) : Prop :=
  if i.op.isArith then ∃ a b, i.operands = [a, b] ∧ f.HasTy a i.ty ∧ f.HasTy b i.ty
  else match i.op with
    | .trunc => ∃ a t, i.operands = [a] ∧ f.HasTy a t ∧ ∀ n, i.ty = .int n → ∃ m, t = .int m ∧ n < m
    | .sext | .zext =>
      ∃ a t, i.operands = [a] ∧ f.HasTy a t ∧ ∀ n, i.ty = .int n → ∃ m, t = .int m ∧ m < n
    | .icmp =>
      i.ty = .i1 ∧ i.pred ∈ icmpPreds ∧ ∃ a b t, i.operands = [a, b] ∧ f.HasTy a t ∧ f.HasTy b t
    | .select => ∃ c a b, i.operands = [c, a, b] ∧ f.HasTy c .i1 ∧ f.HasTy a i.ty ∧ f.HasTy b i.ty
    | .phi => ∀ v ∈ i.operands, f.HasTy v i.ty
    | op => op.isCast = true →
      ∃ a t, i.operands = [a] ∧ f.HasTy a t ∧ ∀ n m, i.ty = .int n → t = .int m → n = m

structure WellTyped (f : Func) : Prop where
  param : ∀ p ∈ f.params, ∀ t, p.ty = some t → t.Valid
  instr : ∀ b id i, f.Stands b id → f.instr? id = some i → i.ty.Valid ∧ f.Typed i
  operand : ∀ b id i, f.Stands b id → f.instr? id = some i → ∀ v ∈ i.operands, ∃ t, f.HasTy v t

variable {f : Func}

section Typed

variable {i : Instr}

theorem typed_arith (hop : i.op.isArith = true) :
    f.Typed i ↔ ∃ a b, i.operands = [a, b] ∧ f.HasTy a i.ty ∧ f.HasTy b i.ty := by
  rw [Typed, if_pos hop]

theorem typed_trunc (hop : i.op = .trunc) : f.Typed i ↔
    ∃ a t, i.operands = [a] ∧ f.HasTy a t ∧ ∀ n, i.ty = .int n → ∃ m, t = .int m ∧ n < m := by
  rw [Typed, hop]
  exact Iff.rfl

theorem typed_extend (hop : i.op = .sext ∨ i.op = .zext) : f.Typed i ↔
    ∃ a t, i.operands = [a] ∧ f.HasTy a t ∧ ∀ n, i.ty = .int n → ∃ m, t = .int m ∧ m < n := by
  rcases hop with hop | hop <;> (rw [Typed, hop]; exact Iff.rfl)

theorem typed_icmp (hop : i.op = .icmp) : f.Typed i ↔ i.ty = .i1 ∧ i.pred ∈ icmpPreds ∧
    ∃ a b t, i.operands = [a, b] ∧ f.HasTy a t ∧ f.HasTy b t := by
  rw [Typed, hop]
  exact Iff.rfl

theorem typed_select (hop : i.op = .select) : f.Typed i ↔
    ∃ c a b, i.operands = [c, a, b] ∧ f.HasTy c .i1 ∧ f.HasTy a i.ty ∧ f.HasTy b i.ty := by
  rw [Typed, hop]
  exact Iff.rfl

theorem typed_phi (hop : i.op = .phi) : f.Typed i ↔ ∀ v ∈ i.operands, f.HasTy v i.ty := by
  rw [Typed, hop]
  exact Iff.rfl

theorem Typed.other_cast (h : f.Typed i) (hcast : i.op.isCast = true) (htrunc : i.op ≠ .trunc)
    (hsext : i.op ≠ .sext) (hzext : i.op ≠ .zext) : ∃ a t, i.operands = [a] ∧ f.HasTy a t ∧
      ∀ n m, i.ty = .int n → t = .int m → n = m := by
  unfold Typed at h
  split at h
  · next harith =>
    rw [Op.not_isCast_of_isArith harith] at hcast
    cases hcast
  · split at h <;> first | contradiction | simp_all [Op.isCast]

end Typed

theorem HasTy.typeOf {v : Value} {t : Ty} (h : f.HasTy v t) : f.typeOf v = .ok (some t) := by
  cases v with
  | instr id =>
    obtain ⟨_, i, hi, rfl⟩ := h
    simp [Func.typeOf, instr_eq_ok.mpr hi]
  | arg n =>
    obtain ⟨hn, p, hp, ht⟩ := h
    have hlt := (List.getElem?_eq_some_iff.mp hp).1
    have hget : (f.params[n.toNat]? : Option Param) = some p := hp
    rw [Func.typeOf, if_pos (by omega), element, if_neg (by omega), hget]
    simp [ht]
  | int ty c => simp [Func.typeOf, Value.constTy, h.1]
  | undef ty => simp [Func.typeOf, Value.constTy, h.1]
  | float ty x => simp [Func.typeOf, Value.constTy, h.1]
  | null => simp [Func.typeOf, Value.constTy, show t = .ptr from h]
  | str s => simp [Func.typeOf, Value.constTy, show t = .ptr from h]
  | global n => simp [Func.typeOf, show t = .ptr from h]

theorem WellTyped.valid_of_hasTy (h : f.WellTyped) {v : Value} {t : Ty} (hv : f.HasTy v t) :
    t.Valid := by
  cases v with
  | instr id =>
    obtain ⟨⟨⟨b, hb⟩, _⟩, i, hi, rfl⟩ := hv
    exact (h.instr b id i hb hi).1
  | arg n =>
    obtain ⟨_, p, hp, ht⟩ := hv
    exact h.param p (List.mem_of_getElem? hp) t ht
  | int ty c => exact hv.2.1
  | undef ty => exact hv.2
  | float ty x =>
    obtain ⟨_, ht⟩ := hv
    cases t <;> trivial
  | null =>
    cases hv
    trivial
  | str s =>
    cases hv
    trivial
  | global n =>
    cases hv
    trivial

/-- The width of the first operand, if that is an integer. -/
def widthOf (f : Func) (i : Instr) : Option Nat :=
  match i.operands.head?.map f.typeOf with
  | some (.ok (some (.int m))) => some m
  | _ => none

theorem widthOf_eq {i : Instr} {v : Value} {vs : List Value} {m : Nat} (hi : i.operands = v :: vs)
    (hv : f.HasTy v (.int m)) : f.widthOf i = some m := by
  simp [widthOf, hi, hv.typeOf]

/-! Whether a function is well typed can be computed. -/

def tyOf? (f : Func) : Value → Option Ty
  | .instr id => if f.Computes id then (f.instr? id).map (·.ty) else none
  | .arg n => if 0 ≤ n then f.params[n.toNat]?.bind (·.ty) else none
  | .int ty c => ty.filter fun t => t.Valid && (t = .i1 || t.Holds c.toInt)
  | .undef ty => ty.filter fun t => t.Valid
  | .float ty _ => ty.filter Ty.isFloat
  | .null | .str _ | .global _ => some .ptr

theorem hasTy_iff {v : Value} {t : Ty} : f.HasTy v t ↔ f.tyOf? v = some t := by
  cases v with
  | instr id => simp [HasTy, tyOf?]
  | arg n => simp [HasTy, tyOf?, Option.bind_eq_some_iff]
  | int ty c => simp [HasTy, tyOf?, ConstFits, Option.filter_eq_some_iff]
  | undef ty => simp [HasTy, tyOf?, Option.filter_eq_some_iff]
  | float ty x => simp [HasTy, tyOf?, Option.filter_eq_some_iff]
  | null | str _ | global _ => simp [HasTy, tyOf?, eq_comm]

def castHolds (narrower : Bool) (a b : Ty) : Bool :=
  match a, b with
  | .int m, .int n => if narrower then n < m else m < n
  | _, .int _ => false
  | _, _ => true

def typesHold (f : Func) (i : Instr) : Bool :=
  let tys := i.operands.map f.tyOf?
  if i.op.isArith then tys = [some i.ty, some i.ty]
  else match i.op, tys with
    | .trunc, [some t] => castHolds true t i.ty
    | .sext, [some t] | .zext, [some t] => castHolds false t i.ty
    | .icmp, [some t, some u] => i.ty = .i1 && i.pred ∈ icmpPreds && t = u
    | .select, [some c, some t, some u] => c = .i1 && t = i.ty && u = i.ty
    | .phi, ts => ts.all (· = some i.ty)
    | .trunc, _ | .sext, _ | .zext, _ | .icmp, _ | .select, _ => false
    | op, [some t] => !op.isCast || !i.ty.isInt || !t.isInt || i.ty = t
    | op, _ => !op.isCast

theorem castHolds_narrower {a b : Ty} (h : castHolds true a b = true) {n : Nat} (hb : b = .int n) :
    ∃ m, a = .int m ∧ n < m := by
  subst hb
  cases a <;> simp_all [castHolds]

theorem castHolds_wider {a b : Ty} (h : castHolds false a b = true) {n : Nat} (hb : b = .int n) :
    ∃ m, a = .int m ∧ m < n := by
  subst hb
  cases a <;> simp_all [castHolds]

theorem exists_operands {vs : List Value} {t : Ty} (ts : List Ty)
    (h : vs.map f.tyOf? = some t :: ts.map some) :
    ∃ a ws, vs = a :: ws ∧ f.HasTy a t ∧ ws.map f.tyOf? = ts.map some := by
  obtain ⟨a, ws, rfl, ha, hws⟩ := List.map_eq_cons_iff.mp h
  exact ⟨a, ws, rfl, hasTy_iff.mpr ha, hws⟩

theorem exists_operand {vs : List Value} {t : Ty} (h : vs.map f.tyOf? = [some t]) :
    ∃ a, vs = [a] ∧ f.HasTy a t := by
  obtain ⟨a, ws, rfl, ha, hws⟩ := exists_operands [] h
  obtain rfl := List.map_eq_nil_iff.mp hws
  exact ⟨a, rfl, ha⟩

theorem exists_two_operands {vs : List Value} {t u : Ty} (h : vs.map f.tyOf? = [some t, some u]) :
    ∃ a b, vs = [a, b] ∧ f.HasTy a t ∧ f.HasTy b u := by
  obtain ⟨a, ws, rfl, ha, hws⟩ := exists_operands [u] h
  obtain ⟨b, rfl, hb⟩ := exists_operand hws
  exact ⟨a, b, rfl, ha, hb⟩

theorem exists_three_operands {vs : List Value} {s t u : Ty}
    (h : vs.map f.tyOf? = [some s, some t, some u]) :
    ∃ c a b, vs = [c, a, b] ∧ f.HasTy c s ∧ f.HasTy a t ∧ f.HasTy b u := by
  obtain ⟨c, ws, rfl, hc, hws⟩ := exists_operands [t, u] h
  obtain ⟨a, b, rfl, ha, hb⟩ := exists_two_operands hws
  exact ⟨c, a, b, rfl, hc, ha, hb⟩

theorem typed_of_holds {i : Instr} (h : f.typesHold i = true) : f.Typed i := by
  unfold typesHold at h
  unfold Typed
  split at h
  · next harith =>
    rw [if_pos harith]
    exact exists_two_operands (by simpa using h)
  · next harith =>
    rw [if_neg harith]
    dsimp only at h
    split at h
    · next hop ht =>
      rw [hop]
      obtain ⟨a, ha, hat⟩ := exists_operand ht
      exact ⟨a, _, ha, hat, fun n hn => castHolds_narrower h hn⟩
    · next hop ht =>
      rw [hop]
      obtain ⟨a, ha, hat⟩ := exists_operand ht
      exact ⟨a, _, ha, hat, fun n hn => castHolds_wider h hn⟩
    · next hop ht =>
      rw [hop]
      obtain ⟨a, ha, hat⟩ := exists_operand ht
      exact ⟨a, _, ha, hat, fun n hn => castHolds_wider h hn⟩
    · next hop ht =>
      simp only [Bool.and_eq_true, decide_eq_true_eq] at h
      obtain ⟨⟨hty, hpred⟩, rfl⟩ := h
      rw [hop]
      obtain ⟨a, b, hab, ha, hb⟩ := exists_two_operands ht
      exact ⟨hty, hpred, a, b, _, hab, ha, hb⟩
    · next hop ht =>
      simp only [Bool.and_eq_true, decide_eq_true_eq] at h
      obtain ⟨⟨rfl, rfl⟩, rfl⟩ := h
      rw [hop]
      exact exists_three_operands ht
    · next hop =>
      rw [hop]
      intro v hv
      have := List.all_eq_true.mp h (f.tyOf? v) (List.mem_map_of_mem hv)
      exact hasTy_iff.mpr (by simpa using this)
    all_goals try cases h
    · next t ht _ _ _ _ _ _ =>
      split <;> first | contradiction | skip
      intro hcast
      obtain ⟨a, ha, hat⟩ := exists_operand ht
      exact ⟨a, t, ha, hat, fun n m hn hm => by simpa [hcast, hn, hm, Ty.isInt] using h⟩
    · split <;> first | contradiction | skip
      intro hcast
      simp [hcast] at h

def wellTyped (f : Func) : Bool :=
  f.params.all (fun p => p.ty.all fun t => decide t.Valid) &&
    (List.range f.blocks.size).all fun b => (f.bodyOf b).all fun id => (f.instr? id).toList.all fun i =>
      i.ty.Valid && f.typesHold i && i.operands.all fun v => (f.tyOf? v).isSome

theorem wellTyped_of_holds (h : f.wellTyped = true) : f.WellTyped := by
  simp only [wellTyped, Bool.and_eq_true, List.all_eq_true, List.mem_range, Option.mem_toList,
    decide_eq_true_eq, Option.isSome_iff_exists] at h
  obtain ⟨hparam, hinstr⟩ := h
  have hall : ∀ b id i, f.Stands b id → f.instr? id = some i → (i.ty.Valid ∧ f.typesHold i = true) ∧
      ∀ v ∈ i.operands, ∃ t, f.tyOf? v = some t := by
    intro b id i hb hi
    obtain ⟨n, rfl, hn⟩ := hb.nat
    exact hinstr n hn id (stands_iff.mp hb) i hi
  refine ⟨fun p hp t ht => ?_, fun b id i hb hi => ?_, fun b id i hb hi v hv => ?_⟩
  · have := hparam p hp
    rw [ht] at this
    simpa using this
  · exact ⟨(hall b id i hb hi).1.1, typed_of_holds (hall b id i hb hi).1.2⟩
  · obtain ⟨t, ht⟩ := (hall b id i hb hi).2 v hv
    exact ⟨t, hasTy_iff.mpr ht⟩

end Func

end RegPressure
