import RegPressure.Proofs.ValueRange.Interval

namespace RegPressure

namespace Interval

variable {n : Nat} {r s t : Interval}

theorem of_union (hr : Of n r) (hs : Of n s) : Of n (r.union s) := by
  obtain ⟨hr1, hr2⟩ := hr.lo
  obtain ⟨hr3, hr4⟩ := hr.hi
  obtain ⟨hs1, hs2⟩ := hs.lo
  obtain ⟨hs3, hs4⟩ := hs.hi
  refine ⟨hr.bits, ⟨?_, ?_⟩, ⟨?_, ?_⟩⟩ <;> dsimp only [union] <;> omega

theorem union_has {x : Int} (h : r.Has x ∨ s.Has x) : (r.union s).Has x := by
  unfold Has union at *
  dsimp only
  omega

theorem of_intersect? (hr : Of n r) (hs : Of n s) (h : r.intersect? s = some t) : Of n t := by
  obtain ⟨hr1, hr2⟩ := hr.lo
  obtain ⟨hr3, hr4⟩ := hr.hi
  obtain ⟨hs1, hs2⟩ := hs.lo
  obtain ⟨hs3, hs4⟩ := hs.hi
  simp only [intersect?, Option.ite_none_left_eq_some] at h
  obtain ⟨_, h⟩ := h
  cases h
  refine ⟨hr.bits, ⟨?_, ?_⟩, ⟨?_, ?_⟩⟩ <;> dsimp only <;> omega

theorem intersect?_has (h : r.intersect? s = some t) {x : Int} (hr : r.Has x) (hs : s.Has x) :
    t.Has x := by
  simp only [intersect?, Option.ite_none_left_eq_some] at h
  obtain ⟨_, h⟩ := h
  cases h
  unfold Has at *
  dsimp only
  omega

theorem sdiv_zero (hs : s.Has 0) : r.sdiv s = full r.bits := by
  unfold sdiv
  cases hp : s.point? with
  | none => rfl
  | some c =>
    have hc : c ≤ 0 := by
      rw [Int64.le_iff_toInt_le, ← eq_of_point? hp hs]
      exact Int.le_refl 0
    simp [hc]

theorem udiv_zero (hs : s.Has 0) : r.udiv s = full r.bits := by
  unfold udiv
  split
  · exact sdiv_zero hs
  · rfl

theorem srem_zero (hs : s.Has 0) : r.srem s = full r.bits := by
  unfold srem
  cases hp : s.point? with
  | none => rfl
  | some c =>
    have hc : c = 0 := Int64.toInt_inj.mp (eq_of_point? hp hs).symm
    simp [hc]

theorem urem_zero (hs : s.Has 0) : r.urem s = full r.bits := by
  unfold urem
  cases hp : s.point? with
  | none => rfl
  | some c =>
    have hc : c ≤ 0 := by
      rw [Int64.le_iff_toInt_le, ← eq_of_point? hp hs]
      exact Int.le_refl 0
    simp [hc]

theorem amount?_eq_none (hr : Of n r) {y : BitVec n} (hy : s.Has y.toInt) (hlarge : ¬ y.toNat < n) :
    r.amount? s = none := by
  cases ha : r.amount? s with
  | none => rfl
  | some k =>
    obtain ⟨rfl, hk⟩ := amount?_eq_some hr ha hy
    exact absurd hk hlarge

section

variable (hn : 1 ≤ n) (hn' : n ≤ 64)

include hn hn'

theorem of_add (hr : Of n r) : Of n (r.add s) := by
  rw [add, if_neg (not_wide hn hn' hr), hr.bits]
  exact of_clamp hn (by omega) _ _

theorem of_sub (hr : Of n r) : Of n (r.sub s) := by
  rw [sub, if_neg (not_wide hn hn' hr), hr.bits]
  exact of_clamp hn (by omega) _ _

theorem of_udiv (hr : Of n r) : Of n (r.udiv s) := by
  unfold udiv
  split
  · exact of_sdiv hn hn' hr
  · rw [hr.bits]
    exact of_full hn (by omega)

end

end Interval

namespace ValueRange

open RegPressure.Interval

variable {n : Nat} {r s : Interval}

theorem isArith_of_binary? {op : Op} {g : Interval → Interval → Interval} (h : binary? op = some g) :
    op.isArith = true := by
  unfold binary? at h
  split at h <;> first | rfl | cases h

theorem exists_binary? {op : Op} (h : op.isArith = true) : ∃ g, binary? op = some g := by
  cases op <;> first | exact ⟨_, rfl⟩ | cases h

theorem toInt_signExtend {m : Nat} (h : m ≤ n) (x : BitVec m) : (x.signExtend n).toInt = x.toInt := by
  rw [BitVec.toInt_signExtend, Nat.min_eq_right h, BitVec.toInt_bmod_cancel]

theorem of_binary? (hn : 1 ≤ n) (hn' : n ≤ 64) {op : Op} {g : Interval → Interval → Interval}
    (h : binary? op = some g) (hr : Of n r) (hs : Of n s) : Of n (g r s) := by
  unfold binary? at h
  split at h <;> cases h
  · exact of_add hn hn' hr
  · exact of_sub hn hn' hr
  · exact of_mul hn hn' hr
  · exact of_sdiv hn hn' hr
  · exact of_udiv hn hn' hr
  · exact of_srem hn hn' hr
  · exact of_urem hn hn' hr
  · exact of_and hn hn' hr hs
  · exact of_or hn hn' hr
  · exact of_or hn hn' hr
  · exact of_shl hn hn' hr
  · exact of_ashr hn hn' hr
  · exact of_lshr hn hn' hr

/-- The interval of an operation holds what it gives, and any number if it has no result. -/
theorem binary?_has (hn : 1 ≤ n) (hn' : n ≤ 64) {op : Op} {g : Interval → Interval → Interval}
    (h : binary? op = some g) (hr : Of n r) (hs : Of n s) {x y : BitVec n} (hx : r.Has x.toInt)
    (hy : s.Has y.toInt) {z : BitVec n} (hz : op.arith x y = some z ∨ op.arith x y = none) :
    (g r s).Has z.toInt := by
  have hfull : (full r.bits).Has z.toInt := by
    rw [hr.bits]
    exact (has_full hn (by omega)).mpr (Ty.holds_toInt z)
  have hsmall : ∀ {x : Int}, (Ty.int n).Holds x → -2 ^ 64 ≤ x ∧ x ≤ 2 ^ 64 := by
    intro x hx
    have := Holds.small hn' hx
    omega
  -- An operation that divides gives the full interval if the divisor may be zero.
  have hdiv : ∀ {q : BitVec n} {t : Interval}, (y = 0#n → t = full r.bits) → t.Has q.toInt →
      ((if y = 0#n then none else some q) = some z ∨ (if y = 0#n then none else some q) = none) →
      t.Has z.toInt := by
    intro q t hzero hq hz
    by_cases hy0 : y = 0#n
    · rw [hzero hy0]
      exact hfull
    · simp only [if_neg hy0, Option.some.injEq, reduceCtorEq, or_false] at hz
      rwa [← hz]
  have hy0 : y = 0#n → s.Has 0 := by
    rintro rfl
    simpa using hy
  -- So does a shift by the width or more.
  have hshift : ∀ {q : BitVec n} {t : Interval}, (r.amount? s = none → t = full r.bits) →
      t.Has q.toInt →
      ((if y.toNat < n then some q else none) = some z ∨
        (if y.toNat < n then some q else none) = none) → t.Has z.toInt := by
    intro q t hnone hq hz
    by_cases hlt : y.toNat < n
    · simp only [if_pos hlt, Option.some.injEq, reduceCtorEq, or_false] at hz
      rwa [← hz]
    · rw [hnone (amount?_eq_none hr hy hlt)]
      exact hfull
  unfold binary? at h
  split at h <;> cases h <;> simp only [Op.arith, Option.some.injEq, reduceCtorEq, or_false] at hz
  · rw [← hz, BitVec.toInt_add]
    exact add_has hn hn' hr hs hx hy
  · rw [← hz, BitVec.toInt_sub]
    exact sub_has hn hn' hr hs hx hy
  · rw [← hz, BitVec.toInt_mul]
    exact mul_has hn hn' hr (hsmall hs.lo) (hsmall hs.hi) hx hy
  · refine hdiv (fun e => sdiv_zero (hy0 e)) ?_ hz
    rw [BitVec.toInt_sdiv]
    exact sdiv_has hn hn' hr hx hy
  · exact hdiv (fun e => udiv_zero (hy0 e)) (udiv_has hn hn' hr hx hy) hz
  · exact hdiv (fun e => srem_zero (hy0 e)) (srem_has hn hn' hr hx hy) hz
  · exact hdiv (fun e => urem_zero (hy0 e)) (urem_has hn hn' hr hs hx hy) hz
  · rw [← hz]
    exact and_has hn hn' hr hx hy
  · refine or_has hn hn' hr hs hx hy fun k hxk hyk => ?_
    rw [← hz, BitVec.toNat_or]
    exact Nat.or_lt_two_pow hxk hyk
  · refine or_has hn hn' hr hs hx hy fun k hxk hyk => ?_
    rw [← hz, BitVec.toNat_xor]
    exact Nat.xor_lt_two_pow hxk hyk
  · exact hshift (fun e => by simp [shl, e]) (shl_has hn hn' hr hx hy) hz
  · exact hshift (fun e => by simp [ashr, e]) (ashr_has hn hn' hr hx hy) hz
  · exact hshift (fun e => by simp [lshr, e]) (lshr_has hn hn' hr hx hy) hz

end ValueRange

end RegPressure

namespace RegPressure

namespace Interval

variable {n m : Nat} {r s t : Interval} {x : Int}

/-- The bounds are numbers of width `n`, in order. -/
structure WellFormed (n : Nat) (r : Interval) : Prop extends Of n r where
  ordered : r.lo ≤ r.hi

theorem Has.ordered (h : r.Has x) : r.lo ≤ r.hi := h.1.trans h.2

namespace WellFormed

theorem has_lo (h : WellFormed n r) : r.Has r.lo := ⟨le_refl _, h.ordered⟩

theorem toInt_ofInt (h : WellFormed n r) (hn : 1 ≤ n) (hx : r.Has x) :
    (BitVec.ofInt n x).toInt = x := ofInt_toInt_of_holds hn (h.holds hx)

end WellFormed

theorem union_has_iff (hr : WellFormed n r) (hs : WellFormed n s) : (r.union s).Has x ↔
    ∃ y z, (r.Has y ∨ s.Has y) ∧ (r.Has z ∨ s.Has z) ∧ y ≤ x ∧ x ≤ z := by
  have hro := hr.ordered
  have hso := hs.ordered
  constructor
  · rintro ⟨hlo, hhi⟩
    refine ⟨min r.lo s.lo, max r.hi s.hi, ?_, ?_, hlo, hhi⟩
    · rcases min_choice r.lo s.lo with h | h <;> rw [h]
      · exact .inl hr.has_lo
      · exact .inr hs.has_lo
    · rcases max_choice r.hi s.hi with h | h <;> rw [h]
      · exact .inl ⟨hro, le_refl _⟩
      · exact .inr ⟨hso, le_refl _⟩
  · rintro ⟨y, z, hy, hz, hyx, hxz⟩
    obtain ⟨hy, -⟩ := union_has hy
    obtain ⟨-, hz⟩ := union_has hz
    exact ⟨hy.trans hyx, hxz.trans hz⟩

theorem intersect?_has_iff (h : r.intersect? s = some t) : t.Has x ↔ r.Has x ∧ s.Has x := by
  refine ⟨fun ht => ?_, fun ⟨hr, hs⟩ => intersect?_has h hr hs⟩
  simp only [intersect?, Option.ite_none_left_eq_some, Option.some.injEq] at h
  obtain ⟨-, rfl⟩ := h
  obtain ⟨hlo, hhi⟩ := ht
  rw [max_le_iff] at hlo
  rw [le_min_iff] at hhi
  exact ⟨⟨hlo.1, hhi.1⟩, hlo.2, hhi.2⟩

theorem intersect?_ordered (h : r.intersect? s = some t) : t.lo ≤ t.hi := by
  simp only [intersect?, Option.ite_none_left_eq_some, Option.some.injEq] at h
  obtain ⟨hle, rfl⟩ := h
  exact not_lt.mp hle

theorem not_has_of_intersect? (h : r.intersect? s = none) : ¬ (r.Has x ∧ s.Has x) := by
  rintro ⟨hr, hs⟩
  simp only [intersect?, ite_eq_left_iff, reduceCtorEq, imp_false, not_not] at h
  have hlo := max_le hr.1 hs.1
  have hhi := le_min hr.2 hs.2
  omega

/-- What the intervals enclose that are worked out from `r` and `s`, numbers of width `n`. -/
structure Encloses (n : Nat) (r s : Interval) : Prop where
  arith : ∀ op : Op, op.isArith = true → ∃ g, ValueRange.binary? op = some g ∧
    WellFormed n (g r s) ∧ ∀ x y z, r.Has x → s.Has y →
      op.arith (BitVec.ofInt n x) (BitVec.ofInt n y) = some z → (g r s).Has z.toInt
  trunc : ∀ m : Nat, 1 ≤ m → m < n → WellFormed m (r.trunc m) ∧
    ∀ x, r.Has x → (r.trunc m).Has ((BitVec.ofInt n x).setWidth m).toInt
  sext : ∀ m : Nat, n < m → m ≤ 64 → WellFormed m (r.sext m) ∧
    ∀ x, r.Has x → (r.sext m).Has ((BitVec.ofInt n x).signExtend m).toInt
  zext : ∀ m : Nat, n < m → m ≤ 64 → WellFormed m (r.zext m) ∧
    ∀ x, r.Has x → (r.zext m).Has ((BitVec.ofInt n x).zeroExtend m).toInt
  union : WellFormed n (r.union s) ∧ ∀ x, (r.union s).Has x ↔
    ∃ y z, (r.Has y ∨ s.Has y) ∧ (r.Has z ∨ s.Has z) ∧ y ≤ x ∧ x ≤ z
  common : ∀ t, r.intersect? s = some t → WellFormed n t ∧ ∀ x, t.Has x ↔ r.Has x ∧ s.Has x
  disjoint : r.intersect? s = none → ∀ x, ¬ (r.Has x ∧ s.Has x)

end Interval

open RegPressure.Interval

namespace ValueRange

variable {n m : Nat} {r s : Interval}

theorem wellFormed_binary? (hn : 1 ≤ n) (hn' : n ≤ 64) {op : Op} {g : Interval → Interval → Interval}
    (h : binary? op = some g) (hr : WellFormed n r) (hs : WellFormed n s) : WellFormed n (g r s) := by
  refine ⟨of_binary? hn hn' h hr.toOf hs.toOf, ?_⟩
  -- The interval is not empty, since the operation may give something on the lower bounds.
  have hx := hr.has_lo
  have hy := hs.has_lo
  rw [← hr.toInt_ofInt hn hx] at hx
  rw [← hs.toInt_ofInt hn hy] at hy
  cases hz : op.arith (BitVec.ofInt n r.lo) (BitVec.ofInt n s.lo) with
  | some z => exact (binary?_has hn hn' h hr.toOf hs.toOf hx hy (.inl hz)).ordered
  | none => exact (binary?_has (z := 0#n) hn hn' h hr.toOf hs.toOf hx hy (.inr hz)).ordered

end ValueRange

open ValueRange

/-- Whatever width of up to 64 bits and whatever well-formed intervals of this width: no operation
leaves the interval that is worked out for it. -/
theorem interval_arithmetic_encloses {n : Nat} (hn : 1 ≤ n) (hn' : n ≤ 64) {r s : Interval}
    (hr : WellFormed n r) (hs : WellFormed n s) : Encloses n r s where
  arith op hop := by
    obtain ⟨g, hg⟩ := exists_binary? hop
    refine ⟨g, hg, wellFormed_binary? hn hn' hg hr hs, fun x y z hx hy hz => ?_⟩
    rw [← hr.toInt_ofInt hn hx] at hx
    rw [← hs.toInt_ofInt hn hy] at hy
    exact binary?_has hn hn' hg hr.toOf hs.toOf hx hy (.inl hz)
  trunc m hm hmn := by
    have hhas : ∀ x, r.Has x → (r.trunc m).Has ((BitVec.ofInt n x).setWidth m).toInt := by
      intro x hx
      rw [setWidth_ofInt hmn.le]
      exact trunc_has hm (by omega) hx
    exact ⟨⟨of_trunc hm (by omega), (hhas _ hr.has_lo).ordered⟩, hhas⟩
  sext m hnm hm := by
    refine ⟨⟨of_sext hnm.le hr.toOf, hr.ordered⟩, fun x hx => ?_⟩
    rw [toInt_signExtend hnm.le, hr.toInt_ofInt hn hx]
    exact hx
  zext m hnm hm :=
    ⟨⟨of_zext hnm hm hr.toOf, (zext_has hn hnm hm hr.toOf hr.has_lo).ordered⟩,
      fun x hx => zext_has hn hnm hm hr.toOf hx⟩
  union := ⟨⟨of_union hr.toOf hs.toOf, (union_has (.inl hr.has_lo)).ordered⟩,
    fun x => union_has_iff hr hs⟩
  common t ht := ⟨⟨of_intersect? hr.toOf hs.toOf ht, intersect?_ordered ht⟩,
    fun x => intersect?_has_iff ht⟩
  disjoint h x := not_has_of_intersect? h

/-- The remainders of the numbers from -128 to 5 by -7 lie between -6 and 6. -/
theorem remainders_by_seven_enclose :
    WellFormed 8 ⟨8, -128, 5⟩ ∧ WellFormed 8 ⟨8, -7, -7⟩ ∧
      ValueRange.binary? .srem = some srem ∧ srem ⟨8, -128, 5⟩ ⟨8, -7, -7⟩ = ⟨8, -6, 6⟩ ∧
        Encloses 8 ⟨8, -128, 5⟩ ⟨8, -7, -7⟩ := by
  have hr : WellFormed 8 ⟨8, -128, 5⟩ := ⟨⟨rfl, by decide, by decide⟩, by decide⟩
  have hs : WellFormed 8 ⟨8, -7, -7⟩ := ⟨⟨rfl, by decide, by decide⟩, by decide⟩
  exact ⟨hr, hs, rfl, by decide +kernel, interval_arithmetic_encloses (by decide) (by decide) hr hs⟩

end RegPressure
