import RegPressure.ValueRange.Interval
import RegPressure.Proofs.Run.Values
import Mathlib.Algebra.Order.Ring.Abs
import Mathlib.Tactic.Linarith
import Mathlib.Tactic.NormNum

namespace RegPressure.Interval

variable {n : Nat} {r s : Interval}

def Has (r : Interval) (x : Int) : Prop := r.lo ≤ x ∧ x ≤ r.hi

structure Of (n : Nat) (r : Interval) : Prop where
  bits : r.bits = n
  lo : (Ty.int n).Holds r.lo
  hi : (Ty.int n).Holds r.hi

theorem wrap_eq {x : Int} (h : -2 ^ 255 ≤ x) (h' : x < 2 ^ 255) : wrap x = x := by
  refine Int.bmod_eq_of_le_mul_two ?_ ?_
  · norm_num at h ⊢
    omega
  · norm_num at h' ⊢
    omega

theorem two_pow_le {k m : Nat} (h : k ≤ m) : (2 : Int) ^ k ≤ 2 ^ m :=
  pow_le_pow_right₀ (by decide) h

theorem one_le_two_pow (k : Nat) : (1 : Int) ≤ 2 ^ k := one_le_pow₀ (by decide)

theorem pow2_eq {k : Nat} (h : k < 255) : pow2 k = 2 ^ k := by
  have hlt := two_pow_le (show k + 1 ≤ 255 by omega)
  have hpos := one_le_two_pow k
  rw [pow_succ] at hlt
  rw [pow2, if_pos (by simp; omega), Int.toNat_natCast]
  have hcast : ((Nat.pow 2 k : Nat) : Int) = 2 ^ k := by
    change ((2 ^ k : Nat) : Int) = 2 ^ k
    push_cast
    rfl
  rw [hcast]
  exact wrap_eq (by omega) (by omega)

theorem extremes (hn : 1 ≤ n) (hn' : n ≤ 256) :
    smallest n = -2 ^ (n - 1) ∧ largest n = 2 ^ (n - 1) - 1 := by
  by_cases htop : n = 256
  · subst htop
    decide +kernel
  · have hsign : signBit n = 2 ^ (n - 1) := by
      have : ((n : Int) - 1) = ((n - 1 : Nat) : Int) := by omega
      rw [signBit, this, pow2_eq (by omega)]
    have hlt := two_pow_le (show n - 1 + 1 ≤ 255 by omega)
    have hpos := one_le_two_pow (n - 1)
    rw [pow_succ] at hlt
    rw [smallest, largest, hsign]
    exact ⟨wrap_eq (by omega) (by omega), wrap_eq (by omega) (by omega)⟩

theorem has_full (hn : 1 ≤ n) (hn' : n ≤ 256) {x : Int} :
    (full n).Has x ↔ (Ty.int n).Holds x := by
  obtain ⟨hlo, hhi⟩ := extremes hn hn'
  simp only [Has, full, hlo, hhi, Ty.Holds]
  omega

theorem of_full (hn : 1 ≤ n) (hn' : n ≤ 256) : Of n (full n) := by
  obtain ⟨hlo, hhi⟩ := extremes hn hn'
  have hpos := one_le_two_pow (n - 1)
  refine ⟨rfl, ?_, ?_⟩
  · simp only [full, hlo, Ty.Holds]
    omega
  · simp only [full, hhi, Ty.Holds]
    omega

theorem Of.holds (h : Of n r) {x : Int} (hx : r.Has x) : (Ty.int n).Holds x :=
  ⟨h.lo.1.trans hx.1, hx.2.trans_lt h.hi.2⟩

theorem of_clamp (hn : 1 ≤ n) (hn' : n ≤ 256) (lo hi : Int) : Of n (clamp n lo hi) := by
  obtain ⟨hlo, hhi⟩ := extremes hn hn'
  unfold clamp
  split
  · exact of_full hn hn'
  · next h =>
    simp only [Bool.or_eq_true, decide_eq_true_eq, not_or, hlo, hhi] at h
    refine ⟨rfl, ?_, ?_⟩
    · simp only [Ty.Holds]
      omega
    · simp only [Ty.Holds]
      omega

theorem bmod_eq_of_holds (hn : 1 ≤ n) {x : Int} (h : (Ty.int n).Holds x) : x.bmod (2 ^ n) = x := by
  rw [← BitVec.toInt_ofInt]
  exact ofInt_toInt_of_holds hn h

theorem has_clamp (hn : 1 ≤ n) (hn' : n ≤ 256) {lo hi x : Int} (h : lo ≤ x) (h' : x ≤ hi) :
    (clamp n lo hi).Has (x.bmod (2 ^ n)) := by
  obtain ⟨hlo, hhi⟩ := extremes hn hn'
  unfold clamp
  split
  · refine (has_full hn hn').mpr ?_
    rw [← BitVec.toInt_ofInt]
    exact Ty.holds_toInt _
  · next hin =>
    simp only [Bool.or_eq_true, decide_eq_true_eq, not_or, hlo, hhi] at hin
    rw [bmod_eq_of_holds hn ⟨by omega, by omega⟩]
    exact ⟨h, h'⟩

/-- Bounds of up to 64 bits are far from where 256 bits end. -/
theorem Holds.small {x : Int} (hn : n ≤ 64) (h : (Ty.int n).Holds x) : -2 ^ 63 ≤ x ∧ x < 2 ^ 63 := by
  have := two_pow_le (show n - 1 ≤ 63 by omega)
  obtain ⟨h1, h2⟩ := h
  exact ⟨by omega, by omega⟩

theorem toNat_eq_toInt {x : BitVec n} (h : 0 ≤ x.toInt) : (x.toNat : Int) = x.toInt := by
  have hlt := x.isLt
  rw [BitVec.toInt_eq_toNat_cond] at h ⊢
  split at h
  · next hcond => rw [if_pos hcond]
  · omega

theorem toInt_eq_toNat (hn : 1 ≤ n) {x : BitVec n} (h : (x.toNat : Int) < 2 ^ (n - 1)) :
    x.toInt = (x.toNat : Int) := by
  have hpow : (2 : Int) ^ n = 2 * 2 ^ (n - 1) := by
    rw [← pow_succ', Nat.sub_add_cancel hn]
  refine BitVec.toInt_eq_toNat_of_lt ?_
  zify
  omega

section Operations

variable (hn : 1 ≤ n) (hn' : n ≤ 64)

include hn hn'

theorem has_clamp_wrap {lo hi x : Int} (hlo : -2 ^ 255 ≤ lo) (hhi : hi < 2 ^ 255) (h : lo ≤ x)
    (h' : x ≤ hi) : (clamp n (wrap lo) (wrap hi)).Has (x.bmod (2 ^ n)) := by
  rw [wrap_eq hlo (by omega), wrap_eq (by omega) hhi]
  exact has_clamp hn (by omega) h h'

theorem not_wide (h : Of n r) : ¬ r.bits > (maxBits : Int) := by
  rw [h.bits, maxBits]
  omega

theorem add_has (hr : Of n r) (hs : Of n s) {x y : Int} (hx : r.Has x) (hy : s.Has y) :
    (r.add s).Has ((x + y).bmod (2 ^ n)) := by
  rw [add, if_neg (not_wide hn hn' hr), hr.bits]
  have h1 := Holds.small hn' hr.lo
  have h2 := Holds.small hn' hs.lo
  have h3 := Holds.small hn' hr.hi
  have h4 := Holds.small hn' hs.hi
  obtain ⟨hx, hx'⟩ := hx
  obtain ⟨hy, hy'⟩ := hy
  exact has_clamp_wrap hn hn' (by omega) (by omega) (by omega) (by omega)

theorem sub_has (hr : Of n r) (hs : Of n s) {x y : Int} (hx : r.Has x) (hy : s.Has y) :
    (r.sub s).Has ((x - y).bmod (2 ^ n)) := by
  rw [sub, if_neg (not_wide hn hn' hr), hr.bits]
  have h1 := Holds.small hn' hr.lo
  have h2 := Holds.small hn' hs.lo
  have h3 := Holds.small hn' hr.hi
  have h4 := Holds.small hn' hs.hi
  obtain ⟨hx, hx'⟩ := hx
  obtain ⟨hy, hy'⟩ := hy
  exact has_clamp_wrap hn hn' (by omega) (by omega) (by omega) (by omega)

omit hn hn' in
theorem mul_between {a b x : Int} (h : a ≤ x) (h' : x ≤ b) (y : Int) :
    min (a * y) (b * y) ≤ x * y ∧ x * y ≤ max (a * y) (b * y) := by
  rcases le_total 0 y with hy | hy
  · exact ⟨(min_le_left _ _).trans (mul_le_mul_of_nonneg_right h hy),
      (mul_le_mul_of_nonneg_right h' hy).trans (le_max_right _ _)⟩
  · exact ⟨(min_le_right _ _).trans (mul_le_mul_of_nonpos_right h' hy),
      (mul_le_mul_of_nonpos_right h hy).trans (le_max_left _ _)⟩

omit hn hn' in
theorem mul_small {x y : Int} (hx : -2 ^ 63 ≤ x ∧ x < 2 ^ 63) (hy : -2 ^ 64 ≤ y ∧ y ≤ 2 ^ 64) :
    -2 ^ 127 ≤ x * y ∧ x * y ≤ 2 ^ 127 := by
  have habs : |x * y| ≤ 2 ^ 63 * 2 ^ 64 := by
    rw [abs_mul]
    exact mul_le_mul (abs_le.mpr ⟨hx.1, hx.2.le⟩) (abs_le.mpr hy) (abs_nonneg _) (by positivity)
  have := abs_le.mp habs
  norm_num at this ⊢
  exact this

theorem mul_has (hr : Of n r) (hlo : -2 ^ 64 ≤ s.lo ∧ s.lo ≤ 2 ^ 64)
    (hhi : -2 ^ 64 ≤ s.hi ∧ s.hi ≤ 2 ^ 64) {x y : Int} (hx : r.Has x) (hy : s.Has y) :
    (r.mul s).Has ((x * y).bmod (2 ^ n)) := by
  rw [mul, if_neg (not_wide hn hn' hr), hr.bits]
  have h1 := mul_small (Holds.small hn' hr.lo) hlo
  have h2 := mul_small (Holds.small hn' hr.lo) hhi
  have h3 := mul_small (Holds.small hn' hr.hi) hlo
  have h4 := mul_small (Holds.small hn' hr.hi) hhi
  have hxy := mul_between hx.1 hx.2 y
  have hlow := mul_between hy.1 hy.2 r.lo
  have hhigh := mul_between hy.1 hy.2 r.hi
  rw [mul_comm s.lo, mul_comm s.hi, mul_comm y] at hlow hhigh
  rw [wrap_eq (by omega) (by omega), wrap_eq (by omega) (by omega), wrap_eq (by omega) (by omega),
    wrap_eq (by omega) (by omega)]
  exact has_clamp hn (by omega) (by omega) (by omega)

omit hn hn' in
theorem point?_eq_some {c : Int64} (h : r.point? = some c) : r.lo = c.toInt ∧ r.hi = c.toInt := by
  unfold point? at h
  split at h
  · next he =>
    unfold Word.ofInt? at h
    split at h
    · next hin =>
      simp only [Bool.and_eq_true, decide_eq_true_eq] at hin
      unfold Word.minSigned Word.maxSigned at hin
      cases h
      have hlo : (Int64.ofInt r.lo).toInt = r.lo :=
        Int64.toInt_ofInt_of_le (by omega) (by omega)
      exact ⟨hlo.symm, he ▸ hlo.symm⟩
    · cases h
  · cases h

omit hn hn' in
theorem eq_of_point? {c : Int64} (h : r.point? = some c) {x : Int} (hx : r.Has x) :
    x = c.toInt := by
  obtain ⟨hlo, hhi⟩ := point?_eq_some h
  obtain ⟨h1, h2⟩ := hx
  omega

omit hn hn' in
theorem Of.point {c : Int64} (h : Of n r) (hp : r.point? = some c) : (Ty.int n).Holds c.toInt :=
  (point?_eq_some hp).1 ▸ h.lo

theorem sdiv_has (hr : Of n r) {x y : Int} (hx : r.Has x) (hy : s.Has y) :
    (r.sdiv s).Has ((x.tdiv y).bmod (2 ^ n)) := by
  have hfull : (full n).Has ((x.tdiv y).bmod (2 ^ n)) := by
    refine (has_full hn (by omega)).mpr ?_
    rw [← BitVec.toInt_ofInt]
    exact Ty.holds_toInt _
  unfold sdiv
  rw [hr.bits]
  cases hp : s.point? with
  | none => exact hfull
  | some c =>
    have hy := eq_of_point? hp hy
    dsimp only
    split
    · exact hfull
    · next hc =>
      simp only [Bool.or_eq_true, decide_eq_true_eq, not_or, Int64.not_le, Int64.lt_iff_toInt_lt,
        Int64.toInt_zero] at hc
      have hle : ∀ z : Int, -2 ^ 63 ≤ z ∧ z < 2 ^ 63 → -2 ^ 63 ≤ z.tdiv c.toInt ∧
          z.tdiv c.toInt < 2 ^ 63 := by
        intro z hz
        have h1 := Int.tdiv_le_tdiv hc.1 hz.1
        have h2 := Int.tdiv_le_tdiv hc.1 (show z ≤ 2 ^ 63 - 1 by omega)
        have h3 : (2 ^ 63 - 1 : Int).tdiv c.toInt ≤ 2 ^ 63 - 1 := Int.tdiv_le_self _ (by norm_num)
        have h4 : (2 ^ 63 : Int).tdiv c.toInt ≤ 2 ^ 63 := Int.tdiv_le_self _ (by norm_num)
        rw [Int.neg_tdiv] at h1
        omega
      have h1 := hle _ (Holds.small hn' hr.lo)
      have h2 := hle _ (Holds.small hn' hr.hi)
      subst hy
      exact has_clamp_wrap hn hn' (by omega) (by omega) (Int.tdiv_le_tdiv hc.1 hx.1)
        (Int.tdiv_le_tdiv hc.1 hx.2)

theorem udiv_has (hr : Of n r) {x y : BitVec n} (hx : r.Has x.toInt)
    (hy : s.Has y.toInt) : (r.udiv s).Has (x.udiv y).toInt := by
  have hfull : (full n).Has (x.udiv y).toInt := (has_full hn (by omega)).mpr (Ty.holds_toInt _)
  unfold udiv
  split
  · next hnonneg =>
    have hx0 : 0 ≤ x.toInt := by
      have : 0 ≤ r.lo := by simpa [isNonneg] using hnonneg
      exact this.trans hx.1
    by_cases hy0 : 0 ≤ y.toInt
    · -- Both are plain numbers, and so is the quotient.
      have hxn := toNat_eq_toInt hx0
      have hyn := toNat_eq_toInt hy0
      have hq : ((x.udiv y).toNat : Int) = x.toInt.tdiv y.toInt := by
        rw [BitVec.udiv_eq, BitVec.toNat_udiv, Int.natCast_ediv, hxn, hyn,
          Int.tdiv_eq_ediv_of_nonneg hx0]
      have hle : x.toInt.tdiv y.toInt ≤ x.toInt := Int.tdiv_le_self _ hx0
      have hlt : x.toInt < 2 ^ (n - 1) := BitVec.toInt_lt
      have hval := toInt_eq_toNat hn (x := x.udiv y) (by omega)
      have hholds := Ty.holds_toInt (x.udiv y)
      have := sdiv_has hn hn' hr hx hy
      rw [← hq, ← hval, bmod_eq_of_holds hn hholds] at this
      exact this
    · -- A negative divisor is no positive constant.
      have hsdiv : r.sdiv s = full n := by
        unfold sdiv
        rw [hr.bits]
        cases hp : s.point? with
        | none => rfl
        | some c =>
          have := eq_of_point? hp hy
          have hc : c ≤ 0 := by
            rw [Int64.le_iff_toInt_le, Int64.toInt_zero]
            omega
          simp [hc]
      rw [hsdiv]
      exact hfull
  · rw [hr.bits]
    exact hfull

theorem srem_has (hr : Of n r) {x y : BitVec n} (hx : r.Has x.toInt)
    (hy : s.Has y.toInt) : (r.srem s).Has (x.srem y).toInt := by
  have hholds := Ty.holds_toInt (x.srem y)
  have hfull : (full n).Has (x.srem y).toInt := (has_full hn (by omega)).mpr hholds
  unfold srem
  rw [hr.bits]
  cases hp : s.point? with
  | none => exact hfull
  | some c =>
    have hyc := eq_of_point? hp hy
    dsimp only
    split
    · exact hfull
    · next hc =>
      simp only [Bool.or_eq_true, decide_eq_true_eq, not_or] at hc
      have hc0 : c.toInt ≠ 0 := by
        rw [← Int64.toInt_zero]
        exact fun e => hc.1 (Int64.toInt_inj.mp e)
      have habs : (x.srem y).toInt.natAbs = x.toInt.natAbs % c.toInt.natAbs := by
        rw [BitVec.toInt_srem, hyc, Int.natAbs_tmod]
      have hlt := Nat.mod_lt x.toInt.natAbs (show 0 < c.toInt.natAbs by omega)
      have hle := Nat.mod_le x.toInt.natAbs c.toInt.natAbs
      have hsign : 0 ≤ x.toInt → 0 ≤ (x.srem y).toInt := by
        rw [BitVec.toInt_srem]
        exact Int.tmod_nonneg _
      have hsign' : x.toInt ≤ 0 → (x.srem y).toInt ≤ 0 := by
        intro h
        rw [BitVec.toInt_srem]
        have := Int.tmod_nonneg y.toInt (show 0 ≤ -x.toInt by omega)
        rw [Int.neg_tmod] at this
        omega
      obtain ⟨hx1, hx2⟩ := hx
      split
      · next hnonneg =>
        have : 0 ≤ r.lo := by simpa [isNonneg] using hnonneg
        have := hsign (by omega)
        constructor
        · dsimp only
          omega
        · dsimp only
          omega
      · split
        · have := hsign' (by omega)
          constructor
          · dsimp only
            omega
          · dsimp only
            omega
        · have := has_clamp hn (show n ≤ 256 by omega)
            (show -((c.toInt.natAbs : Int) - 1) ≤ (x.srem y).toInt by omega)
            (show (x.srem y).toInt ≤ (c.toInt.natAbs : Int) - 1 by omega)
          rwa [bmod_eq_of_holds hn hholds] at this

theorem urem_has (hr : Of n r) (hs : Of n s) {x y : BitVec n} (hx : r.Has x.toInt)
    (hy : s.Has y.toInt) : (r.urem s).Has (x.umod y).toInt := by
  have hholds := Ty.holds_toInt (x.umod y)
  have hfull : (full n).Has (x.umod y).toInt := (has_full hn (by omega)).mpr hholds
  unfold urem
  rw [hr.bits]
  cases hp : s.point? with
  | none => exact hfull
  | some c =>
    have hyc := eq_of_point? hp hy
    dsimp only
    split
    · exact hfull
    · next hc =>
      simp only [Int64.not_le, Int64.lt_iff_toInt_lt, Int64.toInt_zero] at hc
      have hyn : (y.toNat : Int) = c.toInt := (toNat_eq_toInt (by omega)).trans hyc
      have hnat : (x.umod y).toNat = x.toNat % y.toNat := BitVec.toNat_umod
      have hlt := Nat.mod_lt x.toNat (show 0 < y.toNat by omega)
      have hle := Nat.mod_le x.toNat y.toNat
      have hyholds : (Ty.int n).Holds c.toInt := hs.point hp
      have hval := toInt_eq_toNat hn (x := x.umod y) (by
        have := hyholds.2
        omega)
      obtain ⟨hx1, hx2⟩ := hx
      split
      · next hnonneg =>
        have hlo : 0 ≤ r.lo := by simpa [isNonneg] using hnonneg
        have hxn := toNat_eq_toInt (show 0 ≤ x.toInt by omega)
        have := has_clamp hn (show n ≤ 256 by omega) (show 0 ≤ (x.umod y).toInt by omega)
          (show (x.umod y).toInt ≤ min (c.toInt - 1) r.hi by omega)
        rwa [bmod_eq_of_holds hn hholds] at this
      · have := has_clamp hn (show n ≤ 256 by omega) (show 0 ≤ (x.umod y).toInt by omega)
          (show (x.umod y).toInt ≤ c.toInt - 1 by omega)
        rwa [bmod_eq_of_holds hn hholds] at this

omit hn' in
theorem and_toInt {x y : BitVec n} (hx : 0 ≤ x.toInt) :
    0 ≤ (x &&& y).toInt ∧ (x &&& y).toInt ≤ x.toInt := by
  have hxn := toNat_eq_toInt hx
  have hle : (x &&& y).toNat ≤ x.toNat := by
    rw [BitVec.toNat_and]
    exact Nat.and_le_left
  have hlt : x.toInt < 2 ^ (n - 1) := BitVec.toInt_lt
  have hval := toInt_eq_toNat hn (x := x &&& y) (by omega)
  omega

theorem and_has (hr : Of n r) {x y : BitVec n} (hx : r.Has x.toInt) (hy : s.Has y.toInt) :
    (r.and s).Has (x &&& y).toInt := by
  have hleft := and_toInt hn (x := x) (y := y)
  have hright := and_toInt hn (x := y) (y := x)
  rw [BitVec.and_comm y x] at hright
  obtain ⟨hx1, hx2⟩ := hx
  obtain ⟨hy1, hy2⟩ := hy
  unfold and
  split
  · next hr0 hs0 =>
    simp only [isNonneg, decide_eq_true_eq] at hr0 hs0
    constructor <;> dsimp only <;> omega
  · next hr0 _ =>
    simp only [isNonneg, decide_eq_true_eq] at hr0
    constructor <;> dsimp only <;> omega
  · next _ hs0 =>
    simp only [isNonneg, decide_eq_true_eq] at hs0
    constructor <;> dsimp only <;> omega
  · rw [hr.bits]
    exact (has_full hn (by omega)).mpr (Ty.holds_toInt _)

omit hn hn' in
theorem lt_two_pow_bitLength (m : Nat) : m < 2 ^ bitLength m := by
  unfold bitLength
  split
  · next h => simp [h]
  · exact Nat.lt_log2_self

omit hn hn' in
theorem bitLength_le {m k : Nat} : bitLength m ≤ k ↔ m < 2 ^ k := by
  unfold bitLength
  split
  · next h => simp [h]
  · next h => rw [Nat.succ_le_iff, Nat.log2_lt h]

/-- What sets no bit above the highest one of two numbers stays below the next power of two. -/
theorem or_has (hr : Of n r) (hs : Of n s) {x y z : BitVec n} (hx : r.Has x.toInt)
    (hy : s.Has y.toInt)
    (hz : ∀ k, x.toNat < 2 ^ k → y.toNat < 2 ^ k → z.toNat < 2 ^ k) : (r.or s).Has z.toInt := by
  unfold or
  rw [hr.bits]
  split
  · next hnonneg =>
    simp only [isNonneg, Bool.and_eq_true, decide_eq_true_eq] at hnonneg
    obtain ⟨hx1, hx2⟩ := hx
    obtain ⟨hy1, hy2⟩ := hy
    have hxn := toNat_eq_toInt (show 0 ≤ x.toInt by omega)
    have hyn := toNat_eq_toInt (show 0 ≤ y.toInt by omega)
    have hmax : 0 ≤ max r.hi s.hi := by omega
    have hword : wordLength (max r.hi s.hi) = bitLength (max r.hi s.hi).toNat := by
      rw [wordLength, if_neg (by omega)]
    have hbelow := lt_two_pow_bitLength (max r.hi s.hi).toNat
    have hlen : bitLength (max r.hi s.hi).toNat ≤ n - 1 := by
      rw [bitLength_le]
      have h1 := hr.hi.2
      have h2 := hs.hi.2
      zify
      omega
    generalize bitLength (max r.hi s.hi).toNat = k at hword hbelow hlen
    have hzk := hz k (by omega) (by omega)
    have hkn := two_pow_le hlen
    have hk63 := two_pow_le (show k ≤ 63 by omega)
    have hone := one_le_two_pow k
    have hzint : (z.toNat : Int) < 2 ^ k := by exact_mod_cast hzk
    have hval := toInt_eq_toNat hn (x := z) (by omega)
    rw [hword, pow2_eq (by omega), wrap_eq (by omega) (by omega)]
    have := has_clamp hn (show n ≤ 256 by omega) (show 0 ≤ z.toInt by omega)
      (show z.toInt ≤ 2 ^ k - 1 by omega)
    rwa [bmod_eq_of_holds hn (Ty.holds_toInt z)] at this
  · exact (has_full hn (by omega)).mpr (Ty.holds_toInt _)

omit hn hn' in
theorem amount?_eq_some {k : Nat} (hr : Of n r) (h : r.amount? s = some k) {y : BitVec n}
    (hy : s.Has y.toInt) : y.toNat = k ∧ k < n := by
  unfold amount? at h
  cases hp : s.point? with
  | none => simp [hp] at h
  | some c =>
    have hyc := eq_of_point? hp hy
    simp only [hp, hr.bits, Bool.and_eq_true, decide_eq_true_eq, Option.ite_none_right_eq_some,
      Option.some.injEq] at h
    have := toNat_eq_toInt (show 0 ≤ y.toInt by omega)
    omega

theorem shl_has (hr : Of n r) {x y : BitVec n} (hx : r.Has x.toInt) (hy : s.Has y.toInt) :
    (r.shl s).Has (x <<< y.toNat).toInt := by
  unfold shl
  cases ha : r.amount? s with
  | none =>
    rw [hr.bits]
    exact (has_full hn (by omega)).mpr (Ty.holds_toInt _)
  | some k =>
    obtain ⟨hyk, hkn⟩ := amount?_eq_some hr ha hy
    have hk := two_pow_le (show k ≤ 63 by omega)
    have hone := one_le_two_pow k
    have hshift : (x <<< k).toInt = (x.toInt * 2 ^ k).bmod (2 ^ n) := by
      rw [BitVec.toInt_shiftLeft, Nat.shiftLeft_eq, BitVec.toInt_eq_toNat_bmod, Int.bmod_mul_bmod]
      push_cast
      rfl
    rw [hyk, hshift]
    dsimp only
    rw [pow2_eq (show k < 255 by omega)]
    exact mul_has hn hn' hr ⟨by dsimp only; omega, by dsimp only; omega⟩
      ⟨by dsimp only; omega, by dsimp only; omega⟩ hx ⟨le_refl _, le_refl _⟩

omit hn hn' in
theorem shiftRight_mono {a b : Int} (h : a ≤ b) (k : Nat) : a >>> k ≤ b >>> k := by
  rw [Int.shiftRight_eq_div_pow, Int.shiftRight_eq_div_pow]
  exact Int.ediv_le_ediv (by positivity) h

theorem ashr_has (hr : Of n r) {x y : BitVec n} (hx : r.Has x.toInt) (hy : s.Has y.toInt) :
    (r.ashr s).Has (x.sshiftRight y.toNat).toInt := by
  unfold ashr
  cases ha : r.amount? s with
  | none =>
    rw [hr.bits]
    exact (has_full hn (by omega)).mpr (Ty.holds_toInt _)
  | some k =>
    obtain ⟨hyk, _⟩ := amount?_eq_some hr ha hy
    rw [hyk, BitVec.toInt_sshiftRight]
    exact ⟨shiftRight_mono hx.1 k, shiftRight_mono hx.2 k⟩

theorem lshr_has (hr : Of n r) {x y : BitVec n} (hx : r.Has x.toInt) (hy : s.Has y.toInt) :
    (r.lshr s).Has (x >>> y.toNat).toInt := by
  unfold lshr
  cases ha : r.amount? s with
  | none =>
    rw [hr.bits]
    exact (has_full hn (by omega)).mpr (Ty.holds_toInt _)
  | some k =>
    obtain ⟨hyk, hkn⟩ := amount?_eq_some hr ha hy
    dsimp only
    split
    · next hnonneg =>
      have hlo : 0 ≤ r.lo := by simpa [isNonneg] using hnonneg
      have hmsb : x.msb = false := by
        rw [BitVec.msb_eq_toInt, decide_eq_false_iff_not, not_lt]
        exact hlo.trans hx.1
      rw [← BitVec.sshiftRight_eq_of_msb_false hmsb]
      exact ashr_has hn hn' hr hx hy
    · split
      · rw [hr.bits]
        exact (has_full hn (by omega)).mpr (Ty.holds_toInt _)
      · next hk =>
        have hpos : 0 < k := Nat.pos_of_ne_zero hk
        have hlt : x.toNat >>> k < 2 ^ (n - k) := by
          have := BitVec.toNat_ushiftRight_lt x k hkn.le
          rwa [BitVec.toNat_ushiftRight] at this
        have hcast : r.bits - (k : Int) = ((n - k : Nat) : Int) := by
          rw [hr.bits]
          omega
        have h63 := two_pow_le (show n - k ≤ 63 by omega)
        have hone := one_le_two_pow (n - k)
        rw [hyk, BitVec.toInt_ushiftRight_of_lt hpos, hcast, pow2_eq (by omega),
          wrap_eq (by omega) (by omega)]
        have hlt : (x.toNat : Int) >>> k < 2 ^ (n - k) := by exact_mod_cast hlt
        exact ⟨Int.natCast_nonneg (x.toNat >>> k), Int.le_sub_one_of_lt hlt⟩

end Operations

theorem signedBits_le {x : Int} (hn : 1 ≤ n) : signedBits x ≤ n ↔ (Ty.int n).Holds x := by
  have hk : signedBits x ≤ n ↔ bitLength (if x < 0 then -x - 1 else x).toNat ≤ n - 1 := by
    unfold signedBits
    omega
  rw [hk, bitLength_le, Ty.Holds]
  zify
  split
  · rw [Int.toNat_of_nonneg (by omega)]
    omega
  · rw [Int.toNat_of_nonneg (by omega)]
    have := one_le_two_pow (n - 1)
    omega

theorem fitsIn_iff (hn : 1 ≤ n) :
    r.fitsIn n = true ↔ (Ty.int n).Holds r.lo ∧ (Ty.int n).Holds r.hi := by
  rw [← signedBits_le hn, ← signedBits_le hn]
  rw [fitsIn, decide_eq_true_eq, minSignedBits]
  omega

theorem holds_of_fitsIn (hn : 1 ≤ n) (h : r.fitsIn n = true) {x : Int} (hx : r.Has x) :
    (Ty.int n).Holds x := by
  obtain ⟨hlo, hhi⟩ := (fitsIn_iff hn).mp h
  exact ⟨hlo.1.trans hx.1, hx.2.trans_lt hhi.2⟩

theorem trunc_has (hn : 1 ≤ n) (hn' : n ≤ 256) {x : Int} (hx : r.Has x) :
    (r.trunc n).Has (BitVec.ofInt n x).toInt := by
  unfold trunc
  split
  · next hfit =>
    rw [ofInt_toInt_of_holds hn (holds_of_fitsIn hn hfit hx)]
    exact hx
  · exact (has_full hn hn').mpr (Ty.holds_toInt _)

theorem of_trunc (hn : 1 ≤ n) (hn' : n ≤ 256) : Of n (r.trunc n) := by
  unfold trunc
  split
  · next hfit =>
    obtain ⟨hlo, hhi⟩ := (fitsIn_iff hn).mp hfit
    exact ⟨rfl, hlo, hhi⟩
  · exact of_full hn hn'

theorem holds_mono {m : Nat} (h : m ≤ n) {x : Int} (hx : (Ty.int m).Holds x) :
    (Ty.int n).Holds x := by
  have := two_pow_le (show m - 1 ≤ n - 1 by omega)
  obtain ⟨h1, h2⟩ := hx
  exact ⟨by omega, by omega⟩

theorem of_sext {m : Nat} (h : m ≤ n) (hr : Of m r) : Of n (r.sext n) :=
  ⟨rfl, holds_mono h hr.lo, holds_mono h hr.hi⟩

theorem zext_has {m : Nat} (hm : 1 ≤ m) (h : m < n) (hn' : n ≤ 64) (hr : Of m r) {x : Int}
    (hx : r.Has x) : (r.zext n).Has ((BitVec.ofInt m x).zeroExtend n).toInt := by
  have hholds := hr.holds hx
  have hself := ofInt_toInt_of_holds hm hholds
  have hnat : ((BitVec.ofInt m x).zeroExtend n).toNat = (BitVec.ofInt m x).toNat := by
    change (BitVec.setWidth n (BitVec.ofInt m x)).toNat = _
    rw [BitVec.toNat_setWidth]
    exact Nat.mod_eq_of_lt ((BitVec.ofInt m x).isLt.trans (Nat.pow_lt_pow_right (by decide) h))
  have hlt : ((BitVec.ofInt m x).toNat : Int) < 2 ^ m := by exact_mod_cast (BitVec.ofInt m x).isLt
  have hmn := two_pow_le (show m ≤ n - 1 by omega)
  have hval := toInt_eq_toNat (by omega) (x := (BitVec.ofInt m x).zeroExtend n) (by omega)
  rw [hval, hnat]
  unfold zext
  split
  · next hnonneg =>
    have hlo : 0 ≤ r.lo := by simpa [isNonneg] using hnonneg
    rw [toNat_eq_toInt (by rw [hself]; exact hlo.trans hx.1), hself]
    exact hx
  · have h63 := two_pow_le (show m ≤ 63 by omega)
    have hone := one_le_two_pow m
    rw [hr.bits, pow2_eq (by omega), wrap_eq (by omega) (by omega)]
    have := has_clamp (show 1 ≤ n by omega) (show n ≤ 256 by omega)
      (show 0 ≤ ((BitVec.ofInt m x).toNat : Int) by omega)
      (show ((BitVec.ofInt m x).toNat : Int) ≤ 2 ^ m - 1 by omega)
    rwa [bmod_eq_of_holds (by omega) ⟨by omega, by omega⟩] at this

section Bounds

variable (hn : 1 ≤ n) (hn' : n ≤ 64)

include hn hn'

theorem of_sdiv (hr : Of n r) : Of n (r.sdiv s) := by
  unfold sdiv
  rw [hr.bits]
  cases s.point? with
  | none => exact of_full hn (by omega)
  | some c =>
    dsimp only
    split
    · exact of_full hn (by omega)
    · exact of_clamp hn (by omega) _ _

theorem of_srem (hr : Of n r) : Of n (r.srem s) := by
  have hpos := one_le_two_pow (n - 1)
  obtain ⟨hlo1, hlo2⟩ := hr.lo
  obtain ⟨hhi1, hhi2⟩ := hr.hi
  unfold srem
  rw [hr.bits]
  cases s.point? with
  | none => exact of_full hn (by omega)
  | some c =>
    dsimp only
    split
    · exact of_full hn (by omega)
    · next hc =>
      simp only [Bool.or_eq_true, decide_eq_true_eq, not_or] at hc
      have hc0 : c.toInt ≠ 0 := by
        rw [← Int64.toInt_zero]
        exact fun e => hc.1 (Int64.toInt_inj.mp e)
      split
      · refine ⟨rfl, ⟨?_, ?_⟩, ⟨?_, ?_⟩⟩ <;> dsimp only <;> omega
      · split
        · refine ⟨rfl, ⟨?_, ?_⟩, ⟨?_, ?_⟩⟩ <;> dsimp only <;> omega
        · exact of_clamp hn (by omega) _ _

theorem of_urem (hr : Of n r) : Of n (r.urem s) := by
  unfold urem
  rw [hr.bits]
  cases s.point? with
  | none => exact of_full hn (by omega)
  | some c =>
    dsimp only
    split
    · exact of_full hn (by omega)
    · exact of_clamp hn (by omega) _ _

theorem of_and (hr : Of n r) (hs : Of n s) : Of n (r.and s) := by
  have hpos := one_le_two_pow (n - 1)
  obtain ⟨hr1, hr2⟩ := hr.hi
  obtain ⟨hs1, hs2⟩ := hs.hi
  unfold and
  split
  · refine ⟨hr.bits, ⟨?_, ?_⟩, ⟨?_, ?_⟩⟩ <;> dsimp only <;> omega
  · refine ⟨hr.bits, ⟨?_, ?_⟩, ⟨?_, ?_⟩⟩ <;> dsimp only <;> omega
  · refine ⟨hr.bits, ⟨?_, ?_⟩, ⟨?_, ?_⟩⟩ <;> dsimp only <;> omega
  · rw [hr.bits]
    exact of_full hn (by omega)

theorem of_or (hr : Of n r) : Of n (r.or s) := by
  unfold or
  rw [hr.bits]
  split
  · exact of_clamp hn (by omega) _ _
  · exact of_full hn (by omega)

theorem of_mul (hr : Of n r) : Of n (r.mul s) := by
  rw [mul, if_neg (not_wide hn hn' hr), hr.bits]
  exact of_clamp hn (by omega) _ _

theorem of_shl (hr : Of n r) : Of n (r.shl s) := by
  unfold shl
  cases r.amount? s with
  | none =>
    rw [hr.bits]
    exact of_full hn (by omega)
  | some k => exact of_mul hn hn' hr

omit hn hn' in
theorem holds_shiftRight {x : Int} (h : (Ty.int n).Holds x) (k : Nat) : (Ty.int n).Holds (x >>> k) := by
  obtain ⟨h1, h2⟩ := h
  have hB := one_le_two_pow (n - 1)
  have hk : (1 : Int) ≤ 2 ^ k := one_le_two_pow k
  rw [Int.shiftRight_eq_div_pow]
  push_cast
  constructor
  · rw [Int.le_ediv_iff_mul_le (by omega)]
    nlinarith
  · rw [Int.ediv_lt_iff_lt_mul (by omega)]
    nlinarith

theorem of_ashr (hr : Of n r) : Of n (r.ashr s) := by
  unfold ashr
  cases r.amount? s with
  | none =>
    rw [hr.bits]
    exact of_full hn (by omega)
  | some k => exact ⟨hr.bits, holds_shiftRight hr.lo k, holds_shiftRight hr.hi k⟩

theorem of_lshr (hr : Of n r) : Of n (r.lshr s) := by
  unfold lshr
  cases ha : r.amount? s with
  | none =>
    rw [hr.bits]
    exact of_full hn (by omega)
  | some k =>
    dsimp only
    split
    · exact of_ashr hn hn' hr
    · split
      · rw [hr.bits]
        exact of_full hn (by omega)
      · next hk =>
        have hkn : (k : Int) < n := by
          unfold amount? at ha
          cases hp : s.point? with
          | none => simp [hp] at ha
          | some c =>
            simp only [hp, hr.bits, Bool.and_eq_true, decide_eq_true_eq,
              Option.ite_none_right_eq_some, Option.some.injEq] at ha
            omega
        have hcast : r.bits - (k : Int) = ((n - k : Nat) : Int) := by
          rw [hr.bits]
          omega
        have h63 := two_pow_le (show n - k ≤ 63 by omega)
        have hle := two_pow_le (show n - k ≤ n - 1 by omega)
        have hone := one_le_two_pow (n - k)
        have hpos := one_le_two_pow (n - 1)
        rw [hcast, pow2_eq (by omega), wrap_eq (by omega) (by omega)]
        refine ⟨hr.bits, ⟨?_, ?_⟩, ⟨?_, ?_⟩⟩ <;> dsimp only <;> omega

end Bounds

theorem of_zext {m : Nat} (h : m < n) (hn' : n ≤ 64) (hr : Of m r) : Of n (r.zext n) := by
  unfold zext
  split
  · exact of_sext h.le hr
  · exact of_clamp (by omega) (by omega) _ _

end RegPressure.Interval
