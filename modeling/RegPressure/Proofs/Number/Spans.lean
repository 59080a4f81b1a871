import Mathlib.Algebra.Order.Field.Power
import Mathlib.Data.Nat.Init
import Mathlib.Data.Rat.Cast.Order
import Mathlib.Tactic.Linarith
import Mathlib.Tactic.LinearCombination
import Mathlib.Tactic.Positivity
import Mathlib.Tactic.Ring
import RegPressure.Number.Binary64

namespace RegPressure.Binary64

variable {neg : Bool} {m : Nat} {x : Binary64}

theorem toNat_assemble (h : m < signBit) :
    (assemble neg m).bits.toNat = (if neg then signBit else 0) + m := by
  refine UInt64.toNat_ofNat_of_lt ?_
  change _ < 2 ^ 64
  unfold signBit at *
  split <;> omega

theorem isNaN_assemble (h : m ≤ 2047 * hiddenBit) : (assemble neg m).isNaN = false := by
  refine Bool.and_eq_false_iff.mpr ?_
  rw [decide_eq_false_iff_not, decide_eq_false_iff_not, biased, fraction,
    toNat_assemble (Nat.lt_of_le_of_lt h (by decide))]
  unfold signBit
  unfold hiddenBit at h ⊢
  split
  · omega
  · omega

theorem isNaN_infinity (neg : Bool) : (infinity neg).isNaN = false := isNaN_assemble (Nat.le_refl _)

theorem isNaN_ofRatio (neg : Bool) (num den : Nat) : (ofRatio neg num den).isNaN = false := by
  obtain ⟨m, hm⟩ : ∃ m, ofRatio neg num den =
      if 2047 * hiddenBit ≤ m then infinity neg else assemble neg m := ⟨_, rfl⟩
  rw [hm]
  split
  · exact isNaN_infinity neg
  · next h => exact isNaN_assemble (Nat.le_of_not_le h)

theorem isNaN_ofInt (n : Int) : (ofInt n).isNaN = false := by
  unfold ofInt
  split
  · rfl
  · exact isNaN_ofRatio _ _ _

theorem isNaN_ofScientific (neg : Bool) (digits : Nat) (e : Int) :
    (ofScientific neg digits e).isNaN = false := by
  unfold ofScientific
  dsimp only
  split
  · exact isNaN_assemble (Nat.zero_le _)
  · split
    · exact isNaN_infinity neg
    · split
      · exact isNaN_ofRatio _ _ _
      · exact isNaN_ofRatio _ _ _

theorem isNaN_of_unsigned? {bs : Bytes} (h : unsigned? neg bs = some x) : x.isNaN = false := by
  have hscientific : ∀ {c : Prop} [Decidable c] {exp : Option Int} {n : Nat} {k : Int},
      (if c then none else exp.map fun e => ofScientific neg n (e - k)) = some x → x.isNaN = false := by
    intro c _ exp n k h
    obtain ⟨-, h⟩ := Option.ite_none_left_eq_some.mp h
    obtain ⟨e, -, rfl⟩ := Option.map_eq_some_iff.mp h
    exact isNaN_ofScientific _ _ _
  exact hscientific h

theorem isNaN_of_decimal? {bs : Bytes} (h : decimal? bs = some x) : x.isNaN = false := by
  unfold decimal? at h
  obtain ⟨hx, -⟩ := Option.filter_eq_some_iff.mp h
  split at hx
  · exact isNaN_of_unsigned? hx
  · exact isNaN_of_unsigned? hx
  · exact isNaN_of_unsigned? hx

theorem finite_decimal (bs : Bytes) : ((decimal? bs).getD .zero).isNaN = false ∧
    ((decimal? bs).getD .zero).isInfinite = false := by
  cases h : decimal? bs with
  | none => exact ⟨rfl, rfl⟩
  | some x =>
    have hfinite := (Option.filter_eq_some_iff.mp h).2
    exact ⟨isNaN_of_decimal? h, by simpa using hfinite⟩

/-! ### Spans -/

/-- The place of a number among those of its sign, by size. -/
def place (x : Binary64) : Nat := x.bits.toNat % signBit

theorem biased_eq_place (x : Binary64) : x.biased = x.place / hiddenBit := by
  unfold biased place hiddenBit signBit
  omega

theorem fraction_eq_place (x : Binary64) : x.fraction = x.place % hiddenBit := by
  unfold fraction place hiddenBit signBit
  omega

theorem eq_of_place {x y : Binary64} (hsign : x.isNegative = y.isNegative) (h : x.place = y.place) :
    x = y := by
  have hx := x.bits.toNat_lt
  have hy := y.bits.toNat_lt
  unfold isNegative signBit at hsign
  unfold place signBit at h
  have hbits : x.bits.toNat = y.bits.toNat := by
    by_cases hneg : 9223372036854775808 ≤ x.bits.toNat
    · have := of_decide_eq_true (hsign ▸ decide_eq_true hneg)
      omega
    · have := of_decide_eq_false (hsign ▸ decide_eq_false hneg)
      omega
  exact congrArg Binary64.mk (UInt64.toNat_inj.mp hbits)

def mantissaAt (n : Nat) : Nat :=
  if n / hiddenBit = 0 then n % hiddenBit else hiddenBit + n % hiddenBit

def quarterAt (n : Nat) : Int := (if n / hiddenBit = 0 then 1 else n / hiddenBit : Nat) - 1077

def belowAt (n : Nat) : Nat := if n % hiddenBit = 0 ∧ 1 < n / hiddenBit then 1 else 2

def lowAt (n : Nat) : ℚ := (4 * mantissaAt n - belowAt n) * 2 ^ quarterAt n

def highAt (n : Nat) : ℚ := (4 * mantissaAt n + 2) * 2 ^ quarterAt n

theorem lowAt_lt_highAt (n : Nat) : lowAt n < highAt n := by
  have hpos : (0 : ℚ) < 2 ^ quarterAt n := by positivity
  have hbelow : (0 : ℚ) ≤ belowAt n := Nat.cast_nonneg _
  exact mul_lt_mul_of_pos_right (by linarith) hpos

/-- Where a span ends the next one begins. -/
theorem highAt_eq_lowAt_succ (n : Nat) : highAt n = lowAt (n + 1) := by
  have hdiv : n = n / hiddenBit * hiddenBit + n % hiddenBit := (Nat.div_add_mod' n hiddenBit).symm
  have hmod : n % hiddenBit < hiddenBit := Nat.mod_lt _ (by decide)
  by_cases hlast : n % hiddenBit + 1 = hiddenBit
  · have hnext : (n + 1) / hiddenBit = n / hiddenBit + 1 ∧ (n + 1) % hiddenBit = 0 := by
      unfold hiddenBit at *
      omega
    by_cases hsmall : n / hiddenBit = 0
    · have hmantissa : mantissaAt (n + 1) = mantissaAt n + 1 := by
        simp only [mantissaAt, hnext, hsmall, Nat.zero_add, if_true]
        rw [if_neg Nat.one_ne_zero, Nat.add_zero, hlast]
      have hbelow : belowAt (n + 1) = 2 := if_neg (by rw [hnext.1, hsmall]; omega)
      have hquarter : quarterAt (n + 1) = quarterAt n := by
        simp only [quarterAt, hnext, hsmall, Nat.zero_add, if_true]
        rw [if_neg Nat.one_ne_zero]
      rw [highAt, lowAt, hmantissa, hbelow, hquarter]
      push_cast
      ring
    · have hmantissa : 2 * mantissaAt (n + 1) = mantissaAt n + 1 := by
        simp only [mantissaAt, hnext, if_neg hsmall]
        rw [if_neg (Nat.succ_ne_zero _)]
        omega
      have hbelow : belowAt (n + 1) = 1 :=
        if_pos ⟨hnext.2, by rw [hnext.1]; exact Nat.succ_lt_succ (Nat.pos_of_ne_zero hsmall)⟩
      have hquarter : quarterAt (n + 1) = quarterAt n + 1 := by
        simp only [quarterAt, hnext, if_neg hsmall]
        rw [if_neg (Nat.succ_ne_zero _)]
        push_cast
        ring
      have hcast : (2 : ℚ) * mantissaAt (n + 1) = mantissaAt n + 1 := by exact_mod_cast hmantissa
      rw [highAt, lowAt, hbelow, hquarter, zpow_add_one₀ two_ne_zero]
      push_cast
      linear_combination -4 * 2 ^ quarterAt n * hcast
  · have hnext : (n + 1) / hiddenBit = n / hiddenBit ∧ (n + 1) % hiddenBit = n % hiddenBit + 1 := by
      unfold hiddenBit at *
      omega
    have hmantissa : mantissaAt (n + 1) = mantissaAt n + 1 := by
      simp only [mantissaAt, hnext]
      split <;> omega
    have hbelow : belowAt (n + 1) = 2 := if_neg (by rw [hnext.2]; omega)
    have hquarter : quarterAt (n + 1) = quarterAt n := by
      simp only [quarterAt, hnext]
    rw [highAt, lowAt, hmantissa, hbelow, hquarter]
    push_cast
    ring

theorem mantissaAt_succ_mod_two (n : Nat) : mantissaAt (n + 1) % 2 ≠ mantissaAt n % 2 := by
  unfold mantissaAt hiddenBit
  split <;> split <;> omega

theorem lowAt_strictMono : StrictMono lowAt :=
  strictMono_nat_of_lt_succ fun n => highAt_eq_lowAt_succ n ▸ lowAt_lt_highAt n

/-- The span at a place takes in a rational. -/
def Holds (n : Nat) (v : ℚ) : Prop :=
  if mantissaAt n % 2 = 0 then lowAt n ≤ v ∧ v ≤ highAt n else lowAt n < v ∧ v < highAt n

variable {n k : Nat} {v : ℚ}

theorem Holds.bounds (h : Holds n v) : lowAt n ≤ v ∧ v ≤ highAt n := by
  unfold Holds at h
  split at h
  · exact h
  · exact ⟨h.1.le, h.2.le⟩

/-- The spans of different places share at most an end, and only one of them takes that in. -/
theorem Holds.not_lt (hn : Holds n v) (hk : Holds k v) : ¬ n < k := by
  intro hlt
  have hhigh : v ≤ lowAt (n + 1) := highAt_eq_lowAt_succ n ▸ hn.bounds.2
  have hmid : lowAt (n + 1) ≤ lowAt k := lowAt_strictMono.monotone hlt
  have hlow : lowAt k ≤ v := hk.bounds.1
  have hend : v = lowAt (n + 1) := le_antisymm hhigh (hmid.trans hlow)
  have hnext : n + 1 = k := lowAt_strictMono.injective (le_antisymm hmid (hlow.trans hhigh))
  subst hnext
  unfold Holds at hn hk
  have hparity := mantissaAt_succ_mod_two n
  split at hn
  · next heven =>
    rw [if_neg (by omega)] at hk
    exact absurd hend hk.1.ne'
  · exact absurd (hend.trans (highAt_eq_lowAt_succ n).symm) hn.2.ne

theorem Holds.unique (hn : Holds n v) (hk : Holds k v) : n = k :=
  Nat.le_antisymm (Nat.le_of_not_lt (hk.not_lt hn)) (Nat.le_of_not_lt (hn.not_lt hk))

/-! ### Rounding -/

variable {num den : Nat} {w : ℚ}

def Rounds (m : Nat) (below w : ℚ) : Prop :=
  if m % 2 = 0 then m - below ≤ w ∧ w ≤ m + 1 / 2 else m - below < w ∧ w < m + 1 / 2

theorem Rounds.bounds {below : ℚ} (h : Rounds m below w) : m - below ≤ w ∧ w ≤ m + 1 / 2 := by
  unfold Rounds at h
  split at h
  · exact h
  · exact ⟨h.1.le, h.2.le⟩

theorem rounds_roundDiv (num : Nat) (hden : 0 < den) :
    Rounds (roundDiv num den) (1 / 2) ((num : ℚ) / den) := by
  have hpos : (0 : ℚ) < den := Nat.cast_pos.mpr hden
  have hw : (num : ℚ) / den = (num / den : Nat) + (num % den : Nat) / (den : ℚ) := by
    rw [div_eq_iff hpos.ne', add_mul, div_mul_cancel₀ _ hpos.ne']
    exact_mod_cast (Nat.div_add_mod' num den).symm
  have hnonneg : (0 : ℚ) ≤ (num % den : Nat) / (den : ℚ) := by positivity
  have hone : (num % den : Nat) / (den : ℚ) < 1 :=
    (div_lt_one hpos).mpr (Nat.cast_lt.mpr (Nat.mod_lt num hden))
  have hlt : 2 * (num % den) < den ↔ (num % den : Nat) / (den : ℚ) < 1 / 2 := by
    rw [div_lt_div_iff₀ hpos two_pos, one_mul, mul_comm]
    exact_mod_cast Iff.rfl
  have heq : 2 * (num % den) = den ↔ (num % den : Nat) / (den : ℚ) = 1 / 2 := by
    rw [div_eq_div_iff hpos.ne' two_ne_zero, one_mul, mul_comm]
    exact_mod_cast Iff.rfl
  have hround : roundDiv num den =
      if 2 * (num % den) < den ∨ (2 * (num % den) = den ∧ num / den % 2 = 0) then num / den
      else num / den + 1 := by
    simp [roundDiv]
  rw [hw, hround]
  generalize ((num % den : Nat) : ℚ) / den = t at hnonneg hone hlt heq ⊢
  unfold Rounds
  split
  · next hdown =>
    have hle : t ≤ 1 / 2 := hdown.elim (fun h => (hlt.mp h).le) fun h => (heq.mp h.1).le
    split
    · exact ⟨by linarith, by linarith⟩
    · next hodd =>
      have := hlt.mp (hdown.resolve_right fun h => hodd h.2)
      exact ⟨by linarith, by linarith⟩
  · next hup =>
    rw [not_or, not_and] at hup
    have hge : 1 / 2 ≤ t := not_lt.mp fun h => hup.1 (hlt.mpr h)
    have hsucc : ((num / den + 1 : Nat) : ℚ) = (num / den : Nat) + 1 := Nat.cast_succ _
    split
    · exact ⟨by linarith, by linarith⟩
    · next hodd =>
      have hhalf : t ≠ 1 / 2 := fun h => hup.2 (heq.mpr h) (by omega)
      have := lt_of_le_of_ne hge hhalf.symm
      exact ⟨by linarith, by linarith⟩

theorem log2_bounds (hnum : 0 < num) (hden : 0 < den) :
    (2 : ℚ) ^ ((num.log2 : Int) - den.log2 - 1) ≤ (num : ℚ) / den ∧
      (num : ℚ) / den < 2 ^ ((num.log2 : Int) - den.log2 + 1) := by
  have hpos : (0 : ℚ) < den := Nat.cast_pos.mpr hden
  have hnum : ((2 ^ num.log2 : Nat) : ℚ) ≤ num ∧ (num : ℚ) < (2 ^ (num.log2 + 1) : Nat) :=
    ⟨Nat.cast_le.mpr (Nat.log2_self_le hnum.ne'), Nat.cast_lt.mpr Nat.lt_log2_self⟩
  have hden : ((2 ^ den.log2 : Nat) : ℚ) ≤ den ∧ (den : ℚ) < (2 ^ (den.log2 + 1) : Nat) :=
    ⟨Nat.cast_le.mpr (Nat.log2_self_le hden.ne'), Nat.cast_lt.mpr Nat.lt_log2_self⟩
  push_cast [← zpow_natCast] at hnum hden
  constructor
  · rw [le_div_iff₀ hpos]
    calc (2 : ℚ) ^ ((num.log2 : Int) - den.log2 - 1) * den
        ≤ 2 ^ ((num.log2 : Int) - den.log2 - 1) * 2 ^ ((den.log2 : Int) + 1) :=
          mul_le_mul_of_nonneg_left hden.2.le (by positivity)
      _ = 2 ^ (num.log2 : Int) := by
        rw [← zpow_add₀ two_ne_zero]
        congr 1
        ring
      _ ≤ num := hnum.1
  · rw [div_lt_iff₀ hpos]
    calc (num : ℚ) < 2 ^ ((num.log2 : Int) + 1) := hnum.2
      _ = 2 ^ ((num.log2 : Int) - den.log2 + 1) * 2 ^ (den.log2 : Int) := by
        rw [← zpow_add₀ two_ne_zero]
        congr 1
        ring
      _ ≤ _ := mul_le_mul_of_nonneg_left hden.1 (by positivity)

theorem pow_le_iff (hden : 0 < den) (e : Int) : (2 : ℚ) ^ e ≤ (num : ℚ) / den ↔
    if 0 ≤ e then den * Nat.pow 2 e.toNat ≤ num else den ≤ num * Nat.pow 2 (-e).toNat := by
  have hpos : (0 : ℚ) < den := Nat.cast_pos.mpr hden
  rw [le_div_iff₀ hpos]
  split
  · next hsign =>
    obtain ⟨n, rfl⟩ := Int.eq_ofNat_of_zero_le hsign
    rw [zpow_natCast, mul_comm]
    exact_mod_cast Iff.rfl
  · next hsign =>
    obtain ⟨n, rfl⟩ : ∃ n : Nat, e = -n := ⟨(-e).toNat, by omega⟩
    rw [zpow_neg, zpow_natCast, inv_mul_le_iff₀ (by positivity), neg_neg, mul_comm]
    exact_mod_cast Iff.rfl

theorem scale_spec (hnum : 0 < num) (hden : 0 < den) :
    (2 : ℚ) ^ scale num den ≤ (num : ℚ) / den ∧ (num : ℚ) / den < 2 ^ (scale num den + 1) := by
  obtain ⟨hlow, hhigh⟩ := log2_bounds hnum hden
  obtain ⟨e, he⟩ : ∃ e : Int, e = num.log2 - den.log2 := ⟨_, rfl⟩
  rw [← he] at hlow hhigh
  by_cases hreaches : (2 : ℚ) ^ e ≤ (num : ℚ) / den
  · have hscale : scale num den = e := by
      rw [scale, ← he]
      simpa using (pow_le_iff hden e).mp hreaches
    exact hscale ▸ ⟨hreaches, hhigh⟩
  · have hscale : scale num den = e - 1 := by
      rw [scale, ← he]
      simpa using fun h => absurd ((pow_le_iff hden e).mpr h) hreaches
    rw [hscale, sub_add_cancel]
    exact ⟨hlow, lt_of_not_ge hreaches⟩

theorem holds_iff : Holds n (w * 2 ^ (quarterAt n + 2)) ↔ Rounds (mantissaAt n) (belowAt n / 4) w := by
  have hpos : (0 : ℚ) < 2 ^ (quarterAt n + 2) := by positivity
  have hends : lowAt n = (mantissaAt n - belowAt n / 4) * 2 ^ (quarterAt n + 2) ∧
      highAt n = (mantissaAt n + 1 / 2) * 2 ^ (quarterAt n + 2) := by
    rw [lowAt, highAt, zpow_add₀ two_ne_zero]
    constructor
    · ring
    · ring
  rw [Holds, Rounds, hends.1, hends.2, mul_le_mul_iff_left₀ hpos, mul_le_mul_iff_left₀ hpos,
    mul_lt_mul_iff_left₀ hpos, mul_lt_mul_iff_left₀ hpos]

theorem holds_place {f : Nat} (hf : f < hiddenBit) {q : Int} (hq : q + 1075 = (if k = 0 then 1 else k : Nat))
    (h : Rounds (if k = 0 then f else hiddenBit + f) (if f = 0 ∧ 1 < k then 1 / 4 else 1 / 2) w) :
    Holds (k * hiddenBit + f) (w * 2 ^ q) := by
  have hdiv : (k * hiddenBit + f) / hiddenBit = k ∧ (k * hiddenBit + f) % hiddenBit = f := by
    unfold hiddenBit at *
    omega
  have hquarter : quarterAt (k * hiddenBit + f) + 2 = q := by
    rw [quarterAt, hdiv.1, ← hq]
    ring
  have hbelow : (belowAt (k * hiddenBit + f) : ℚ) / 4 = if f = 0 ∧ 1 < k then 1 / 4 else 1 / 2 := by
    rw [belowAt, hdiv.1, hdiv.2]
    split <;> norm_num
  rw [← hquarter, holds_iff, mantissaAt, hdiv.1, hdiv.2, hbelow]
  exact h

/-- A rounded mantissa, put behind the exponent, is the place whose span takes the rational in. A carry
out of the mantissa goes to the exponent. -/
theorem Rounds.holds (h : Rounds m (1 / 2) w) (hlt : w < 2 * hiddenBit)
    (hfull : 0 < k → hiddenBit ≤ w) :
    Holds (k * hiddenBit + m) (w * 2 ^ ((k : Int) - 1074)) := by
  obtain ⟨hlow, hhigh⟩ := h.bounds
  have hmost : m ≤ 2 * hiddenBit := by
    have : (m : ℚ) < (2 * hiddenBit + 1 : Nat) := by
      push_cast
      linarith
    exact Nat.le_of_lt_succ (Nat.cast_lt.mp this)
  rcases Nat.lt_or_ge m hiddenBit with hsmall | hlarge
  · obtain rfl : k = 0 := by
      refine Nat.eq_zero_of_not_pos fun hk => ?_
      have : (hiddenBit : ℚ) < (m + 1 : Nat) := by
        push_cast
        linarith [hfull hk]
      exact Nat.not_lt.mpr (Nat.le_of_lt_succ (Nat.cast_lt.mp this)) hsmall
    -- Below the hidden bit there are only the numbers with the least exponent.
    exact holds_place hsmall rfl (by simpa using h)
  · rcases Nat.lt_or_ge m (2 * hiddenBit) with hfits | hcarry
    · obtain ⟨f, rfl⟩ := Nat.exists_eq_add_of_le hlarge
      have hplace : Rounds (hiddenBit + f) (if f = 0 ∧ 1 < k + 1 then 1 / 4 else 1 / 2) w := by
        split
        · next hfirst =>
          obtain ⟨rfl, hk⟩ := hfirst
          have := hfull (Nat.lt_of_succ_lt_succ hk)
          rw [Rounds, if_pos (by decide), Nat.add_zero] at h ⊢
          exact ⟨by linarith, h.2⟩
        · exact h
      rw [show k * hiddenBit + (hiddenBit + f) = (k + 1) * hiddenBit + f by ring]
      refine holds_place (by omega) ?_ hplace
      rw [if_neg (Nat.succ_ne_zero k)]
      push_cast
      ring
    · -- Rounding carried into the next exponent, of which this is the first number.
      obtain rfl : m = 2 * hiddenBit := Nat.le_antisymm hmost hcarry
      have hplace : Rounds hiddenBit (1 / 4) (w / 2) := by
        rw [Rounds, if_pos (by decide)] at h ⊢
        push_cast at h
        exact ⟨by linarith, by linarith⟩
      rw [show k * hiddenBit + 2 * hiddenBit = (k + 2) * hiddenBit + 0 by ring,
        show w * 2 ^ ((k : Int) - 1074) = w / 2 * 2 ^ ((k : Int) - 1073) by
          rw [show (k : Int) - 1073 = k - 1074 + 1 by ring, zpow_add_one₀ two_ne_zero]
          ring]
      refine holds_place (by decide) ?_ ?_
      · rw [if_neg (Nat.succ_ne_zero _)]
        push_cast
        ring
      · rwa [if_neg (Nat.succ_ne_zero _), if_pos ⟨rfl, by omega⟩]

theorem rounds_scaled (num : Nat) (hden : 0 < den) (q : Int) :
    Rounds (if 0 ≤ q then roundDiv num (den * Nat.pow 2 q.toNat) else roundDiv (num * Nat.pow 2 (-q).toNat) den)
      (1 / 2) (num / den / 2 ^ q) := by
  split
  · next hq =>
    obtain ⟨n, rfl⟩ := Int.eq_ofNat_of_zero_le hq
    have h := rounds_roundDiv num (Nat.mul_pos hden (Nat.two_pow_pos n))
    rw [Nat.cast_mul, ← div_div, Nat.cast_pow] at h
    exact h
  · next hq =>
    obtain ⟨n, rfl⟩ : ∃ n : Nat, q = -n := ⟨(-q).toNat, by omega⟩
    have h := rounds_roundDiv (num * 2 ^ n) hden
    rw [Nat.cast_mul, Nat.cast_pow] at h
    rw [neg_neg, zpow_neg, zpow_natCast, div_inv_eq_mul, div_mul_eq_mul_div]
    exact h

/-- A fraction becomes the number whose span takes it in, or an infinity if there is none. -/
theorem exists_ofRatio (neg : Bool) (hnum : 0 < num) (hden : 0 < den) : ∃ n, Holds n ((num : ℚ) / den) ∧
    ofRatio neg num den = if 2047 * hiddenBit ≤ n then infinity neg else assemble neg n := by
  obtain ⟨hlow, hhigh⟩ := scale_spec hnum hden
  obtain ⟨q, hq⟩ : ∃ q, q = max (scale num den - 52) (-1074) := ⟨_, rfl⟩
  obtain ⟨k, hk⟩ : ∃ k : Nat, q = k - 1074 := ⟨(q + 1074).toNat, by omega⟩
  have hround := rounds_scaled num hden q
  generalize hm : (if 0 ≤ q then roundDiv num (den * Nat.pow 2 q.toNat)
    else roundDiv (num * Nat.pow 2 (-q).toNat) den) = m at hround
  have hpos : (0 : ℚ) < 2 ^ q := by positivity
  have hlt : (num : ℚ) / den / 2 ^ q < 2 * hiddenBit := by
    rw [div_lt_iff₀ hpos]
    calc (num : ℚ) / den < 2 ^ (scale num den + 1) := hhigh
      _ ≤ 2 ^ (53 + q) := zpow_le_zpow_right₀ one_le_two (by omega)
      _ = 2 * hiddenBit * 2 ^ q := by
        rw [zpow_add₀ two_ne_zero]
        norm_num [hiddenBit]
  have hfull : 0 < k → (hiddenBit : ℚ) ≤ num / den / 2 ^ q := by
    intro hk'
    rw [le_div_iff₀ hpos]
    calc (hiddenBit : ℚ) * 2 ^ q = 2 ^ (52 + q) := by
          rw [zpow_add₀ two_ne_zero]
          norm_num [hiddenBit]
      _ = 2 ^ scale num den := by
        congr 1
        omega
      _ ≤ num / den := hlow
  refine ⟨k * hiddenBit + m, ?_, ?_⟩
  · have hholds := hround.holds hlt hfull
    rwa [← hk, div_mul_cancel₀ _ hpos.ne'] at hholds
  · rw [ofRatio, ← hq, show (q + 1074).toNat = k by omega, hm]

theorem isNegative_assemble (h : m < signBit) : (assemble neg m).isNegative = neg := by
  rw [isNegative, toNat_assemble h]
  cases neg with
  | true => simp
  | false => simpa using h

theorem place_assemble (h : m < signBit) : (assemble neg m).place = m := by
  rw [place, toNat_assemble h]
  cases neg with
  | true => simp [Nat.mod_eq_of_lt h]
  | false => simp [Nat.mod_eq_of_lt h]

theorem place_lt (hnan : x.isNaN = false) (hinf : x.isInfinite = false) : x.place < 2047 * hiddenBit := by
  simp only [isNaN, isInfinite, Bool.and_eq_false_iff, decide_eq_false_iff_not, ne_eq, not_not] at hnan hinf
  have hbiased : x.biased ≠ 2047 := hnan.elim id fun h => hinf.resolve_right (not_not.mpr h)
  have hmost : x.place < signBit := Nat.mod_lt _ (by decide)
  rw [biased_eq_place] at hbiased
  unfold signBit at hmost
  unfold hiddenBit at *
  omega

theorem ofRatio_eq (hnum : 0 < num) (hden : 0 < den) (hx : Holds x.place ((num : ℚ) / den))
    (hlt : x.place < 2047 * hiddenBit) : ofRatio x.isNegative num den = x := by
  obtain ⟨n, hn, he⟩ := exists_ofRatio x.isNegative hnum hden
  obtain rfl := hn.unique hx
  rw [he, if_neg (Nat.not_le.mpr hlt)]
  have hmost : x.place < signBit := Nat.lt_trans hlt (by decide)
  exact eq_of_place (isNegative_assemble hmost) (place_assemble hmost)

theorem isInfinite_of_place_lt (h : x.place < 2047 * hiddenBit) : x.isInfinite = false := by
  have hbiased : x.biased ≠ 2047 := by
    rw [biased_eq_place]
    unfold hiddenBit at *
    omega
  simp [isInfinite, hbiased]

theorem lowAt_infinity : lowAt (2047 * hiddenBit) = ((4 * hiddenBit - 1) * 2 ^ 970 : Nat) := by
  obtain ⟨hmantissa, hbelow, hquarter⟩ : mantissaAt (2047 * hiddenBit) = hiddenBit ∧
      belowAt (2047 * hiddenBit) = 1 ∧ quarterAt (2047 * hiddenBit) = 970 := by
    decide
  rw [lowAt, hmantissa, hbelow, hquarter, zpow_ofNat, Nat.cast_mul, Nat.cast_sub (by decide), Nat.cast_mul,
    Nat.cast_pow, Nat.cast_one, Nat.cast_ofNat, Nat.cast_ofNat]

/-- A word as a floating number is finite. -/
theorem finite_ofInt (n : Int64) : (ofInt n.toInt).isNaN = false ∧ (ofInt n.toInt).isInfinite = false := by
  refine ⟨isNaN_ofInt _, ?_⟩
  unfold ofInt
  split
  · rfl
  · next hne =>
    obtain ⟨p, hp, he⟩ := exists_ofRatio (n.toInt < 0) (Int.natAbs_pos.mpr hne) Nat.one_pos
    have hlt : p < 2047 * hiddenBit := by
      by_contra hle
      have hword : n.toInt.natAbs < 2 ^ 64 := by
        have hlow := n.le_toInt
        have hhigh := n.toInt_lt
        omega
      have hlarge : 2 ^ 64 < (4 * hiddenBit - 1) * 2 ^ 970 := by decide +kernel
      have hspan := (lowAt_strictMono.monotone (Nat.le_of_not_lt hle)).trans hp.bounds.1
      rw [lowAt_infinity, Nat.cast_one, div_one] at hspan
      exact absurd (Nat.cast_le.mp hspan) (Nat.not_le.mpr (hword.trans hlarge))
    rw [he, if_neg (Nat.not_le.mpr hlt)]
    refine isInfinite_of_place_lt ?_
    rwa [place_assemble (Nat.lt_trans hlt (by decide))]

end RegPressure.Binary64
