import Mathlib.Data.Nat.Cast.Order.Field
import RegPressure.Proofs.Number.Spans

namespace RegPressure.Binary64

variable {x : Binary64} {s : Span} {e : Int} {d : Digits}

theorem mantissa_eq (x : Binary64) : x.mantissa = mantissaAt x.place := by
  rw [mantissa, mantissaAt, biased_eq_place, fraction_eq_place]

theorem exponent_eq (x : Binary64) : x.exponent - 2 = quarterAt x.place := by
  rw [exponent, quarterAt, biased_eq_place]
  ring

theorem cast_pow_div (b : Nat) (q : Int) :
    ((if 0 ≤ q then Nat.pow b q.toNat else 1 : Nat) : ℚ) /
      (if 0 ≤ q then 1 else Nat.pow b (-q).toNat : Nat) = (b : ℚ) ^ q := by
  by_cases hq : 0 ≤ q
  · obtain ⟨n, rfl⟩ := Int.eq_ofNat_of_zero_le hq
    simp
  · obtain ⟨n, hn⟩ : ∃ n : Nat, q = -n := ⟨(-q).toNat, by omega⟩
    subst hn
    rw [if_neg hq, if_neg hq]
    simp

theorem span_den_pos (x : Binary64) : 0 < x.span.den := by
  unfold span
  dsimp only
  split
  · exact Nat.one_pos
  · exact Nat.pow_pos (by decide)

theorem span_mid (x : Binary64) :
    (x.span.mid : ℚ) / x.span.den = 4 * x.mantissa * 2 ^ quarterAt x.place := by
  have hpow := cast_pow_div 2 (quarterAt x.place)
  rw [← exponent_eq] at hpow ⊢
  unfold span
  dsimp only
  push_cast at hpow ⊢
  rw [← hpow]
  ring

theorem span_low (hx : 0 < x.mantissa) : (x.span.low : ℚ) / x.span.den = lowAt x.place := by
  have hpow := cast_pow_div 2 (quarterAt x.place)
  have hbelow : (if x.fraction = 0 && 1 < x.biased then 1 else 2) = belowAt x.place := by
    rw [belowAt, fraction_eq_place, biased_eq_place]
    simp
  have hle : belowAt x.place ≤ 4 * x.mantissa := by
    unfold belowAt
    split <;> omega
  rw [lowAt, ← mantissa_eq]
  rw [← exponent_eq] at hpow ⊢
  unfold span
  dsimp only
  rw [hbelow]
  push_cast [Nat.cast_sub hle] at hpow ⊢
  rw [← hpow]
  ring

theorem span_high (x : Binary64) : (x.span.high : ℚ) / x.span.den = highAt x.place := by
  have hpow := cast_pow_div 2 (quarterAt x.place)
  rw [highAt, ← mantissa_eq]
  rw [← exponent_eq] at hpow ⊢
  unfold span
  dsimp only
  push_cast at hpow ⊢
  rw [← hpow]
  ring

theorem contains_span (hx : 0 < x.mantissa) {num den : Nat} (hden : 0 < den) :
    x.span.contains num den = true ↔ Holds x.place ((num : ℚ) / den) := by
  have hpos : (0 : ℚ) < x.span.den := Nat.cast_pos.mpr (span_den_pos x)
  have hden : (0 : ℚ) < den := Nat.cast_pos.mpr hden
  have hclosed : x.span.closed = decide (mantissaAt x.place % 2 = 0) := by
    rw [← mantissa_eq]
    rfl
  rw [Holds, ← span_low hx, ← span_high x, Span.contains, hclosed]
  simp only [decide_eq_true_eq]
  split
  · rw [Bool.and_eq_true, decide_eq_true_eq, decide_eq_true_eq, div_le_div_iff₀ hpos hden,
      div_le_div_iff₀ hden hpos]
    norm_cast
  · rw [Bool.and_eq_true, decide_eq_true_eq, decide_eq_true_eq, div_lt_div_iff₀ hpos hden,
      div_lt_div_iff₀ hden hpos]
    norm_cast

def unit (e : Int) : Nat := if 0 ≤ e then Nat.pow 10 e.toNat else 1

def parts (e : Int) : Nat := if 0 ≤ e then 1 else Nat.pow 10 (-e).toNat

theorem unit_div_parts (e : Int) : (unit e : ℚ) / parts e = 10 ^ e := cast_pow_div 10 e

theorem unit_pos (e : Int) : 0 < unit e := by
  unfold unit
  split
  · exact Nat.pow_pos (by decide)
  · exact Nat.one_pos

theorem parts_pos (e : Int) : 0 < parts e := by
  unfold parts
  split
  · exact Nat.one_pos
  · exact Nat.pow_pos (by decide)

theorem grid_eq (e : Int) :
    (if 0 ≤ e then (Nat.pow 10 e.toNat, 1) else (1, Nat.pow 10 (-e).toNat)) = (unit e, parts e) := by
  unfold unit parts
  split <;> rfl

theorem onGrid_some (h : onGrid s e = some d) :
    d.exp = e ∧ s.contains (d.digits * unit e) (parts e) = true := by
  rw [onGrid, grid_eq] at h
  dsimp only at h
  split at h
  · cases h
  · next hfits _ =>
    cases h
    exact ⟨rfl, hfits⟩
  · next hfits =>
    cases h
    exact ⟨rfl, hfits⟩
  · next hlow hhigh =>
    cases h
    refine ⟨rfl, ?_⟩
    dsimp only
    split
    · exact hhigh
    · exact hlow

theorem onGrid_none (h : onGrid s e = none) :
    s.contains (s.mid * parts e / (s.den * unit e) * unit e) (parts e) = false ∧
      s.contains ((s.mid * parts e / (s.den * unit e) + 1) * unit e) (parts e) = false := by
  rw [onGrid, grid_eq] at h
  dsimp only at h
  split at h
  · next hlow hhigh => exact ⟨hlow, hhigh⟩
  · cases h
  · cases h
  · cases h

theorem Holds.of_between {n : Nat} {v : ℚ} (hlow : lowAt n < v) (hhigh : v < highAt n) : Holds n v := by
  unfold Holds
  split
  · exact ⟨hlow.le, hhigh.le⟩
  · exact ⟨hlow, hhigh⟩

theorem span_mid_bounds (x : Binary64) : lowAt x.place < (x.span.mid : ℚ) / x.span.den ∧
    (x.span.mid : ℚ) / x.span.den < highAt x.place := by
  have hpos : (0 : ℚ) < 2 ^ quarterAt x.place := by positivity
  have hbelow : (0 : ℚ) < belowAt x.place := by
    unfold belowAt
    split <;> norm_num
  rw [span_mid, lowAt, highAt, ← mantissa_eq]
  exact ⟨mul_lt_mul_of_pos_right (by linarith) hpos, mul_lt_mul_of_pos_right (by linarith) hpos⟩

/-- A grid finer than the span has a point in it. -/
theorem onGrid_isSome (hx : 0 < x.mantissa) (hstep : (10 : ℚ) ^ e < highAt x.place - lowAt x.place) :
    (onGrid x.span e).isSome = true := by
  by_contra hnone
  rw [Bool.not_eq_true, Option.isSome_eq_false_iff, Option.isNone_iff_eq_none] at hnone
  obtain ⟨hlow, hhigh⟩ := onGrid_none hnone
  generalize hn : x.span.mid * parts e / (x.span.den * unit e) = n at hlow hhigh
  have hden : (0 : ℚ) < x.span.den := Nat.cast_pos.mpr (span_den_pos x)
  have hparts : (0 : ℚ) < parts e := Nat.cast_pos.mpr (parts_pos e)
  have hpos : 0 < x.span.den * unit e := Nat.mul_pos (span_den_pos x) (unit_pos e)
  -- The number lies between two neighbours on the grid.
  have hfloor : ((n * unit e : Nat) : ℚ) / parts e ≤ (x.span.mid : ℚ) / x.span.den := by
    have h : n * (x.span.den * unit e) ≤ x.span.mid * parts e := hn ▸ Nat.div_mul_le_self _ _
    rw [div_le_div_iff₀ hparts hden]
    exact_mod_cast (by linarith : n * unit e * x.span.den ≤ x.span.mid * parts e)
  have hceil : (x.span.mid : ℚ) / x.span.den < (((n + 1) * unit e : Nat) : ℚ) / parts e := by
    have h : x.span.mid * parts e < (n + 1) * (x.span.den * unit e) :=
      hn ▸ Nat.lt_mul_of_div_lt (Nat.lt_succ_self _) hpos
    rw [div_lt_div_iff₀ hden hparts]
    exact_mod_cast (by linarith : x.span.mid * parts e < (n + 1) * unit e * x.span.den)
  have hwidth : (((n + 1) * unit e : Nat) : ℚ) / parts e = ((n * unit e : Nat) : ℚ) / parts e + 10 ^ e := by
    rw [← unit_div_parts]
    push_cast
    ring
  obtain ⟨hmid, hmid'⟩ := span_mid_bounds x
  have hbelow : ((n * unit e : Nat) : ℚ) / parts e ≤ lowAt x.place := by
    by_contra h
    have hholds := Holds.of_between (lt_of_not_ge h) (hfloor.trans_lt hmid')
    rw [(contains_span hx (parts_pos e)).mpr hholds] at hlow
    cases hlow
  have habove : highAt x.place ≤ (((n + 1) * unit e : Nat) : ℚ) / parts e := by
    by_contra h
    have hholds := Holds.of_between (hmid.trans hceil) (lt_of_not_ge h)
    rw [(contains_span hx (parts_pos e)).mpr hholds] at hhigh
    cases hhigh
  linarith

theorem length_toString_le_iff {n k : Nat} (h : 0 < k) : (toString n).length ≤ k ↔ n < 10 ^ k :=
  Nat.length_repr_le_iff h

theorem toString_bounds {d : Nat} (hd : 0 < d) : ∃ k, (toString d).length = k + 1 ∧
    10 ^ k ≤ d ∧ d < 10 ^ (k + 1) := by
  obtain ⟨k, hk⟩ : ∃ k, (toString d).length = k + 1 := Nat.exists_eq_add_one.mpr (Nat.length_repr_pos)
  refine ⟨k, hk, ?_, (length_toString_le_iff (Nat.succ_pos k)).mp hk.le⟩
  rcases Nat.eq_zero_or_pos k with rfl | hpos
  · exact hd
  · refine Nat.le_of_not_lt fun hlt => ?_
    have := (length_toString_le_iff hpos).mpr hlt
    omega

theorem zpow_magnitude_le {num den : Nat} (hnum : 0 < num) (hden : 0 < den) :
    (10 : ℚ) ^ magnitude num den ≤ (num : ℚ) / den := by
  have hden' : (0 : ℚ) < den := Nat.cast_pos.mpr hden
  unfold magnitude
  dsimp only
  split
  · next hle =>
    have hq : 0 < num / den := Nat.div_pos hle hden
    obtain ⟨k, hk, hpow, -⟩ := toString_bounds hq
    rw [hk]
    push_cast
    rw [add_sub_cancel_right, zpow_natCast]
    calc (10 : ℚ) ^ k ≤ ((num / den : Nat) : ℚ) := by exact_mod_cast hpow
      _ ≤ num / den := Nat.cast_div_le
  · next hgt =>
    obtain ⟨k, hk, -, hlt⟩ := toString_bounds (Nat.div_pos (Nat.le_of_not_le hgt) hnum)
    split
    · next hle =>
      rw [hk] at hle ⊢
      have hexp : (1 : Int) - ((k + 1 : Nat) : Int) = -(k : Int) := by push_cast; ring
      have hnat : ((((k + 1 : Nat) : Int) - 1).toNat) = k := by omega
      rw [hnat] at hle
      rw [hexp, zpow_neg, zpow_natCast, inv_eq_one_div, div_le_div_iff₀ (by positivity) hden']
      exact_mod_cast (by simpa using hle : 1 * den ≤ num * 10 ^ k)
    · rw [hk]
      have hle : den ≤ num * 10 ^ (k + 1) := by
        have := Nat.lt_mul_of_div_lt hlt hnum
        linarith
      rw [zpow_neg, zpow_natCast, inv_eq_one_div, div_le_div_iff₀ (by positivity) hden']
      exact_mod_cast (by simpa using hle : 1 * den ≤ num * 10 ^ (k + 1))

theorem four_mul_mantissaAt_lt (n : Nat) : 4 * mantissaAt n < 10 ^ 16 * (2 + belowAt n) := by
  unfold mantissaAt belowAt hiddenBit
  split <;> split <;> omega

theorem zpow_sub_lt_width (x : Binary64) (hx : 0 < x.mantissa) :
    (10 : ℚ) ^ (magnitude x.span.mid x.span.den - 16) < highAt x.place - lowAt x.place := by
  have hpos : (0 : ℚ) < 2 ^ quarterAt x.place := by positivity
  have hmid : 0 < x.span.mid := by
    refine Nat.pos_of_ne_zero fun hzero => ?_
    have hmid := span_mid x
    rw [hzero, Nat.cast_zero, zero_div] at hmid
    have : (0 : ℚ) < 4 * x.mantissa * 2 ^ quarterAt x.place := by positivity
    linarith
  have hfirst := zpow_magnitude_le hmid (span_den_pos x)
  have hquarters : (4 * mantissaAt x.place : ℚ) < 10 ^ 16 * (2 + belowAt x.place) := by
    exact_mod_cast four_mul_mantissaAt_lt x.place
  rw [span_mid, mantissa_eq] at hfirst
  rw [zpow_sub₀ (by norm_num), div_lt_iff₀ (by positivity), highAt, lowAt]
  calc (10 : ℚ) ^ magnitude x.span.mid x.span.den
      ≤ 4 * mantissaAt x.place * 2 ^ quarterAt x.place := hfirst
    _ < 10 ^ 16 * (2 + belowAt x.place) * 2 ^ quarterAt x.place :=
        mul_lt_mul_of_pos_right hquarters hpos
    _ = _ := by
        rw [zpow_ofNat]
        ring

/-- The shortest decimal of a number that is not zero is not zero, and it lies in the span. -/
theorem shortest_spec (hx : 0 < x.mantissa) : 0 < x.shortest.digits ∧
    Holds x.place (x.shortest.digits * 10 ^ x.shortest.exp) := by
  have hfound : (((List.range 17).map fun (n : Nat) => magnitude x.span.mid x.span.den - n).findSome?
      (onGrid x.span)).isSome = true := by
    rw [List.findSome?_isSome_iff]
    exact ⟨_, List.mem_map_of_mem (List.mem_range.mpr (by decide : 16 < 17)),
      onGrid_isSome hx (zpow_sub_lt_width x hx)⟩
  obtain ⟨d, hd⟩ := Option.isSome_iff_exists.mp hfound
  obtain ⟨e, -, he⟩ := List.exists_of_findSome?_eq_some hd
  obtain ⟨hexp, hcontains⟩ := onGrid_some he
  have hshortest : x.shortest = d := by
    unfold shortest
    dsimp only
    rw [hd, Option.getD_some]
  have hholds : Holds x.place (d.digits * 10 ^ d.exp) := by
    have h := (contains_span hx (parts_pos e)).mp hcontains
    rwa [Nat.cast_mul, mul_div_assoc, unit_div_parts, ← hexp] at h
  rw [hshortest]
  refine ⟨Nat.pos_of_ne_zero fun hzero => ?_, hholds⟩
  have hlow : 0 < lowAt x.place := by
    have hbelow : (belowAt x.place : ℚ) ≤ 2 := by
      unfold belowAt
      split <;> norm_num
    have hone : (1 : ℚ) ≤ mantissaAt x.place := by
      rw [← mantissa_eq]
      exact_mod_cast hx
    have hpos : (0 : ℚ) < 2 ^ quarterAt x.place := by positivity
    exact mul_pos (by linarith) hpos
  have hle := hholds.bounds.1
  rw [hzero, Nat.cast_zero, zero_mul] at hle
  linarith

/-! ### Reading -/

variable {n : Nat}

theorem le_lowAt (h : 0 < n) : (10 : ℚ) ^ (-331 : Int) < lowAt n := by
  have hpow : 2 ^ 1075 < 10 ^ 331 := by decide +kernel
  obtain ⟨hmantissa, hbelow, hquarter⟩ : mantissaAt 1 = 1 ∧ belowAt 1 = 2 ∧ quarterAt 1 = -1076 := by
    decide
  calc (10 : ℚ) ^ (-331 : Int) < 2 ^ (-1075 : Int) := by
        rw [zpow_neg, zpow_neg, inv_lt_inv₀ (by positivity) (by positivity)]
        exact_mod_cast hpow
    _ = lowAt 1 := by
      rw [lowAt, hmantissa, hbelow, hquarter, show (-1075 : Int) = -1076 + 1 by rfl,
        zpow_add_one₀ two_ne_zero, mul_comm]
      congr 1
      norm_num
    _ ≤ lowAt n := lowAt_strictMono.monotone h

theorem highAt_lt (h : n < 2047 * hiddenBit) : highAt n < 10 ^ (309 : Int) := by
  have hpow : (4 * hiddenBit - 1) * 2 ^ 970 < 10 ^ 309 := by decide +kernel
  calc highAt n = lowAt (n + 1) := highAt_eq_lowAt_succ n
    _ ≤ lowAt (2047 * hiddenBit) := lowAt_strictMono.monotone h
    _ = ((4 * hiddenBit - 1) * 2 ^ 970 : Nat) := lowAt_infinity
    _ < 10 ^ (309 : Int) := by exact_mod_cast hpow

theorem size_bounds {d : Nat} {e : Int} (hd : 0 < d) (hx : Holds n (d * 10 ^ e)) (hpos : 0 < n)
    (hlt : n < 2047 * hiddenBit) : -330 ≤ (toString d).length + e ∧ (toString d).length + e ≤ 310 := by
  obtain ⟨k, hk, hlow, hhigh⟩ := toString_bounds hd
  have hlow : (10 : ℚ) ^ (k : Int) ≤ d := by exact_mod_cast hlow
  have hhigh : (d : ℚ) < 10 ^ (k + 1 : Int) := by exact_mod_cast hhigh
  have hten : (0 : ℚ) < 10 ^ e := by positivity
  have hleast : (10 : ℚ) ^ (-331 : Int) < 10 ^ (k + 1 + e) := by
    calc (10 : ℚ) ^ (-331 : Int) < d * 10 ^ e := (le_lowAt hpos).trans_le hx.bounds.1
      _ ≤ 10 ^ (k + 1 : Int) * 10 ^ e := mul_le_mul_of_nonneg_right hhigh.le hten.le
      _ = 10 ^ (k + 1 + e) := (zpow_add₀ (by norm_num) _ _).symm
  have hmost : (10 : ℚ) ^ (k + e) < 10 ^ (309 : Int) := by
    calc (10 : ℚ) ^ (k + e) = 10 ^ (k : Int) * 10 ^ e := zpow_add₀ (by norm_num) _ _
      _ ≤ d * 10 ^ e := mul_le_mul_of_nonneg_right hlow hten.le
      _ < 10 ^ (309 : Int) := hx.bounds.2.trans_lt (highAt_lt hlt)
  have hleast := (zpow_lt_zpow_iff_right₀ (by norm_num)).mp hleast
  have hmost := (zpow_lt_zpow_iff_right₀ (by norm_num)).mp hmost
  rw [hk]
  push_cast
  constructor <;> omega

theorem ofScientific_eq {d : Nat} {e : Int} (hd : 0 < d) (hx : Holds x.place (d * 10 ^ e)) (hpos : 0 < x.place)
    (hlt : x.place < 2047 * hiddenBit) : ofScientific x.isNegative d e = x := by
  obtain ⟨hlow, hhigh⟩ := size_bounds hd hx hpos hlt
  unfold ofScientific
  dsimp only
  rw [if_neg (by simpa using ⟨hd.ne', hlow⟩), if_neg (Int.not_lt.mpr hhigh)]
  split
  · next he =>
    obtain ⟨k, rfl⟩ := Int.eq_ofNat_of_zero_le he
    refine ofRatio_eq (Nat.mul_pos hd (Nat.pow_pos (by decide))) Nat.one_pos ?_ hlt
    rw [Nat.cast_one, div_one, Nat.cast_mul, Int.toNat_natCast]
    rw [zpow_natCast] at hx
    exact_mod_cast hx
  · next he =>
    obtain ⟨k, rfl⟩ : ∃ k : Nat, e = -k := ⟨(-e).toNat, by omega⟩
    refine ofRatio_eq hd (Nat.pow_pos (by decide)) ?_ hlt
    rw [neg_neg, Int.toNat_natCast]
    rw [zpow_neg, zpow_natCast, ← div_eq_mul_inv] at hx
    exact_mod_cast hx

end RegPressure.Binary64
