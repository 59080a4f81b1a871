import RegPressure.Proofs.ValueRange.Transfer
import Mathlib.Order.Bounds.Defs

namespace RegPressure.Interval

variable {n : Nat} {r : Interval}

theorem one_le_minSignedBits (r : Interval) : 1 ≤ r.minSignedBits :=
  le_max_of_le_left (Nat.le_add_left 1 _)

theorem fitsIn_iff_forall {b : Nat} (h : r.lo ≤ r.hi) (hb : 1 ≤ b) :
    r.fitsIn b = true ↔ ∀ x, r.Has x → (Ty.int b).Holds x := by
  constructor
  · intro hfit x hx
    exact holds_of_fitsIn hb hfit hx
  · intro hall
    exact (fitsIn_iff hb).mpr ⟨hall r.lo ⟨le_refl _, h⟩, hall r.hi ⟨h, le_refl _⟩⟩

theorem minSignedBits_le_iff {b : Nat} : r.minSignedBits ≤ b ↔ r.fitsIn b = true := by
  rw [fitsIn, decide_eq_true_eq, Nat.cast_le]

theorem isLeast_minSignedBits (h : r.lo ≤ r.hi) :
    IsLeast {b : Nat | 1 ≤ b ∧ ∀ x, r.Has x → (Ty.int b).Holds x} r.minSignedBits := by
  have hone := one_le_minSignedBits r
  constructor
  · exact ⟨hone, (fitsIn_iff_forall h hone).mp (minSignedBits_le_iff.mp le_rfl)⟩
  · intro b hb
    exact minSignedBits_le_iff.mpr ((fitsIn_iff_forall h hb.1).mpr hb.2)

theorem Of.minSignedBits_le (h : Of n r) (hn : 1 ≤ n) : r.minSignedBits ≤ n :=
  minSignedBits_le_iff.mpr ((fitsIn_iff hn).mpr ⟨h.lo, h.hi⟩)

theorem isLeast_digits (m : Nat) : IsLeast {k : Nat | 1 ≤ k ∧ m < 2 ^ k} (max 1 (bitLength m)) := by
  constructor
  · exact ⟨le_max_left _ _, bitLength_le.mp (le_max_right _ _)⟩
  · intro k hk
    exact max_le hk.1 (bitLength_le.mpr hk.2)

theorem minWidth_of_isNonneg (h : r.lo ≤ r.hi) (hfull : r.isFull = false)
    (hnonneg : r.isNonneg = true) :
    r.minWidth = ((max 1 (bitLength r.hi.toNat) : Nat) : Int) := by
  have hlo : 0 ≤ r.lo := by simpa [isNonneg] using hnonneg
  rw [minWidth, if_neg (by simp [hfull]), if_pos hnonneg, wordLength, if_neg (by omega)]
  push_cast
  rfl

theorem minWidth_of_signed (h : Of n r) (hsigned : r.isFull = true ∨ r.isNonneg = false) :
    r.minWidth = n ∨ r.minWidth = r.minSignedBits := by
  unfold minWidth
  split
  · exact .inl h.bits
  · next hfull =>
    rw [if_neg (by simp [hsigned.resolve_left hfull])]
    exact .inr rfl

/-- The test for a width is exact, and both least widths are the least ones: the signed one among
all that hold every number of the interval, and the other one, where nothing is negative and the
interval is not the full one, among all that hold the upper bound without a sign bit. Otherwise the
other one is a signed width as well, and never more than the width of the interval. -/
theorem leastWidths (hn : 1 ≤ n) (h : WellFormed n r) :
    (∀ b : Nat, 1 ≤ b → (r.fitsIn b = true ↔ ∀ x, r.Has x → (Ty.int b).Holds x)) ∧
    IsLeast {b : Nat | 1 ≤ b ∧ ∀ x, r.Has x → (Ty.int b).Holds x} r.minSignedBits ∧
    r.minSignedBits ≤ n ∧
    ∃ w : Nat, r.minWidth = w ∧
      (r.isFull = false ∧ r.isNonneg = true → IsLeast {k : Nat | 1 ≤ k ∧ r.hi < 2 ^ k} w) ∧
      (¬ (r.isFull = false ∧ r.isNonneg = true) →
        w ≤ n ∧ ∀ x, r.Has x → (Ty.int w).Holds x) := by
  have hleast := isLeast_minSignedBits h.ordered
  have hle := h.toOf.minSignedBits_le hn
  refine ⟨fun b hb => fitsIn_iff_forall h.ordered hb, hleast, hle, ?_⟩
  by_cases hpos : r.isFull = false ∧ r.isNonneg = true
  · refine ⟨_, minWidth_of_isNonneg h.ordered hpos.1 hpos.2, fun _ => ?_,
      fun hnot => absurd hpos hnot⟩
    have hhi : ∀ k : Nat, r.hi.toNat < 2 ^ k ↔ r.hi < 2 ^ k := by
      have hlo : 0 ≤ r.lo := by simpa [isNonneg] using hpos.2
      intro k
      rw [Int.toNat_lt (hlo.trans h.ordered)]
      push_cast
      rfl
    simpa only [hhi] using isLeast_digits r.hi.toNat
  · have hsigned : r.isFull = true ∨ r.isNonneg = false := by
      simpa [Decidable.or_iff_not_imp_left] using hpos
    obtain hw | hw := minWidth_of_signed h.toOf hsigned
    · exact ⟨n, hw, fun hpos' => absurd hpos' hpos, fun _ => ⟨le_refl n, fun _ => h.toOf.holds⟩⟩
    · exact ⟨_, hw, fun hpos' => absurd hpos' hpos, fun _ => ⟨hle, hleast.1.2⟩⟩

/-- From 0 to 8 takes five bits as signed numbers, and four without a sign. -/
theorem leastWidths_eight :
    WellFormed 8 ⟨8, 0, 8⟩ ∧
    IsLeast {b : Nat | 1 ≤ b ∧ ∀ x, Has ⟨8, 0, 8⟩ x → (Ty.int b).Holds x} 5 ∧
    minWidth ⟨8, 0, 8⟩ = 4 ∧ IsLeast {k : Nat | 1 ≤ k ∧ (8 : Int) < 2 ^ k} 4 := by
  have hwf : WellFormed 8 ⟨8, 0, 8⟩ := ⟨⟨rfl, by decide, by decide⟩, by decide⟩
  have hfour : minWidth ⟨8, 0, 8⟩ = 4 := by decide +kernel
  obtain ⟨-, hsigned, -, w, hw, hleast, -⟩ := leastWidths (by decide) hwf
  have hfive : minSignedBits ⟨8, 0, 8⟩ = 5 := by decide +kernel
  have hplain := hleast ⟨by decide +kernel, by decide +kernel⟩
  obtain rfl : w = 4 := by exact_mod_cast hw.symm.trans hfour
  exact ⟨hwf, hfive ▸ hsigned, hfour, hplain⟩

end RegPressure.Interval
