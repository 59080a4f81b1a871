import RegPressure.Proofs.ValueRange.Facts

namespace RegPressure

namespace Narrow

variable {w n : Nat}

def Localizes (op : Op) (w n : Nat) (x y : Int) : Prop :=
  match op with
  | .add | .sub | .mul | .and | .or | .xor => True
  | .shl => 0 ≤ y ∧ y < w
  | .sdiv | .srem => (Ty.int w).Holds x ∧ (Ty.int w).Holds y
  | .udiv | .urem => (Ty.int w).Holds x ∧ (Ty.int w).Holds y ∧ 0 ≤ x ∧ 0 ≤ y
  | .ashr => (Ty.int w).Holds x ∧ (Ty.int w).Holds y ∧ (0 ≤ y → y < n → y < w)
  | .lshr => (Ty.int w).Holds x ∧ (Ty.int w).Holds y ∧ 0 ≤ x ∧ 0 ≤ y ∧ (0 ≤ y → y < n → y < w)
  | _ => False

theorem toInt_setWidth_of_holds (hw : 1 ≤ w) (h : w ≤ n) {z : BitVec n} (hz : (Ty.int w).Holds z.toInt) :
    (z.setWidth w).toInt = z.toInt := by
  have := setWidth_ofInt h z.toInt
  rw [BitVec.ofInt_toInt] at this
  rw [this, ofInt_toInt_of_holds hw hz]

theorem natCast_le_two_pow (w : Nat) (hw : 1 ≤ w) : (w : Int) ≤ 2 ^ (w - 1) := by
  have := Nat.lt_two_pow_self (n := w - 1)
  have : w ≤ 2 ^ (w - 1) := by omega
  exact_mod_cast this

section Amount

variable (hw : 1 ≤ w) {y : Int} (hy : (Ty.int w).Holds y)

include hw hy

theorem toNat_ofInt_of_nonneg (h0 : 0 ≤ y) (h : w ≤ n) : ((BitVec.ofInt n y).toNat : Int) = y := by
  have hn := ofInt_toInt_of_holds (hw.trans h) (Interval.holds_mono h hy)
  rw [Interval.toNat_eq_toInt (by omega), hn]

theorem nonneg_of_amount (h : w ≤ n) (hlt : (BitVec.ofInt n y).toNat < n) : 0 ≤ y := by
  by_contra hneg
  have hn := ofInt_toInt_of_holds (hw.trans h) (Interval.holds_mono h hy)
  have hcond := BitVec.toInt_eq_toNat_cond (BitVec.ofInt n y)
  have hpow : (2 : Int) ^ n = 2 * 2 ^ (n - 1) := by
    rw [← pow_succ', Nat.sub_add_cancel (hw.trans h)]
  have hbig := natCast_le_two_pow n (hw.trans h)
  have hsmall := (Interval.holds_mono h hy).1
  split at hcond
  · omega
  · push_cast at hcond
    omega

end Amount

theorem ofInt_eq_zero (hn : 1 ≤ n) {y : Int} (hy : (Ty.int n).Holds y) : BitVec.ofInt n y = 0#n ↔ y = 0 := by
  constructor
  · intro h
    rw [← ofInt_toInt_of_holds hn hy, h, BitVec.toInt_zero]
  · rintro rfl
    simp

section Operations

variable (hw : 1 ≤ w) (hwn : w ≤ n) {op : Op} {x y : Int}

include hw hwn

theorem divisor_iff (hy : (Ty.int w).Holds y) : BitVec.ofInt n y = 0#n ↔ BitVec.ofInt w y = 0#w := by
  rw [ofInt_eq_zero hw hy, ofInt_eq_zero (hw.trans hwn) (Interval.holds_mono hwn hy)]

theorem divide_narrow (hy : (Ty.int w).Holds y) {z wide : BitVec n} {narrow : BitVec w}
    (hz : (if BitVec.ofInt n y = 0#n then none else some wide) = some z)
    (he : z = wide → narrow.toInt = wide.toInt) :
    ∃ z', (if BitVec.ofInt w y = 0#w then none else some narrow) = some z' ∧ z'.toInt = z.toInt := by
  split at hz
  · cases hz
  · next hne =>
    cases hz
    rw [if_neg ((divisor_iff hw hwn hy).not.mp hne)]
    exact ⟨narrow, rfl, he rfl⟩

theorem sdiv_narrow (hx : (Ty.int w).Holds x) (hy : (Ty.int w).Holds y)
    (hfit : (Ty.int w).Holds ((BitVec.ofInt n x).sdiv (BitVec.ofInt n y)).toInt) :
    ((BitVec.ofInt w x).sdiv (BitVec.ofInt w y)).toInt =
      ((BitVec.ofInt n x).sdiv (BitVec.ofInt n y)).toInt := by
  have hn := hw.trans hwn
  have hnarrow : ((BitVec.ofInt w x).sdiv (BitVec.ofInt w y)).toInt = (x.tdiv y).bmod (2 ^ w) := by
    rw [BitVec.toInt_sdiv, ofInt_toInt_of_holds hw hx, ofInt_toInt_of_holds hw hy]
  have hwide : ((BitVec.ofInt n x).sdiv (BitVec.ofInt n y)).toInt = (x.tdiv y).bmod (2 ^ n) := by
    rw [BitVec.toInt_sdiv, ofInt_toInt_of_holds hn (Interval.holds_mono hwn hx),
      ofInt_toInt_of_holds hn (Interval.holds_mono hwn hy)]
  rw [hwide] at hfit
  rw [hnarrow, hwide, ← Interval.bmod_eq_of_holds hw hfit,
    Int.bmod_bmod_of_dvd (Nat.pow_dvd_pow 2 hwn)]

theorem srem_narrow (hx : (Ty.int w).Holds x) (hy : (Ty.int w).Holds y) :
    ((BitVec.ofInt w x).srem (BitVec.ofInt w y)).toInt =
      ((BitVec.ofInt n x).srem (BitVec.ofInt n y)).toInt := by
  have hn := hw.trans hwn
  rw [BitVec.toInt_srem, ofInt_toInt_of_holds hw hx, ofInt_toInt_of_holds hw hy, BitVec.toInt_srem,
    ofInt_toInt_of_holds hn (Interval.holds_mono hwn hx),
    ofInt_toInt_of_holds hn (Interval.holds_mono hwn hy)]

theorem toInt_eq_of_toNat (op : Nat → Nat) (hx : (Ty.int w).Holds x) (h0 : 0 ≤ x) {z : BitVec n}
    {z' : BitVec w} (hz : z.toNat = op (BitVec.ofInt n x).toNat)
    (hz' : z'.toNat = op (BitVec.ofInt w x).toNat) (hop : ∀ m, op m ≤ m) : z'.toInt = z.toInt := by
  have hn := toNat_ofInt_of_nonneg hw hx h0 hwn
  have hw' := toNat_ofInt_of_nonneg hw hx h0 (Nat.le_refl w)
  have hsame : (BitVec.ofInt w x).toNat = (BitVec.ofInt n x).toNat := by omega
  have hle := hop (BitVec.ofInt n x).toNat
  have hlt := hx.2
  have hpow := Interval.two_pow_le (show w - 1 ≤ n - 1 by omega)
  rw [hsame] at hz'
  rw [Interval.toInt_eq_toNat hw (by omega), Interval.toInt_eq_toNat (hw.trans hwn) (by omega), hz,
    hz']

theorem amount_narrow (hy : (Ty.int w).Holds y) (hsafe : 0 ≤ y → y < n → y < w)
    (hlt : (BitVec.ofInt n y).toNat < n) :
    (BitVec.ofInt w y).toNat = (BitVec.ofInt n y).toNat ∧ (BitVec.ofInt w y).toNat < w := by
  have h0 := nonneg_of_amount hw hy hwn hlt
  have hny := toNat_ofInt_of_nonneg hw hy h0 hwn
  have hwy := toNat_ofInt_of_nonneg hw hy h0 (Nat.le_refl w)
  have := hsafe h0 (by omega)
  omega

theorem shift_narrow (wide : Nat → BitVec n) (narrow : Nat → BitVec w) (hy : (Ty.int w).Holds y)
    (hsafe : 0 ≤ y → y < n → y < w) {z : BitVec n}
    (hz : (if (BitVec.ofInt n y).toNat < n then some (wide (BitVec.ofInt n y).toNat) else none) = some z)
    (he : ∀ k, z = wide k → (narrow k).toInt = (wide k).toInt) :
    ∃ z', (if (BitVec.ofInt w y).toNat < w then some (narrow (BitVec.ofInt w y).toNat) else none) =
      some z' ∧ z'.toInt = z.toInt := by
  split at hz
  · next hlt =>
    cases hz
    obtain ⟨hsame, hltw⟩ := amount_narrow hw hwn hy hsafe hlt
    rw [if_pos hltw, hsame]
    exact ⟨_, rfl, he _ rfl⟩
  · cases hz

omit hwn in
theorem holds_of_amount (h0 : 0 ≤ y) (hlt : y < w) : (Ty.int w).Holds y := by
  have hbig := natCast_le_two_pow w hw
  exact ⟨by omega, by omega⟩

/-- An operation that localizes gives the same number at the narrow width. -/
theorem arith_narrow (hlocal : Localizes op w n x y) {z : BitVec n}
    (hz : op.arith (BitVec.ofInt n x) (BitVec.ofInt n y) = some z) (hfit : (Ty.int w).Holds z.toInt) :
    ∃ z', op.arith (BitVec.ofInt w x) (BitVec.ofInt w y) = some z' ∧ z'.toInt = z.toInt := by
  have hlow : ∀ {z' : BitVec w}, z' = z.setWidth w → z'.toInt = z.toInt := by
    rintro _ rfl
    exact toInt_setWidth_of_holds hw hwn hfit
  -- The low bits of sums, products and bitwise operations are those of the same on the low bits; a
  -- quotient or a right shift also needs operands that fit.
  cases op <;> simp only [Localizes] at hlocal <;> simp only [Op.arith, Option.some.injEq] at hz ⊢
  case add =>
    subst hz
    refine ⟨_, rfl, hlow ?_⟩
    rw [BitVec.setWidth_add _ _ hwn, setWidth_ofInt hwn, setWidth_ofInt hwn]
  case sub =>
    subst hz
    refine ⟨_, rfl, hlow ?_⟩
    rw [BitVec.sub_eq_add_neg, BitVec.sub_eq_add_neg, BitVec.setWidth_add _ _ hwn,
      BitVec.setWidth_neg_of_le hwn, setWidth_ofInt hwn, setWidth_ofInt hwn]
  case mul =>
    subst hz
    refine ⟨_, rfl, hlow ?_⟩
    rw [BitVec.setWidth_mul _ _ hwn, setWidth_ofInt hwn, setWidth_ofInt hwn]
  case and =>
    subst hz
    refine ⟨_, rfl, hlow ?_⟩
    rw [BitVec.setWidth_and, setWidth_ofInt hwn, setWidth_ofInt hwn]
  case or =>
    subst hz
    refine ⟨_, rfl, hlow ?_⟩
    rw [BitVec.setWidth_or, setWidth_ofInt hwn, setWidth_ofInt hwn]
  case xor =>
    subst hz
    refine ⟨_, rfl, hlow ?_⟩
    rw [BitVec.setWidth_xor, setWidth_ofInt hwn, setWidth_ofInt hwn]
  case sdiv => exact divide_narrow hw hwn hlocal.2 hz fun e =>
    sdiv_narrow hw hwn hlocal.1 hlocal.2 (e ▸ hfit)
  case srem => exact divide_narrow hw hwn hlocal.2 hz fun _ => srem_narrow hw hwn hlocal.1 hlocal.2
  case udiv =>
    obtain ⟨hx, hy, hx0, hy0⟩ := hlocal
    have hny := toNat_ofInt_of_nonneg hw hy hy0 hwn
    have hwy := toNat_ofInt_of_nonneg hw hy hy0 (Nat.le_refl w)
    have hsame : (BitVec.ofInt w y).toNat = (BitVec.ofInt n y).toNat := by omega
    refine divide_narrow hw hwn hy hz fun _ => toInt_eq_of_toNat hw hwn
      (· / (BitVec.ofInt n y).toNat) hx hx0 BitVec.toNat_udiv ?_ fun _ => Nat.div_le_self ..
    rw [← hsame]
    exact BitVec.toNat_udiv
  case urem =>
    obtain ⟨hx, hy, hx0, hy0⟩ := hlocal
    have hny := toNat_ofInt_of_nonneg hw hy hy0 hwn
    have hwy := toNat_ofInt_of_nonneg hw hy hy0 (Nat.le_refl w)
    have hsame : (BitVec.ofInt w y).toNat = (BitVec.ofInt n y).toNat := by omega
    refine divide_narrow hw hwn hy hz fun _ => toInt_eq_of_toNat hw hwn
      (· % (BitVec.ofInt n y).toNat) hx hx0 BitVec.toNat_umod ?_ fun _ => Nat.mod_le ..
    rw [← hsame]
    exact BitVec.toNat_umod
  case shl =>
    refine shift_narrow hw hwn (BitVec.ofInt n x <<< ·) (BitVec.ofInt w x <<< ·)
      (holds_of_amount hw hlocal.1 hlocal.2) (fun _ _ => hlocal.2) hz fun k e => ?_
    rw [hlow, e]
    rw [e, BitVec.setWidth_shiftLeft_of_le hwn, setWidth_ofInt hwn]
  case ashr =>
    obtain ⟨hx, hy, hsafe⟩ := hlocal
    refine shift_narrow hw hwn (BitVec.ofInt n x).sshiftRight (BitVec.ofInt w x).sshiftRight
      hy hsafe hz fun k _ => ?_
    rw [BitVec.toInt_sshiftRight, BitVec.toInt_sshiftRight, ofInt_toInt_of_holds hw hx,
      ofInt_toInt_of_holds (hw.trans hwn) (Interval.holds_mono hwn hx)]
  case lshr =>
    obtain ⟨hx, hy, hx0, _, hsafe⟩ := hlocal
    refine shift_narrow hw hwn (BitVec.ofInt n x >>> ·) (BitVec.ofInt w x >>> ·)
      hy hsafe hz fun k _ => ?_
    exact toInt_eq_of_toNat hw hwn (· >>> k) hx hx0 (BitVec.toNat_ushiftRight ..)
      (BitVec.toNat_ushiftRight ..) fun m => Nat.shiftRight_le m k

/-- An operation that localizes has a result at the wide width if it has one at the narrow width. -/
theorem arith_defined (hlocal : Localizes op w n x y) {z : BitVec w}
    (hz : op.arith (BitVec.ofInt w x) (BitVec.ofInt w y) = some z) :
    ∃ z', op.arith (BitVec.ofInt n x) (BitVec.ofInt n y) = some z' := by
  have hdivide : ∀ {a : BitVec n} {b : BitVec w}, (Ty.int w).Holds y →
      (if BitVec.ofInt w y = 0#w then none else some b) = some z →
      ∃ z', (if BitVec.ofInt n y = 0#n then none else some a) = some z' := by
    intro a b hy hz
    split at hz
    · cases hz
    · next hne => exact ⟨a, if_neg ((divisor_iff hw hwn hy).not.mpr hne)⟩
  have hshift : ∀ {a : BitVec n} {b : BitVec w}, (Ty.int w).Holds y →
      (if (BitVec.ofInt w y).toNat < w then some b else none) = some z →
      ∃ z', (if (BitVec.ofInt n y).toNat < n then some a else none) = some z' := by
    intro a b hy hz
    split at hz
    · next hlt =>
      have h0 := nonneg_of_amount hw hy (Nat.le_refl w) hlt
      have hny := toNat_ofInt_of_nonneg hw hy h0 hwn
      have hwy := toNat_ofInt_of_nonneg hw hy h0 (Nat.le_refl w)
      exact ⟨a, if_pos (by omega)⟩
    · cases hz
  cases op <;> simp only [Localizes] at hlocal <;> simp only [Op.arith] at hz ⊢
  case add | sub | mul | and | or | xor => exact ⟨_, rfl⟩
  case sdiv | srem => exact hdivide hlocal.2 hz
  case udiv | urem => exact hdivide hlocal.2.1 hz
  case shl => exact hshift (holds_of_amount hw hlocal.1 hlocal.2) hz
  case ashr | lshr => exact hshift hlocal.2.1 hz

end Operations

section Comparison

variable {m : Nat} {x y : Int}

theorem ult_iff (hw : 1 ≤ w) (hx : (Ty.int w).Holds x) (hy : (Ty.int w).Holds y) :
    (BitVec.ofInt w x).toNat < (BitVec.ofInt w y).toNat ↔
      (0 ≤ x ∧ y < 0) ∨ x < y ∧ (0 ≤ x ∨ y < 0) := by
  have hpow : (2 : Int) ^ w = 2 * 2 ^ (w - 1) := by rw [← pow_succ', Nat.sub_add_cancel hw]
  have hcx := BitVec.toInt_eq_toNat_cond (BitVec.ofInt w x)
  have hcy := BitVec.toInt_eq_toNat_cond (BitVec.ofInt w y)
  rw [ofInt_toInt_of_holds hw hx] at hcx
  rw [ofInt_toInt_of_holds hw hy] at hcy
  have hltx : ((BitVec.ofInt w x).toNat : Int) < 2 ^ w := by exact_mod_cast (BitVec.ofInt w x).isLt
  have hlty : ((BitVec.ofInt w y).toNat : Int) < 2 ^ w := by exact_mod_cast (BitVec.ofInt w y).isLt
  obtain ⟨hx1, hx2⟩ := hx
  obtain ⟨hy1, hy2⟩ := hy
  push_cast at hcx hcy
  split at hcx <;> split at hcy <;> omega

/-- A comparison is the same at all widths that hold both numbers. -/
theorem compareBits_narrow {pred : String} (hw : 1 ≤ w) (hm : 1 ≤ m) (hx : (Ty.int w).Holds x)
    (hy : (Ty.int w).Holds y) (hx' : (Ty.int m).Holds x) (hy' : (Ty.int m).Holds y) :
    compareBits pred (BitVec.ofInt w x) (BitVec.ofInt w y) =
      compareBits pred (BitVec.ofInt m x) (BitVec.ofInt m y) := by
  have heq : (BitVec.ofInt w x = BitVec.ofInt w y) ↔ (BitVec.ofInt m x = BitVec.ofInt m y) :=
    ⟨fun h => congrArg _ (ofInt_inj_of_holds hw hx hy h),
      fun h => congrArg _ (ofInt_inj_of_holds hm hx' hy' h)⟩
  have hult : ∀ {a b : Int}, (Ty.int w).Holds a → (Ty.int w).Holds b → (Ty.int m).Holds a →
      (Ty.int m).Holds b → ((BitVec.ofInt w a).toNat < (BitVec.ofInt w b).toNat ↔
        (BitVec.ofInt m a).toNat < (BitVec.ofInt m b).toNat) := by
    intro a b ha hb ha' hb'
    rw [ult_iff hw ha hb, ult_iff hm ha' hb']
  unfold compareBits
  split
  · rw [Bool.eq_iff_iff, beq_iff_eq, beq_iff_eq, heq]
  · rw [Bool.eq_iff_iff, bne_iff_ne, bne_iff_ne, Ne, Ne, heq]
  · rw [Bool.eq_iff_iff, slt_ofInt hw hx hy, slt_ofInt hm hx' hy']
  · rw [Bool.eq_iff_iff, sle_ofInt hw hx hy, sle_ofInt hm hx' hy']
  · rw [Bool.eq_iff_iff, slt_ofInt hw hy hx, slt_ofInt hm hy' hx']
  · rw [Bool.eq_iff_iff, sle_ofInt hw hy hx, sle_ofInt hm hy' hx']
  · simp only [BitVec.ult, hult hx hy hx' hy']
  · simp only [BitVec.ule, ← not_lt, hult hy hx hy' hx']
  · simp only [BitVec.ult, hult hy hx hy' hx']
  · simp only [BitVec.ule, ← not_lt, hult hx hy hx' hy']
  · rfl

end Comparison

end Narrow

end RegPressure
