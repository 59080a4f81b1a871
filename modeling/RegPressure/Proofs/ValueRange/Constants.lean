import RegPressure.Proofs.Asm.Total
import RegPressure.Proofs.Faultless.Ranges
import RegPressure.Proofs.Memory.Overlap
import RegPressure.Proofs.Narrow.Casts
import RegPressure.Proofs.ValueRange.Transfer
import RegPressure.Ssa.Select

namespace RegPressure

/-- The word is a number of this width, or one whose only bit tells whether the word is zero. -/
def Kept (bits : Nat) (n : Int64) : Prop :=
  if bits = 1 then n = 0 ∨ n.toInt % 2 = 1 else (Ty.int bits).Holds n.toInt

open RegPressure.Interval Narrow

namespace ValueRange

variable {f : Func} {o : Option DomInfo} {k : Context} {bits : Nat} {n : Int64}

def constRange (bits : Nat) (n : Int64) : Interval :=
  if bits = 1 && n ≠ 0 then .const 1 (-1) else .const bits n

theorem constRange_of_ne_one (hbits : bits ≠ 1) : constRange bits n = .const bits n := by
  simp [constRange, hbits]

theorem wellFormed_constRange : WellFormed bits (constRange bits n) ↔
    bits = 1 ∨ (Ty.int bits).Holds n.toInt := by
  by_cases hbits : bits = 1
  · subst hbits
    refine iff_of_true ?_ (.inl rfl)
    by_cases hn : n = 0
    · subst hn
      exact ⟨⟨rfl, ⟨by decide, by decide⟩, by decide, by decide⟩, by decide⟩
    · simp only [constRange, hn, ne_eq, not_false_eq_true, decide_true, Bool.and_self, if_true]
      exact ⟨⟨rfl, ⟨by decide, by decide⟩, by decide, by decide⟩, by decide⟩
  · rw [constRange_of_ne_one hbits, or_iff_right hbits]
    exact ⟨fun h => h.lo, fun h => ⟨⟨rfl, h, h⟩, le_refl _⟩⟩

theorem low_one (x : Int) : low 1 x = if x % 2 = 1 then -1 else 0 := by
  rw [low_eq_bmod, Int.bmod_def]
  have hcases := Int.emod_two_eq x
  norm_num
  split <;> split <;> omega

theorem constRange_has_iff (hbits : 1 ≤ bits) :
    (constRange bits n).Has (low bits n.toInt) ↔ Kept bits n := by
  unfold Kept
  by_cases h : bits = 1
  · subst h
    rw [low_one, if_pos rfl]
    by_cases hn : n = 0
    · subst hn
      exact iff_of_true ⟨by decide, by decide⟩ (.inl rfl)
    · simp only [constRange, hn, ne_eq, not_false_eq_true, decide_true, Bool.and_self, if_true,
        false_or, Interval.const, Interval.Has]
      split
      · next hodd => exact iff_of_true ⟨by decide, by decide⟩ hodd
      · next heven => exact iff_of_false (by decide) heven
  · rw [constRange_of_ne_one h, if_neg h]
    constructor
    · intro hhas
      have heq : low bits n.toInt = n.toInt := le_antisymm hhas.2 hhas.1
      rw [← heq]
      exact Ty.holds_toInt _
    · intro hholds
      rw [low_of_holds hbits hholds]
      exact ⟨le_refl _, le_refl _⟩

theorem isConst_of_comparison? {cmp : Instr} {c : Comparison} (h : comparison? cmp = .ok (some c)) :
    c.value.isConst = false := by
  simp only [comparison?, Checked.bind_eq_ok] at h
  obtain ⟨l, -, r, -, h⟩ := h
  split at h
  · next hl _ =>
    obtain ⟨d, -, rfl⟩ := Option.map_eq_some_iff.mp (Checked.pure_eq_ok.mp h)
    exact hl
  · next _ hr =>
    obtain ⟨d, -, rfl⟩ := Option.map_eq_some_iff.mp (Checked.pure_eq_ok.mp h)
    exact hr
  · cases h

theorem isConst_of_fact (hk : Context.of f o = .ok k) : ∀ x ∈ k.facts, x.value.isConst = false := by
  intro x hx
  cases o with
  | none =>
    cases hk
    cases hx
  | some d =>
    obtain ⟨_, _, _, _, _, hg⟩ := factsOf_grounded (Context.of_eq hk).2.2 hx
    rw [← hg.value]
    exact isConst_of_comparison? hg.comparison

theorem narrowBy_const {t : Option Ty} (hfacts : ∀ x ∈ k.facts, x.value.isConst = false)
    (site : Option Int) (r : Interval) : narrowBy k (.int t n) site r = .ok r := by
  cases site with
  | none => rfl
  | some s =>
    have hother : ∀ x ∈ k.facts, x.value.sameAs (.int t n) = false := by
      intro x hx
      have hvalue := hfacts x hx
      cases hv : x.value with
      | int => simp [hv, Value.isConst] at hvalue
      | _ => rfl
    obtain ⟨q, hq, rfl⟩ : ∃ q, narrowBy k (.int t n) (some s) r = .ok q ∧ q = r :=
      Checked.answers_foldlM (fun q => q = r)
        (fun q x hx hqr => ⟨q, by simp [hother x hx], hqr⟩) rfl
    exact hq

theorem rangeAt_const (hk : Context.of f o = .ok k) (bits : Nat) (n : Int64) (site : Option Int)
    (m : Memo) :
    (rangeAt k (.int (some (.int bits)) n) site).run m = .ok (constRange bits n, m) := by
  have hnarrow := narrowBy_const (n := n) (t := some (.int bits)) (isConst_of_fact hk) site
    (constRange bits n)
  unfold rangeAt rangeBy
  change ((liftM (narrowBy k (.int (some (.int bits)) n) site (constRange bits n)) :
    RangeM Interval)).run m = _
  rw [hnarrow]
  rfl

end ValueRange

namespace Ssa

open ValueRange

variable {t : SourceTy} {signed : Bool} {bits : Nat}

theorem lower_of_integer (h : t.basicKind? = some (.integer signed bits)) : t.lower = .int bits := by
  induction t using SourceTy.underlying.induct with
  | case1 name t ih =>
    rw [SourceTy.lower]
    exact ih h
  | case2 name t ih =>
    rw [SourceTy.lower]
    exact ih h
  | case3 t hnamed hsynonym =>
    cases t with
    | basic b =>
      have hkind : b.kind = .integer signed bits := Option.some.inj h
      rw [SourceTy.lower, BasicTy.lower, hkind]
    | named name t => exact absurd rfl (hnamed name t)
    | synonym name t => exact absurd rfl (hsynonym name t)
    | _ => cases h

/-- A number of an integer type of the source. -/
def InRange (signed : Bool) (bits : Nat) (n : Int) : Prop :=
  if signed then (Ty.int bits).Holds n else 0 ≤ n ∧ n < 2 ^ bits

theorem value_of_integer {l : Literal} {n : Int} (h : t.basicKind? = some (.integer signed bits))
    (hl : l.orZero t = .int n) : Literal.value t l = .int (some (.int bits)) (Literal.word n) := by
  rw [Literal.value, hl, lower_of_integer h]

theorem toInt_word {n : Int} (h : Word.Fits n) : (Literal.word n).toInt = n := by
  have hword : Literal.word n = .ofInt n := by
    simp [Literal.word, Word.ofInt?, h.1, h.2]
  rw [hword, toInt_ofInt_of_fits h]

theorem fits_of_holds {n : Int} (hbits : bits ≤ 64) (h : (Ty.int bits).Holds n) : Word.Fits n := by
  have hsmall := Holds.small hbits h
  unfold Word.Fits Word.minSigned Word.maxSigned
  omega

/-- The number of a literal is kept unless its type is unsigned and narrow and it takes the sign bit. -/
theorem kept_word_iff {n : Int} (hbits : 1 < bits) (hbits' : bits ≤ 64)
    (h : InRange signed bits n) :
    Kept bits (Literal.word n) ↔ signed = true ∨ bits = 64 ∨ n < 2 ^ (bits - 1) := by
  rw [Kept, if_neg (by omega)]
  unfold InRange at h
  cases signed with
  | true =>
    refine iff_of_true ?_ (.inl rfl)
    have h : (Ty.int bits).Holds n := h
    rwa [toInt_word (fits_of_holds hbits' h)]
  | false =>
    obtain ⟨hlo, hhi⟩ : 0 ≤ n ∧ n < 2 ^ bits := h
    by_cases htop : bits = 64
    · subst htop
      exact iff_of_true (Ty.holds_toInt (Literal.word n).toBitVec) (.inr (.inl rfl))
    · have hpow := two_pow_le (show bits ≤ 63 by omega)
      have hfits : Word.Fits n := by
        unfold Word.Fits Word.minSigned Word.maxSigned
        omega
      rw [toInt_word hfits, Ty.Holds]
      have hpos := one_le_two_pow (bits - 1)
      simp only [htop, Bool.false_eq_true, false_or]
      omega

end Ssa

namespace ValueRange

/-- The interval of a constant can be told at every place of a function that reading accepts. It holds
the number in the low bits of the word if and only if the word is kept, and it is well formed if and only
if the word is a number of the width or the width is a single bit. Among the literals of an integer type
of the source, those of narrow unsigned types that take the sign bit are not kept. -/
theorem rangeAt_const_iff_kept (f : Func) (o : Option DomInfo) :
    (∀ file src p, parse file src = .ok p → p.errors = [] → f ∈ p.module.funcs →
      ∃ k, Context.of f o = .ok k) ∧
    (∀ k, Context.of f o = .ok k → ∀ bits, 1 ≤ bits → ∀ n site m,
      ∃ r, (rangeAt k (.int (some (.int bits)) n) site).run m = .ok (r, m) ∧
        (r.Has (low bits n.toInt) ↔ Kept bits n) ∧
        (WellFormed bits r ↔ bits = 1 ∨ (Ty.int bits).Holds n.toInt)) ∧
    ∀ (t : SourceTy) signed bits (l : Ssa.Literal) n, t.basicKind? = some (.integer signed bits) →
      1 < bits → bits ≤ 64 → l.orZero t = .int n → Ssa.InRange signed bits n →
      ∃ w, l.value t = .int (some (.int bits)) w ∧
        (Kept bits w ↔ signed = true ∨ bits = 64 ∨ n < 2 ^ (bits - 1)) := by
  refine ⟨fun file src p h he hf => ?_, fun k hk bits hbits n site m => ?_,
    fun t signed bits l n ht hbits hbits' hl hn => ?_⟩
  · have hsolid := ((read_of_parse h he).funcs f hf).solid
    obtain ⟨k, hk, -, -⟩ := Context.Sturdy.exists_of o hsolid.sturdy
    exact ⟨k, hk⟩
  · exact ⟨_, rangeAt_const hk bits n site m, constRange_has_iff hbits, wellFormed_constRange⟩
  · exact ⟨_, Ssa.value_of_integer ht hl, Ssa.kept_word_iff hbits hbits' hn⟩

def returning (n : Int64) : Func where
  name := "f"
  ret := .i8
  blocks := #[{ name := "a", instrs := [0] }]
  instrs := #[{ home := some 0, op := .ret, operands := [.int (some .i8) n], pos := ⟨3, 3⟩ }]
  entry := some 0
  file := "f.mir"

def returnText (literal : String) : Bytes :=
  Bytes.ofString ("func @f() -> i8 \x7b\na:\n  ret i8 " ++ literal ++ "\n\x7d\n")

/-- Forty-four is kept as a signed octet; two hundred is not, though it is an unsigned one. -/
theorem octets_kept : ∃ p k r w, parse "f.mir" (returnText "44") = .ok p ∧ p.errors = [] ∧
    returning 44 ∈ p.module.funcs ∧ Context.of (returning 44) none = .ok k ∧
    (rangeAt k (.int (some .i8) 44) none).run (.empty (returning 44)) =
      .ok (r, .empty (returning 44)) ∧ r.Has 44 ∧ WellFormed 8 r ∧
    Ssa.Literal.value (.ofName "uint8") (.int 200) = .int (some .i8) w ∧ ¬ Kept 8 w := by
  obtain ⟨p, hp, he, hf⟩ := parse_alone "f.mir" (returnText "44") (returning 44) (by decide +kernel)
  obtain ⟨hof, hrange, hlower⟩ := rangeAt_const_iff_kept (returning 44) none
  obtain ⟨k, hk⟩ := hof _ _ p hp he hf
  obtain ⟨r, hr, hhas, hwell⟩ := hrange k hk 8 (by decide) 44 none (.empty (returning 44))
  obtain ⟨w, hw, hkept⟩ := hlower (.ofName "uint8") false 8 (.int 200) 200 (by decide) (by decide)
    (by decide) rfl ⟨by decide, by decide⟩
  have hfits : (Ty.int 8).Holds (44 : Int64).toInt := ⟨by decide, by decide⟩
  refine ⟨p, k, r, w, hp, he, hf, hk, hr, hhas.mpr ?_, hwell.mpr (.inr hfits), hw, ?_⟩
  · rwa [Kept, if_neg (by decide)]
  · rw [hkept]
    decide

/-- As a signed octet two hundred stands for minus fifty-six, but its interval is two hundred alone. -/
theorem unsigned_octet_not_in_range : ∃ p k, parse "f.mir" (returnText "200") = .ok p ∧
    p.errors = [] ∧ returning 200 ∈ p.module.funcs ∧ Context.of (returning 200) none = .ok k ∧
    (rangeAt k (.int (some .i8) 200) none).run (.empty (returning 200)) =
      .ok (⟨8, 200, 200⟩, .empty (returning 200)) ∧
    (BitVec.ofInt 8 200).toInt = -56 ∧ ¬ Interval.Has ⟨8, 200, 200⟩ (-56) ∧
    ¬ WellFormed 8 ⟨8, 200, 200⟩ := by
  obtain ⟨p, hp, he, hf⟩ :=
    parse_alone "f.mir" (returnText "200") (returning 200) (by decide +kernel)
  have hk : Context.of (returning 200) none = .ok ⟨returning 200, none, []⟩ := rfl
  exact ⟨p, _, hp, he, hf, hk, rangeAt_const hk 8 200 none _, by decide,
    fun h => absurd h.1 (by decide), fun h => absurd h.hi.2 (by decide)⟩

end ValueRange

end RegPressure
