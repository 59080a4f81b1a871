import RegPressure.IR.Instr
import RegPressure.Proofs.Number.Shortest
import RegPressure.Proofs.Text.Parts

namespace RegPressure.Binary64

structure Trimmed (ds : List Char) : Prop where
  ne_nil : ds ≠ []
  digits : ∀ c ∈ ds, c.isDigit = true
  head : ds.head? ≠ some '0'
  last : ds.getLast? ≠ some '0'

section Zeros

variable {cs ds : List Char}

theorem exists_dropZeros (cs : List Char) : ∃ k, cs = dropZeros cs ++ List.replicate k '0' := by
  let p : Char → Bool := fun c => decide (c = '0')
  have hzeros : cs.rtakeWhile p = List.replicate (cs.rtakeWhile p).length '0' :=
    List.eq_replicate_of_mem fun c hc => of_decide_eq_true (List.mem_rtakeWhile_imp hc : p c = true)
  have hsplit : cs = dropZeros cs ++ cs.rtakeWhile p := List.rdropWhile_append_rtakeWhile.symm
  exact ⟨_, hzeros ▸ hsplit⟩

theorem getLast?_dropZeros (cs : List Char) : (dropZeros cs).getLast? ≠ some '0' := by
  intro hlast
  have hne : dropZeros cs ≠ [] := by
    rintro hnil
    rw [hnil] at hlast
    cases hlast
  have hnot := List.rdropWhile_last_not (fun c : Char => decide (c = '0')) cs hne
  rw [List.getLast?_eq_some_getLast hne] at hlast
  exact hnot (decide_eq_true (Option.some.inj hlast))

theorem dropZeros_append (h : ds.getLast? ≠ some '0') (k : Nat) :
    dropZeros (ds ++ List.replicate k '0') = ds := by
  induction k with
  | zero =>
    rw [List.replicate_zero, List.append_nil]
    refine List.rdropWhile_eq_self_iff.mpr fun hne hzero => h ?_
    rw [List.getLast?_eq_some_getLast hne, of_decide_eq_true hzero]
  | succ k ih =>
    rw [List.replicate_succ', ← List.append_assoc]
    exact (List.rdropWhile_concat_pos _ _ _ (by decide)).trans ih

end Zeros

section Layout

variable {ds ds' whole whole' part part' : List Char} {e e' : Int}

def pointed (whole part : List Char) : List Char := whole ++ (if part = [] then [] else '.' :: part)

theorem pointed_inj (hw : '.' ∉ whole) (hw' : '.' ∉ whole') (h : pointed whole part = pointed whole' part') :
    whole = whole' ∧ part = part' := by
  unfold pointed at h
  split at h
  · next hnil =>
    split at h
    · next hnil' => exact ⟨by simpa using h, hnil.trans hnil'.symm⟩
    · rw [List.append_nil] at h
      exact absurd (h ▸ List.mem_append_right _ List.mem_cons_self) hw
  · split at h
    · rw [List.append_nil] at h
      exact absurd (h ▸ List.mem_append_right _ List.mem_cons_self) hw'
    · exact append_mark_inj hw hw' h

def wholeDigits (ds : List Char) (n : Nat) : List Char := ds.take n ++ List.replicate (n - ds.length) '0'

theorem length_wholeDigits (ds : List Char) (n : Nat) : (wholeDigits ds n).length = n := by
  rw [wholeDigits, List.length_append, List.length_take, List.length_replicate]
  omega

theorem wholeDigits_ne_nil (ds : List Char) (n : Nat) : wholeDigits ds (n + 1) ≠ [] := fun hnil =>
  Nat.succ_ne_zero n ((length_wholeDigits ds (n + 1)).symm.trans (congrArg List.length hnil))

theorem wholeDigits_append_drop (ds : List Char) (n : Nat) :
    wholeDigits ds n ++ ds.drop n = ds ++ List.replicate (n - ds.length) '0' := by
  rcases Nat.le_total n ds.length with h | h
  · rw [wholeDigits, Nat.sub_eq_zero_of_le h, List.replicate_zero, List.append_nil, List.append_nil,
      List.take_append_drop]
  · rw [wholeDigits, List.take_of_length_le h, List.drop_eq_nil_of_le h, List.append_nil]

theorem toList_layout (ds : List Char) (e : Int) : (layout ds e).toList =
    if e < -4 || 6 ≤ e then pointed (ds.take 1) (ds.drop 1) ++ 'e' :: (exponentText e).toList
    else if e < 0 then '0' :: '.' :: (List.replicate (-e - 1).toNat '0' ++ ds)
    else pointed (wholeDigits ds (e.toNat + 1)) (ds.drop (e.toNat + 1)) := by
  unfold layout
  split
  · rw [String.toList_append, String.toList_append, String.toList_ofList, List.append_assoc]
    rfl
  · split
    · rw [String.toList_append, String.toList_ofList, String.toList_ofList]
      rfl
    · rw [String.toList_ofList]
      rfl

theorem digits_toString (n : Nat) : ∀ c ∈ (toString n).toList, c.isDigit = true := by
  intro c hc
  rw [Nat.toString_eq_repr, Nat.toList_repr] at hc
  exact isDigit_of_mem_digits hc

def marks : List Char := ['-', '+', '.', 'e']

theorem exponentText_spec (e : Int) : ∃ ds, (exponentText e).toList = (if e < 0 then '-' else '+') :: ds ∧
    ds ≠ [] ∧ (∀ c ∈ ds, c.isDigit = true) ∧ Nat.ofDigitChars 10 ds 0 = e.natAbs := by
  have hdigits := digits_toString e.natAbs
  have hvalue : Nat.ofDigitChars 10 (toString e.natAbs).toList 0 = e.natAbs := by
    rw [Nat.toString_eq_repr, Nat.toList_repr, Nat.ofDigitChars_ten_toDigits]
  have hsign : (if e < 0 then "-" else "+").toList = [if e < 0 then '-' else '+'] := by
    split <;> rfl
  unfold exponentText
  dsimp only
  rw [String.toList_append, hsign]
  by_cases hshort : (toString e.natAbs).length < 2
  · refine ⟨'0' :: (toString e.natAbs).toList, ?_, List.cons_ne_nil _ _,
      List.forall_mem_cons.mpr ⟨by decide, hdigits⟩, ?_⟩
    · rw [if_pos hshort, String.toList_append]
      rfl
    · rw [Nat.ofDigitChars_cons]
      exact hvalue
  · refine ⟨_, ?_, ?_, hdigits, hvalue⟩
    · rw [if_neg hshort]
      rfl
    · rw [Nat.toString_eq_repr, Nat.toList_repr]
      exact Nat.toDigits_ne_nil

theorem exponentText_inj (h : (exponentText e).toList = (exponentText e').toList) : e = e' := by
  obtain ⟨ds, hds, -, -, hvalue⟩ := exponentText_spec e
  obtain ⟨ds', hds', -, -, hvalue'⟩ := exponentText_spec e'
  rw [hds, hds'] at h
  obtain ⟨hsign, rfl⟩ := List.cons.inj h
  have hamount : e.natAbs = e'.natAbs := hvalue.symm.trans hvalue'
  by_cases hneg : e < 0
  · by_cases hneg' : e' < 0
    · omega
    · rw [if_pos hneg, if_neg hneg'] at hsign
      exact absurd hsign (by decide)
  · by_cases hneg' : e' < 0
    · rw [if_neg hneg, if_pos hneg'] at hsign
      exact absurd hsign (by decide)
    · omega

theorem mem_pointed {c : Char} (h : c ∈ pointed whole part) : c ∈ whole ∨ c = '.' ∨ c ∈ part := by
  unfold pointed at h
  rcases List.mem_append.mp h with h | h
  · exact .inl h
  · split at h
    · cases h
    · exact .inr (List.mem_cons.mp h)

theorem Trimmed.isDigit_whole (h : Trimmed ds) (n : Nat) : ∀ c ∈ wholeDigits ds n, c.isDigit = true := by
  intro c hc
  rcases List.mem_append.mp hc with hc | hc
  · exact h.digits c (List.mem_of_mem_take hc)
  · rw [List.eq_of_mem_replicate hc]
    decide

/-- A number is written with digits, signs, points and the letter of an exponent. -/
theorem layout_chars (h : Trimmed ds) (e : Int) :
    ∀ c ∈ (layout ds e).toList, c.isDigit = true ∨ c ∈ marks := by
  intro c hc
  rw [toList_layout] at hc
  split at hc
  · rcases List.mem_append.mp hc with hc | hc
    · rcases mem_pointed hc with hc | rfl | hc
      · exact .inl (h.digits c (List.mem_of_mem_take hc))
      · exact .inr (by decide)
      · exact .inl (h.digits c (List.mem_of_mem_drop hc))
    · obtain ⟨ds', hds', -, hdigits, -⟩ := exponentText_spec e
      rw [hds'] at hc
      rcases List.mem_cons.mp hc with rfl | hc
      · exact .inr (by decide)
      · rcases List.mem_cons.mp hc with rfl | hc
        · split
          · exact .inr (by decide)
          · exact .inr (by decide)
        · exact .inl (hdigits c hc)
  · split at hc
    · rcases List.mem_cons.mp hc with rfl | hc
      · exact .inl (by decide)
      · rcases List.mem_cons.mp hc with rfl | hc
        · exact .inr (by decide)
        · rcases List.mem_append.mp hc with hc | hc
          · rw [List.eq_of_mem_replicate hc]
            exact .inl (by decide)
          · exact .inl (h.digits c hc)
    · rcases mem_pointed hc with hc | rfl | hc
      · exact .inl (h.isDigit_whole _ c hc)
      · exact .inr (by decide)
      · exact .inl (h.digits c (List.mem_of_mem_drop hc))

theorem Trimmed.not_mem (h : Trimmed ds) {c : Char} (hc : c.isDigit = false) : c ∉ ds := fun hmem =>
  absurd (h.digits c hmem) (by rw [hc]; decide)

theorem Trimmed.not_mem_wholeDigits (h : Trimmed ds) {c : Char} (hc : c.isDigit = false) (n : Nat) :
    c ∉ wholeDigits ds n := fun hmem => absurd (h.isDigit_whole n c hmem) (by rw [hc]; decide)

theorem not_mem_pointed {c : Char} (hw : c ∉ whole) (hp : c ∉ part) (hc : c ≠ '.') :
    c ∉ pointed whole part := fun hmem =>
  (mem_pointed hmem).elim hw fun h => h.elim hc hp

theorem letter_mem_layout_iff (h : Trimmed ds) (e : Int) :
    'e' ∈ (layout ds e).toList ↔ (e < -4 || 6 ≤ e) = true := by
  have hds : 'e' ∉ ds := h.not_mem (by decide)
  rw [toList_layout]
  split
  · next hwide => exact ⟨fun _ => hwide, fun _ => List.mem_append_right _ List.mem_cons_self⟩
  · next hwide =>
    refine ⟨fun hmem => ?_, fun hw => absurd hw hwide⟩
    split at hmem
    · rcases List.mem_cons.mp hmem with he | hmem
      · exact absurd he (by decide)
      · rcases List.mem_cons.mp hmem with he | hmem
        · exact absurd he (by decide)
        · rcases List.mem_append.mp hmem with hmem | hmem
          · exact absurd (List.eq_of_mem_replicate hmem) (by decide)
          · exact absurd hmem hds
    · exact absurd hmem (not_mem_pointed (h.not_mem_wholeDigits (by decide) _)
        (fun hm => hds (List.mem_of_mem_drop hm)) (by decide))

theorem Trimmed.head_wholeDigits (h : Trimmed ds) (n : Nat) :
    (wholeDigits ds (n + 1)).head? ≠ some '0' := by
  obtain ⟨d, more, rfl⟩ := List.exists_cons_of_ne_nil h.ne_nil
  exact h.head

theorem head?_pointed (hw : whole ≠ []) : (pointed whole part).head? = whole.head? := by
  obtain ⟨d, more, rfl⟩ := List.exists_cons_of_ne_nil hw
  rfl

theorem replicate_append_inj {m n : Nat} (h : Trimmed ds) (h' : Trimmed ds')
    (heq : List.replicate m '0' ++ ds = List.replicate n '0' ++ ds') : m = n ∧ ds = ds' := by
  induction m generalizing n with
  | zero =>
    cases n with
    | zero => exact ⟨rfl, heq⟩
    | succ n => exact absurd (congrArg List.head? heq) h.head
  | succ m ih =>
    cases n with
    | zero => exact absurd (congrArg List.head? heq).symm h'.head
    | succ n =>
      obtain ⟨hmn, hds⟩ := ih (List.cons.inj heq).2
      exact ⟨congrArg (· + 1) hmn, hds⟩

/-- The text tells the digits and the power of ten of the first one. -/
theorem layout_inj (h : Trimmed ds) (h' : Trimmed ds') (heq : layout ds e = layout ds' e') :
    ds = ds' ∧ e = e' := by
  have hletter := letter_mem_layout_iff h e
  rw [heq, letter_mem_layout_iff h' e'] at hletter
  have htext := congrArg String.toList heq
  rw [toList_layout, toList_layout] at htext
  by_cases hwide : (e < -4 || 6 ≤ e) = true
  · have hpoint : ∀ {l : List Char} {n : Nat}, Trimmed l → '.' ∉ l.take n := fun hl hm =>
      hl.not_mem (by decide) (List.mem_of_mem_take hm)
    have hno : ∀ {l : List Char}, Trimmed l → 'e' ∉ pointed (l.take 1) (l.drop 1) := fun hl =>
      not_mem_pointed (fun hm => hl.not_mem (by decide) (List.mem_of_mem_take hm))
        (fun hm => hl.not_mem (by decide) (List.mem_of_mem_drop hm)) (by decide)
    rw [if_pos hwide, if_pos (hletter.mpr hwide)] at htext
    obtain ⟨hdigits, hexp⟩ := append_mark_inj (hno h) (hno h') htext
    obtain ⟨htake, hdrop⟩ := pointed_inj (hpoint h) (hpoint h') hdigits
    exact ⟨by rw [← List.take_append_drop 1 ds, htake, hdrop, List.take_append_drop],
      exponentText_inj hexp⟩
  · have hwide' : ¬ (e' < -4 || 6 ≤ e') = true := fun hw => hwide (hletter.mp hw)
    rw [if_neg hwide, if_neg hwide'] at htext
    simp only [Bool.or_eq_true, decide_eq_true_eq, not_or] at hwide hwide'
    by_cases hneg : e < 0
    · by_cases hneg' : e' < 0
      · rw [if_pos hneg, if_pos hneg'] at htext
        obtain ⟨hzeros, hds⟩ := replicate_append_inj h h' (List.cons.inj (List.cons.inj htext).2).2
        exact ⟨hds, by omega⟩
      · rw [if_pos hneg, if_neg hneg'] at htext
        have hhead := congrArg List.head? htext
        rw [head?_pointed (wholeDigits_ne_nil _ _)] at hhead
        exact absurd hhead.symm (h'.head_wholeDigits _)
    · by_cases hneg' : e' < 0
      · rw [if_neg hneg, if_pos hneg'] at htext
        have hhead := congrArg List.head? htext
        rw [head?_pointed (wholeDigits_ne_nil _ _)] at hhead
        exact absurd hhead (h.head_wholeDigits _)
      · rw [if_neg hneg, if_neg hneg'] at htext
        obtain ⟨hwhole, hpart⟩ := pointed_inj (h.not_mem_wholeDigits (by decide) _)
          (h'.not_mem_wholeDigits (by decide) _) htext
        have hlength := congrArg List.length hwhole
        rw [length_wholeDigits, length_wholeDigits] at hlength
        have hall : ds ++ List.replicate (e.toNat + 1 - ds.length) '0' =
            ds' ++ List.replicate (e'.toNat + 1 - ds'.length) '0' := by
          rw [← wholeDigits_append_drop, ← wholeDigits_append_drop, hwhole, hpart]
        have hds := congrArg dropZeros hall
        rw [dropZeros_append h.last, dropZeros_append h'.last] at hds
        exact ⟨hds, by omega⟩

end Layout

section Numbers

variable {x y : Binary64}

theorem trimmed_digits {n : Nat} (h : 0 < n) : Trimmed (dropZeros (toString n).toList) := by
  obtain ⟨k, hk⟩ := exists_dropZeros (toString n).toList
  have hhead : (toString n).toList.head? ≠ some '0' := by
    rw [Nat.toString_eq_repr, Nat.toList_repr]
    exact head?_toDigits_ne h
  have hne : (toString n).toList ≠ [] := by
    rw [Nat.toString_eq_repr, Nat.toList_repr]
    exact Nat.toDigits_ne_nil
  have hdrop : dropZeros (toString n).toList ≠ [] := by
    intro hnil
    rw [hnil, List.nil_append] at hk
    cases k with
    | zero => exact hne hk
    | succ k => exact hhead (hk ▸ rfl)
  refine ⟨hdrop, fun c hc => digits_toString n c (hk ▸ List.mem_append_left _ hc), ?_,
    getLast?_dropZeros _⟩
  intro hzero
  refine hhead ?_
  rw [hk, List.head?_append, hzero]
  rfl

theorem digits_value (d : Digits) : (d.digits : ℚ) * 10 ^ d.exp =
    Nat.ofDigitChars 10 (dropZeros (toString d.digits).toList) 0 *
      10 ^ (d.exp + (toString d.digits).toList.length - 1 + 1 -
        (dropZeros (toString d.digits).toList).length) := by
  obtain ⟨k, hk⟩ := exists_dropZeros (toString d.digits).toList
  have hvalue : Nat.ofDigitChars 10 (toString d.digits).toList 0 = d.digits := by
    rw [Nat.toString_eq_repr, Nat.toList_repr, Nat.ofDigitChars_ten_toDigits]
  have hlength := congrArg List.length hk
  rw [List.length_append, List.length_replicate] at hlength
  rw [hk, Nat.ofDigitChars_append, Nat.ofDigitChars_replicate_zero] at hvalue
  have hexp : d.exp + (toString d.digits).toList.length - 1 + 1 -
      (dropZeros (toString d.digits).toList).length = d.exp + k := by omega
  rw [hexp, zpow_add₀ (by norm_num), zpow_natCast]
  nth_rewrite 1 [← hvalue]
  push_cast
  ring

def amountText (x : Binary64) : String :=
  if x.isZero then "0"
  else layout (dropZeros (toString x.shortest.digits).toList)
    (x.shortest.exp + (toString x.shortest.digits).toList.length - 1)

theorem text_finite (hnan : x.isNaN = false) (hinf : x.isInfinite = false) :
    x.text = (if x.isNegative then "-" else "") ++ x.amountText := by
  unfold text amountText
  rw [hnan, hinf]
  dsimp only
  simp only [Bool.false_eq_true, if_false]
  split
  · rfl
  · rfl

theorem text_infinite (hnan : x.isNaN = false) (hinf : x.isInfinite = true) :
    x.text = if x.isNegative then "-Inf" else "+Inf" := by
  unfold text
  rw [hnan, hinf]
  rfl

theorem mantissa_pos (h : x.isZero = false) : 0 < x.mantissa := by
  simp only [isZero, Bool.and_eq_false_iff, decide_eq_false_iff_not] at h
  unfold mantissa hiddenBit
  split
  · omega
  · omega

theorem amountText_chars (x : Binary64) :
    ∀ c ∈ x.amountText.toList, c.isDigit = true ∨ c ∈ marks := by
  unfold amountText
  split
  · intro c hc
    rw [List.mem_singleton.mp hc]
    exact .inl (by decide)
  · next hzero =>
    exact layout_chars (trimmed_digits (shortest_spec (mantissa_pos (by simpa using hzero))).1) _

theorem isDigit_head_layout {ds : List Char} (h : Trimmed ds) (e : Int) {c : Char}
    (hc : (layout ds e).toList.head? = some c) : c.isDigit = true := by
  rw [toList_layout] at hc
  split at hc
  · obtain ⟨d, more, rfl⟩ := List.exists_cons_of_ne_nil h.ne_nil
    rw [← Option.some.inj hc]
    exact h.digits d List.mem_cons_self
  · split at hc
    · rw [← Option.some.inj hc]
      decide
    · rw [head?_pointed (wholeDigits_ne_nil ds _)] at hc
      exact h.isDigit_whole _ c (List.mem_of_head? hc)

theorem layout_ne_zero {ds : List Char} (h : Trimmed ds) (e : Int) : (layout ds e).toList ≠ ['0'] := by
  intro hzero
  have hletter := letter_mem_layout_iff h e
  rw [hzero] at hletter
  have hwide : ¬ (e < -4 || 6 ≤ e) = true := fun hw => absurd (hletter.mpr hw) (by decide)
  rw [toList_layout, if_neg hwide] at hzero
  split at hzero
  · cases hzero
  · have hhead := congrArg List.head? hzero
    rw [head?_pointed (wholeDigits_ne_nil ds _)] at hhead
    exact h.head_wholeDigits _ hhead

theorem isZero_iff : x.isZero = true ↔ x.place = 0 := by
  simp only [isZero, Bool.and_eq_true, decide_eq_true_eq]
  rw [biased_eq_place, fraction_eq_place]
  unfold hiddenBit
  omega

theorem place_eq_of_amountText (h : x.amountText = y.amountText) : x.place = y.place := by
  unfold amountText at h
  cases hx : x.isZero with
  | true =>
    cases hy : y.isZero with
    | true => exact (isZero_iff.mp hx).trans (isZero_iff.mp hy).symm
    | false =>
      rw [if_pos hx, if_neg (by rw [hy]; decide)] at h
      exact absurd (congrArg String.toList h).symm
        (layout_ne_zero (trimmed_digits (shortest_spec (mantissa_pos hy)).1) _)
  | false =>
    obtain ⟨hpos, hholds⟩ := shortest_spec (mantissa_pos hx)
    cases hy : y.isZero with
    | true =>
      rw [if_pos hy, if_neg (by rw [hx]; decide)] at h
      exact absurd (congrArg String.toList h) (layout_ne_zero (trimmed_digits hpos) _)
    | false =>
      obtain ⟨hpos', hholds'⟩ := shortest_spec (mantissa_pos hy)
      rw [if_neg (by rw [hx]; decide), if_neg (by rw [hy]; decide)] at h
      obtain ⟨hds, he⟩ := layout_inj (trimmed_digits hpos) (trimmed_digits hpos') h
      rw [digits_value, hds, he, ← digits_value] at hholds
      exact hholds.unique hholds'

theorem isDigit_head_amountText (x : Binary64) {c : Char} (hc : x.amountText.toList.head? = some c) :
    c.isDigit = true := by
  unfold amountText at hc
  split at hc
  · rw [← Option.some.inj hc]
    decide
  · next hzero =>
    exact isDigit_head_layout (trimmed_digits (shortest_spec (mantissa_pos (by simpa using hzero))).1) _ hc

theorem isNegative_iff (hnan : x.isNaN = false) :
    x.isNegative = true ↔ x.text.toList.head? = some '-' := by
  cases hinf : x.isInfinite with
  | true =>
    rw [text_infinite hnan hinf]
    cases x.isNegative with
    | true => exact ⟨fun _ => rfl, fun _ => rfl⟩
    | false => exact ⟨fun h => absurd h (by decide), fun h => absurd h (by decide)⟩
  | false =>
    rw [text_finite hnan hinf]
    cases x.isNegative with
    | true =>
      rw [String.toList_append]
      exact ⟨fun _ => rfl, fun _ => rfl⟩
    | false =>
      rw [if_neg (by decide), String.empty_append]
      refine ⟨fun h => absurd h (by decide), fun h => ?_⟩
      exact absurd (isDigit_head_amountText x h) (by decide)

theorem isInfinite_iff (hnan : x.isNaN = false) : x.isInfinite = true ↔ 'I' ∈ x.text.toList := by
  cases hinf : x.isInfinite with
  | true =>
    rw [text_infinite hnan hinf]
    cases x.isNegative with
    | true => exact ⟨fun _ => by decide, fun _ => rfl⟩
    | false => exact ⟨fun _ => by decide, fun _ => rfl⟩
  | false =>
    refine ⟨fun h => absurd h (by decide), fun h => ?_⟩
    rw [text_finite hnan hinf, String.toList_append, List.mem_append] at h
    rcases h with h | h
    · split at h
      · exact absurd h (by decide)
      · exact absurd h (by decide)
    · exact absurd (amountText_chars x 'I' h) (by decide)

theorem place_of_isInfinite (h : x.isInfinite = true) : x.place = 2047 * hiddenBit := by
  simp only [isInfinite, Bool.and_eq_true, decide_eq_true_eq] at h
  rw [biased_eq_place, fraction_eq_place] at h
  have hdiv := Nat.div_add_mod x.place hiddenBit
  rw [h.1, h.2, Nat.add_zero, Nat.mul_comm] at hdiv
  exact hdiv.symm

theorem text_inj (hx : x.isNaN = false) (hy : y.isNaN = false) (h : x.text = y.text) : x = y := by
  have hsign : x.isNegative = y.isNegative := by
    rw [Bool.eq_iff_iff, isNegative_iff hx, isNegative_iff hy, h]
  have hinf : x.isInfinite = y.isInfinite := by
    rw [Bool.eq_iff_iff, isInfinite_iff hx, isInfinite_iff hy, h]
  refine eq_of_place hsign ?_
  cases hxi : x.isInfinite with
  | true => exact (place_of_isInfinite hxi).trans (place_of_isInfinite (hinf ▸ hxi)).symm
  | false =>
    rw [text_finite hx hxi, text_finite hy (hinf ▸ hxi), hsign] at h
    exact place_eq_of_amountText (String.append_right_inj _ |>.mp h)

theorem text_chars (hnan : x.isNaN = false) : ' ' ∉ x.text.toList := by
  intro h
  cases hinf : x.isInfinite with
  | true =>
    rw [text_infinite hnan hinf] at h
    split at h
    · exact absurd h (by decide)
    · exact absurd h (by decide)
  | false =>
    rw [text_finite hnan hinf, String.toList_append, List.mem_append] at h
    rcases h with h | h
    · split at h
      · exact absurd h (by decide)
      · exact absurd h (by decide)
    · exact absurd (amountText_chars x ' ' h) (by decide)

end Numbers

section Reading

variable {neg : Bool} {whole part cs ds : List Char} {exp : Option Int} {e : Int} {n : Nat} {x : Binary64}

def powerText : Option Int → List Char
  | none => []
  | some e => 'e' :: (exponentText e).toList

structure Spelled (cs whole part : List Char) (exp : Option Int) : Prop where
  eq : cs = pointed whole part ++ powerText exp
  ne_nil : whole ≠ []
  digits : ∀ c ∈ whole ++ part, c.isDigit = true
  short : whole.length ≤ 6

/-- A text of digits stands for them and for a power of ten. -/
theorem exists_spelled_layout (h : Trimmed ds) (e : Int) : ∃ whole part exp,
    Spelled (layout ds e).toList whole part exp ∧
      (Nat.ofDigitChars 10 (whole ++ part) 0 : ℚ) * 10 ^ (exp.getD 0 - part.length) =
        Nat.ofDigitChars 10 ds 0 * 10 ^ (e + 1 - ds.length) := by
  have hlength : 0 < ds.length := List.length_pos_iff.mpr h.ne_nil
  rw [toList_layout]
  split
  · refine ⟨ds.take 1, ds.drop 1, some e, ⟨rfl, ?_, ?_, ?_⟩, ?_⟩
    · obtain ⟨d, more, rfl⟩ := List.exists_cons_of_ne_nil h.ne_nil
      exact List.cons_ne_nil _ _
    · rw [List.take_append_drop]
      exact h.digits
    · exact Nat.le_trans (List.length_take_le 1 ds) (by decide : 1 ≤ 6)
    · rw [List.take_append_drop, List.length_drop, Option.getD_some]
      congr 2
      omega
  · next hwide =>
    simp only [Bool.or_eq_true, decide_eq_true_eq, not_or] at hwide
    split
    · next hneg =>
      refine ⟨['0'], List.replicate (-e - 1).toNat '0' ++ ds, none,
        ⟨?_, List.cons_ne_nil _ _, ?_, by decide⟩, ?_⟩
      · simp [pointed, powerText, h.ne_nil]
      · have hzeros : ∀ c ∈ List.replicate (-e - 1).toNat '0', c.isDigit = true := fun c hc => by
          rw [List.eq_of_mem_replicate hc]
          decide
        exact List.forall_mem_append.mpr
          ⟨List.forall_mem_singleton.mpr rfl, List.forall_mem_append.mpr ⟨hzeros, h.digits⟩⟩
      · rw [List.length_append, List.length_replicate, Option.getD_none, Nat.ofDigitChars_append,
          Nat.ofDigitChars_append, Nat.ofDigitChars_replicate_zero]
        rw [show Nat.ofDigitChars 10 ['0'] 0 = 0 by rfl, Nat.mul_zero]
        congr 2
        omega
    · next hneg =>
      refine ⟨wholeDigits ds (e.toNat + 1), ds.drop (e.toNat + 1), none,
        ⟨?_, wholeDigits_ne_nil _ _, ?_, ?_⟩, ?_⟩
      · rw [powerText, List.append_nil]
      · exact List.forall_mem_append.mpr
          ⟨h.isDigit_whole _, fun c hc => h.digits c (List.mem_of_mem_drop hc)⟩
      · rw [length_wholeDigits]
        omega
      · rw [wholeDigits_append_drop, List.length_drop, Option.getD_none, Nat.ofDigitChars_append,
          Nat.ofDigitChars_replicate_zero]
        rw [Nat.cast_mul, Nat.cast_pow, Nat.cast_ofNat, mul_comm (10 ^ _ : ℚ), mul_assoc, ← zpow_natCast,
          ← zpow_add₀ (by norm_num)]
        congr 2
        omega

def Tells (x : Binary64) (n : Nat) (e : Int) : Prop :=
  if x.isZero then n = 0 else 0 < n ∧ Holds x.place (n * 10 ^ e)

/-- A decimal that stands for a finite number is read as it. -/
theorem Tells.eq (h : x.Tells n e) (hnan : x.isNaN = false) (hinf : x.isInfinite = false) :
    ofScientific x.isNegative n e = x := by
  unfold Tells at h
  split at h
  · next hzero =>
    rw [h, ofScientific]
    exact eq_of_place (isNegative_assemble (by decide))
      ((place_assemble (by decide)).trans (isZero_iff.mp hzero).symm)
  · next hzero =>
    have hpos : 0 < x.place := Nat.pos_of_ne_zero fun hplace => hzero (isZero_iff.mpr hplace)
    exact ofScientific_eq h.1 h.2 hpos (place_lt hnan hinf)

theorem Tells.shift (h : x.Tells n e) : x.Tells (10 * n) (e - 1) := by
  unfold Tells at h ⊢
  split at h
  · rw [if_pos ‹_›, h]
  · rw [if_neg ‹_›]
    refine ⟨Nat.mul_pos (by decide) h.1, ?_⟩
    have hvalue : ((10 * n : Nat) : ℚ) * 10 ^ (e - 1) = n * 10 ^ e := by
      rw [zpow_sub_one₀ (by norm_num)]
      push_cast
      ring
    exact hvalue ▸ h.2

theorem exists_spelled_amountText (x : Binary64) : ∃ whole part exp, Spelled x.amountText.toList whole part exp ∧
    x.Tells (Nat.ofDigitChars 10 (whole ++ part) 0) (exp.getD 0 - part.length) := by
  unfold amountText Tells
  split
  · exact ⟨['0'], [], none, ⟨rfl, List.cons_ne_nil _ _, List.forall_mem_singleton.mpr rfl, by decide⟩, rfl⟩
  · next hzero =>
    obtain ⟨hpos, hholds⟩ := shortest_spec (mantissa_pos (by simpa using hzero))
    obtain ⟨whole, part, exp, hspelled, hvalue⟩ := exists_spelled_layout (trimmed_digits hpos)
      (x.shortest.exp + (toString x.shortest.digits).toList.length - 1)
    rw [← digits_value] at hvalue
    refine ⟨whole, part, exp, hspelled, Nat.pos_of_ne_zero fun hz => ?_, hvalue ▸ hholds⟩
    rw [hz, Nat.cast_zero, zero_mul] at hvalue
    have : (0 : ℚ) < x.shortest.digits * 10 ^ x.shortest.exp := by positivity
    exact absurd hvalue this.ne

/-! ### The text as it is read -/

open Bytes

theorem span_digits {bs rest : Bytes} (hbs : ∀ b ∈ bs, Decimal.isDigit b = true)
    (hrest : ∀ b ∈ rest.head?, Decimal.isDigit b = false) :
    (bs ++ rest).takeWhile Decimal.isDigit = bs ∧ (bs ++ rest).dropWhile Decimal.isDigit = rest := by
  rw [List.takeWhile_append_of_pos hbs, List.dropWhile_append_of_pos hbs]
  cases rest with
  | nil => simp
  | cons b rest => simp [hrest b rfl]

theorem expPart_powerText (exp : Option Int) : expPart (ofAscii (powerText exp)) = some (exp.getD 0) := by
  cases exp with
  | none => rfl
  | some e =>
    obtain ⟨ds, hds, hne, hdigits, hvalue⟩ := exponentText_spec e
    have hread : Decimal.int? (ofAscii (exponentText e).toList) = some e := by
      rw [hds]
      split
      · exact (int?_minus hne hdigits).trans (congrArg some (by omega))
      · exact (int?_plus hne hdigits).trans (congrArg some (by omega))
    exact hread

theorem head?_powerText {b : UInt8} (hb : b ∈ (ofAscii (powerText exp)).head?) : b = 101 := by
  cases exp with
  | none => cases hb
  | some e => exact (Option.some.inj hb).symm

theorem Spelled.ofAscii_eq (h : Spelled cs whole part exp) : ofAscii cs = ofAscii whole ++
    ((if part = [] then [] else 46 :: ofAscii part) ++ ofAscii (powerText exp)) := by
  rw [h.eq, pointed, ofAscii_append, ofAscii_append, List.append_assoc]
  split <;> rfl

/-- Digits are read as the decimal that they stand for. -/
theorem Spelled.unsigned? (h : Spelled cs whole part exp) (neg : Bool) : unsigned? neg (ofAscii cs) =
    some (ofScientific neg (Nat.ofDigitChars 10 (whole ++ part) 0) (exp.getD 0 - part.length)) := by
  obtain ⟨hwhole, hpart⟩ := List.forall_mem_append.mp h.digits
  have hne : ofAscii whole ≠ [] := ofAscii_ne_nil h.ne_nil
  have hletter : ∀ b ∈ (ofAscii (powerText exp)).head?, Decimal.isDigit b = false := fun b hb => by
    rw [head?_powerText hb]
    rfl
  have hvalue : Decimal.value (ofAscii whole ++ ofAscii part) = Nat.ofDigitChars 10 (whole ++ part) 0 := by
    rw [← ofAscii_append, value_ofAscii h.digits]
  rw [h.ofAscii_eq, Binary64.unsigned?]
  by_cases hp : part = []
  · subst hp
    rw [if_pos rfl, List.nil_append]
    obtain ⟨htake, hdrop⟩ := span_digits (isDigit_ofAscii hwhole) hletter
    rw [htake, hdrop]
    dsimp only
    split
    · next he => exact absurd (head?_powerText (by rw [he]; rfl)) (by decide)
    · rw [List.append_nil, if_neg (by simp [hne]), expPart_powerText, value_ofAscii hwhole, List.append_nil]
      rfl
  · rw [if_neg hp]
    have hpoint : ∀ b ∈ (46 :: ofAscii part ++ ofAscii (powerText exp)).head?, Decimal.isDigit b = false := by
      rintro b ⟨⟩
      rfl
    obtain ⟨htake, hdrop⟩ := span_digits (isDigit_ofAscii hwhole) hpoint
    obtain ⟨htake', hdrop'⟩ := span_digits (isDigit_ofAscii hpart) hletter
    rw [htake, hdrop]
    dsimp only
    split
    · next more he =>
      have hmore : more = ofAscii part ++ ofAscii (powerText exp) := (List.cons.inj he).2.symm
      rw [hmore, htake', hdrop', hvalue, if_neg (by simp [hne]), expPart_powerText, ofAscii, List.length_map]
      rfl
    · next hno => exact absurd rfl (hno _)

/-! ### Floating constants -/

theorem lt_pow_of_digits (h : ∀ c ∈ cs, c.isDigit = true) : Nat.ofDigitChars 10 cs 0 < 10 ^ cs.length := by
  induction cs with
  | nil => exact Nat.one_pos
  | cons c cs ih =>
    obtain ⟨hc, hcs⟩ := List.forall_mem_cons.mp h
    have hrange := digit_range hc
    have hrest := ih hcs
    have hzero : '0'.toNat = 48 := rfl
    have hdigit : 10 ^ cs.length * (c.toNat - '0'.toNat) ≤ 10 ^ cs.length * 9 :=
      Nat.mul_le_mul_left _ (by omega)
    rw [Nat.ofDigitChars_cons, Nat.ofDigitChars_eq_ofDigitChars_zero, List.length_cons, Nat.pow_succ,
      Nat.mul_zero, Nat.zero_add]
    omega

/-- The text of a finite number, with its sign apart. -/
def signed (neg : Bool) (cs : List Char) : List Char := if neg then '-' :: cs else cs

theorem toList_text (hnan : x.isNaN = false) (hinf : x.isInfinite = false) :
    x.text.toList = signed x.isNegative x.amountText.toList := by
  rw [text_finite hnan hinf, String.toList_append, signed]
  split <;> rfl

theorem octets_of_int? {bs : Bytes} {k : Int} (h : Decimal.int? bs = some k) :
    ∀ b ∈ bs, b = 43 ∨ b = 45 ∨ Decimal.isDigit b = true := by
  have hdigits : ∀ {ds : Bytes} {f : Nat → Int}, (Decimal.nat? ds).map f = some k →
      ∀ b ∈ ds, b = 43 ∨ b = 45 ∨ Decimal.isDigit b = true := by
    intro ds f h b hb
    obtain ⟨n, hn, -⟩ := Option.map_eq_some_iff.mp h
    obtain ⟨hall, -⟩ := Option.ite_none_right_eq_some.mp hn
    exact .inr (.inr (List.all_eq_true.mp (Bool.and_eq_true_iff.mp hall).2 b hb))
  rw [Decimal.int?.eq_def] at h
  split at h
  · exact List.forall_mem_cons.mpr ⟨.inl rfl, hdigits h⟩
  · exact List.forall_mem_cons.mpr ⟨.inr (.inl rfl), hdigits h⟩
  · exact hdigits h

theorem ascii_signed (h : ∀ c ∈ cs, c.isDigit = true ∨ c ∈ marks) (neg : Bool) :
    ∀ c ∈ signed neg cs, c.toNat < 128 := by
  have hall : ∀ c ∈ cs, c.toNat < 128 := by
    intro c hc
    rcases h c hc with hdigit | hmark
    · have hrange := digit_range hdigit
      omega
    · have hmarks : marks.all (fun c => decide (c.toNat < 128)) = true := rfl
      exact of_decide_eq_true (List.all_eq_true.mp hmarks c hmark)
  unfold signed
  split
  · exact List.forall_mem_cons.mpr ⟨by decide, hall⟩
  · exact hall

theorem isSome_int64?_signed (hne : cs ≠ []) (h : ∀ c ∈ cs, c.isDigit = true) (hshort : cs.length ≤ 6)
    (neg : Bool) : (Decimal.int64? (ofAscii (signed neg cs))).isSome = true := by
  have hlt : Nat.ofDigitChars 10 cs 0 < 10 ^ 6 :=
    Nat.lt_of_lt_of_le (lt_pow_of_digits h) (Nat.pow_le_pow_right (by decide) hshort)
  have hread : ∃ k : Int, Decimal.int? (ofAscii (signed neg cs)) = some k ∧ -10 ^ 6 ≤ k ∧ k ≤ 10 ^ 6 := by
    cases neg with
    | true => exact ⟨-(Nat.ofDigitChars 10 cs 0 : Int), int?_minus hne h, by omega, by omega⟩
    | false => exact ⟨Nat.ofDigitChars 10 cs 0, int?_ofAscii hne h, by omega, by omega⟩
  obtain ⟨k, hk, hlow, hhigh⟩ := hread
  have hrange : Word.minSigned ≤ k ∧ k ≤ Word.maxSigned := by
    unfold Word.minSigned Word.maxSigned
    omega
  simp [Decimal.int64?, hk, Word.ofInt?, hrange]

structure Floating (x : Binary64) (cs whole part : List Char) (exp : Option Int) : Prop where
  spelled : Spelled cs whole part exp
  marked : part = [] → exp ≠ none
  tells : x.Tells (Nat.ofDigitChars 10 (whole ++ part) 0) (exp.getD 0 - part.length)

theorem Spelled.floating_of_whole (h : Spelled cs whole [] none)
    (hx : x.Tells (Nat.ofDigitChars 10 (whole ++ []) 0) ((none : Option Int).getD 0 - ([] : List Char).length)) :
    Floating x (cs ++ ['.', '0']) whole ['0'] none := by
  refine ⟨⟨?_, h.ne_nil, ?_, h.short⟩, nofun, ?_⟩
  · rw [h.eq]
    simp [pointed, powerText]
  · exact List.forall_mem_append.mpr ⟨(List.forall_mem_append.mp h.digits).1, List.forall_mem_singleton.mpr rfl⟩
  · rw [Nat.ofDigitChars_append]
    rw [List.append_nil] at hx
    exact hx.shift

theorem int64?_eq_none (h : Spelled cs whole part exp) (hmarked : part = [] → exp ≠ none) (neg : Bool) :
    Decimal.int64? (ofAscii (signed neg cs)) = none := by
  have hmark : ∃ c ∈ cs, c = '.' ∨ c = 'e' := by
    rw [h.eq]
    by_cases hp : part = []
    · obtain ⟨e, rfl⟩ := Option.ne_none_iff_exists'.mp (hmarked hp)
      exact ⟨'e', List.mem_append_right _ List.mem_cons_self, .inr rfl⟩
    · refine ⟨'.', List.mem_append_left _ (List.mem_append_right _ ?_), .inl rfl⟩
      rw [if_neg hp]
      exact List.mem_cons_self
  obtain ⟨c, hc, hcases⟩ := hmark
  have hsigned : c ∈ signed neg cs := by
    unfold signed
    split
    · exact List.mem_cons_of_mem _ hc
    · exact hc
  refine Option.eq_none_iff_forall_ne_some.mpr fun n hn => ?_
  obtain ⟨k, hk, -⟩ := Option.bind_eq_some_iff.mp hn
  have hoctet := octets_of_int? hk _ (List.mem_map_of_mem hsigned)
  rcases hcases with rfl | rfl
  · exact absurd hoctet (by decide)
  · exact absurd hoctet (by decide)

/-- The text of a finite floating constant, taken apart. -/
theorem exists_floating (hnan : x.isNaN = false) (hinf : x.isInfinite = false) : ∃ cs whole part exp,
    ofString (Value.floatText x) = ofAscii (signed x.isNegative cs) ∧ Floating x cs whole part exp := by
  obtain ⟨whole, part, exp, hspelled, htells⟩ := exists_spelled_amountText x
  have htext := toList_text hnan hinf
  have hoctets : ofString x.text = ofAscii (signed x.isNegative x.amountText.toList) := by
    rw [ofString_ascii (htext ▸ ascii_signed (amountText_chars x) x.isNegative), htext]
  by_cases hplain : part = [] ∧ exp = none
  · obtain ⟨rfl, rfl⟩ := hplain
    have hwhole : x.amountText.toList = whole := by
      rw [hspelled.eq]
      simp [pointed, powerText]
    have hdigits := (List.forall_mem_append.mp hspelled.digits).1
    refine ⟨_, whole, ['0'], none, ?_, hspelled.floating_of_whole htells⟩
    have hsome := isSome_int64?_signed hspelled.ne_nil hdigits hspelled.short x.isNegative
    have happend : signed x.isNegative (x.amountText.toList ++ ['.', '0']) =
        signed x.isNegative x.amountText.toList ++ ['.', '0'] := by
      unfold signed
      split <;> rfl
    rw [Value.floatText, if_pos (by rw [hoctets, hwhole]; exact hsome), ofString_append, hoctets, happend,
      ofAscii_append]
    rfl
  · have hmarked : part = [] → exp ≠ none := fun hp he => hplain ⟨hp, he⟩
    refine ⟨_, whole, part, exp, ?_, hspelled, hmarked, htells⟩
    rw [Value.floatText, hoctets, int64?_eq_none hspelled hmarked, if_neg (by decide)]
    exact hoctets

theorem decimal?_signed (h : Spelled cs whole part exp) (neg : Bool) :
    decimal? (ofAscii (signed neg cs)) = (unsigned? neg (ofAscii cs)).filter fun x => !x.isInfinite := by
  cases neg with
  | true => rfl
  | false =>
    obtain ⟨c, more, rfl⟩ := List.exists_cons_of_ne_nil h.ne_nil
    have hc : Decimal.isDigit (UInt8.ofNat c.toNat) = true := isDigit_octet (h.digits c List.mem_cons_self)
    have hhead : (ofAscii cs).head? = some (UInt8.ofNat c.toNat) := by
      rw [h.eq]
      rfl
    have hother : ∀ b rest, Decimal.isDigit b = false → ofAscii cs ≠ b :: rest := by
      intro b rest hb he
      rw [he] at hhead
      rw [← Option.some.inj hhead, hb] at hc
      cases hc
    rw [show signed false cs = cs from rfl, decimal?]
    · exact fun rest => hother 45 rest rfl
    · exact fun rest => hother 43 rest rfl

theorem decimal?_floatText (hnan : x.isNaN = false) (hinf : x.isInfinite = false) :
    decimal? (ofString (Value.floatText x)) = some x := by
  obtain ⟨cs, whole, part, exp, htext, hx⟩ := exists_floating hnan hinf
  rw [htext, decimal?_signed hx.spelled, hx.spelled.unsigned?, hx.tells.eq hnan hinf, Option.filter_some, hinf]
  rfl

end Reading

end RegPressure.Binary64
