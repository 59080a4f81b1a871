import Mathlib.Data.String.Basic
import RegPressure.Config.Basic
import RegPressure.Proofs.Roundtrip.Quoting
import RegPressure.Proofs.Text.Parts
import RegPressure.Toml.Reader

namespace RegPressure

def Toml.Knows (c : Char) : Prop :=
  32 ≤ c.toNat ∧ c.toNat ≠ 127 ∨ c.toNat ∈ [8, 9, 10, 12, 13]

instance (c : Char) : Decidable (Toml.Knows c) := inferInstanceAs (Decidable (_ ∨ _))

def Toml.KnowsAll (cs : List Char) : Prop := ∀ c ∈ cs, Knows c

instance (cs : List Char) : Decidable (Toml.KnowsAll cs) := List.decidableBAll Toml.Knows cs

namespace Text

theorem hex_digits (w n : Nat) : (hex w n).toList.length = w ∧
    (hex w n).toList.all (Toml.Value.isDigitIn 16) = true ∧
    ((hex w n).toList.map Toml.Value.digitValue).foldl (fun n d => 16 * n + d) 0 = n % 16 ^ w := by
  have hall : ∀ d : Fin 16, Toml.Value.isDigitIn 16 (Nat.digitChar d) = true ∧
      Toml.Value.digitValue (Nat.digitChar d) = d := by decide
  induction w generalizing n with
  | zero => exact ⟨rfl, rfl, by rw [Nat.pow_zero, Nat.mod_one]; rfl⟩
  | succ w ih =>
    obtain ⟨hlength, hdigits, hvalue⟩ := ih (n / 16)
    obtain ⟨hdigit, hlast⟩ := hall ⟨n % 16, Nat.mod_lt _ (by decide)⟩
    rw [hex, String.toList_push]
    refine ⟨by simp [hlength], by simpa [hdigits, hexDigit] using hdigit, ?_⟩
    rw [List.map_append, List.foldl_append, hvalue, List.map_singleton, List.foldl_cons, List.foldl_nil,
      hexDigit, hlast, Nat.pow_succ, Nat.mul_comm (16 ^ w), Nat.mod_mul]
    exact Nat.add_comm ..

end Text

namespace Toml

variable {c : Char} {cs rest : List Char}

theorem scalar?_hex {w : Nat} (h : c.toNat < 16 ^ w) :
    scalar? (Text.hex w c.toNat).toList = some c := by
  obtain ⟨-, hdigits, hvalue⟩ := Text.hex_digits w c.toNat
  rw [Nat.mod_eq_of_lt h] at hvalue
  have hvalid : c.toNat.isValidChar := c.valid
  simp only [scalar?, hdigits, hvalue, hvalid, if_true, Char.ofNat_toNat]

theorem basicString_step (cs : List Char) :
    (∀ e, e ≠ 'u' → e ≠ 'U' → basicString ('\\' :: e :: cs) =
      (escaped? e).bind fun x => cons x (basicString cs)) ∧
    (∀ a b c d, basicString ('\\' :: 'u' :: a :: b :: c :: d :: cs) =
      (scalar? [a, b, c, d]).bind fun x => cons x (basicString cs)) ∧
    (∀ a b c d e f g h, basicString ('\\' :: 'U' :: a :: b :: c :: d :: e :: f :: g :: h :: cs) =
      (scalar? [a, b, c, d, e, f, g, h]).bind fun x => cons x (basicString cs)) ∧
    ∀ c, c ≠ '"' → c ≠ '\\' → basicString (c :: cs) =
      if isText c then cons c (basicString cs) else none := by
  refine ⟨fun e hu hU => ?_, fun a b c d => ?_, fun a b c d e f g h => ?_, fun c hquote hslash => ?_⟩
  · rw [basicString]
    · cases escaped? e <;> rfl
    · exact fun a b c d cs h => absurd h hu
    · exact fun a b c d e f g h cs he => absurd he hU
  · rw [basicString]
    cases scalar? [a, b, c, d] <;> rfl
  · rw [basicString]
    cases scalar? [a, b, c, d, e, f, g, h] <;> rfl
  · rw [basicString]
    · exact hquote
    · exact fun a b c d cs h => absurd h hslash
    · exact fun a b c d e f g h cs he => absurd he hslash
    · exact fun e cs h => absurd h hslash

theorem basicString_backslash {e : Char} (hu : e ≠ 'u') (hU : e ≠ 'U') :
    basicString ('\\' :: e :: cs) = (escaped? e).bind fun x => cons x (basicString cs) :=
  (basicString_step cs).1 e hu hU

theorem basicString_short {ds : List Char} (h : ds.length = 4) :
    basicString ('\\' :: 'u' :: (ds ++ cs)) = (scalar? ds).bind fun x => cons x (basicString cs) := by
  obtain ⟨a, b, c, d, rfl⟩ := List.length_eq_four.mp h
  exact (basicString_step cs).2.1 a b c d

theorem basicString_long {ds : List Char} (h : ds.length = 8) :
    basicString ('\\' :: 'U' :: (ds ++ cs)) = (scalar? ds).bind fun x => cons x (basicString cs) := by
  obtain ⟨front, back, rfl, hfront, hback⟩ : ∃ front back, ds = front ++ back ∧ front.length = 4 ∧
      back.length = 4 := ⟨ds.take 4, ds.drop 4, (List.take_append_drop 4 ds).symm, by simp [h], by simp [h]⟩
  obtain ⟨a, b, c, d, rfl⟩ := List.length_eq_four.mp hfront
  obtain ⟨e, f, g, i, rfl⟩ := List.length_eq_four.mp hback
  exact (basicString_step cs).2.2.1 a b c d e f g i

theorem knowsAll_cons : KnowsAll (c :: cs) ↔ Knows c ∧ KnowsAll cs := List.forall_mem_cons

def escapeLetter (n : Nat) : Char := (Text.escapeNumber n).toList.getD 1 ' '

theorem basicString_escapeNumber (n : Fin 128) (hn : n.val < 32 ∨ n.val = 127) (cs : List Char) :
    basicString ((Text.escapeNumber n).toList ++ cs) =
      if Knows (Char.ofNat n) then cons (Char.ofNat n) (basicString cs) else none := by
  have hall : ∀ n : Fin 128, (n.val < 32 ∨ n.val = 127) →
      (Text.escapeNumber n).toList.take 2 = ['\\', escapeLetter n] ∧ escapeLetter n ≠ 'u' ∧
        escapeLetter n ≠ 'U' ∧
        (Knows (Char.ofNat n) → escaped? (escapeLetter n) = some (Char.ofNat n) ∧
          (Text.escapeNumber n).toList.drop 2 = []) ∧
        (¬ Knows (Char.ofNat n) → escaped? (escapeLetter n) = none) := by
    decide +kernel
  obtain ⟨htake, hu, hU, hknown, hunknown⟩ := hall n hn
  rw [← List.take_append_drop 2 (Text.escapeNumber n).toList, htake]
  refine (basicString_backslash hu hU).trans ?_
  split
  · next hknows =>
    obtain ⟨hescaped, hdrop⟩ := hknown hknows
    rw [hescaped, hdrop]
    rfl
  · next hknows =>
    rw [hunknown hknows]
    rfl

theorem isText_of_isPrintable (h : Text.isPrintable c = true) :
    isText c = true ∧ 32 ≤ c.toNat ∧ c.toNat ≠ 127 := by
  have hbounds : 32 ≤ c.toNat ∧ c.toNat ≠ 127 := by
    by_cases hc : c.toNat < 128
    · rw [Text.isPrintable_ascii hc, Bool.and_eq_true, decide_eq_true_eq, decide_eq_true_eq] at h
      omega
    · omega
  exact ⟨by simp [isText, hbounds], hbounds⟩

/-- What the reader makes of a quoted character. -/
theorem basicString_escape (c : Char) (cs : List Char) :
    basicString ((Text.escape '"' c).toList ++ cs) =
      if Knows c then cons c (basicString cs) else none := by
  by_cases hmark : c = '"' ∨ c = '\\'
  · rcases hmark with rfl | rfl
    · exact basicString_backslash (e := '"') (by decide) (by decide)
    · exact basicString_backslash (e := '\\') (by decide) (by decide)
  · obtain ⟨hquote, hslash⟩ := not_or.mp hmark
    cases hp : Text.isPrintable c with
    | true =>
      have hself : Text.escape '"' c = String.singleton c := by
        simp [Text.escape, hquote, hslash, hp]
      obtain ⟨htext, hbounds⟩ := isText_of_isPrintable hp
      rw [hself, String.toList_singleton, List.singleton_append,
        (basicString_step cs).2.2.2 c hquote hslash, if_pos htext, if_pos (.inl hbounds)]
    | false =>
      rw [Text.escape_unprintable hquote hslash hp]
      by_cases hc : c.toNat < 128
      · have hlow : c.toNat < 32 ∨ c.toNat = 127 := by
          rw [Text.isPrintable_ascii hc] at hp
          simp at hp
          omega
        have h := basicString_escapeNumber ⟨c.toNat, hc⟩ hlow cs
        rwa [Char.ofNat_toNat] at h
      · have hknows : Knows c := .inl (by omega)
        rw [if_pos hknows, Text.escapeNumber_high (by omega)]
        split
        · next hwide =>
          rw [String.toList_append]
          refine (basicString_short (Text.hex_digits 4 _).1).trans ?_
          rw [scalar?_hex (by omega)]
          rfl
        · rw [String.toList_append]
          refine (basicString_long (Text.hex_digits 8 _).1).trans ?_
          rw [scalar?_hex c.val.toNat_lt]
          rfl

theorem basicString_escapes (s : List Char) (rest : List Char) :
    basicString (s.flatMap (fun c => (Text.escape '"' c).toList) ++ '"' :: rest) =
      if KnowsAll s then some (s, rest) else none := by
  induction s with
  | nil => rfl
  | cons c s ih =>
    rw [List.flatMap_cons, List.append_assoc, basicString_escape, ih]
    by_cases hc : Knows c
    · by_cases hs : KnowsAll s
      · rw [if_pos hc, if_pos hs, if_pos (knowsAll_cons.mpr ⟨hc, hs⟩)]
        rfl
      · rw [if_pos hc, if_neg hs, if_neg fun h => hs (knowsAll_cons.mp h).2]
        rfl
    · rw [if_neg hc, if_neg fun h => hc (knowsAll_cons.mp h).1]

theorem toList_quote (s : String) : (Text.quote s).toList =
    '"' :: (s.toList.flatMap (fun c => (Text.escape '"' c).toList) ++ ['"']) := by
  have hjoin : ∀ l : List String, (String.join l).toList = l.flatMap String.toList := by
    intro l
    induction l with
    | nil => rfl
    | cons t l ih => rw [String.join_cons, String.toList_append, ih, List.flatMap_cons]
  rw [Text.quote, String.toList_append, String.toList_append, hjoin, List.flatMap_map]
  rfl

variable {n : Nat}

theorem valueWithin_string (h : cs.take 2 ≠ ['"', '"']) : valueWithin (n + 1) ('"' :: cs) =
    (basicString cs).map fun x => (.string (String.ofList x.1), x.2) := by
  rw [valueWithin]
  rintro more rfl
  exact h rfl

theorem valueWithin_quote (s : String) (hrest : rest.head? ≠ some '"') :
    valueWithin (n + 1) ((Text.quote s).toList ++ rest) =
      if KnowsAll s.toList then some (.string s, rest) else none := by
  have hread := basicString_escapes s.toList rest
  rw [toList_quote, List.cons_append, List.append_assoc, List.singleton_append,
    valueWithin_string, hread]
  · split
    · simp
    · rfl
  · -- Two quotes more would end the text at once, with a quote behind it.
    generalize s.toList.flatMap (fun c => (Text.escape '"' c).toList) ++ '"' :: rest = cs at hread ⊢
    intro htake
    obtain ⟨more, rfl⟩ : ∃ more, cs = '"' :: '"' :: more :=
      ⟨cs.drop 2, by rw [← List.take_append_drop 2 cs, htake]; simp⟩
    have hend : basicString ('"' :: '"' :: more) = some ([], '"' :: more) := rfl
    rw [hend] at hread
    split at hread
    · have hrest' : '"' :: more = rest := congrArg Prod.snd (Option.some.inj hread)
      exact hrest (hrest' ▸ rfl)
    · cases hread

/-! Numbers in decimal. -/

def Stops (rest : List Char) : Prop := ∃ c more, rest = c :: more ∧ c ∈ [',', ']', '\n']

theorem takeWhile_append_stop {p : Char → Bool} {cs : List Char} (hcs : ∀ c ∈ cs, p c = true)
    (hrest : Stops rest) (hstop : [',', ']', '\n'].all (fun c => !p c) = true) :
    (cs ++ rest).takeWhile p = cs := by
  obtain ⟨c, more, rfl, hc⟩ := hrest
  have hpc : ¬ p c = true := by simpa using List.all_eq_true.mp hstop c hc
  rw [List.takeWhile_append_of_pos hcs, List.takeWhile_cons_of_neg hpc, List.append_nil]

section Digits

variable {sign : List Char} (hsign : sign = [] ∨ sign = ['-'])

include hsign

theorem mem_signed {c : Char} (hc : c ∈ sign ++ Nat.toDigits 10 n) : c = '-' ∨ c.isDigit = true := by
  rcases List.mem_append.mp hc with hc | hc
  · rcases hsign with rfl | rfl
    · cases hc
    · exact .inl (List.mem_singleton.mp hc)
  · exact .inr (isDigit_of_mem_digits hc)

theorem decimal_signed (n : Nat) (hrest : Stops rest) :
    decimal (sign ++ Nat.toDigits 10 n ++ rest) =
      some (.integer (sign ++ Nat.toDigits 10 n), rest) := by
  have hsimple : ∀ c ∈ sign ++ Nat.toDigits 10 n,
      (c.isDigit || c = '_' || c = '+' || c = '-') = true := by
    intro c hc
    obtain rfl | hc := mem_signed hsign hc
    · decide
    · simp [hc]
  have htake : (sign ++ Nat.toDigits 10 n ++ rest).takeWhile
      (fun c => (c.isDigit || c = '_' || c = '+' || c = '-') || c = '.' || c = 'e' || c = 'E') =
        sign ++ Nat.toDigits 10 n :=
    takeWhile_append_stop (fun c hc => by simp only [hsimple c hc, Bool.true_or]) hrest (by decide)
  have hne : sign ++ Nat.toDigits 10 n ≠ [] := by simp [Nat.toDigits_ne_nil]
  have hall : (sign ++ Nat.toDigits 10 n).all
      (fun c => c.isDigit || c = '_' || c = '+' || c = '-') = true := List.all_eq_true.mpr hsimple
  simp only [decimal, htake, List.drop_left]
  generalize sign ++ Nat.toDigits 10 n = text at hne hall
  obtain ⟨d, ds, rfl⟩ := List.exists_cons_of_ne_nil hne
  obtain ⟨c, more, rfl, hc⟩ := hrest
  have hletter : c ≠ 'i' ∧ c ≠ 'n' := by
    constructor
    · rintro rfl
      exact absurd hc (by decide)
    · rintro rfl
      exact absurd hc (by decide)
  split
  · next h => exact absurd (List.cons.inj h).1 hletter.1
  · next h => exact absurd (List.cons.inj h).1 hletter.2
  · next h => exact absurd (List.cons.inj h).1 hletter.1
  · next h => exact absurd (List.cons.inj h).1 hletter.2
  · next h _ _ _ _ => cases h
  · rw [hall]
    rfl

theorem number_signed (n : Nat) (hrest : Stops rest) :
    number (sign ++ Nat.toDigits 10 n ++ rest) =
      some (.integer (sign ++ Nat.toDigits 10 n), rest) := by
  have hdecimal := decimal_signed hsign n hrest
  unfold number
  dsimp only
  split
  · next c d more h =>
    -- Only zero starts with a zero, and none of the letters of a base follows it.
    obtain ⟨rfl, rfl⟩ : sign = [] ∧ n = 0 := by
      rcases hsign with rfl | rfl
      · refine ⟨rfl, ?_⟩
        by_contra hn
        have hhead := congrArg List.head? h
        rw [List.nil_append, List.head?_append_of_ne_nil _ Nat.toDigits_ne_nil] at hhead
        exact head?_toDigits_ne (Nat.pos_of_ne_zero hn) hhead
      · exact absurd (List.cons.inj h).1 (by decide)
    obtain ⟨e, after, rfl, he⟩ := hrest
    have hrest : e :: after = c :: d :: more := (List.cons.inj h).2
    cases hrest
    simp only [List.mem_cons, List.not_mem_nil, or_false] at he
    rcases he with rfl | rfl | rfl
    · rfl
    · rfl
    · rfl
  · exact hdecimal

theorem startsDate_signed (n : Nat) (hrest : Stops rest) :
    startsDate (sign ++ Nat.toDigits 10 n ++ rest) = false := by
  have hfirst : (Nat.toDigits 10 n ++ rest).takeWhile Char.isDigit = Nat.toDigits 10 n :=
    takeWhile_append_stop (fun c hc => isDigit_of_mem_digits hc) hrest (by decide)
  have hlast : (Nat.toDigits 10 n ++ rest).dropWhile Char.isDigit = rest := by
    have hboth := List.takeWhile_append_dropWhile (p := Char.isDigit) (l := Nat.toDigits 10 n ++ rest)
    rw [hfirst] at hboth
    exact List.append_cancel_left hboth
  obtain ⟨c, more, rfl, hc⟩ := hrest
  have hmark : ∀ e, e ∉ [',', ']', '\n'] → ∀ cs, c :: more ≠ e :: cs := by
    intro e he cs h
    exact he ((List.cons.inj h).1 ▸ hc)
  rcases hsign with rfl | rfl
  · rw [List.nil_append, startsDate, hfirst, hlast]
    split
    · next h => exact absurd h (hmark ':' (by decide) _)
    · next h => exact absurd h (hmark '-' (by decide) _)
    · rfl
  · rfl

end Digits

theorem exists_signed (k : Int) : ∃ (sign : List Char) (n : Nat), (sign = [] ∨ sign = ['-']) ∧
    (toString k).toList = sign ++ Nat.toDigits 10 n := by
  obtain ⟨n, ⟨-, hk⟩ | ⟨-, hk⟩⟩ := toList_toString_int k
  · exact ⟨[], n, .inl rfl, hk⟩
  · exact ⟨['-'], n, .inr rfl, hk⟩

theorem exists_cons_toString_int (k : Int) : ∃ d ds, (toString k).toList = d :: ds ∧
    (d = '-' ∨ d.isDigit = true) := by
  obtain ⟨sign, n, hsign, hk⟩ := exists_signed k
  obtain ⟨d, ds, htext⟩ : ∃ d ds, sign ++ Nat.toDigits 10 n = d :: ds :=
    List.exists_cons_of_ne_nil (by simp [Nat.toDigits_ne_nil])
  exact ⟨d, ds, hk.trans htext, mem_signed hsign (htext ▸ List.mem_cons_self)⟩

theorem valueWithin_int (depth : Nat) (k : Int) (hrest : Stops rest) :
    valueWithin (depth + 1) ((toString k).toList ++ rest) =
      some (.integer (toString k).toList, rest) := by
  obtain ⟨sign, n, hsign, hk⟩ := exists_signed k
  have hdate := startsDate_signed hsign n hrest
  have hnumber := number_signed hsign n hrest
  rw [← hk] at hdate hnumber
  obtain ⟨d, ds, htext, hd⟩ := exists_cons_toString_int k
  rw [htext, List.cons_append] at hdate hnumber
  have hne : ∀ c, c ≠ '-' → c.isDigit = false → d ≠ c := by
    rintro _ hc hdigit rfl
    obtain h | h := hd
    · exact hc h
    · exact absurd (hdigit.symm.trans h) (by decide)
  have hletters : d ≠ '"' ∧ d ≠ '\'' ∧ d ≠ 't' ∧ d ≠ 'f' ∧ d ≠ '[' ∧ d ≠ '\x7b' :=
    ⟨hne _ (by decide) rfl, hne _ (by decide) rfl, hne _ (by decide) rfl, hne _ (by decide) rfl,
      hne _ (by decide) rfl, hne _ (by decide) rfl⟩
  rw [htext, List.cons_append, valueWithin, hdate, hnumber]
  · rfl
  all_goals simp [hletters]

/-! What a text is a value of. -/

/-- Behind its first character the text is one value, or no TOML, wherever it ends. -/
structure Spells (text : List Char) (v? : Option Value) : Prop where
  first : ∃ c cs, text = c :: cs ∧ c ∉ [' ', '\t', '\n', '\r', '#', ']']
  value : ∀ depth rest, 2 * text.length ≤ depth → Stops rest →
    valueWithin (depth + 1) (text ++ rest) = v?.map (·, rest)

theorem spells_quote (s : String) : Spells (Text.quote s).toList
    (if KnowsAll s.toList then some (.string s) else none) where
  first := ⟨'"', _, toList_quote s, by decide⟩
  value := by
    rintro depth _ - ⟨c, more, rfl, hc⟩
    have hquote : (c :: more).head? ≠ some '"' := by
      rintro h
      cases Option.some.inj h
      exact absurd hc (by decide)
    rw [valueWithin_quote s hquote]
    split <;> rfl

theorem spells_int (k : Int) : Spells (toString k).toList (some (.integer (toString k).toList)) where
  first := by
    obtain ⟨d, ds, hk, hd⟩ := exists_cons_toString_int k
    refine ⟨d, ds, hk, fun hmem => ?_⟩
    obtain rfl | hd := hd
    · exact absurd hmem (by decide)
    · have hall : [' ', '\t', '\n', '\r', '#', ']'].all (fun c => !c.isDigit) = true := by decide
      have hno := List.all_eq_true.mp hall d hmem
      rw [hd] at hno
      cases hno
  value := fun depth rest _ hrest => valueWithin_int depth k hrest

theorem spells_bool (b : Bool) :
    Spells (if b then "true" else "false").toList (some (.bool b)) := by
  cases b with
  | true => exact ⟨⟨'t', _, rfl, by decide⟩, fun depth rest _ _ => rfl⟩
  | false => exact ⟨⟨'f', _, rfl, by decide⟩, fun depth rest _ _ => rfl⟩

theorem skipGap_of_first (h : c ∉ [' ', '\t', '\n', '\r', '#']) :
    skipGap false (c :: cs) = some (c :: cs) := by
  simp only [List.mem_cons, List.not_mem_nil, or_false, not_or] at h
  obtain ⟨hspace, htab, hline, hreturn, hhash⟩ := h
  rw [skipGap]
  · simp [isBlank, hspace, htab, hreturn, hhash]
  · exact hline
  · exact fun more hr => absurd hr hreturn

section Items

variable {text : List Char} {v? : Option Value} {depth : Nat}

theorem itemsWithin_last (h : Spells text v?) (hdepth : 2 * text.length ≤ depth) (rest : List Char) :
    itemsWithin (depth + 2) (text ++ ']' :: rest) = v?.map fun v => ([v], rest) := by
  obtain ⟨⟨c, cs, rfl, hc⟩, hvalue⟩ := h
  have hread := hvalue depth (']' :: rest) hdepth ⟨']', rest, rfl, by decide⟩
  rw [List.cons_append] at hread ⊢
  have hbracket : c ≠ ']' := by
    rintro rfl
    exact hc (by decide)
  rw [itemsWithin, hread]
  · cases v? with
    | none => rfl
    | some v => rfl
  · exact fun more hr => hbracket (List.cons.inj hr).1

theorem itemsWithin_more (h : Spells text v?) (hdepth : 2 * text.length ≤ depth)
    (hc : c ∉ [' ', '\t', '\n', '\r', '#', ']']) :
    itemsWithin (depth + 2) (text ++ ',' :: ' ' :: c :: cs) = v?.bind fun v =>
      (itemsWithin (depth + 1) (c :: cs)).map fun x => (v :: x.1, x.2) := by
  obtain ⟨⟨d, ds, rfl, hd⟩, hvalue⟩ := h
  have hread := hvalue depth (',' :: ' ' :: c :: cs) hdepth ⟨',', _, rfl, by decide⟩
  rw [List.cons_append] at hread ⊢
  have hbracket : d ≠ ']' := by
    rintro rfl
    exact hd (by decide)
  have hgap : skipGap false (' ' :: c :: cs) = some (c :: cs) :=
    skipGap_of_first fun hmem => hc (List.mem_append_left [']'] hmem)
  rw [itemsWithin, hread]
  · cases v? with
    | none => rfl
    | some v =>
      have hcomma : skipGap false (',' :: ' ' :: c :: cs) = some (',' :: ' ' :: c :: cs) := rfl
      simp only [Option.map_some, Option.bind_eq_bind, Option.bind_some, hcomma, hgap]
      cases itemsWithin (depth + 1) (c :: cs) <;> rfl
  · exact fun more hr => hbracket (List.cons.inj hr).1

end Items

theorem Spells.first_of_items {α : Type} {f : α → String} {g : α → Option Value}
    (hspells : ∀ a, Spells (f a).toList (g a)) (a : α) (l : List α) :
    ∃ c cs, (", ".intercalate ((a :: l).map f)).toList = c :: cs ∧
      c ∉ [' ', '\t', '\n', '\r', '#', ']'] := by
  obtain ⟨c, cs, hfirst, hc⟩ := (hspells a).first
  cases l with
  | nil => exact ⟨c, cs, by simpa using hfirst, hc⟩
  | cons b l =>
    refine ⟨c, cs ++ (", ".toList ++ (", ".intercalate ((b :: l).map f)).toList), ?_, hc⟩
    rw [List.map_cons, List.map_cons, String.intercalate_cons_cons, String.toList_append,
      String.toList_append, hfirst, List.append_assoc, List.cons_append]

theorem itemsWithin_texts {α : Type} {f : α → String} {g : α → Option Value}
    (hspells : ∀ a, Spells (f a).toList (g a)) (a : α) (l : List α) (depth : Nat) (rest : List Char)
    (h : 2 * ((", ".intercalate ((a :: l).map f)).toList.length + 1) ≤ depth) :
    itemsWithin depth ((", ".intercalate ((a :: l).map f)).toList ++ ']' :: rest) =
      ((a :: l).mapM g).map (·, rest) := by
  induction l generalizing a depth with
  | nil =>
    have hone : ", ".intercalate [f a] = f a := by simp
    rw [List.map_singleton, hone] at h ⊢
    obtain ⟨depth, rfl⟩ : ∃ k, depth = k + 2 := ⟨depth - 2, by omega⟩
    rw [itemsWithin_last (hspells a) (by omega)]
    cases hg : g a <;> simp [hg]
  | cons b l ih =>
    have hsep : ", ".toList = [',', ' '] := rfl
    obtain ⟨c, cs, hfirst, hc⟩ := Spells.first_of_items hspells b l
    rw [List.map_cons, List.map_cons, String.intercalate_cons_cons, String.toList_append,
      String.toList_append, hsep, ← List.map_cons] at h ⊢
    simp only [List.length_append, List.length_cons, List.length_nil] at h
    obtain ⟨depth, rfl⟩ : ∃ k, depth = k + 2 := ⟨depth - 2, by omega⟩
    have hrest := ih b (depth + 1) (by omega)
    rw [hfirst, List.cons_append] at hrest
    simp only [hfirst, List.append_assoc, List.cons_append, List.nil_append]
    rw [itemsWithin_more (hspells a) (by omega) hc, hrest]
    cases hg : g a with
    | none => simp [hg]
    | some v =>
      rw [List.mapM_cons (f := g) (a := a), hg]
      cases (b :: l).mapM g <;> rfl

theorem spells_list {α : Type} {f : α → String} {g : α → Option Value}
    (hspells : ∀ a, Spells (f a).toList (g a)) (l : List α) :
    Spells (Config.listText (l.map f)).toList ((l.mapM g).map .array) where
  first := ⟨'[', _, by rw [Config.listText, String.toList_append, String.toList_append]; rfl, by decide⟩
  value := by
    intro depth rest hdepth hrest
    have htext : (Config.listText (l.map f)).toList =
        '[' :: ((", ".intercalate (l.map f)).toList ++ [']']) := by
      rw [Config.listText, String.toList_append, String.toList_append]
      rfl
    rw [htext] at hdepth ⊢
    rw [List.cons_append, List.append_assoc, List.singleton_append, valueWithin]
    simp only [List.length_cons, List.length_append, List.length_nil] at hdepth
    cases l with
    | nil =>
      obtain ⟨depth, rfl⟩ : ∃ k, depth = k + 1 := ⟨depth - 1, by omega⟩
      rfl
    | cons a l =>
      obtain ⟨c, cs, hfirst, hc⟩ := Spells.first_of_items hspells a l
      have hitems := itemsWithin_texts hspells a l depth rest (by omega)
      have hgap : skipGap false ((", ".intercalate ((a :: l).map f)).toList ++ ']' :: rest) =
          some ((", ".intercalate ((a :: l).map f)).toList ++ ']' :: rest) := by
        rw [hfirst, List.cons_append]
        exact skipGap_of_first fun hmem => hc (List.mem_append_left [']'] hmem)
      rw [hgap, Option.bind_eq_bind, Option.bind_some, hitems]
      cases (a :: l).mapM g <;> rfl

end Toml

end RegPressure
