import RegPressure.Proofs.Roundtrip.Lexing
import RegPressure.Text.Quoted

namespace RegPressure

namespace Text

variable {c : Char}

theorem printableRuns_eq : printableRuns.toList = (32, 126) :: printableRuns.toList.tail := rfl

theorem le_of_mem_printableRuns : ∀ p ∈ printableRuns.toList.tail, 128 ≤ p.1 := by decide +kernel

theorem isPrintable_ascii (hc : c.toNat < 128) :
    isPrintable c = (decide (32 ≤ c.toNat) && decide (c.toNat ≤ 126)) := by
  have hrest : (printableRuns.toList.tail.any fun p =>
      decide (p.1 ≤ c.toNat) && decide (c.toNat ≤ p.2)) = false := by
    refine List.any_eq_false.mpr fun p hp => ?_
    have hlow := le_of_mem_printableRuns p hp
    simp only [Bool.and_eq_true, decide_eq_true_eq]
    omega
  unfold isPrintable
  rw [← Array.any_toList, printableRuns_eq, List.any_cons, hrest, Bool.or_false]

def escapeNumber : Nat → String
  | 7 => "\\a"
  | 8 => "\\b"
  | 12 => "\\f"
  | 10 => "\\n"
  | 13 => "\\r"
  | 9 => "\\t"
  | 11 => "\\v"
  | n =>
    if n < 32 || n = 127 then "\\x" ++ hex 2 n
    else if n < 0x10000 then "\\u" ++ hex 4 n
    else "\\U" ++ hex 8 n

theorem escape_unprintable (hquote : c ≠ '"') (hslash : c ≠ '\\') (hp : isPrintable c = false) :
    escape '"' c = escapeNumber c.toNat := by
  simp only [escape, hquote, hslash, hp, decide_false, Bool.or_self, Bool.false_eq_true, if_false]
  rfl

theorem escapeNumber_high {n : Nat} (hn : 128 ≤ n) : escapeNumber n =
    if n < 0x10000 then "\\u" ++ hex 4 n else "\\U" ++ hex 8 n := by
  have hlow : ¬ (n < 32 ∨ n = 127) := by omega
  unfold escapeNumber
  split
  case h_8 => simp [hlow]
  all_goals omega

end Text

/-- The rune is printable, a line end or a tab. -/
def Rune.isKept : Rune → Bool
  | .char c => Text.isPrintable c || c = '\n' || c = '\t'
  | .stray _ => false

/-- What comes back of a rune: itself, or its escape without the backslash. -/
def Rune.readBack (r : Rune) : Bytes :=
  if r.isKept then Bytes.ofRune r else (Bytes.ofString (Text.escapeRune '"' r)).tail

theorem Rune.readBack_kept {r : Rune} (h : r.isKept = true) : r.readBack = Bytes.ofRune r := if_pos h

theorem Rune.readBack_lost {r : Rune} (h : r.isKept = false) :
    r.readBack = (Bytes.ofString (Text.escapeRune '"' r)).tail :=
  if_neg (by simp [h])

namespace Lexer

variable {bs : Bytes} {c : Char} {r : Rune}

theorem quoted_of_bare (h : ∀ b ∈ bs, isBare b = true) : bs.flatMap Bytes.quoted = bs := by
  rw [List.flatMap_congr fun b hb => quoted_bare (h b hb), List.flatMap_singleton']

theorem standsFor_of_bare (h : ∀ b ∈ bs, isBare b = true) : StandsFor bs bs := by
  have hquoted := standsFor_quoted bs
  rwa [quoted_of_bare h] at hquoted

theorem ofString_push (s : String) (c : Char) :
    Bytes.ofString (s.push c) = Bytes.ofString s ++ String.utf8EncodeChar c := by
  rw [← Bytes.ofString_singleton, ← Bytes.ofString_append]
  rfl

theorem encode_hexDigit (n : Nat) : (String.utf8EncodeChar (Text.hexDigit n)).length = 1 ∧
    ∀ b ∈ String.utf8EncodeChar (Text.hexDigit n), isBare b = true := by
  have hall : ∀ d : Fin 16, (String.utf8EncodeChar (Nat.digitChar d)).length = 1 ∧
      (String.utf8EncodeChar (Nat.digitChar d)).all isBare = true := by decide +kernel
  obtain ⟨hlen, hbare⟩ := hall ⟨n % 16, Nat.mod_lt _ (by decide)⟩
  exact ⟨hlen, List.all_eq_true.mp hbare⟩

theorem hex_spec (w n : Nat) : (Bytes.ofString (Text.hex w n)).length = w ∧
    ∀ b ∈ Bytes.ofString (Text.hex w n), isBare b = true := by
  induction w generalizing n with
  | zero => exact ⟨rfl, by rintro _ ⟨⟩⟩
  | succ w ih =>
    obtain ⟨hlen, hbare⟩ := ih (n / 16)
    obtain ⟨hone, hdigit⟩ := encode_hexDigit n
    rw [Text.hex, ofString_push]
    refine ⟨by rw [List.length_append, hlen, hone], fun x hx => ?_⟩
    exact (List.mem_append.mp hx).elim (hbare x) (hdigit x)

def isEscape : Bytes → Bool
  | 92 :: e :: more => e ≠ 110 && e ≠ 116 && more.all isBare
  | _ => false

theorem standsFor_of_isEscape (h : isEscape bs = true) : StandsFor bs bs.tail := by
  unfold isEscape at h
  split at h
  · next e more =>
    simp only [Bool.and_eq_true, decide_eq_true_eq, List.all_eq_true] at h
    obtain ⟨⟨hn, ht⟩, hmore⟩ := h
    have hescaped := standsFor_escaped e
    rw [if_neg hn, if_neg ht] at hescaped
    exact hescaped.append (standsFor_of_bare hmore)
  · cases h

structure Lost (r : Rune) : Prop where
  escape : isEscape (Bytes.ofString (Text.escapeRune '"' r)) = true
  length_le : (Bytes.ofRune r).length ≤ (Bytes.ofString (Text.escapeRune '"' r)).tail.length
  ne : (Bytes.ofString (Text.escapeRune '"' r)).tail ≠ Bytes.ofRune r

theorem isEscape_hex (k : UInt8) (hk : k ≠ 110 ∧ k ≠ 116) (w n : Nat) :
    isEscape (92 :: k :: Bytes.ofString (Text.hex w n)) = true := by
  simpa [isEscape, hk] using (hex_spec w n).2

theorem lost_of_hex {k : UInt8} {w n : Nat} (hk : k ≠ 110 ∧ k ≠ 116)
    (h : Bytes.ofString (Text.escapeRune '"' r) = 92 :: k :: Bytes.ofString (Text.hex w n))
    (hlen : (Bytes.ofRune r).length ≤ w) : Lost r := by
  have htail : (k :: Bytes.ofString (Text.hex w n)).length = w + 1 := by
    rw [List.length_cons, (hex_spec w n).1]
  refine ⟨by rw [h]; exact isEscape_hex k hk w n, by rw [h, List.tail_cons, htail]; omega, ?_⟩
  intro he
  rw [h, List.tail_cons] at he
  rw [he] at htail
  omega

theorem lost_stray (b : UInt8) : Lost (.stray b) := by
  refine lost_of_hex (k := 120) (w := 2) (n := b.toNat) (by decide) ?_ (by simp [Bytes.ofRune])
  rw [Text.escapeRune, Bytes.ofString_append]
  rfl

theorem lost_high (hc : 128 ≤ c.toNat) (hp : Text.isPrintable c = false) : Lost (.char c) := by
  have hlen : (Bytes.ofRune (.char c)).length ≤ 4 := by
    rw [Bytes.ofRune, Bytes.ofString_singleton, String.length_utf8EncodeChar]
    exact c.utf8Size_le_four
  have hmark : ∀ d : Char, d.toNat < 128 → c ≠ d := by
    rintro d hd rfl
    omega
  have hescape := Text.escape_unprintable (hmark '"' (by decide)) (hmark '\\' (by decide)) hp
  rw [Text.escapeNumber_high hc] at hescape
  by_cases hwide : c.toNat < 0x10000
  · refine lost_of_hex (k := 117) (w := 4) (n := c.toNat) (by decide) ?_ hlen
    rw [Text.escapeRune, hescape, if_pos hwide, Bytes.ofString_append]
    rfl
  · refine lost_of_hex (k := 85) (w := 8) (n := c.toNat) (by decide) ?_ (by omega)
    rw [Text.escapeRune, hescape, if_neg hwide, Bytes.ofString_append]
    rfl

theorem lost_ascii (hc : c.toNat < 128) (h : (Rune.char c).isKept = false) : Lost (.char c) := by
  have hall : ∀ n : Fin 128, (n.val < 32 ∨ n.val = 127) → n.val ≠ 10 → n.val ≠ 9 →
      isEscape (Bytes.ofString (Text.escapeNumber n)) = true ∧
      (Bytes.ofRune (.char (Char.ofNat n))).length ≤
        (Bytes.ofString (Text.escapeNumber n)).tail.length ∧
      (Bytes.ofString (Text.escapeNumber n)).tail ≠ Bytes.ofRune (.char (Char.ofNat n)) := by
    decide +kernel
  simp only [Rune.isKept, Bool.or_eq_false_iff, decide_eq_false_iff_not] at h
  obtain ⟨⟨hp, hline⟩, htab⟩ := h
  have hlow : c.toNat < 32 ∨ c.toNat = 127 := by
    rw [Text.isPrintable_ascii hc] at hp
    simp at hp
    omega
  have hmark : ∀ d : Char, 32 ≤ d.toNat ∧ d.toNat ≤ 126 → c ≠ d := by
    rintro d hd rfl
    omega
  have hne : ∀ n : Nat, c ≠ Char.ofNat n → c.toNat ≠ n := by
    rintro n hn rfl
    exact hn (Char.ofNat_toNat c).symm
  have hescape := Text.escape_unprintable (hmark '"' (by decide)) (hmark '\\' (by decide)) hp
  obtain ⟨hword, hlen, hdiffers⟩ := hall ⟨c.toNat, hc⟩ hlow (hne 10 hline) (hne 9 htab)
  rw [← hescape] at hword hlen hdiffers
  rw [Char.ofNat_toNat] at hlen hdiffers
  exact ⟨hword, hlen, hdiffers⟩

theorem lost_of_not_kept (h : r.isKept = false) : Lost r := by
  cases r with
  | stray b => exact lost_stray b
  | char c =>
    by_cases hc : c.toNat < 128
    · exact lost_ascii hc h
    · simp only [Rune.isKept, Bool.or_eq_false_iff] at h
      exact lost_high (by omega) h.1.1

theorem isBare_ofNat {k : Nat} (h : 128 ≤ k % 256) : isBare (UInt8.ofNat k) = true := by
  have hne : ∀ d : UInt8, d.toNat < 128 → UInt8.ofNat k ≠ d := by
    rintro d hd rfl
    rw [UInt8.toNat_ofNat'] at hd
    omega
  simp [isBare, hne 10 (by decide), hne 9 (by decide), hne 34 (by decide), hne 92 (by decide)]

theorem isBare_encode (hp : Text.isPrintable c = true) (hquote : c ≠ '"') (hslash : c ≠ '\\') :
    ∀ b ∈ String.utf8EncodeChar c, isBare b = true := by
  by_cases hc : c.toNat < 128
  · have hall : ∀ n : Fin 128, 32 ≤ n.val → Char.ofNat n ≠ '"' → Char.ofNat n ≠ '\\' →
        (String.utf8EncodeChar (Char.ofNat n)).all isBare = true := by decide +kernel
    rw [Text.isPrintable_ascii hc, Bool.and_eq_true, decide_eq_true_eq] at hp
    have hn := hall ⟨c.toNat, hc⟩ hp.1
    simp only [Char.ofNat_toNat] at hn
    exact List.all_eq_true.mp (hn hquote hslash)
  · have hencode := Bytes.encode_ofNat (n := c.toNat) c.valid
    rw [Char.ofNat_toNat, if_neg (by omega)] at hencode
    rw [hencode]
    split
    · simp only [List.forall_mem_cons]
      exact ⟨isBare_ofNat (by omega), isBare_ofNat (by omega), by simp⟩
    · split
      · simp only [List.forall_mem_cons]
        exact ⟨isBare_ofNat (by omega), isBare_ofNat (by omega), isBare_ofNat (by omega), by simp⟩
      · simp only [List.forall_mem_cons]
        exact ⟨isBare_ofNat (by omega), isBare_ofNat (by omega), isBare_ofNat (by omega),
          isBare_ofNat (by omega), by simp⟩

theorem escape_kept (h : r.isKept = true) :
    Bytes.ofString (Text.escapeRune '"' r) = (Bytes.ofRune r).flatMap Bytes.quoted := by
  cases r with
  | stray b => cases h
  | char c =>
    rw [Text.escapeRune]
    by_cases hmark : c = '"' ∨ c = '\\'
    · rcases hmark with rfl | rfl
      · rfl
      · rfl
    · obtain ⟨hquote, hslash⟩ := not_or.mp hmark
      cases hp : Text.isPrintable c with
      | true =>
        have hself : Text.escape '"' c = String.singleton c := by
          simp [Text.escape, hquote, hslash, hp]
        rw [hself, Bytes.ofRune, Bytes.ofString_singleton]
        exact (quoted_of_bare (isBare_encode hp hquote hslash)).symm
      | false =>
        rw [Text.escape_unprintable hquote hslash hp]
        simp only [Rune.isKept, hp, Bool.false_or, Bool.or_eq_true, decide_eq_true_eq] at h
        rcases h with rfl | rfl
        · rfl
        · rfl

theorem standsFor_rune (r : Rune) :
    StandsFor (Bytes.ofString (Text.escapeRune '"' r)) r.readBack := by
  cases h : r.isKept with
  | true =>
    rw [Rune.readBack_kept h, escape_kept h]
    exact standsFor_quoted _
  | false =>
    rw [Rune.readBack_lost h]
    exact standsFor_of_isEscape (lost_of_not_kept h).escape

theorem standsFor_runes (rs : List Rune) :
    StandsFor (rs.flatMap fun r => Bytes.ofString (Text.escapeRune '"' r))
      (rs.flatMap Rune.readBack) := by
  induction rs with
  | nil => exact standsFor_nil
  | cons r rs ih => exact (standsFor_rune r).append ih

theorem ofString_join (l : List String) :
    Bytes.ofString (String.join l) = l.flatMap Bytes.ofString := by
  induction l with
  | nil => rfl
  | cons s l ih => rw [String.join_cons, Bytes.ofString_append, ih, List.flatMap_cons]

theorem ofString_quoteBytes (s : Bytes) : Bytes.ofString (Text.quoteBytes s) =
    34 :: (s.runes.flatMap fun r => Bytes.ofString (Text.escapeRune '"' r)) ++ [34] := by
  rw [Text.quoteBytes, Bytes.ofString_append, Bytes.ofString_append, ofString_join,
    List.flatMap_map]
  rfl

theorem closed_quoteBytes (s : Bytes) : Closed (Bytes.ofString (Text.quoteBytes s))
    [(.string, s.runes.flatMap Rune.readBack)] := by
  rw [ofString_quoteBytes]
  exact (standsFor_runes s.runes).closed

theorem length_flatMap_le {α β : Type} {f g : α → List β} {l : List α}
    (h : ∀ x ∈ l, (f x).length ≤ (g x).length) : (l.flatMap f).length ≤ (l.flatMap g).length := by
  induction l with
  | nil => exact Nat.le_refl _
  | cons a l ih =>
    have ha := h a (List.mem_cons_self ..)
    have hrest := ih fun x hx => h x (List.mem_cons_of_mem _ hx)
    simp only [List.flatMap_cons, List.length_append]
    omega

theorem eq_of_flatMap_eq {α β : Type} {f g : α → List β} {l : List α}
    (hlen : ∀ x ∈ l, (f x).length ≤ (g x).length) (h : l.flatMap f = l.flatMap g) :
    ∀ x ∈ l, f x = g x := by
  induction l with
  | nil => simp
  | cons a l ih =>
    rw [List.flatMap_cons, List.flatMap_cons] at h
    have hrest : ∀ x ∈ l, (f x).length ≤ (g x).length := fun x hx =>
      hlen x (List.mem_cons_of_mem _ hx)
    have hall := length_flatMap_le hrest
    have ha := hlen a (List.mem_cons_self ..)
    have htotal := congrArg List.length h
    rw [List.length_append, List.length_append] at htotal
    obtain ⟨hfirst, hmore⟩ := List.append_inj h (by omega)
    intro x hx
    rcases List.mem_cons.mp hx with rfl | hx
    · exact hfirst
    · exact ih hrest hmore x hx

theorem flatMap_ofRune_runes (s : Bytes) : s.runes.flatMap Bytes.ofRune = s := by
  rw [List.flatMap_def]
  exact Bytes.ofRunes_runes s

theorem readBack_eq_iff (s : Bytes) :
    s.runes.flatMap Rune.readBack = s ↔ ∀ r ∈ s.runes, r.isKept = true := by
  constructor
  · intro h r hr
    have hlen : ∀ x ∈ s.runes, (Bytes.ofRune x).length ≤ x.readBack.length := by
      intro x _
      cases hx : x.isKept with
      | true => rw [Rune.readBack_kept hx]
      | false =>
        rw [Rune.readBack_lost hx]
        exact (lost_of_not_kept hx).length_le
    have heq := eq_of_flatMap_eq hlen ((flatMap_ofRune_runes s).trans h.symm) r hr
    by_contra hnot
    rw [Bool.not_eq_true] at hnot
    rw [Rune.readBack_lost hnot] at heq
    exact (lost_of_not_kept hnot).ne heq.symm
  · intro h
    rw [List.flatMap_congr fun r hr => Rune.readBack_kept (h r hr), flatMap_ofRune_runes]

theorem exists_tokens_quoteBytes (s : Bytes) : ∃ x y : Token,
    tokens (Bytes.ofString (Text.quoteBytes s)) = ⟨[x, y], []⟩ ∧
      x.bare = (.string, s.runes.flatMap Rune.readBack) ∧ y.bare = (.eof, []) := by
  obtain ⟨xs, y, htokens, hxs, hy⟩ := (closed_quoteBytes s).spells.exists_tokens
  obtain ⟨x, rfl, hx⟩ := List.map_eq_singleton_iff.mp hxs
  exact ⟨x, y, htokens, hx, hy⟩

/-- Reading a quoted text gives one string and nothing else, without an error. Each printable character,
line end and tab comes back as it was, and each other rune as its escape without the backslash, so the
string is the text that was quoted if and only if no other runes are in it. -/
theorem tokens_quoteBytes (s : Bytes) :
    (tokens (Bytes.ofString (Text.quoteBytes s))).tokens.map Token.bare =
      [(.string, s.runes.flatMap Rune.readBack), (.eof, [])] ∧
    (tokens (Bytes.ofString (Text.quoteBytes s))).errors = [] ∧
    (s.runes.flatMap Rune.readBack = s ↔ ∀ r ∈ s.runes, r.isKept = true) := by
  obtain ⟨x, y, he, hx, hy⟩ := exists_tokens_quoteBytes s
  rw [he]
  exact ⟨by simp [hx, hy], rfl, readBack_eq_iff s⟩

/-- A carriage return comes back as the letter of its escape. -/
theorem carriage_return_read_as_letter :
    (tokens (Bytes.ofString (Text.quoteBytes [13]))).tokens.map Token.bare =
      [(.string, [114]), (.eof, [])] ∧ ([114] : Bytes) ≠ [13] := by
  obtain ⟨x, y, he, hx, hy⟩ := exists_tokens_quoteBytes [13]
  have hlow : ∀ b ∈ ([13] : Bytes), b < 128 := by
    intro b hb
    rw [List.mem_singleton.mp hb]
    decide
  have hrunes : Bytes.runes [13] = [.char '\r'] := Bytes.runes_ascii hlow
  have hp : Text.isPrintable '\r' = false := Text.isPrintable_ascii (by decide)
  have hescape : Text.escape '"' '\r' = "\\r" :=
    Text.escape_unprintable (by decide) (by decide) hp
  have hlost : Rune.isKept (.char '\r') = false := by simp [Rune.isKept, hp]
  have hback : Rune.readBack (.char '\r') = [114] := by
    rw [Rune.readBack_lost hlost, Text.escapeRune, hescape]
    rfl
  rw [hrunes, List.flatMap_singleton, hback] at hx
  rw [he]
  exact ⟨by simp [hx, hy], by decide⟩

end Lexer

end RegPressure
