import RegPressure.Proofs.Toml.Values

namespace RegPressure

def Rune.Sound : Rune → Prop
  | .char _ => True
  | .stray b => 128 ≤ b.toNat

theorem Bytes.sound_of_mem_runes {bs : Bytes} {r : Rune} (h : r ∈ bs.runes) : r.Sound := by
  induction hn : bs.length using Nat.strong_induction_on generalizing bs with
  | _ n ih =>
    cases bs with
    | nil => simp at h
    | cons b rest =>
      rw [runes_cons] at h
      split at h
      · rcases List.mem_cons.mp h with rfl | h
        · trivial
        · exact ih _ (by simp at hn ⊢; omega) h rfl
      · next hnone =>
        rcases List.mem_cons.mp h with rfl | h
        · by_contra hlow
          have hb : b < 0x80 := UInt8.lt_iff_toNat_lt.mpr (Nat.lt_of_not_le hlow)
          unfold leading at hnone
          rw [if_pos hb] at hnone
          cases hnone
        · exact ih _ (by simp at hn ⊢; omega) h rfl

namespace Text

variable {c d : Char} {k : UInt8} {m n : Nat} {r s : Rune} {x y : Bytes}

theorem encode_append_inj (h : String.utf8EncodeChar c ++ x = String.utf8EncodeChar d ++ y) :
    c = d ∧ x = y := by
  have hread : ∀ (c : Char) (z : Bytes),
      (String.utf8EncodeChar c ++ z).toByteArray.utf8DecodeChar? 0 = some c := by
    intro c z
    have hdecode := List.utf8DecodeChar?_utf8Encode_singleton_append (b := z.toByteArray) (c := c)
    rwa [List.utf8Encode, List.flatMap_singleton, ← List.toByteArray_append] at hdecode
  have hcd : c = d := Option.some.inj ((hread c x).symm.trans ((congrArg
    (fun z : Bytes => z.toByteArray.utf8DecodeChar? 0) h).trans (hread d y)))
  subst hcd
  exact ⟨rfl, List.append_cancel_left h⟩

def escapeWidth (k : UInt8) : Nat := if k = 120 then 2 else if k = 117 then 4 else if k = 85 then 8 else 0

def escapedRune (k : UInt8) (n : Nat) : Rune :=
  if k = 120 then if n < 128 then .char (Char.ofNat n) else .stray (UInt8.ofNat n)
  else if k = 117 ∨ k = 85 then .char (Char.ofNat n)
  else if k = 97 then .char (Char.ofNat 7)
  else if k = 98 then .char (Char.ofNat 8)
  else if k = 116 then .char (Char.ofNat 9)
  else if k = 110 then .char (Char.ofNat 10)
  else if k = 118 then .char (Char.ofNat 11)
  else if k = 102 then .char (Char.ofNat 12)
  else if k = 114 then .char (Char.ofNat 13)
  else .char (Char.ofNat k.toNat)

inductive Written : Rune → Bytes → Prop
  | plain {c : Char} (hquote : c ≠ '"') (hslash : c ≠ '\\') : Written (.char c) (String.utf8EncodeChar c)
  | escape {k : UInt8} {n : Nat} (hn : n < 16 ^ escapeWidth k) :
    Written (escapedRune k n) (92 :: k :: Bytes.ofString (hex (escapeWidth k) n))

theorem hex_inj {w : Nat} (hm : m < 16 ^ w) (hn : n < 16 ^ w) (h : hex w m = hex w n) : m = n := by
  have hvalue := (hex_digits w m).2.2
  rw [h, (hex_digits w n).2.2, Nat.mod_eq_of_lt hm, Nat.mod_eq_of_lt hn] at hvalue
  exact hvalue.symm

theorem head_encode_ne {e : Char} (he : e.toNat < 128) (hc : c ≠ e) :
    (String.utf8EncodeChar c).head? ≠ some (UInt8.ofNat e.toNat) := by
  intro h
  have hoctet : (UInt8.ofNat e.toNat).toNat = e.toNat := Nat.mod_eq_of_lt (by omega)
  have hmem := List.mem_of_head? h
  by_cases hlow : c.toNat < 128
  · rw [Bytes.encode_ascii hlow, List.mem_singleton] at hmem
    have hnat := congrArg UInt8.toNat hmem
    rw [hoctet] at hnat
    exact hc (Char.toNat_inj.mp (hnat.trans (Nat.mod_eq_of_lt (by omega))).symm)
  · have hlarge := Bytes.le_of_mem_encode (by omega) hmem
    omega

theorem encode_ne_nil (c : Char) : String.utf8EncodeChar c ≠ [] := fun h =>
  absurd (congrArg List.length h) (by
    rw [String.length_utf8EncodeChar]
    exact Nat.ne_of_gt c.utf8Size_pos)

/-- What is written between quotes tells the rune, and where it ends. -/
theorem Written.read {u v : Bytes} (hr : Written r u) (hs : Written s v) (h : u ++ x = v ++ y) :
    r = s ∧ x = y := by
  have hplain : ∀ {c : Char} {z w : Bytes}, c ≠ '\\' →
      String.utf8EncodeChar c ++ z ≠ 92 :: w := by
    intro c z w hc he
    have hhead := congrArg List.head? he
    rw [List.head?_append_of_ne_nil _ (encode_ne_nil c)] at hhead
    exact head_encode_ne (e := '\\') (by decide) hc hhead
  cases hr with
  | plain hquote hslash =>
    cases hs with
    | plain => exact (encode_append_inj h).imp_left (congrArg Rune.char)
    | @escape k n hn => exact absurd h (hplain hslash)
  | @escape k n hn =>
    cases hs with
    | plain hquote hslash => exact absurd h.symm (hplain hslash)
    | @escape k' n' hn' =>
      obtain ⟨-, h⟩ := List.cons.inj h
      obtain ⟨rfl, h⟩ := List.cons.inj h
      obtain ⟨hhex, hxy⟩ := List.append_inj h (by rw [(Lexer.hex_spec _ n).1, (Lexer.hex_spec _ n').1])
      rw [hex_inj hn hn' (Bytes.ofString_inj hhex)]
      exact ⟨rfl, hxy⟩

theorem written_low (hlow : n < 32 ∨ n = 127) :
    Written (.char (Char.ofNat n)) (Bytes.ofString (escapeNumber n)) := by
  have hall : ∀ n : Fin 128, (n.val < 32 ∨ n.val = 127) → ∃ k ∈ [97, 98, 102, 110, 114, 116, 118, 120],
      .char (Char.ofNat n) = escapedRune k (n % 16 ^ escapeWidth k) ∧ Bytes.ofString (escapeNumber n) =
        92 :: k :: Bytes.ofString (hex (escapeWidth k) (n % 16 ^ escapeWidth k)) := by decide +kernel
  obtain ⟨k, -, hrune, htext⟩ := hall ⟨n, by omega⟩ hlow
  rw [hrune, htext]
  exact .escape (Nat.mod_lt _ (Nat.pow_pos (by decide)))

theorem written_high (hhigh : 128 ≤ c.toNat) :
    Written (.char c) (Bytes.ofString (escapeNumber c.toNat)) := by
  have hlt : c.toNat < 16 ^ 8 := by
    have hvalid : c.toNat.isValidChar := c.valid
    unfold Nat.isValidChar at hvalid
    omega
  rw [escapeNumber_high hhigh]
  split
  · next hshort =>
    have hw := Written.escape (k := 117) (n := c.toNat) hshort
    rw [show escapedRune 117 c.toNat = .char (Char.ofNat c.toNat) from rfl, Char.ofNat_toNat] at hw
    rwa [Bytes.ofString_append]
  · have hw := Written.escape (k := 85) (n := c.toNat) hlt
    rw [show escapedRune 85 c.toNat = .char (Char.ofNat c.toNat) from rfl, Char.ofNat_toNat] at hw
    rwa [Bytes.ofString_append]

theorem written_escapeRune (h : r.Sound) : Written r (Bytes.ofString (escapeRune '"' r)) := by
  cases r with
  | stray b =>
    have hlow : ¬ b.toNat < 128 := Nat.not_lt.mpr h
    have hw := Written.escape (k := 120) (n := b.toNat) b.toNat_lt
    have hrune : escapedRune 120 b.toNat = .stray b := by
      rw [escapedRune, if_pos rfl, if_neg hlow, UInt8.ofNat_toNat]
    rw [hrune] at hw
    rwa [escapeRune, Bytes.ofString_append]
  | char c =>
    rw [escapeRune]
    by_cases hquote : c = '"'
    · subst hquote
      exact Written.escape (k := 34) (n := 0) (by decide)
    · by_cases hslash : c = '\\'
      · subst hslash
        exact Written.escape (k := 92) (n := 0) (by decide)
      · cases hp : isPrintable c with
        | true =>
          have hself : escape '"' c = String.singleton c := by
            simp [escape, hquote, hslash, hp]
          rw [hself, Bytes.ofString_singleton]
          exact .plain hquote hslash
        | false =>
          rw [escape_unprintable hquote hslash hp]
          by_cases hlow : c.toNat < 128
          · have hn : c.toNat < 32 ∨ c.toNat = 127 := by
              rw [isPrintable_ascii hlow, Bool.and_eq_false_iff, decide_eq_false_iff_not,
                decide_eq_false_iff_not] at hp
              omega
            have hw := written_low hn
            rwa [Char.ofNat_toNat] at hw
          · exact written_high (by omega)

/-- Between quotes no part starts with a quote. -/
theorem Written.start {u : Bytes} (h : Written r u) : ∃ b more, u = b :: more ∧ b ≠ 34 := by
  cases h with
  | @plain c hquote hslash =>
    obtain ⟨b, more, hb⟩ := List.exists_cons_of_ne_nil (encode_ne_nil c)
    have hhead := head_encode_ne (e := '"') (by decide) hquote
    rw [hb] at hhead
    exact ⟨b, more, hb, fun he => hhead (congrArg some he)⟩
  | escape hn => exact ⟨92, _, rfl, by decide⟩

theorem legible_escapeRune : Legible (fun _ r => Bytes.ofString (escapeRune '"' r)) id Rune.Sound
    (· ≠ 34) (fun _ => True) where
  start _ _ h := (written_escapeRune h).start
  follow _ _ _ := trivial
  read _ _ _ _ _ hr hs _ _ h := (written_escapeRune hr).read (written_escapeRune hs) h

theorem quoteBytes_append_inj {a b : Bytes}
    (h : Bytes.ofString (quoteBytes a) ++ x = Bytes.ofString (quoteBytes b) ++ y) : a = b ∧ x = y := by
  have hend : ∀ z : Bytes, True ∧ Breaks (· ≠ 34) (34 :: z) := fun z =>
    ⟨trivial, breaks_cons (not_not_intro rfl)⟩
  rw [Lexer.ofString_quoteBytes, Lexer.ofString_quoteBytes, List.append_assoc, List.append_assoc] at h
  obtain ⟨hrunes, hrest⟩ := legible_escapeRune.items (hend x) (hend y)
    (fun _ => Bytes.sound_of_mem_runes) (fun _ => Bytes.sound_of_mem_runes) (List.cons.inj h).2
  rw [List.map_id, List.map_id] at hrunes
  refine ⟨?_, (List.cons.inj hrest).2⟩
  rw [← Bytes.ofRunes_runes a, hrunes, Bytes.ofRunes_runes]

end Text

end RegPressure
