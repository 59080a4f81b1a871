import RegPressure.Text.Bytes
import Mathlib.Data.List.DropRight
import Mathlib.Data.Nat.Init
import Mathlib.Tactic.Common

namespace RegPressure.Bytes

variable {b : UInt8} {bs rest : Bytes} {c : Char} {n : Nat}

@[simp] theorem ofString_append (s t : String) : ofString (s ++ t) = ofString s ++ ofString t := by
  simp [ofString]

theorem ofString_ofList (cs : List Char) :
    ofString (String.ofList cs) = cs.flatMap String.utf8EncodeChar := by
  simp [ofString, String.toByteArray_ofList, List.utf8Encode]

theorem ofString_singleton (c : Char) : ofString (String.singleton c) = String.utf8EncodeChar c := by
  have := ofString_ofList [c]
  rwa [List.flatMap_singleton, ← String.singleton_eq_ofList] at this

theorem encode_ofNat (h : n.isValidChar) : String.utf8EncodeChar (Char.ofNat n) =
    if n ≤ 127 then [UInt8.ofNat n]
    else if n ≤ 2047 then [UInt8.ofNat (n / 64 % 32 + 192), UInt8.ofNat (n % 64 + 128)]
    else if n ≤ 65535 then
      [UInt8.ofNat (n / 4096 % 16 + 224), UInt8.ofNat (n / 64 % 64 + 128), UInt8.ofNat (n % 64 + 128)]
    else
      [UInt8.ofNat (n / 262144 % 8 + 240), UInt8.ofNat (n / 4096 % 64 + 128),
        UInt8.ofNat (n / 64 % 64 + 128), UInt8.ofNat (n % 64 + 128)] := by
  have hn : (Char.ofNat n).val.toNat = n := by
    unfold Char.ofNat
    rw [dif_pos h]
    rfl
  simp only [String.utf8EncodeChar, hn]

theorem ofNat_eq {k : Nat} (h : b.toNat = k) : UInt8.ofNat k = b := by
  rw [← h, UInt8.ofNat_toNat]

/-- A character takes the octets that it is written with. -/
theorem encode_of_leading (h : leading b rest = some (c, n)) :
    String.utf8EncodeChar c = b :: rest.take n ∧ n ≤ rest.length := by
  unfold leading isTail tailBits at h
  simp only [UInt8.lt_iff_toNat_lt, UInt8.le_iff_toNat_le,
    Bool.and_eq_true, decide_eq_true_eq, Bool.not_eq_true', Bool.and_eq_false_iff,
    decide_eq_false_iff_not] at h
  have hb := b.toNat_lt
  split at h
  case isTrue hlow =>
    cases h
    simp at hlow
    rw [encode_ofNat (.inl (by omega)), if_pos (by omega), ofNat_eq rfl]
    simp
  case isFalse =>
    split at h
    case isTrue htwo =>
      split at h
      case h_1 b₁ _ =>
        split at h
        · next ht =>
          cases h
          simp at ht htwo
          rw [encode_ofNat (.inl (by omega)), if_neg (by omega), if_pos (by omega),
            ofNat_eq (b := b) (by omega), ofNat_eq (b := b₁) (by omega)]
          simp
        · cases h
      case h_2 => cases h
    case isFalse =>
      split at h
      case isTrue hthree =>
        split at h
        case h_1 b₁ b₂ _ =>
          split at h
          · next ht =>
            cases h
            simp at ht hthree
            rw [encode_ofNat (by unfold Nat.isValidChar; omega), if_neg (by omega),
              if_neg (by omega), if_pos (by omega), ofNat_eq (b := b) (by omega),
              ofNat_eq (b := b₁) (by omega), ofNat_eq (b := b₂) (by omega)]
            simp
          · cases h
        case h_2 => cases h
      case isFalse =>
        split at h
        case isTrue hfour =>
          split at h
          case h_1 b₁ b₂ b₃ _ =>
            split at h
            · next ht =>
              cases h
              simp at ht hfour
              rw [encode_ofNat (by unfold Nat.isValidChar; omega), if_neg (by omega),
                if_neg (by omega), if_neg (by omega), ofNat_eq (b := b) (by omega),
                ofNat_eq (b := b₁) (by omega), ofNat_eq (b := b₂) (by omega),
                ofNat_eq (b := b₃) (by omega)]
              simp
            · cases h
          case h_2 => cases h
        case isFalse => cases h

theorem leading_append (h : leading b bs = some (c, n)) (more : Bytes) :
    leading b (bs ++ more) = some (c, n) := by
  rcases bs with _ | ⟨b₁, _ | ⟨b₂, _ | ⟨b₃, bs⟩⟩⟩
  all_goals
    unfold leading at h ⊢
    simp only [List.nil_append, List.cons_append] at h ⊢
    split_ifs at h ⊢ <;> exact h

theorem leading_take (h : leading b bs = some (c, n)) : leading b (bs.take n) = some (c, n) := by
  rcases bs with _ | ⟨b₁, _ | ⟨b₂, _ | ⟨b₃, bs⟩⟩⟩
  all_goals
    unfold leading at h
    dsimp only at h
    split_ifs at h
    all_goals cases h
    all_goals simp only [List.take_succ_cons, List.take_zero, List.take_nil, leading, *, if_true, if_false,
      Bool.false_eq_true]

theorem runes_cons (b : UInt8) (rest : Bytes) : runes (b :: rest) =
    match leading b rest with
    | some (c, n) => .char c :: runes (rest.drop n)
    | none => .stray b :: runes rest := runes.eq_def (b :: rest)

@[simp] theorem runes_nil : runes [] = [] := by rw [runes]

def ofRunes (rs : List Rune) : Bytes := (rs.map ofRune).flatten

@[simp] theorem ofRunes_cons (r : Rune) (rs : List Rune) :
    ofRunes (r :: rs) = ofRune r ++ ofRunes rs := rfl

@[simp] theorem ofRunes_append (rs ss : List Rune) :
    ofRunes (rs ++ ss) = ofRunes rs ++ ofRunes ss := by simp [ofRunes]

theorem runes_append_of_leading (h : leading b bs = some (c, n)) (more : Bytes) :
    runes (ofRune (.char c) ++ more) = .char c :: runes more := by
  obtain ⟨henc, hlen⟩ := encode_of_leading h
  rw [ofRune, ofString_singleton, henc, List.cons_append, runes_cons,
    leading_append (leading_take h)]
  simp [hlen]

theorem ofRunes_runes (bs : Bytes) : ofRunes bs.runes = bs := by
  induction hn : bs.length using Nat.strong_induction_on generalizing bs with
  | _ n ih =>
    cases bs with
    | nil => simp [ofRunes]
    | cons b rest =>
      rw [runes_cons]
      split
      · next c k h =>
        obtain ⟨henc, hlen⟩ := encode_of_leading h
        rw [ofRunes_cons, ih _ (by simp at hn ⊢; omega) _ rfl, ofRune, ofString_singleton, henc]
        simp
      · rw [ofRunes_cons, ih _ (by simp at hn ⊢; omega) _ rfl]
        rfl

theorem runes_ofRunes_prefix {xs ys : List Rune} (h : bs.runes = xs ++ ys) :
    (ofRunes xs).runes = xs := by
  induction xs generalizing bs with
  | nil => simp [ofRunes]
  | cons r xs ih =>
    cases bs with
    | nil => simp at h
    | cons b rest =>
      rw [runes_cons] at h
      split at h
      · next c k hl =>
        obtain ⟨rfl, htail⟩ := List.cons.inj h
        rw [ofRunes_cons, runes_append_of_leading hl, ih htail]
      · next hl =>
        obtain ⟨rfl, htail⟩ := List.cons.inj h
        rw [List.append_eq] at htail
        have hrest : rest = ofRunes xs ++ ofRunes ys := by
          rw [← ofRunes_append, ← htail, ofRunes_runes]
        have hnone : leading b (ofRunes xs) = none := by
          cases hx : leading b (ofRunes xs) with
          | none => rfl
          | some x =>
            rw [hrest, leading_append hx] at hl
            cases hl
        rw [ofRunes_cons, ofRune, List.singleton_append, runes_cons, hnone]
        exact congrArg _ (ih htail)

theorem runes_ofRunes_suffix {xs ys : List Rune} (h : bs.runes = xs ++ ys) :
    (ofRunes ys).runes = ys := by
  induction xs generalizing bs with
  | nil =>
    rw [List.nil_append] at h
    rw [← h, ofRunes_runes]
  | cons r xs ih =>
    cases bs with
    | nil => simp at h
    | cons b rest =>
      rw [runes_cons] at h
      split at h
      · exact ih (List.cons.inj h).2
      · exact ih (List.cons.inj h).2

theorem runes_ascii (h : ∀ b ∈ bs, b < 128) :
    bs.runes = bs.map fun b => .char (Char.ofNat b.toNat) := by
  induction bs with
  | nil => simp
  | cons b bs ih =>
    have hb : leading b bs = some (Char.ofNat b.toNat, 0) := by
      unfold leading
      rw [if_pos (h b (List.mem_cons_self ..))]
    rw [runes_cons, hb]
    simpa using ih fun x hx => h x (List.mem_cons_of_mem _ hx)

theorem ofString_toText (h : ∀ b ∈ bs, b < 128) : ofString bs.toText = bs := by
  rw [toText, runes_ascii h, List.map_map, ofString_ofList, List.flatMap_map]
  refine (List.flatMap_congr fun b hb => ?_).trans (List.flatMap_singleton' bs)
  have hlt := UInt8.lt_iff_toNat_lt.mp (h b hb)
  rw [show (128 : UInt8).toNat = 128 from rfl] at hlt
  rw [Function.comp_apply, encode_ofNat (.inl (by omega)), if_pos (by omega), ofNat_eq rfl]

/-! ### Blanks and separators -/

def stripped (bs : Bytes) : List Rune :=
  ((bs.runes.dropWhile isBlankRune).reverse.dropWhile isBlankRune).reverse

theorem trim_eq (bs : Bytes) : bs.trim = ofRunes bs.stripped := rfl

theorem dropWhile_runes (bs : Bytes) :
    ∃ ys, bs.runes.dropWhile isBlankRune = bs.stripped ++ ys :=
  ⟨((bs.runes.dropWhile isBlankRune).reverse.takeWhile isBlankRune).reverse, by
    rw [stripped, ← List.reverse_append, List.takeWhile_append_dropWhile, List.reverse_reverse]⟩

theorem runes_eq_stripped (bs : Bytes) : ∃ xs ys, bs.runes = xs ++ (bs.stripped ++ ys) := by
  obtain ⟨ys, h⟩ := dropWhile_runes bs
  exact ⟨_, ys, by rw [← h, List.takeWhile_append_dropWhile]⟩

theorem runes_trim (bs : Bytes) : bs.trim.runes = bs.stripped := by
  obtain ⟨xs, ys, h⟩ := runes_eq_stripped bs
  rw [trim_eq]
  exact runes_ofRunes_prefix (runes_ofRunes_suffix h)

theorem trim_trim (bs : Bytes) : bs.trim.trim = bs.trim := by
  have hhead : bs.stripped.dropWhile isBlankRune = bs.stripped := by
    obtain ⟨ys, h⟩ := dropWhile_runes bs
    have hself := List.dropWhile_idempotent isBlankRune bs.runes
    cases hb : bs.stripped with
    | nil => rfl
    | cons r rs =>
      rw [h, hb, List.dropWhile_eq_self_iff] at hself
      rw [List.dropWhile_eq_self_iff]
      simpa using hself
  rw [trim_eq bs.trim, stripped, runes_trim, hhead, trim_eq]
  rw [stripped, List.reverse_reverse, List.dropWhile_idempotent]

theorem subset_trim (bs : Bytes) : bs.trim ⊆ bs := by
  obtain ⟨xs, ys, h⟩ := runes_eq_stripped bs
  have hbs := ofRunes_runes bs
  rw [h, ofRunes_append, ofRunes_append] at hbs
  intro x hx
  rw [← hbs]
  exact List.mem_append_right _ (List.mem_append_left _ hx)

variable {sep : UInt8} {x : Bytes} {xs : List Bytes}

theorem split_ne_nil : split sep bs ≠ [] := by
  cases bs with
  | nil => simp [split]
  | cons b bs =>
    unfold split
    split
    · simp
    · split <;> simp

theorem not_mem_of_split (h : x ∈ split sep bs) : sep ∉ x := by
  induction bs generalizing x with
  | nil =>
    rw [List.mem_singleton.mp h]
    simp
  | cons b bs ih =>
    unfold split at h
    split at h
    · rcases List.mem_cons.mp h with rfl | h
      · simp
      · exact ih h
    · next hb =>
      split at h
      · next piece more he =>
        rcases List.mem_cons.mp h with rfl | h
        · have := ih (x := piece) (by simp [he])
          simpa [Ne.symm hb] using this
        · exact ih (by simp [he, h])
      · next he => exact absurd he split_ne_nil

theorem split_of_not_mem (h : sep ∉ bs) : split sep bs = [bs] := by
  induction bs with
  | nil => rfl
  | cons b bs ih =>
    rw [List.mem_cons, not_or] at h
    rw [split, if_neg (Ne.symm h.1), ih h.2]

theorem split_append (h : sep ∉ bs) : split sep (bs ++ sep :: rest) = bs :: split sep rest := by
  induction bs with
  | nil => rw [List.nil_append, split, if_pos rfl]
  | cons b bs ih =>
    rw [List.mem_cons, not_or] at h
    rw [List.cons_append, split, if_neg (Ne.symm h.1), ih h.2]

theorem split_intercalate (hne : xs ≠ []) (h : ∀ x ∈ xs, sep ∉ x) :
    split sep (List.intercalate [sep] xs) = xs := by
  induction xs with
  | nil => exact absurd rfl hne
  | cons x xs ih =>
    have hx := h x (List.mem_cons_self ..)
    cases xs with
    | nil => rw [List.intercalate_singleton, split_of_not_mem hx]
    | cons y ys =>
      rw [List.intercalate_cons_cons, List.append_assoc, List.singleton_append, split_append hx,
        ih (by simp) fun z hz => h z (List.mem_cons_of_mem _ hz)]

end RegPressure.Bytes
