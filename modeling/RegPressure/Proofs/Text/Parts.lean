import RegPressure.Number.Word
import RegPressure.Proofs.Text.Runes

namespace RegPressure

section Marks

variable {α : Type} {p : α → Prop} {c : α} {u v x y : List α}

def Breaks (p : α → Prop) (x : List α) : Prop := ∀ a, x.head? = some a → ¬ p a

theorem breaks_nil : Breaks p [] := by
  rintro a ⟨⟩

theorem breaks_cons {a : α} (h : ¬ p a) : Breaks p (a :: x) := fun _ hb => Option.some.inj hb ▸ h

theorem append_run_inj (hu : ∀ a ∈ u, p a) (hv : ∀ a ∈ v, p a) (hx : Breaks p x) (hy : Breaks p y)
    (h : u ++ x = v ++ y) : u = v ∧ x = y := by
  induction u generalizing v with
  | nil =>
    cases v with
    | nil => exact ⟨rfl, h⟩
    | cons b v => exact absurd (hv b List.mem_cons_self) (hx b (congrArg List.head? h))
  | cons a u ih =>
    obtain ⟨ha, hu⟩ := List.forall_mem_cons.mp hu
    cases v with
    | nil => exact absurd ha (hy a (congrArg List.head? h).symm)
    | cons b v =>
      obtain ⟨rfl, htail⟩ := List.cons.inj h
      obtain ⟨rfl, hrest⟩ := ih hu (List.forall_mem_cons.mp hv).2 htail
      exact ⟨rfl, hrest⟩

theorem append_mark_inj (hu : c ∉ u) (hv : c ∉ v) (h : u ++ c :: x = v ++ c :: y) : u = v ∧ x = y := by
  have hfree : ∀ {w : List α}, c ∉ w → ∀ a ∈ w, a ≠ c := fun hw a ha hac => hw (hac ▸ ha)
  have hmark : ∀ z : List α, Breaks (· ≠ c) (c :: z) := fun z => breaks_cons (not_not_intro rfl)
  obtain ⟨huv, hrest⟩ := append_run_inj (hfree hu) (hfree hv) (hmark x) (hmark y) h
  exact ⟨huv, (List.cons.inj hrest).2⟩

end Marks

section Parts

variable {α β γ : Type} {p : γ → Prop} {x y : List γ}

/-- Parts that tell what they stand for and where they end, if what follows is as `F` wants it. A part starts
with an element of the kind `p`, and may stand in front of another part. -/
structure Legible (code : Nat → α → List γ) (key : α → β) (Ok : α → Prop) (p : γ → Prop)
    (F : List γ → Prop) : Prop where
  start : ∀ n a, Ok a → ∃ b more, code n a = b :: more ∧ p b
  follow : ∀ b more, p b → F (b :: more)
  read : ∀ n a b x y, Ok a → Ok b → F x → F y → code n a ++ x = code n b ++ y → key a = key b ∧ x = y

/-- Legible parts in a row tell what they stand for, up to something else than a part. -/
theorem Legible.parts {code : Nat → α → List γ} {key : α → β} {Ok : α → Prop} {F : List γ → Prop}
    (hcode : Legible code key Ok p F) (hx : F x ∧ Breaks p x) (hy : F y ∧ Breaks p y) {as bs : List α}
    (has : ∀ a ∈ as, Ok a) (hbs : ∀ b ∈ bs, Ok b)
    (h : (as.mapIdx code).flatten ++ x = (bs.mapIdx code).flatten ++ y) :
    as.map key = bs.map key ∧ x = y := by
  induction as generalizing bs code with
  | nil =>
    cases bs with
    | nil => exact ⟨rfl, h⟩
    | cons b bs =>
      obtain ⟨e, more, he, hp⟩ := hcode.start 0 b (hbs b List.mem_cons_self)
      rw [List.mapIdx_cons, List.flatten_cons, he] at h
      exact absurd hp (hx.2 e (congrArg List.head? h))
  | cons a as ih =>
    obtain ⟨ha, has⟩ := List.forall_mem_cons.mp has
    rw [List.mapIdx_cons, List.flatten_cons, List.append_assoc] at h
    cases bs with
    | nil =>
      obtain ⟨e, more, he, hp⟩ := hcode.start 0 a ha
      rw [he] at h
      exact absurd hp (hy.2 e (congrArg List.head? h).symm)
    | cons b bs =>
      obtain ⟨hb, hbs⟩ := List.forall_mem_cons.mp hbs
      -- The code of a part may depend on its number, so it moves along with the list.
      have hnext : Legible (fun n => code (n + 1)) key Ok p F :=
        ⟨fun n => hcode.start (n + 1), hcode.follow, fun n => hcode.read (n + 1)⟩
      have hfollow : ∀ {z : List γ} {cs : List α}, F z → (∀ c ∈ cs, Ok c) →
          F ((cs.mapIdx fun n => code (n + 1)).flatten ++ z) := by
        intro z cs hz hcs
        cases cs with
        | nil => exact hz
        | cons c cs =>
          obtain ⟨e, more, he, hp⟩ := hcode.start 1 c (hcs c List.mem_cons_self)
          rw [List.mapIdx_cons, List.flatten_cons, he]
          exact hcode.follow _ _ hp
      rw [List.mapIdx_cons, List.flatten_cons, List.append_assoc] at h
      obtain ⟨hkey, hrest⟩ := hcode.read 0 a b _ _ ha hb (hfollow hx.1 has) (hfollow hy.1 hbs) h
      obtain ⟨hkeys, hxy⟩ := ih hnext has hbs hrest
      exact ⟨by rw [List.map_cons, List.map_cons, hkey, hkeys], hxy⟩

theorem Legible.items {code : α → List γ} {key : α → β} {Ok : α → Prop} {F : List γ → Prop}
    (hcode : Legible (fun _ => code) key Ok p F) (hx : F x ∧ Breaks p x) (hy : F y ∧ Breaks p y)
    {as bs : List α} (has : ∀ a ∈ as, Ok a) (hbs : ∀ b ∈ bs, Ok b)
    (h : as.flatMap code ++ x = bs.flatMap code ++ y) : as.map key = bs.map key ∧ x = y := by
  have hflat : ∀ l : List α, l.flatMap code = (l.mapIdx fun _ => code).flatten := fun l => by
    rw [List.flatMap_def, List.mapIdx_eq_zipIdx_map]
    exact congrArg List.flatten (List.ext_getElem (by simp) (by simp))
  rw [hflat, hflat] at h
  exact hcode.parts hx hy has hbs h

end Parts

end RegPressure

namespace RegPressure

variable {c : Char} {m n : Nat}

theorem isDigit_of_mem_digits (h : c ∈ Nat.toDigits 10 n) : c.isDigit = true :=
  Nat.isDigit_of_mem_toDigits (by decide) (by decide) h

theorem toDigits_inj (h : Nat.toDigits 10 m = Nat.toDigits 10 n) : m = n := by
  rw [← Nat.ofDigitChars_ten_toDigits (n := m), h, Nat.ofDigitChars_ten_toDigits]

theorem head?_toDigits_ne (h : 0 < n) : (Nat.toDigits 10 n).head? ≠ some '0' := by
  induction n using Nat.strongRecOn with
  | _ n ih =>
    rw [Nat.toDigits_eq_if (by decide)]
    split
    · next hlt =>
      have hall : ∀ d : Fin 10, 0 < d.val → Nat.digitChar d ≠ '0' := by decide
      simpa using hall ⟨n, hlt⟩ h
    · next hge =>
      rw [List.head?_append_of_ne_nil _ Nat.toDigits_ne_nil]
      exact ih (n / 10) (by omega) (by omega)

theorem toList_toString_int (k : Int) : ∃ n : Nat,
    (k = n ∧ (toString k).toList = Nat.toDigits 10 n) ∨
      (k = -n ∧ (toString k).toList = '-' :: Nat.toDigits 10 n) := by
  rw [Int.toString_eq_repr, Int.repr_eq_if]
  split
  · exact ⟨k.toNat, .inl ⟨by omega, Nat.toList_repr⟩⟩
  · refine ⟨(-k).toNat, .inr ⟨by omega, ?_⟩⟩
    rw [String.toList_append, Nat.toList_repr]
    rfl

theorem toString_int_inj {j k : Int} (h : toString j = toString k) : j = k := by
  have hsign : ∀ {m n : Nat}, Nat.toDigits 10 m ≠ '-' :: Nat.toDigits 10 n := fun he =>
    absurd (isDigit_of_mem_digits (he ▸ List.mem_cons_self)) (by decide)
  obtain ⟨m, ⟨rfl, hj⟩ | ⟨rfl, hj⟩⟩ := toList_toString_int j
  · obtain ⟨n, ⟨rfl, hk⟩ | ⟨rfl, hk⟩⟩ := toList_toString_int k
    · rw [toDigits_inj (hj.symm.trans ((congrArg String.toList h).trans hk))]
    · exact absurd (hj.symm.trans ((congrArg String.toList h).trans hk)) hsign
  · obtain ⟨n, ⟨rfl, hk⟩ | ⟨rfl, hk⟩⟩ := toList_toString_int k
    · exact absurd (hk.symm.trans ((congrArg String.toList h.symm).trans hj)) hsign
    · rw [toDigits_inj (List.cons.inj (hj.symm.trans ((congrArg String.toList h).trans hk))).2]

namespace Bytes

variable {b : UInt8} {s t : String} {x y : Bytes} {j k : Int}

theorem ofString_inj (h : ofString s = ofString t) : s = t :=
  String.toByteArray_inj.mp (ByteArray.ext (Array.toList_inj.mp h))

theorem ofString_toList (s : String) : ofString s = s.toList.flatMap String.utf8EncodeChar := by
  rw [← ofString_ofList, String.ofList_toList]

theorem encode_ascii (h : c.toNat < 128) : String.utf8EncodeChar c = [UInt8.ofNat c.toNat] := by
  have hencode := encode_ofNat (n := c.toNat) c.valid
  rwa [Char.ofNat_toNat, if_pos (by omega)] at hencode

theorem le_of_mem_encode (h : 128 ≤ c.toNat) (hb : b ∈ String.utf8EncodeChar c) : 128 ≤ b.toNat := by
  have hhigh : ∀ {k : Nat}, 128 ≤ k % 256 → 128 ≤ (UInt8.ofNat k).toNat := fun hk => hk
  have hencode := encode_ofNat (n := c.toNat) c.valid
  rw [Char.ofNat_toNat, if_neg (by omega)] at hencode
  rw [hencode] at hb
  revert b
  split
  · simp only [List.forall_mem_cons]
    exact ⟨hhigh (by omega), hhigh (by omega), by simp⟩
  · split
    · simp only [List.forall_mem_cons]
      exact ⟨hhigh (by omega), hhigh (by omega), hhigh (by omega), by simp⟩
    · simp only [List.forall_mem_cons]
      exact ⟨hhigh (by omega), hhigh (by omega), hhigh (by omega), hhigh (by omega), by simp⟩

theorem mem_of_mem_ofString {d : Char} (hd : d.toNat < 128)
    (h : UInt8.ofNat d.toNat ∈ ofString s) : d ∈ s.toList := by
  rw [ofString_toList] at h
  obtain ⟨c, hc, hb⟩ := List.mem_flatMap.mp h
  have hoctet : (UInt8.ofNat d.toNat).toNat = d.toNat := Nat.mod_eq_of_lt (by omega)
  by_cases hlow : c.toNat < 128
  · rw [encode_ascii hlow, List.mem_singleton] at hb
    have hnat := congrArg UInt8.toNat hb
    rw [hoctet] at hnat
    have hcd : d.toNat = c.toNat := hnat.trans (Nat.mod_eq_of_lt (by omega))
    exact Char.toNat_inj.mp hcd ▸ hc
  · have hlarge := le_of_mem_encode (by omega) hb
    omega

def Numeral (b : UInt8) : Prop := b = 45 ∨ Decimal.isDigit b = true

instance (b : UInt8) : Decidable (Numeral b) := inferInstanceAs (Decidable (_ ∨ _))

theorem digit_range (h : c.isDigit = true) : 48 ≤ c.toNat ∧ c.toNat ≤ 57 := Char.isDigit_iff_toNat.mp h

def ofAscii (cs : List Char) : Bytes := cs.map fun c => UInt8.ofNat c.toNat

theorem ofAscii_append (cs ds : List Char) : ofAscii (cs ++ ds) = ofAscii cs ++ ofAscii ds :=
  List.map_append

theorem ofAscii_ne_nil {cs : List Char} (h : cs ≠ []) : ofAscii cs ≠ [] := fun hnil =>
  h (List.map_eq_nil_iff.mp hnil)

theorem ofString_ascii (h : ∀ c ∈ s.toList, c.toNat < 128) : ofString s = ofAscii s.toList := by
  rw [ofString_toList, List.flatMap_congr fun c hc => encode_ascii (h c hc), ← List.map_eq_flatMap]
  rfl

theorem isDigit_octet (h : c.isDigit = true) : Decimal.isDigit (UInt8.ofNat c.toNat) = true := by
  have hrange := digit_range h
  have hall : ∀ n : Fin 58, 48 ≤ n.val → Decimal.isDigit (UInt8.ofNat n) = true := by decide
  exact hall ⟨c.toNat, by omega⟩ hrange.1

theorem isDigit_ofAscii {cs : List Char} (h : ∀ c ∈ cs, c.isDigit = true) :
    ∀ b ∈ ofAscii cs, Decimal.isDigit b = true := by
  intro b hb
  obtain ⟨c, hc, rfl⟩ := List.mem_map.mp hb
  exact isDigit_octet (h c hc)

theorem value_ofAscii {cs : List Char} (h : ∀ c ∈ cs, c.isDigit = true) :
    Decimal.value (ofAscii cs) = Nat.ofDigitChars 10 cs 0 := by
  have hoctet : ∀ m : Nat, ∀ c ∈ cs,
      10 * m + ((UInt8.ofNat c.toNat).toNat - 48) = 10 * m + (c.toNat - '0'.toNat) := by
    intro m c hc
    have hrange := digit_range (h c hc)
    have hsame : (UInt8.ofNat c.toNat).toNat = c.toNat := Nat.mod_eq_of_lt (by omega)
    rw [hsame]
    rfl
  rw [Decimal.value, ofAscii, List.foldl_map, List.foldl_ext _ _ 0 hoctet]
  rfl

theorem nat?_ofAscii {cs : List Char} (hne : cs ≠ []) (h : ∀ c ∈ cs, c.isDigit = true) :
    Decimal.nat? (ofAscii cs) = some (Nat.ofDigitChars 10 cs 0) := by
  have hall : (ofAscii cs).all Decimal.isDigit = true := List.all_eq_true.mpr (isDigit_ofAscii h)
  rw [Decimal.nat?, if_pos (by simp [ofAscii_ne_nil hne, hall]), value_ofAscii h]

theorem int?_plus {cs : List Char} (hne : cs ≠ []) (h : ∀ c ∈ cs, c.isDigit = true) :
    Decimal.int? (43 :: ofAscii cs) = some (Nat.ofDigitChars 10 cs 0 : Int) := by
  rw [Decimal.int?, nat?_ofAscii hne h]
  rfl

theorem int?_minus {cs : List Char} (hne : cs ≠ []) (h : ∀ c ∈ cs, c.isDigit = true) :
    Decimal.int? (45 :: ofAscii cs) = some (-(Nat.ofDigitChars 10 cs 0 : Int)) := by
  rw [Decimal.int?, nat?_ofAscii hne h]
  rfl

theorem int?_ofAscii {cs : List Char} (hne : cs ≠ []) (h : ∀ c ∈ cs, c.isDigit = true) :
    Decimal.int? (ofAscii cs) = some (Nat.ofDigitChars 10 cs 0 : Int) := by
  have hdigit : ∀ b ∈ (ofAscii cs).head?, Decimal.isDigit b = true := fun b hb =>
    isDigit_ofAscii h b (List.mem_of_mem_head? hb)
  rw [Decimal.int?.eq_def]
  split
  · next he => exact absurd (hdigit 43 (by rw [he]; rfl)) (by decide)
  · next he => exact absurd (hdigit 45 (by rw [he]; rfl)) (by decide)
  · rw [nat?_ofAscii hne h]
    rfl

theorem ofNat_eq_ofAscii (n : Nat) : ofNat n = ofAscii (Nat.toDigits 10 n) := by
  have htext : (toString n).toList = Nat.toDigits 10 n := by
    rw [Nat.toString_eq_repr, Nat.toList_repr]
  rw [ofNat, ofString_ascii, htext]
  intro c hc
  rw [htext] at hc
  have hrange := digit_range (isDigit_of_mem_digits hc)
  omega

theorem isDigit_of_mem_ofNat (h : b ∈ ofNat n) : Decimal.isDigit b = true :=
  isDigit_ofAscii (fun _ hc => isDigit_of_mem_digits hc) b (ofNat_eq_ofAscii n ▸ h)

theorem ofNat_ne_nil (n : Nat) : ofNat n ≠ [] :=
  ofNat_eq_ofAscii n ▸ ofAscii_ne_nil Nat.toDigits_ne_nil

theorem ofNat_eq_ofInt (n : Nat) : ofNat n = ofInt n := rfl

theorem exists_ofInt (k : Int) : ∃ n : Nat,
    (k = n ∧ ofInt k = ofNat n) ∨ (k = -n ∧ ofInt k = 45 :: ofNat n) := by
  obtain ⟨n, ⟨rfl, -⟩ | ⟨hk, htext⟩⟩ := toList_toString_int k
  · exact ⟨n, .inl ⟨rfl, rfl⟩⟩
  · refine ⟨n, .inr ⟨hk, ?_⟩⟩
    rw [ofInt, ofString_toList, htext, ofNat, ofString_toList, Nat.toString_eq_ofList_toDigits,
      String.toList_ofList]
    rfl

theorem numeral_of_mem (h : b ∈ ofInt k) : Numeral b := by
  obtain ⟨n, ⟨-, hk⟩ | ⟨-, hk⟩⟩ := exists_ofInt k
  · exact .inr (isDigit_of_mem_ofNat (hk ▸ h))
  · rw [hk] at h
    rcases List.mem_cons.mp h with rfl | h
    · exact .inl rfl
    · exact .inr (isDigit_of_mem_ofNat h)

theorem ofInt_ne_nil (k : Int) : ofInt k ≠ [] := by
  obtain ⟨n, ⟨-, hk⟩ | ⟨-, hk⟩⟩ := exists_ofInt k
  · exact hk ▸ ofNat_ne_nil n
  · exact hk ▸ List.cons_ne_nil _ _

theorem ofInt_append_inj (hx : Breaks Numeral x) (hy : Breaks Numeral y)
    (h : ofInt j ++ x = ofInt k ++ y) : j = k ∧ x = y := by
  obtain ⟨hnumber, hrest⟩ := append_run_inj (fun _ hb => numeral_of_mem hb)
    (fun _ hb => numeral_of_mem hb) hx hy h
  exact ⟨toString_int_inj (ofString_inj hnumber), hrest⟩

theorem ofNat_append_inj (hx : Breaks Numeral x) (hy : Breaks Numeral y)
    (h : ofNat m ++ x = ofNat n ++ y) : m = n ∧ x = y := by
  rw [ofNat_eq_ofInt, ofNat_eq_ofInt] at h
  obtain ⟨hnumber, hrest⟩ := ofInt_append_inj hx hy h
  exact ⟨Int.ofNat_inj.mp hnumber, hrest⟩

/-- A whole number is read back from its text. -/
theorem int?_ofInt (k : Int) : Decimal.int? (ofInt k) = some k := by
  have hdigits : ∀ {n : Nat}, ∀ c ∈ Nat.toDigits 10 n, c.isDigit = true := fun _ hc => isDigit_of_mem_digits hc
  obtain ⟨n, ⟨rfl, hk⟩ | ⟨rfl, hk⟩⟩ := exists_ofInt k
  · rw [hk, ofNat_eq_ofAscii, int?_ofAscii Nat.toDigits_ne_nil hdigits, Nat.ofDigitChars_ten_toDigits]
  · rw [hk, ofNat_eq_ofAscii, int?_minus Nat.toDigits_ne_nil hdigits, Nat.ofDigitChars_ten_toDigits]

/-! ### Words -/

section Words

variable {sep : UInt8} {a : Bytes} {as bs : List Bytes}

theorem split_cons (b : UInt8) (a : Bytes) : split sep (b :: a) =
    if b = sep then [] :: split sep a
    else (b :: (split sep a).headD []) :: (split sep a).tail := by
  rw [split]
  split
  · rfl
  · split
    · next he => rw [he]; rfl
    · next he => exact absurd he split_ne_nil

theorem split_append_split (a x : Bytes) : split sep (a ++ sep :: x) = split sep a ++ split sep x := by
  induction a with
  | nil => rw [List.nil_append, split_cons, if_pos rfl]; rfl
  | cons b a ih =>
    rw [List.cons_append, split_cons, split_cons, ih]
    split
    · rfl
    · obtain ⟨w, ws, hw⟩ := List.exists_cons_of_ne_nil (split_ne_nil : split sep a ≠ [])
      rw [hw]
      rfl

theorem intercalate_split (sep : UInt8) (a : Bytes) : List.intercalate [sep] (split sep a) = a := by
  induction a with
  | nil => rfl
  | cons b a ih =>
    obtain ⟨w, ws, hw⟩ := List.exists_cons_of_ne_nil (split_ne_nil : split sep a ≠ [])
    rw [split_cons, hw]
    rw [hw] at ih
    split
    · next hb => rw [List.intercalate_cons_cons, ih, hb]; rfl
    · cases ws with
      | nil =>
        rw [List.intercalate_singleton] at ih
        rw [← ih]
        exact List.intercalate_singleton
      | cons v vs =>
        rw [List.intercalate_cons_cons] at ih
        rw [← ih]
        exact List.intercalate_cons_cons

theorem split_inj {b : Bytes} (h : split sep a = split sep b) : a = b := by
  rw [← intercalate_split sep a, h, intercalate_split]

theorem mem_intercalate {b : UInt8} (h : b ∈ List.intercalate [sep] as) : b = sep ∨ ∃ w ∈ as, b ∈ w := by
  induction as with
  | nil => cases h
  | cons a as ih =>
    cases as with
    | nil =>
      rw [List.intercalate_singleton] at h
      exact .inr ⟨a, List.mem_cons_self, h⟩
    | cons a' as =>
      rw [List.intercalate_cons_cons, List.mem_append, List.mem_append, List.mem_singleton] at h
      rcases h with (h | h) | h
      · exact .inr ⟨a, List.mem_cons_self, h⟩
      · exact .inl h
      · exact (ih h).imp_right fun hw => hw.imp fun w hw => hw.imp_left (List.mem_cons_of_mem a)

theorem intercalate_inj (has : ∀ w ∈ as, w ≠ [] ∧ sep ∉ w) (hbs : ∀ w ∈ bs, w ≠ [] ∧ sep ∉ w)
    (h : List.intercalate [sep] as = List.intercalate [sep] bs) : as = bs := by
  have hempty : ∀ {w : Bytes} {ws : List Bytes}, w ≠ [] → List.intercalate [sep] (w :: ws) ≠ [] := by
    intro w ws hw he
    cases ws with
    | nil => exact hw (List.intercalate_singleton.symm.trans he)
    | cons v vs =>
      rw [List.intercalate_cons_cons, List.append_assoc] at he
      exact hw (List.append_eq_nil_iff.mp he).1
  cases as with
  | nil =>
    cases bs with
    | nil => rfl
    | cons b bs => exact absurd h.symm (hempty (hbs b List.mem_cons_self).1)
  | cons a as =>
    cases bs with
    | nil => exact absurd h (hempty (has a List.mem_cons_self).1)
    | cons b bs =>
      have hsplit := congrArg (split sep) h
      rwa [split_intercalate (List.cons_ne_nil _ _) fun w hw => (has w hw).2,
        split_intercalate (List.cons_ne_nil _ _) fun w hw => (hbs w hw).2] at hsplit

theorem nil_not_mem_split_intercalate (has : ∀ w ∈ as, w ≠ [] ∧ sep ∉ w) (hb : b ≠ sep) :
    [] ∉ split sep (List.intercalate [sep] as ++ [b]) := by
  induction as with
  | nil =>
    rw [List.intercalate_nil, List.nil_append, split_of_not_mem (by simpa using hb.symm)]
    simp
  | cons a as ih =>
    obtain ⟨ha, has⟩ := List.forall_mem_cons.mp has
    cases as with
    | nil =>
      rw [List.intercalate_singleton, split_of_not_mem (by simpa using ⟨ha.2, hb.symm⟩)]
      simp
    | cons a' as =>
      rw [List.intercalate_cons_cons, List.append_assoc, List.append_assoc, List.singleton_append,
        split_append ha.2, List.mem_cons, not_or]
      exact ⟨ha.1.symm, ih has⟩

end Words

end Bytes

end RegPressure
