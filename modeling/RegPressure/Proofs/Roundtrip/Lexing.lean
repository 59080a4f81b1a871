import RegPressure.Proofs.Asm.Lexeme
import RegPressure.Proofs.Number.Texts

namespace RegPressure

abbrev Lexeme := TokenKind × Bytes

def Token.bare (x : Token) : Lexeme := (x.kind, x.lexeme)

def Bytes.quoted (b : UInt8) : Bytes :=
  if b = 10 then [92, 110] else if b = 9 then [92, 116]
  else if b = 34 || b = 92 then [92, b] else [b]

def Bytes.Plain (s : Bytes) : Prop :=
  Bytes.ofString (Text.quoteBytes s) = 34 :: s.flatMap quoted ++ [34]

instance (s : Bytes) : Decidable s.Plain := inferInstanceAs (Decidable (_ = _))

theorem Bytes.IsName.ofString_toText {bs : Bytes} (h : bs.IsName) : Bytes.ofString bs.toText = bs := by
  refine Bytes.ofString_toText fun b hb => ?_
  have hchar := h.2 b hb
  rw [UInt8.lt_iff_toNat_lt]
  simp only [Lexer.isNameChar, Lexer.isNameStart, Decimal.isDigit, Bool.or_eq_true, Bool.and_eq_true,
    decide_eq_true_eq, UInt8.le_iff_toNat_le, ← UInt8.toNat_inj] at hchar
  simp at hchar ⊢
  omega

theorem Bytes.IsName.toText_ofString {s : String} (h : (Bytes.ofString s).IsName) :
    (Bytes.ofString s).toText = s :=
  Bytes.ofString_inj h.ofString_toText

theorem Bytes.isWord_of_all {bs : Bytes}
    (h : (bs.head?.any Lexer.isNameStart && bs.all Lexer.isNameChar) = true) : bs.IsWord := by
  obtain ⟨hfirst, hall⟩ := Bool.and_eq_true_iff.mp h
  obtain ⟨b, hb, hstart⟩ := (Option.any_eq_true _ _).mp hfirst
  obtain ⟨more, rfl⟩ := List.head?_eq_some_iff.mp hb
  exact ⟨b, more, rfl, hstart, (List.forall_mem_cons.mp (List.all_eq_true.mp hall)).2⟩

theorem Word.range_of_wrap {n : Int} (h : wrap n = n) : minSigned ≤ n ∧ n ≤ maxSigned := by
  have hlow := Int64.le_toInt (Int64.ofInt n)
  have hhigh := Int64.toInt_lt (Int64.ofInt n)
  unfold wrap at h
  unfold minSigned maxSigned
  omega

namespace Lexer

def Breaks (rest : Bytes) : Prop := ∀ b ∈ rest.head?, isNameChar b = false

def Cuts (bs : Bytes) (ls : List Lexeme) (rest : Bytes) : Prop :=
  ∀ l c, ∃ ts l' c', ts.map Token.bare = ls ∧ tokensFrom (bs ++ rest) l c =
    ⟨ts ++ (tokensFrom rest l' c').tokens, (tokensFrom rest l' c').errors⟩

def Spells (bs : Bytes) (ls : List Lexeme) : Prop := ∀ rest, Breaks rest → Cuts bs ls rest

def Closed (bs : Bytes) (ls : List Lexeme) : Prop := ∀ rest, Cuts bs ls rest

variable {b : UInt8} {bs cs rest name : Bytes} {ls ms : List Lexeme} {k : TokenKind}

theorem Cuts.append (h : Cuts bs ls (cs ++ rest)) (h' : Cuts cs ms rest) :
    Cuts (bs ++ cs) (ls ++ ms) rest := by
  intro l c
  obtain ⟨ts, l₁, c₁, hts, he⟩ := h l c
  obtain ⟨us, l₂, c₂, hus, he'⟩ := h' l₁ c₁
  exact ⟨ts ++ us, l₂, c₂, by rw [List.map_append, hts, hus],
    by rw [List.append_assoc, he, he', List.append_assoc]⟩

theorem Closed.spells (h : Closed bs ls) : Spells bs ls := fun rest _ => h rest

theorem Closed.append (h : Closed bs ls) (h' : Closed cs ms) : Closed (bs ++ cs) (ls ++ ms) :=
  fun rest => (h (cs ++ rest)).append (h' rest)

theorem breaks_nil : Breaks [] := by simp [Breaks]

theorem breaks_cons (h : isNameChar b = false) : Breaks (b :: rest) := by simpa [Breaks] using h

/-- A name or a number is closed by what breaks it off. -/
theorem Spells.close (h : Spells bs ls) (h' : Closed cs ms) (hc : Breaks cs) (hne : cs ≠ []) :
    Closed (bs ++ cs) (ls ++ ms) := by
  intro rest
  refine (h (cs ++ rest) ?_).append (h' rest)
  cases cs with
  | nil => exact absurd rfl hne
  | cons b cs => simpa [Breaks] using hc

/-- The tokens of a text that is cut into lexemes, up to the end mark. -/
theorem Spells.exists_tokens (h : Spells bs ls) : ∃ xs x, tokens bs = ⟨xs ++ [x], []⟩ ∧
    xs.map Token.bare = ls ∧ x.bare = (.eof, []) := by
  obtain ⟨xs, l, c, hxs, he⟩ := h [] breaks_nil 1 1
  have hend : tokensFrom [] l c = ⟨[{ kind := .eof, line := l, column := c }], []⟩ := by
    rw [tokensFrom_eq]
    rfl
  rw [List.append_nil, hend] at he
  exact ⟨xs, _, he, hxs, rfl⟩

/-- Octets are cut into lexemes in one way only. -/
theorem Spells.unique (h : Spells bs ls) (h' : Spells bs ms) : ls = ms := by
  obtain ⟨xs, x, hx, rfl, -⟩ := h.exists_tokens
  obtain ⟨ys, y, hy, rfl, -⟩ := h'.exists_tokens
  have htokens : xs ++ [x] = ys ++ [y] := congrArg Result.tokens (hx.symm.trans hy)
  rw [(List.append_inj' htokens rfl).1]

/-! ### Blanks -/

theorem closed_blank (h : b = 32 ∨ b = 9 ∨ b = 13) : Closed [b] [] := by
  intro rest l c
  refine ⟨[], l, c + 1, rfl, ?_⟩
  have : skip (b :: rest) false l c = skip rest false l (c + 1) := by
    rcases h with rfl | rfl | rfl <;> simp [skip]
  rw [List.singleton_append, tokensFrom_eq, this, ← tokensFrom_eq]
  rfl

theorem Closed.behind_blank (h : Closed bs ls) : Closed (32 :: bs) ls :=
  (closed_blank (.inl rfl)).append h

theorem closed_newline : Closed [10] [] := by
  intro rest l c
  refine ⟨[], l + 1, 1, rfl, ?_⟩
  rw [List.singleton_append, tokensFrom_eq, skip, if_pos rfl, ← tokensFrom_eq]
  rfl

/-! ### Lexemes -/

def Starts (b : UInt8) : Prop := b ∉ ([10, 32, 9, 13, 59] : Bytes)

instance (b : UInt8) : Decidable (Starts b) := inferInstanceAs (Decidable (¬_))

theorem cuts_of_scan (hb : Starts b) (h : scan b (bs ++ rest) = ⟨.ok (k, name), bs.length⟩) :
    Cuts (b :: bs) [(k, name)] rest := by
  intro l c
  refine ⟨[⟨k, name, l, c⟩], l, c + 1 + bs.length, rfl, ?_⟩
  have hskip : skip (b :: (bs ++ rest)) false l c = ⟨b :: (bs ++ rest), l, c⟩ := by
    simp only [Starts, List.mem_cons, List.not_mem_nil, or_false, not_or] at hb
    simp [skip, hb]
  have hmin : min bs.length (bs ++ rest).length = bs.length := by simp
  rw [List.cons_append, tokensFrom_eq, hskip]
  simp only [h, hmin, List.drop_left]
  rfl

theorem starts_of_punctuation (h : punctuation? b = some k) : Starts b := by
  intro hb
  simp only [List.mem_cons, List.not_mem_nil, or_false] at hb
  rcases hb with rfl | rfl | rfl | rfl | rfl
  all_goals cases h

theorem closed_punctuation (h : punctuation? b = some k) : Closed [b] [(k, [b])] := by
  intro rest
  refine cuts_of_scan (starts_of_punctuation h) ?_
  rw [scan, h]
  rfl

theorem closed_arrow : Closed [45, 62] [(.arrow, [45, 62])] :=
  fun rest => cuts_of_scan (by decide) rfl

theorem takeWhile_name (h : ∀ c ∈ bs, isNameChar c = true) (hr : Breaks rest) :
    (bs ++ rest).takeWhile isNameChar = bs := by
  have hrest : rest.takeWhile isNameChar = [] := by
    cases rest with
    | nil => rfl
    | cons b rest => simpa [Breaks] using hr
  rw [List.takeWhile_append_of_pos h, hrest, List.append_nil]

theorem spells_named {sign : UInt8} (h : name.IsName) (hs : Starts sign)
    (hscan : ∀ rest, scan sign rest = scanNamed sign k rest) :
    Spells (sign :: name) [(k, name)] := by
  intro rest hr
  refine cuts_of_scan hs ?_
  rw [hscan, scanNamed, takeWhile_name h.2 hr]
  exact if_neg h.1

theorem spells_global (h : name.IsName) : Spells (64 :: name) [(.global, name)] :=
  spells_named h (by decide) fun _ => rfl

theorem spells_local (h : name.IsName) : Spells (37 :: name) [(.local, name)] :=
  spells_named h (by decide) fun _ => rfl

theorem spells_metadata (h : name.IsName) : Spells (33 :: name) [(.metadata, name)] :=
  spells_named h (by decide) fun _ => rfl

theorem scan_unmarked (rest : Bytes) (hp : punctuation? b = none)
    (hc : Char.ofNat b.toNat ∉ ['@', '%', '!', '"']) : scan b rest =
      if b = 45 && rest.head? = some 62 then ⟨.ok (.arrow, [45, 62]), 1⟩
      else if Decimal.isDigit b || (b = 45 && rest.head?.any Decimal.isDigit) then scanNumber b rest
      else if isNameStart b then
        ⟨.ok (.ident, b :: rest.takeWhile isNameChar), (rest.takeWhile isNameChar).length⟩
      else ⟨.error (.unexpectedByte b), 0⟩ := by
  unfold scan
  rw [hp]
  dsimp only
  split
  case h_5 => rfl
  all_goals
    next he => exact absurd (by rw [he]; decide) hc

theorem scan_of_isNameStart (rest : Bytes) (h : isNameStart b = true) :
    Starts b ∧ scan b rest = ⟨.ok (.ident, b :: rest.takeWhile isNameChar),
      (rest.takeWhile isNameChar).length⟩ := by
  have hall : ∀ n : Fin 256, isNameStart (UInt8.ofNat n) = true →
      Starts (UInt8.ofNat n) ∧ punctuation? (UInt8.ofNat n) = none ∧ UInt8.ofNat n ≠ 45 ∧
      Decimal.isDigit (UInt8.ofNat n) = false ∧
      Char.ofNat (UInt8.ofNat n).toNat ∉ ['@', '%', '!', '"'] := by
    decide +kernel
  obtain ⟨hs, hp, hm, hd, hc⟩ := hall ⟨b.toNat, b.toNat_lt⟩ (by simpa using h)
  simp only [UInt8.ofNat_toNat] at hs hp hm hd hc
  refine ⟨hs, ?_⟩
  rw [scan_unmarked rest hp hc]
  simp [hm, hd, h]

theorem spells_word (h : name.IsWord) : Spells name [(.ident, name)] := by
  obtain ⟨b, more, rfl, hb, hmore⟩ := h
  intro rest hr
  obtain ⟨hs, hscan⟩ := scan_of_isNameStart (more ++ rest) hb
  refine cuts_of_scan hs ?_
  rw [hscan, takeWhile_name hmore hr]

/-! ### Numbers -/

def GoesOn (bs : Bytes) (prev : UInt8) (float float' : Bool) : Prop :=
  ∀ rest, Breaks rest → numberLength (bs ++ rest) prev float = (bs.length, float')

section GoesOn

variable {prev : UInt8} {float float' : Bool}

theorem goesOn_nil (h : float = true → Decimal.isDigit prev = true) : GoesOn [] prev float float := by
  intro rest hr
  cases rest with
  | nil => rfl
  | cons b rest =>
    have hb : isNameChar b = false := hr b rfl
    have hletter : b ≠ 101 ∧ b ≠ 69 := ⟨(by rintro rfl; cases hb), (by rintro rfl; cases hb)⟩
    have hmark : float = true → prev ≠ 101 ∧ prev ≠ 69 := fun hf =>
      ⟨(by rintro rfl; cases h hf), (by rintro rfl; cases h hf)⟩
    simp only [isNameChar, Bool.or_eq_false_iff, decide_eq_false_iff_not] at hb
    cases float with
    | false => simp [numberLength, hb, hletter]
    | true => simp [numberLength, hb, hletter, hmark rfl]

theorem GoesOn.digit (hb : Decimal.isDigit b = true) (h : GoesOn bs b float float') :
    GoesOn (b :: bs) prev float float' := by
  intro rest hr
  simp [numberLength, hb, h rest hr]

theorem GoesOn.mark (hb : b = 46 ∨ b = 101) (h : GoesOn bs b true float') :
    GoesOn (b :: bs) prev float float' := by
  intro rest hr
  rcases hb with rfl | rfl
  · simp [numberLength, Decimal.isDigit, h rest hr]
  · simp [numberLength, Decimal.isDigit, h rest hr]

theorem GoesOn.sign (hb : b = 43 ∨ b = 45) (h : GoesOn bs b true float') :
    GoesOn (b :: bs) 101 true float' := by
  intro rest hr
  rcases hb with rfl | rfl
  · simp [numberLength, Decimal.isDigit, h rest hr]
  · simp [numberLength, Decimal.isDigit, h rest hr]

theorem GoesOn.run {ds : Bytes} (hprev : Decimal.isDigit prev = true)
    (hds : ∀ c ∈ ds, Decimal.isDigit c = true)
    (h : ∀ prev, Decimal.isDigit prev = true → GoesOn bs prev float float') :
    GoesOn (ds ++ bs) prev float float' := by
  induction ds generalizing prev with
  | nil => exact h prev hprev
  | cons d ds ih =>
    obtain ⟨hd, hds⟩ := List.forall_mem_cons.mp hds
    exact (ih hd hds).digit hd

theorem GoesOn.digits {ds : Bytes} (hne : ds ≠ []) (hds : ∀ c ∈ ds, Decimal.isDigit c = true)
    (h : ∀ prev, Decimal.isDigit prev = true → GoesOn bs prev float float') :
    GoesOn (ds ++ bs) prev float float' := by
  obtain ⟨d, ds, rfl⟩ := List.exists_cons_of_ne_nil hne
  obtain ⟨hd, hds⟩ := List.forall_mem_cons.mp hds
  exact (GoesOn.run hd hds h).digit hd

theorem goesOn_int (h : ∀ c ∈ bs, Decimal.isDigit c = true) : GoesOn bs prev false false := by
  by_cases hne : bs = []
  · subst hne
    exact goesOn_nil nofun
  · have hrun : GoesOn (bs ++ []) prev false false := GoesOn.digits hne h fun _ _ => goesOn_nil nofun
    rwa [List.append_nil] at hrun

theorem goesOn_power (exp : Option Int) (hprev : Decimal.isDigit prev = true) (hfloat : exp = none → float = true) :
    GoesOn (Bytes.ofAscii (Binary64.powerText exp)) prev float true := by
  cases exp with
  | none =>
    obtain rfl := hfloat rfl
    exact goesOn_nil fun _ => hprev
  | some e =>
    obtain ⟨ds, hds, hne, hdigits, -⟩ := Binary64.exponentText_spec e
    have htail : ∀ prev, GoesOn (Bytes.ofAscii ds) prev true true := by
      intro prev
      have hrun : GoesOn (Bytes.ofAscii ds ++ []) prev true true :=
        GoesOn.digits (Bytes.ofAscii_ne_nil hne) (Bytes.isDigit_ofAscii hdigits)
          fun _ hlast => goesOn_nil fun _ => hlast
      rwa [List.append_nil] at hrun
    have hsigned : GoesOn (Bytes.ofAscii (Binary64.exponentText e).toList) 101 true true := by
      rw [hds]
      split
      · exact (htail 45).sign (.inr rfl)
      · exact (htail 43).sign (.inl rfl)
    exact hsigned.mark (.inr rfl)

theorem goesOn_float {whole part : List Char} {exp : Option Int} (hprev : Decimal.isDigit prev = true)
    (hwhole : ∀ c ∈ whole, c.isDigit = true) (hpart : ∀ c ∈ part, c.isDigit = true)
    (hmarked : part = [] → exp ≠ none) :
    GoesOn (Bytes.ofAscii (Binary64.pointed whole part ++ Binary64.powerText exp)) prev false true := by
  rw [Binary64.pointed, Bytes.ofAscii_append, Bytes.ofAscii_append, List.append_assoc]
  refine GoesOn.run hprev (Bytes.isDigit_ofAscii hwhole) fun prev hprev => ?_
  split
  · next hp => exact goesOn_power exp hprev fun he => absurd he (hmarked hp)
  · next hp =>
    exact (GoesOn.digits (Bytes.ofAscii_ne_nil hp) (Bytes.isDigit_ofAscii hpart)
      fun prev hprev => goesOn_power exp hprev fun _ => rfl).mark (.inl rfl)

end GoesOn

theorem scan_digit (rest : Bytes) (hb : Decimal.isDigit b = true) :
    Starts b ∧ scan b rest = scanNumber b rest := by
  have hall : ∀ n : Fin 256, Decimal.isDigit (UInt8.ofNat n) = true →
      Starts (UInt8.ofNat n) ∧ punctuation? (UInt8.ofNat n) = none ∧ UInt8.ofNat n ≠ 45 ∧
      Char.ofNat (UInt8.ofNat n).toNat ∉ ['@', '%', '!', '"'] := by
    decide +kernel
  obtain ⟨hs, hp, hm, hc⟩ := hall ⟨b.toNat, b.toNat_lt⟩ (by simpa using hb)
  simp only [UInt8.ofNat_toNat] at hs hp hm hc
  refine ⟨hs, ?_⟩
  rw [scan_unmarked rest hp hc]
  simp [hm, hb]

theorem scan_minus {d : UInt8} (rest : Bytes) (hd : Decimal.isDigit d = true) :
    Starts 45 ∧ scan 45 (d :: rest) = scanNumber 45 (d :: rest) := by
  have hgt : d ≠ 62 := by rintro rfl; cases hd
  have hs : Starts 45 := by decide
  refine ⟨hs, ?_⟩
  rw [scan_unmarked (d :: rest) (by decide) (by decide)]
  simp [hgt, hd]

theorem isSome_word? {k : Int} (hk : Word.wrap k = k) :
    (Decimal.word? (Bytes.ofInt k)).isSome = true := by
  simp [Decimal.word?, Decimal.int64?, Bytes.int?_ofInt, Word.ofInt?, Word.range_of_wrap hk]

theorem cuts_int (hscan : Starts b ∧ scan b (bs ++ rest) = scanNumber b (bs ++ rest))
    (hbs : GoesOn bs b false false) (hr : Breaks rest)
    (hword : (Decimal.word? (b :: bs)).isSome = true) : Cuts (b :: bs) [(.int, b :: bs)] rest := by
  refine cuts_of_scan hscan.1 ?_
  rw [hscan.2, scanNumber, hbs rest hr]
  simp [hword]

theorem cuts_float (hscan : Starts b ∧ scan b (bs ++ rest) = scanNumber b (bs ++ rest))
    (hbs : GoesOn bs b false true) (hr : Breaks rest)
    (hread : (Binary64.decimal? (b :: bs)).isSome = true) : Cuts (b :: bs) [(.float, b :: bs)] rest := by
  refine cuts_of_scan hscan.1 ?_
  rw [hscan.2, scanNumber, hbs rest hr]
  simp [hread]

theorem spells_int {k : Int} (hk : Word.wrap k = k) :
    Spells (Bytes.ofInt k) [(.int, Bytes.ofInt k)] := by
  intro rest hr
  have hword := isSome_word? hk
  obtain ⟨n, ⟨-, he⟩ | ⟨-, he⟩⟩ := Bytes.exists_ofInt k
  all_goals
    have hdigits : ∀ c ∈ Bytes.ofNat n, Decimal.isDigit c = true := fun c hc =>
      Bytes.isDigit_of_mem_ofNat hc
    obtain ⟨d, ds, hds⟩ := List.exists_cons_of_ne_nil (Bytes.ofNat_ne_nil n)
    rw [he] at hword ⊢
    rw [hds] at hword hdigits ⊢
    obtain ⟨hd, hmore⟩ := List.forall_mem_cons.mp hdigits
  · exact cuts_int (scan_digit (ds ++ rest) hd) (goesOn_int hmore) hr hword
  · exact cuts_int (scan_minus (ds ++ rest) hd) (goesOn_int hdigits) hr hword

theorem spells_float {x : Binary64} (hnan : x.isNaN = false) (hinf : x.isInfinite = false) :
    Spells (Bytes.ofString (Value.floatText x)) [(.float, Bytes.ofString (Value.floatText x))] := by
  intro rest hr
  have hread := congrArg Option.isSome (Binary64.decimal?_floatText hnan hinf)
  obtain ⟨cs, whole, part, exp, htext, hx⟩ := Binary64.exists_floating hnan hinf
  obtain ⟨c, more, rfl⟩ := List.exists_cons_of_ne_nil hx.spelled.ne_nil
  obtain ⟨hwhole, hpart⟩ := List.forall_mem_append.mp hx.spelled.digits
  obtain ⟨hc, hmore⟩ := List.forall_mem_cons.mp hwhole
  have hdigit := Bytes.isDigit_octet hc
  have hgo := goesOn_float hdigit hmore hpart hx.marked
  rw [htext, hx.spelled.eq] at hread ⊢
  generalize x.isNegative = neg at hread ⊢
  cases neg with
  | true => exact cuts_float (scan_minus _ hdigit) (hgo.digit hdigit) hr hread
  | false => exact cuts_float (scan_digit _ hdigit) hgo hr hread

/-! ### Strings -/

def StandsFor (bs lit : Bytes) : Prop := ∀ rest, rest ≠ [] →
  stringBody (bs ++ rest) = ((stringBody rest).1.map (lit ++ ·), (stringBody rest).2 + bs.length)

def isBare (b : UInt8) : Bool := b ≠ 10 && b ≠ 9 && b ≠ 34 && b ≠ 92

theorem quoted_bare (h : isBare b = true) : Bytes.quoted b = [b] := by
  simp only [isBare, Bool.and_eq_true, decide_eq_true_eq] at h
  simp [Bytes.quoted, h]

theorem standsFor_nil : StandsFor [] [] := by
  intro rest _
  simp

theorem StandsFor.append {l m : Bytes} (h : StandsFor bs l) (h' : StandsFor cs m) :
    StandsFor (bs ++ cs) (l ++ m) := by
  intro rest hrest
  have hne : cs ++ rest ≠ [] := by simp [hrest]
  rw [List.append_assoc, h _ hne, h' _ hrest]
  simp [Function.comp_def, Nat.add_assoc, Nat.add_comm]

theorem standsFor_bare (h : isBare b = true) : StandsFor [b] [b] := by
  intro rest hrest
  obtain ⟨e, more, rfl⟩ := List.exists_cons_of_ne_nil hrest
  simp only [isBare, Bool.and_eq_true, decide_eq_true_eq] at h
  simp [stringBody, h]

theorem standsFor_escaped (e : UInt8) :
    StandsFor [92, e] [if e = 110 then 10 else if e = 116 then 9 else e] :=
  fun _ _ => rfl

theorem standsFor_quoted (s : Bytes) : StandsFor (s.flatMap Bytes.quoted) s := by
  induction s with
  | nil => exact standsFor_nil
  | cons b s ih =>
    have hb : StandsFor (Bytes.quoted b) [b] := by
      by_cases h : isBare b = true
      · rw [quoted_bare h]
        exact standsFor_bare h
      · have hcases : b = 10 ∨ b = 9 ∨ b = 34 ∨ b = 92 := by
          simpa [isBare, Decidable.or_iff_not_imp_left] using h
        obtain rfl | rfl | rfl | rfl := hcases
        · exact standsFor_escaped 110
        · exact standsFor_escaped 116
        · exact standsFor_escaped 34
        · exact standsFor_escaped 92
    exact hb.append ih

theorem stringBody_quote (rest : Bytes) : stringBody (34 :: rest) = (some [], 1) := by
  cases rest <;> rfl

theorem StandsFor.unique {l m : Bytes} (h : StandsFor bs l) (h' : StandsFor bs m) : l = m := by
  have heq := (h [34] (List.cons_ne_nil _ _)).symm.trans (h' [34] (List.cons_ne_nil _ _))
  simpa [stringBody_quote] using heq

theorem scan_of_stringBody {rest s : Bytes} {n : Nat} (h : stringBody rest = (some s, n)) :
    scan 34 rest = ⟨.ok (.string, s), n⟩ := by
  have hmark : punctuation? 34 = none := by decide
  simp [scan, hmark, h]

/-- Between quotes the octets are one string, whatever follows. -/
theorem StandsFor.closed {s : Bytes} (h : StandsFor bs s) :
    Closed (34 :: bs ++ [34]) [(.string, s)] := by
  intro rest
  have hstarts : Starts 34 := by decide
  have hbody := h (34 :: rest) (List.cons_ne_nil _ _)
  rw [stringBody_quote] at hbody
  rw [List.cons_append]
  refine cuts_of_scan hstarts ?_
  rw [List.append_assoc, List.singleton_append, scan_of_stringBody hbody]
  simp [Nat.add_comm]

theorem closed_string (s : Bytes) :
    Closed (34 :: s.flatMap Bytes.quoted ++ [34]) [(.string, s)] := (standsFor_quoted s).closed

end Lexer

end RegPressure
