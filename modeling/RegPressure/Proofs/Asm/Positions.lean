import RegPressure.Proofs.Asm.Lexeme
import Mathlib.Data.List.Basic
import Mathlib.Data.List.Pairwise

namespace RegPressure.Lexer

def lineAt (src : Bytes) (offset : Nat) : Nat := 1 + (src.take offset).count 10

def tailLength (pre : Bytes) : Nat := (pre.reverse.takeWhile (· ≠ 10)).length

def lineStart (src : Bytes) (offset : Nat) : Nat := offset - tailLength (src.take offset)

def columnAt (src : Bytes) (offset : Nat) : Nat := offset - lineStart src offset + 1

/-- What is read at an offset of a text: the octets it takes, and the token or the error it gives. -/
structure Reading where
  offset : Nat
  octets : Bytes
  found : Except Located Token

namespace Reading

def token? (r : Reading) : Option Token := r.found.toOption

def error? (r : Reading) : Option Located :=
  match r.found with
  | .ok _ => none
  | .error e => some e

/-- The line and the column that are reported. -/
def place (r : Reading) : Nat × Nat :=
  match r.found with
  | .ok t => (t.line, t.column)
  | .error e => (e.line, e.column)

/-- The reading is reported at the line and the column of its offset. -/
def Placed (src : Bytes) (r : Reading) : Prop :=
  r.place = (lineAt src r.offset, columnAt src r.offset)

def ofScan (offset : Nat) (b : UInt8) (rest : Bytes) (line column : Nat) : Reading where
  offset
  octets := b :: rest.take (scan b rest).length
  found :=
    match (scan b rest).result with
    | .ok (kind, lexeme) => .ok { kind, lexeme, line, column }
    | .error e => .error ⟨e, line, column⟩

def ofEnd (offset line column : Nat) : Reading where
  offset
  octets := []
  found := .ok { kind := .eof, line, column }

/-- The reading is what the octets at its offset scan to, and the end mark if there are none. -/
def StandsIn (src : Bytes) (r : Reading) : Prop :=
  match src.drop r.offset with
  | [] => r = .ofEnd src.length r.place.1 r.place.2
  | b :: rest => r = .ofScan r.offset b rest r.place.1 r.place.2

theorem place_ofScan (offset : Nat) (b : UInt8) (rest : Bytes) (line column : Nat) :
    (ofScan offset b rest line column).place = (line, column) := by
  unfold place ofScan
  dsimp only
  cases (scan b rest).result <;> rfl

end Reading

def readingsFrom (size : Nat) (src : Bytes) (line column : Nat) : List Reading :=
  match _h : skip src false line column with
  | ⟨[], l, c⟩ => [.ofEnd size l c]
  | ⟨b :: rest, l, c⟩ =>
    .ofScan (size - (b :: rest).length) b rest l c ::
      readingsFrom size (rest.drop (scan b rest).length) l
        (c + 1 + min (scan b rest).length rest.length)
termination_by src.length
decreasing_by
  have := length_skip_le src false line column
  simp only [_h] at this
  simp at this ⊢
  omega

/-- The lexemes of a text and what is wrong with it, in the order of the text. -/
def readings (src : Bytes) : List Reading := readingsFrom src.length src 1 1

section

variable {size line column l c : Nat} {src rest : Bytes} {b : UInt8}

theorem readingsFrom_of_end (h : skip src false line column = ⟨[], l, c⟩) :
    readingsFrom size src line column = [.ofEnd size l c] := by
  rw [readingsFrom]
  split <;> simp_all

theorem readingsFrom_of_scan (h : skip src false line column = ⟨b :: rest, l, c⟩) :
    readingsFrom size src line column = .ofScan (size - (b :: rest).length) b rest l c ::
      readingsFrom size (rest.drop (scan b rest).length) l
        (c + 1 + min (scan b rest).length rest.length) := by
  rw [readingsFrom]
  split <;> simp_all

theorem tokensFrom_of_end (h : skip src false line column = ⟨[], l, c⟩) :
    tokensFrom src line column = ⟨[{ kind := .eof, line := l, column := c }], []⟩ := by
  rw [tokensFrom_eq, h]

end

theorem tokensFrom_eq_readings (size : Nat) (src : Bytes) (line column : Nat) :
    tokensFrom src line column =
      ⟨(readingsFrom size src line column).filterMap Reading.token?,
        (readingsFrom size src line column).filterMap Reading.error?⟩ := by
  induction hn : src.length using Nat.strong_induction_on generalizing src line column with
  | _ n ih =>
    have hlen := length_skip_le src false line column
    rcases hskip : skip src false line column with ⟨_ | ⟨b, rest⟩, l, c⟩
    · rw [tokensFrom_of_end hskip, readingsFrom_of_end hskip]
      rfl
    · rw [hskip] at hlen
      have hrec := ih _ (by simp at hlen ⊢; omega) (rest.drop (scan b rest).length) l
        (c + 1 + min (scan b rest).length rest.length) rfl
      rw [tokensFrom_eq, readingsFrom_of_scan hskip, hskip]
      dsimp only
      rw [hrec]
      cases hres : (scan b rest).result <;>
        simp only [List.filterMap_cons, Reading.ofScan, Reading.token?, Reading.error?, hres,
          Except.toOption]

/-! ### Line ends -/

section

variable {pre bs ws : Bytes}

theorem tailLength_concat (b : UInt8) :
    tailLength (pre ++ [b]) = if b = 10 then 0 else tailLength pre + 1 := by
  unfold tailLength
  rw [List.reverse_append, List.reverse_singleton, List.singleton_append, List.takeWhile_cons]
  split <;> simp_all

theorem tailLength_le (pre : Bytes) : tailLength pre ≤ pre.length := by
  have := (List.takeWhile_sublist (l := pre.reverse) (· ≠ (10 : UInt8))).length_le
  rwa [List.length_reverse] at this

theorem tailLength_append (h : 10 ∉ bs) : tailLength (pre ++ bs) = tailLength pre + bs.length := by
  induction bs generalizing pre with
  | nil => simp
  | cons b bs ih =>
    rw [List.mem_cons, not_or] at h
    have hrest : tailLength (pre ++ [b] ++ bs) = tailLength (pre ++ [b]) + bs.length := ih h.2
    rw [List.append_assoc, List.singleton_append] at hrest
    rw [hrest, tailLength_concat, if_neg (Ne.symm h.1), List.length_cons]
    omega

theorem lineAt_length (src : Bytes) : lineAt (pre ++ src) pre.length = 1 + pre.count 10 := by
  rw [lineAt, List.take_left]

theorem columnAt_length (src : Bytes) : columnAt (pre ++ src) pre.length = tailLength pre + 1 := by
  have hle := tailLength_le pre
  rw [columnAt, lineStart, List.take_left]
  omega

end

structure Counted (pre : Bytes) (missed line column : Nat) : Prop where
  line : line + missed = 1 + pre.count 10
  column : missed = 0 → column = tailLength pre + 1

namespace Counted

variable {pre src : Bytes} {missed line column : Nat}

theorem start : Counted [] 0 1 1 := ⟨rfl, fun _ => rfl⟩

theorem concat (h : Counted pre missed line column) (b : UInt8) :
    Counted (pre ++ [b]) missed (if b = 10 then line + 1 else line)
      (if b = 10 then 1 else column + 1) where
  line := by
    have := h.line
    rw [List.count_append, List.count_singleton]
    split
    · simp_all
      omega
    · simp_all
  column hm := by
    rw [tailLength_concat, h.column hm]
    split <;> rfl

theorem skip (h : Counted pre missed line column) (src : Bytes) (comment : Bool) :
    ∃ ws, src = ws ++ (Lexer.skip src comment line column).rest ∧
      Counted (pre ++ ws) missed (Lexer.skip src comment line column).line
        (Lexer.skip src comment line column).column ∧
      (Lexer.skip src comment line column).rest.head? ≠ some 10 := by
  induction src generalizing pre comment line column with
  | nil => exact ⟨[], rfl, by simpa [Lexer.skip] using h, by simp [Lexer.skip]⟩
  | cons b src ih =>
    have hb := h.concat b
    unfold Lexer.skip
    split
    · next hline =>
      rw [if_pos hline, if_pos hline] at hb
      obtain ⟨ws, hws, hcount, hhead⟩ := ih hb false
      exact ⟨b :: ws, by rw [List.cons_append, ← hws], by simpa using hcount, hhead⟩
    · next hline =>
      rw [if_neg hline, if_neg hline] at hb
      split
      · obtain ⟨ws, hws, hcount, hhead⟩ := ih hb comment
        exact ⟨b :: ws, by rw [List.cons_append, ← hws], by simpa using hcount, hhead⟩
      · split
        · obtain ⟨ws, hws, hcount, hhead⟩ := ih hb true
          exact ⟨b :: ws, by rw [List.cons_append, ← hws], by simpa using hcount, hhead⟩
        · exact ⟨[], rfl, by simpa using h, by simpa using hline⟩

/-- The line ends of a lexeme go uncounted. -/
theorem lexeme (h : Counted pre missed line column) (bs : Bytes) :
    Counted (pre ++ bs) (missed + bs.count 10) line (column + bs.length) where
  line := by
    rw [List.count_append, ← Nat.add_assoc, h.line, Nat.add_assoc]
  column hm := by
    obtain ⟨hm, hbs⟩ := Nat.add_eq_zero_iff.mp hm
    rw [tailLength_append (List.count_eq_zero.mp hbs), h.column hm]
    omega

theorem place_iff (h : Counted pre missed line column) (src : Bytes) :
    (line, column) = (lineAt (pre ++ src) pre.length, columnAt (pre ++ src) pre.length) ↔
      missed = 0 := by
  rw [lineAt_length, columnAt_length, Prod.mk.injEq]
  have := h.line
  constructor
  · omega
  · intro hm
    exact ⟨by omega, h.column hm⟩

end Counted

/-- The readings of a text from the offset `o` on, before which `missed` line ends have gone
uncounted. -/
inductive Follows (text : Bytes) : (o missed : Nat) → List Reading → Prop
  | last {o missed line column : Nat} : o ≤ text.length → Counted text missed line column →
      Follows text o missed [.ofEnd text.length line column]
  | more {o missed line column : Nat} {pre rest : Bytes} {b : UInt8} {rs : List Reading} :
      o ≤ pre.length → text = pre ++ b :: rest → b ≠ 10 → Counted pre missed line column →
      Follows text (pre.length + (b :: rest.take (scan b rest).length).length)
        (missed + (b :: rest.take (scan b rest).length).count 10) rs →
      Follows text o missed (.ofScan pre.length b rest line column :: rs)

theorem follows_readingsFrom {text pre src : Bytes} {missed line column : Nat}
    (htext : text = pre ++ src) (h : Counted pre missed line column) :
    Follows text pre.length missed (readingsFrom text.length src line column) := by
  induction hn : src.length using Nat.strong_induction_on generalizing src pre missed line column with
  | _ n ih =>
    obtain ⟨ws, hws, hcount, hhead⟩ := h.skip src false
    rcases hskip : skip src false line column with ⟨_ | ⟨b, rest⟩, l, c⟩
    · rw [hskip, List.append_nil] at hws
      rw [hskip] at hcount
      rw [readingsFrom_of_end hskip]
      subst hws
      rw [← htext] at hcount
      exact .last (by simp [htext]) hcount
    · rw [hskip] at hws hcount hhead
      dsimp only at hws hcount hhead
      have htext' : text = (pre ++ ws) ++ b :: rest := by rw [htext, hws, List.append_assoc]
      have hsize : text.length - (b :: rest).length = (pre ++ ws).length := by
        rw [htext', List.length_append]
        omega
      rw [readingsFrom_of_scan hskip, hsize]
      refine .more (by simp) htext' (by simpa using hhead) hcount ?_
      have hcut : text = (pre ++ ws ++ b :: rest.take (scan b rest).length) ++
          rest.drop (scan b rest).length := by
        rw [htext', List.append_assoc (pre ++ ws), List.cons_append, List.take_append_drop]
      have hnext := ih _ (by rw [hws] at hn; simp at hn ⊢; omega) hcut
        (hcount.lexeme (b :: rest.take (scan b rest).length)) rfl
      rw [List.length_append] at hnext
      convert hnext using 2
      simp
      omega

theorem follows_readings (src : Bytes) : Follows src 0 0 (readings src) :=
  follows_readingsFrom rfl .start

/-! ### Lexemes that hold a line end -/

section

variable {rest : Bytes} {b : UInt8}

theorem line_end_notMem_number (prev : UInt8) (float : Bool) :
    10 ∉ rest.take (numberLength rest prev float).1 := by
  induction rest generalizing prev float with
  | nil => simp
  | cons b rest ih =>
    unfold numberLength
    by_cases hb : b = 10
    · subst hb
      simp [Decimal.isDigit]
    · dsimp only
      split
      · simpa [Ne.symm hb] using ih b float
      · split
        · simpa [Ne.symm hb] using ih b true
        · split
          · simpa [Ne.symm hb] using ih b float
          · simp

theorem line_end_notMem_name : 10 ∉ rest.take (rest.takeWhile isNameChar).length := by
  rw [← List.prefix_iff_eq_take.mp (List.takeWhile_prefix _)]
  intro h
  exact absurd (takeWhile_isNameChar rest 10 h) (by decide)

theorem escaped_of_line_end_mem (h : 10 ∈ rest.take (stringBody rest).2) :
    ∃ l m, rest.take (stringBody rest).2 = l ++ 92 :: 10 :: m := by
  fun_induction stringBody rest with
  | case7 e rest s n hn x _ _ ih =>
    rw [hn] at ih
    dsimp only at h ih ⊢
    rw [List.take_succ_cons, List.take_succ_cons] at h ⊢
    by_cases he : e = 10
    · exact ⟨[], _, by rw [he]; rfl⟩
    · obtain ⟨l, m, hlm⟩ := ih (by simpa [Ne.symm he] using h)
      exact ⟨92 :: e :: l, m, by rw [hlm]; rfl⟩
  | case8 b e rest hb _ _ s n hn ih =>
    rw [hn] at ih
    dsimp only at h ih ⊢
    rw [List.take_succ_cons] at h ⊢
    obtain ⟨l, m, hlm⟩ := ih ((List.mem_cons.mp h).resolve_left (Ne.symm hb))
    exact ⟨b :: l, m, by rw [hlm]; rfl⟩
  | _ => simp_all

/-- The octets that a scan takes beyond the first. -/
theorem scan_length_cases (b : UInt8) (rest : Bytes) :
    (scan b rest).length = 0 ∨ (scan b rest).length = (rest.takeWhile isNameChar).length ∨
      (scan b rest).length = (numberLength rest b false).1 ∨
      (scan b rest).length = 1 ∧ rest.head? = some 62 ∨
      b = 34 ∧ (scan b rest).length = (stringBody rest).2 := by
  have hquote : ∀ n : Fin 256, Char.ofNat n = '"' → n = 34 := by decide +kernel
  have hnamed : ∀ k, (scanNamed b k rest).length = 0 ∨
      (scanNamed b k rest).length = (rest.takeWhile isNameChar).length := by
    intro k
    unfold scanNamed
    dsimp only
    split
    · exact .inl rfl
    · exact .inr rfl
  have hnumber : (scanNumber b rest).length = (numberLength rest b false).1 := by
    unfold scanNumber
    dsimp only
    split <;> split <;> rfl
  unfold scan
  split
  · exact .inl rfl
  · split
    · exact (hnamed _).imp_right .inl
    · exact (hnamed _).imp_right .inl
    · exact (hnamed _).imp_right .inl
    · next hb =>
      have hb : b = 34 := by
        have := hquote ⟨b.toNat, b.toNat_lt⟩ hb
        exact UInt8.toNat_inj.mp (congrArg Fin.val this)
      refine .inr (.inr (.inr (.inr ⟨hb, ?_⟩)))
      split <;> simp_all
    · split
      · next h =>
        simp only [Bool.and_eq_true, decide_eq_true_eq] at h
        exact .inr (.inr (.inr (.inl ⟨rfl, h.2⟩)))
      · split
        · exact .inr (.inr (.inl hnumber))
        · split
          · exact .inr (.inl rfl)
          · exact .inl rfl

theorem escaped_of_line_end_mem_scan (hb : b ≠ 10)
    (h : 10 ∈ b :: rest.take (scan b rest).length) :
    ∃ l m, b :: rest.take (scan b rest).length = 34 :: l ++ 92 :: 10 :: m := by
  replace h := (List.mem_cons.mp h).resolve_left (Ne.symm hb)
  rcases scan_length_cases b rest with hn | hn | hn | ⟨hn, hhead⟩ | ⟨rfl, hn⟩
  all_goals rw [hn] at h ⊢
  · simp at h
  · exact absurd h line_end_notMem_name
  · exact absurd h (line_end_notMem_number b false)
  · cases rest with
    | nil => simp at h
    | cons c rest => simp_all
  · obtain ⟨l, m, he⟩ := escaped_of_line_end_mem h
    exact ⟨l, m, by rw [he, List.cons_append]⟩

end

namespace Follows

variable {text : Bytes} {o missed : Nat} {rs : List Reading}

theorem increasing (h : Follows text o missed rs) :
    (∀ r ∈ rs, o ≤ r.offset) ∧ (rs.map (·.offset)).Pairwise (· < ·) := by
  induction h with
  | last ho h => exact ⟨by simpa [Reading.ofEnd] using ho, by simp⟩
  | @more o missed line column pre rest b rs ho htext hb h hrest ih =>
    obtain ⟨hle, hpair⟩ := ih
    rw [List.length_cons] at hle
    constructor
    · intro r hr
      rcases List.mem_cons.mp hr with rfl | hr
      · exact ho
      · have := hle r hr
        omega
    · rw [List.map_cons, List.pairwise_cons]
      refine ⟨fun n hn => ?_, hpair⟩
      obtain ⟨r, hr, rfl⟩ := List.mem_map.mp hn
      exact Nat.lt_of_lt_of_le (Nat.lt_add_of_pos_right (Nat.succ_pos _)) (hle r hr)

theorem standsIn (h : Follows text o missed rs) : ∀ r ∈ rs, r.StandsIn text := by
  induction h with
  | last ho h =>
    intro r hr
    rw [List.mem_singleton.mp hr, Reading.StandsIn, Reading.ofEnd, List.drop_length]
    rfl
  | @more o missed line column pre rest b rs ho htext hb h hrest ih =>
    intro r hr
    rcases List.mem_cons.mp hr with rfl | hr
    · have hdrop : text.drop (Reading.ofScan pre.length b rest line column).offset = b :: rest := by
        rw [htext]
        exact List.drop_left
      rw [Reading.StandsIn, hdrop, Reading.place_ofScan]
      rfl
    · exact ih r hr

theorem escaped (h : Follows text o missed rs) : ∀ r ∈ rs, 10 ∈ r.octets →
    ∃ l m, r.octets = 34 :: l ++ 92 :: 10 :: m := by
  induction h with
  | last ho h =>
    intro r hr hmem
    rw [List.mem_singleton.mp hr] at hmem
    cases hmem
  | more ho htext hb h hrest ih =>
    intro r hr hmem
    rcases List.mem_cons.mp hr with rfl | hr
    · exact escaped_of_line_end_mem_scan hb hmem
    · exact ih r hr hmem

theorem placed_iff (h : Follows text o missed rs) {before after : List Reading} {r : Reading}
    (hrs : rs = before ++ r :: after) :
    r.Placed text ↔ missed = 0 ∧ ∀ q ∈ before, 10 ∉ q.octets := by
  induction h generalizing before with
  | @last o missed line column ho h =>
    obtain ⟨rfl, rfl⟩ : before = [] ∧ r = .ofEnd text.length line column := by
      cases before <;> simp_all
    have hplace := h.place_iff []
    rw [List.append_nil] at hplace
    exact hplace.trans (by simp)
  | @more o missed line column pre rest b rs ho htext hb h hrest ih =>
    cases before with
    | nil =>
      obtain ⟨rfl, -⟩ := List.cons.inj hrs
      have hplace := h.place_iff (b :: rest)
      rw [← htext] at hplace
      rw [Reading.Placed, Reading.place_ofScan]
      exact hplace.trans (by simp)
    | cons q before =>
      obtain ⟨rfl, hmore⟩ := List.cons.inj hrs
      rw [ih hmore, Nat.add_eq_zero_iff, List.count_eq_zero, List.forall_mem_cons, and_assoc]
      rfl

theorem exists_last (h : Follows text o missed rs) : ∃ init r, rs = init ++ [r] ∧ r.octets = [] := by
  induction h with
  | last => exact ⟨[], _, rfl, rfl⟩
  | more _ _ _ _ _ ih =>
    obtain ⟨init, r, rfl, hr⟩ := ih
    exact ⟨_ :: init, r, rfl, hr⟩

end Follows

/-- The tokens and the errors of a text are what is read at offsets that increase. A place is the one
of the offset if and only if no lexeme before it holds a line end, and a lexeme that holds one is a
string with a backslash before it. So all places are right if and only if no string has such an
escape. -/
theorem tokens_placed_iff (src : Bytes) :
    tokens src = ⟨(readings src).filterMap Reading.token?, (readings src).filterMap Reading.error?⟩ ∧
    (∀ r ∈ readings src, r.StandsIn src) ∧ ((readings src).map (·.offset)).Pairwise (· < ·) ∧
    (∀ before r after, readings src = before ++ r :: after →
      (r.Placed src ↔ ∀ q ∈ before, 10 ∉ q.octets)) ∧
    (∀ r ∈ readings src, 10 ∈ r.octets → ∃ l m, r.octets = 34 :: l ++ 92 :: 10 :: m) ∧
    ((∀ r ∈ readings src, r.Placed src) ↔ ∀ r ∈ readings src, 10 ∉ r.octets) := by
  have h := follows_readings src
  have hplaced : ∀ before r after, readings src = before ++ r :: after →
      (r.Placed src ↔ ∀ q ∈ before, 10 ∉ q.octets) := by
    intro before r after hrs
    simpa using h.placed_iff hrs
  refine ⟨tokensFrom_eq_readings _ _ _ _, h.standsIn, h.increasing.2, hplaced, h.escaped, ?_⟩
  obtain ⟨init, e, hinit, he⟩ := h.exists_last
  constructor
  · -- The end mark stands behind every lexeme.
    intro hall r hr
    rw [hinit, List.mem_append, List.mem_singleton] at hr
    rcases hr with hr | rfl
    · exact (hplaced init e [] hinit).mp (hall e (by simp [hinit])) r hr
    · simp [he]
  · intro hno r hr
    obtain ⟨before, after, hrs⟩ := List.append_of_mem hr
    exact (hplaced before r after hrs).mpr fun q hq => hno q (by simp [hrs, hq])

/-- Behind a string with a line end in it the places are those of one long line. -/
theorem line_end_in_string_uncounted :
    tokens [34, 92, 10, 34, 32, 120] =
      ⟨[⟨.string, [10], 1, 1⟩, ⟨.ident, [120], 1, 6⟩, ⟨.eof, [], 1, 7⟩], []⟩ ∧
    (lineAt [34, 92, 10, 34, 32, 120] 5, columnAt [34, 92, 10, 34, 32, 120] 5) = (2, 3) := by
  decide +kernel

end RegPressure.Lexer
