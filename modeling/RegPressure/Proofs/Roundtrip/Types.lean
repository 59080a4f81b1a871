import RegPressure.Proofs.Asm.Operand
import RegPressure.Proofs.IR.TypeTexts
import RegPressure.Proofs.Roundtrip.Lexing

namespace RegPressure

namespace Reader

variable {α β : Type} {r : Reader α} {a : α} {b : β} {k : TokenKind} {bs : Bytes} {ls ms : List Lexeme}

def Yields (r : Reader α) (ls : List Lexeme) (a : α) : Prop :=
  ∀ xs rest last, xs.map Token.bare = ls → ∃ last', Reads r ⟨xs ++ rest, last⟩ a ⟨rest, last'⟩

theorem yields_pure (a : α) : Yields (pure a) [] a := by
  intro xs rest last hxs
  obtain rfl := List.map_eq_nil_iff.mp hxs
  exact ⟨last, reads_pure.mpr ⟨rfl, rfl⟩⟩

theorem Yields.bind {f : α → Reader β} (h : Yields r ls a) (hf : Yields (f a) ms b) :
    Yields (r >>= f) (ls ++ ms) b := by
  intro xs rest last hxs
  obtain ⟨ys, zs, rfl, hys, hzs⟩ := List.map_eq_append_iff.mp hxs
  obtain ⟨last₁, hr⟩ := h ys (zs ++ rest) last hys
  obtain ⟨last₂, hs⟩ := hf zs rest last₁ hzs
  exact ⟨last₂, reads_bind.mpr ⟨a, _, by rwa [List.append_assoc], hs⟩⟩

theorem yields_token {f : α → Reader β} (hk : k ≠ .eof) (h : ∀ s : Stream, s.cur.kind = k →
    s.cur.lexeme = bs → ∃ a, Reads r s a s.advance ∧ Yields (f a) ls b) :
    Yields (r >>= f) ((k, bs) :: ls) b := by
  intro xs rest last hxs
  obtain ⟨x, ys, rfl, hx, hys⟩ := List.map_eq_cons_iff.mp hxs
  obtain ⟨hkind, hlexeme⟩ := Prod.mk.inj hx
  obtain ⟨a, hr, hf⟩ := h ⟨x :: (ys ++ rest), last⟩ hkind hlexeme
  have hadvance : (⟨x :: (ys ++ rest), last⟩ : Stream).advance = ⟨ys ++ rest, some x.line⟩ := by
    simp [Stream.advance, Stream.atEnd, Stream.cur, hkind, hk]
  obtain ⟨last', hread⟩ := hf ys rest (some x.line) hys
  exact ⟨last', reads_bind.mpr ⟨a, _, hadvance ▸ hr, hread⟩⟩

theorem yields_next {f : Token → Reader β} (hk : k ≠ .eof)
    (h : ∀ x, x.kind = k → x.lexeme = bs → Yields (f x) ls b) : Yields (next >>= f) ((k, bs) :: ls) b :=
  yields_token hk fun s hs hbs => ⟨s.cur, reads_next.mpr ⟨rfl, rfl⟩, h s.cur hs hbs⟩

theorem yields_expect {f : Token → Reader β} (hk : k ≠ .eof)
    (h : ∀ x, x.kind = k → x.lexeme = bs → Yields (f x) ls b) :
    Yields (expect k >>= f) ((k, bs) :: ls) b :=
  yields_token hk fun s hs hbs => ⟨s.cur, reads_expect.mpr ⟨hs, rfl, rfl⟩, h s.cur hs hbs⟩

theorem yields_expectWord {w : String} {f : Unit → Reader β} (hw : (Bytes.ofString w).IsName)
    (h : Yields (f ()) ls b) : Yields (expectWord w >>= f) ((.ident, Bytes.ofString w) :: ls) b := by
  refine yields_token (by decide) fun s hs hbs => ⟨(), reads_expectWord.mpr ⟨?_, rfl⟩, h⟩
  simp [Stream.atWord, Stream.sees, hs, Token.word, hbs, hw.toText_ofString]

theorem yields_sees {close : TokenKind} {f : Bool → Reader β}
    (h : Yields (f (k = close)) ((k, bs) :: ls) b) : Yields (sees close >>= f) ((k, bs) :: ls) b := by
  intro xs rest last hxs
  obtain ⟨last', hread⟩ := h xs rest last hxs
  obtain ⟨x, ys, rfl, hx, -⟩ := List.map_eq_cons_iff.mp hxs
  have hsees : (⟨x :: (ys ++ rest), last⟩ : Stream).sees close = decide (k = close) := by
    rw [← (Prod.mk.inj hx).1]
    rfl
  exact ⟨last', reads_bind.mpr ⟨_, _, reads_sees.mpr ⟨hsees, rfl⟩, hread⟩⟩

section Lists

variable {close m : TokenKind} {item : Reader α} {f : List α → Reader β} {n : Nat} {as : List α} {c : Bytes}

theorem yields_close (h : Yields (f as.reverse) ((close, c) :: ls) b) (n : Nat) :
    Yields (commaList.go close item (n + 1) as >>= f) ((close, c) :: ls) b := by
  rw [commaList.go, bind_assoc]
  refine yields_sees ?_
  rw [decide_eq_true rfl, if_pos rfl, pure_bind]
  exact h

theorem yields_item (hk : k ≠ close) (hitem : Yields item ((k, bs) :: ls) a)
    (h : m = close ∧ Yields (commaList.go close item n (a :: as) >>= f) ((m, c) :: ms) b ∨
      m ≠ close ∧ m = .comma ∧ Yields (commaList.go close item n (a :: as) >>= f) ms b) :
    Yields (commaList.go close item (n + 1) as >>= f) ((k, bs) :: ls ++ (m, c) :: ms) b := by
  rw [commaList.go, bind_assoc]
  refine yields_sees ?_
  rw [decide_eq_false hk, if_neg Bool.false_ne_true, bind_assoc]
  refine hitem.bind ?_
  rw [bind_assoc]
  refine yields_sees ?_
  obtain ⟨hm, hmore⟩ | ⟨hm, rfl, hmore⟩ := h
  · rw [decide_eq_true hm]
    exact hmore
  · rw [decide_eq_false hm, Bool.not_false, if_pos rfl, bind_assoc]
    exact yields_expect (by decide) fun _ _ _ => hmore

theorem yields_commaList (h : ∀ n, ls.length < n → Yields (commaList.go close item n [] >>= f) ls b) :
    Yields (commaList close item >>= f) ls b := by
  intro xs rest last hxs
  have hlen : ls.length < (xs ++ rest).length + 1 := by
    rw [← hxs, List.length_map, List.length_append]
    omega
  obtain ⟨last', hread⟩ := h _ hlen xs rest last hxs
  rw [commaList, bind_assoc]
  exact ⟨last', reads_bind.mpr ⟨_, _, reads_get.mpr ⟨rfl, rfl⟩, hread⟩⟩

end Lists

end Reader

namespace Ty

open Bytes (ofInt ofNat ofString)
open Grammar (typeWithin namedType? count)
open Lexer (Spells Closed punctuation?)
open Reader (Reads Yields commaList expect expectWord)

variable {t u : Ty} {ts us : List Ty} {n : Int} {x : Bytes} {ls ms : List Lexeme} {depth : Nat}

structure Written (x : Bytes) (ls : List Lexeme) (t : Ty) : Prop where
  spells : Spells x ls
  starts : ∃ k y more, ls = (k, y) :: more ∧ k ≠ .rbrace
  yields : ∀ depth, ls.length ≤ depth → Yields (typeWithin depth) ls t

/-! ### One word -/

theorem written_named (hx : (octets t).IsWord) (h : namedType? t.text = some t) :
    Written (octets t) [(.ident, octets t)] t where
  spells := Lexer.spells_word hx
  starts := ⟨_, _, _, rfl, by decide⟩
  yields := by
    intro depth hdepth
    obtain ⟨d, rfl⟩ := Nat.exists_eq_add_of_le' (show 1 ≤ depth from hdepth)
    have hname : namedType? (octets t).toText = some t := by rw [octets, hx.isName.toText_ofString, h]
    rw [typeWithin]
    refine Reader.yields_next (by decide) fun y hk hy => ?_
    rw [Token.word, hy, hname, hk]
    exact Reader.yields_pure t

theorem namedType?_int {k : Nat} (hpos : 0 < k) (hle : k ≤ 256) :
    namedType? (text (.int k)) = some (.int k) := by
  have hoctets : ofString (text (.int k)) = 105 :: ofNat k := octets_int k
  unfold namedType?
  split
  case h_6 =>
    have hint : Decimal.int? (ofNat k) = some (k : Int) := Bytes.int?_ofInt k
    simp [hoctets, hint, hpos, hle]
  -- no other word starts with an i
  all_goals
    next he =>
      rw [he] at hoctets
      exact absurd (List.cons.inj hoctets).1 (by decide)

theorem isWord_int (k : Nat) : (octets (.int k)).IsWord := by
  refine ⟨105, ofNat k, octets_int k, by decide, fun c hc => ?_⟩
  simp [Lexer.isNameChar, Bytes.isDigit_of_mem_ofNat hc]

/-! ### A count and an element -/

inductive Brackets : UInt8 → TokenKind → UInt8 → TokenKind → (Int → Ty → Ty) → Prop
  | vector : Brackets 60 .lt 62 .gt .vector
  | array : Brackets 91 .lbracket 93 .rbracket .array

section Brackets

variable {b c : UInt8} {k m : TokenKind} {make : Int → Ty → Ty}

theorem Brackets.closed (hb : Brackets b k c m make) (hn : Word.wrap n = n) (h : Spells (octets t) ls) :
    Closed (sized b c n t) ((k, [b]) :: ((.int, ofInt n) :: (.ident, [120]) :: ls) ++ [(m, [c])]) := by
  have hopen : punctuation? b = some k := by cases hb <;> rfl
  have hclose : punctuation? c = some m := by cases hb <;> rfl
  have hbreaks : Lexer.isNameChar c = false := by cases hb <;> decide
  have hx : Bytes.IsWord [120] := Bytes.isWord_of_all (by decide)
  have helem := h.close (Lexer.closed_punctuation hclose) (Lexer.breaks_cons hbreaks) (List.cons_ne_nil _ _)
  have hword := (Lexer.spells_word hx).close helem.behind_blank (Lexer.breaks_cons (by decide))
    (List.cons_ne_nil _ _)
  have hcount := (Lexer.spells_int hn).close hword.behind_blank (Lexer.breaks_cons (by decide))
    (List.cons_ne_nil _ _)
  exact (Lexer.closed_punctuation hopen).append hcount

theorem count_eq (hn : Word.wrap n = n) {y : Token} (hy : y.lexeme = ofInt n) : count y = n := by
  have hrange := Word.range_of_wrap hn
  rw [count, hy, Bytes.int?_ofInt, Option.getD_some, Word.clamp]
  omega

theorem yields_sequence (hn : Word.wrap n = n) (h : Yields (typeWithin depth) ls t) :
    Yields (do
      let y ← expect .int
      expectWord "x"
      return (count y, ← typeWithin depth)) ((.int, ofInt n) :: (.ident, [120]) :: ls) (n, t) := by
  have hx : (ofString "x").IsName := (Bytes.isWord_of_all (by decide)).isName
  refine Reader.yields_expect (by decide) fun y _ hy => ?_
  rw [count_eq hn hy, ← List.append_nil ls]
  exact Reader.yields_expectWord hx (h.bind (Reader.yields_pure (n, t)))

theorem Brackets.yields (hb : Brackets b k c m make) (hn : Word.wrap n = n)
    (h : Yields (typeWithin depth) ls t) : Yields (typeWithin (depth + 1))
      ((k, [b]) :: ((.int, ofInt n) :: (.ident, [120]) :: ls) ++ [(m, [c])]) (make n t) := by
  rw [typeWithin]
  refine Reader.yields_next (by cases hb <;> decide) fun y hk _ => ?_
  rw [hk]
  cases hb
  all_goals
    refine (yields_sequence hn h).bind ?_
    exact Reader.yields_expect (by decide) fun _ _ _ => Reader.yields_pure _

theorem Written.sized (h : Written (octets t) ls t) (hb : Brackets b k c m make) (hn : Word.wrap n = n) :
    Written (Ty.sized b c n t) ((k, [b]) :: ((.int, ofInt n) :: (.ident, [120]) :: ls) ++ [(m, [c])])
      (make n t) where
  spells := (hb.closed hn h.spells).spells
  starts := ⟨_, _, _, rfl, by cases hb <;> decide⟩
  yields := by
    intro depth hdepth
    obtain ⟨d, rfl⟩ := Nat.exists_eq_add_of_le' (Nat.le_of_add_left_le hdepth)
    simp only [List.length_cons, List.length_append] at hdepth
    exact hb.yields hn (h.yields d (by omega))

end Brackets

/-! ### Fields -/

structure WrittenFields (ls : List Lexeme) (ts : List Ty) : Prop where
  closed : Closed (fieldOctets ts ++ [125]) (ls ++ [(.rbrace, [125])])
  yields : ∀ depth n us, ls.length ≤ depth → ls.length < n → Yields (do
    let fields ← commaList.go .rbrace (typeWithin depth) n us
    let _ ← expect .rbrace
    return Ty.struct fields) (ls ++ [(.rbrace, [125])]) (.struct (us.reverse ++ ts))

theorem closed_brace : Closed [125] [(.rbrace, [125])] := Lexer.closed_punctuation rfl

theorem writtenFields_nil : WrittenFields [] [] where
  closed := closed_brace
  yields := by
    intro depth n us _ hn
    obtain ⟨n, rfl⟩ := Nat.exists_eq_add_of_le' hn
    refine Reader.yields_close (Reader.yields_expect (by decide) fun _ _ _ => ?_) n
    rw [List.append_nil]
    exact Reader.yields_pure _

theorem Written.last (h : Written (octets t) ls t) : WrittenFields ls [t] where
  closed := by
    rw [fieldOctets, behind, List.append_nil]
    exact h.spells.close closed_brace (Lexer.breaks_cons (by decide)) (List.cons_ne_nil _ _)
  yields := by
    intro depth n us hdepth hn
    obtain ⟨k, y, more, rfl, hk⟩ := h.starts
    rw [List.length_cons] at hn
    obtain ⟨n, rfl⟩ := Nat.exists_eq_add_of_le' (show 1 ≤ n by omega)
    have hend := writtenFields_nil.yields depth n (t :: us) (Nat.zero_le _) (by
      rw [List.length_nil]
      omega)
    rw [List.append_nil, List.reverse_cons] at hend
    exact Reader.yields_item hk (h.yields depth hdepth) (.inl ⟨rfl, hend⟩)

theorem Written.before (h : Written (octets t) ls t) (hmore : WrittenFields ms (u :: us)) :
    WrittenFields (ls ++ (.comma, [44]) :: ms) (t :: u :: us) where
  closed := by
    have hcomma := Lexer.closed_punctuation (rfl : punctuation? 44 = some .comma)
    have hclosed := h.spells.close (hcomma.append hmore.closed.behind_blank)
      (Lexer.breaks_cons (by decide)) (List.cons_ne_nil _ _)
    rw [fieldOctets, List.append_assoc, List.append_assoc]
    exact hclosed
  yields := by
    intro depth n vs hdepth hn
    obtain ⟨k, y, more, rfl, hk⟩ := h.starts
    simp only [List.length_append, List.length_cons] at hdepth hn
    obtain ⟨n, rfl⟩ := Nat.exists_eq_add_of_le' (show 1 ≤ n by omega)
    have hread := hmore.yields depth n (t :: vs) (by omega) (by omega)
    rw [List.reverse_cons, List.append_assoc] at hread
    rw [List.append_assoc]
    have hitem := h.yields depth (by rw [List.length_cons]; omega)
    exact Reader.yields_item hk hitem (.inr ⟨by decide, rfl, hread⟩)

theorem exists_writtenFields (h : ∀ t ∈ ts, ∃ ls, Written (octets t) ls t) : ∃ ls, WrittenFields ls ts := by
  induction ts with
  | nil => exact ⟨[], writtenFields_nil⟩
  | cons t ts ih =>
    obtain ⟨⟨ls, ht⟩, hts⟩ := List.forall_mem_cons.mp h
    cases ts with
    | nil => exact ⟨ls, ht.last⟩
    | cons u us =>
      obtain ⟨ms, hms⟩ := ih hts
      exact ⟨_, ht.before hms⟩

theorem WrittenFields.struct (h : WrittenFields ls ts) :
    Written (octets (.struct ts)) ((.lbrace, [123]) :: (ls ++ [(.rbrace, [125])])) (.struct ts) where
  spells := by
    have hbrace := Lexer.closed_punctuation (rfl : punctuation? 123 = some .lbrace)
    rw [octets_struct]
    exact (hbrace.append h.closed).spells
  starts := ⟨_, _, _, rfl, by decide⟩
  yields := by
    intro depth hdepth
    obtain ⟨d, rfl⟩ := Nat.exists_eq_add_of_le' (Nat.le_of_add_left_le hdepth)
    simp only [List.length_cons, List.length_append] at hdepth
    rw [typeWithin]
    refine Reader.yields_next (by decide) fun y hk _ => ?_
    rw [hk]
    refine Reader.yields_commaList fun n hn => ?_
    rw [List.length_append] at hn
    exact h.yields d n [] (by omega) (by omega)

/-! ### All types -/

theorem Readable.exists_written (h : t.Readable) : ∃ ls, Written (octets t) ls t := by
  induction h with
  | void => exact ⟨_, written_named (Bytes.isWord_of_all (by decide)) rfl⟩
  | ptr => exact ⟨_, written_named (Bytes.isWord_of_all (by decide)) rfl⟩
  | label => exact ⟨_, written_named (Bytes.isWord_of_all (by decide)) rfl⟩
  | int hpos hle => exact ⟨_, written_named (isWord_int _) (namedType?_int hpos hle)⟩
  | f32 => exact ⟨_, written_named (Bytes.isWord_of_all (by decide)) rfl⟩
  | f64 => exact ⟨_, written_named (Bytes.isWord_of_all (by decide)) rfl⟩
  | vector hn _ ih =>
    obtain ⟨ls, h⟩ := ih
    rw [octets_vector]
    exact ⟨_, h.sized .vector hn⟩
  | array hn _ ih =>
    obtain ⟨ls, h⟩ := ih
    rw [octets_array]
    exact ⟨_, h.sized .array hn⟩
  | struct _ ih =>
    obtain ⟨ls, h⟩ := exists_writtenFields ih
    exact ⟨_, h.struct⟩

/-- The text is cut into tokens without an error, and all of them but the end mark are read as the type. -/
def ReadBack (t : Ty) : Prop := (Lexer.tokens (ofString t.text)).errors = [] ∧ ∃ x last, x.kind = .eof ∧
  Reads Grammar.type ⟨(Lexer.tokens (ofString t.text)).tokens, none⟩ t ⟨[x], last⟩

theorem Readable.readBack (h : t.Readable) : t.ReadBack := by
  obtain ⟨ls, hls⟩ := h.exists_written
  obtain ⟨xs, x, htokens, hxs, hx⟩ := hls.spells.exists_tokens
  -- the depth that a type may have is taken from the tokens, and there is one for each lexeme
  have hdepth : ls.length ≤ (xs ++ [x]).length + 1 := by
    rw [← hxs, List.length_map, List.length_append]
    omega
  obtain ⟨last, hread⟩ := hls.yields _ hdepth xs [x] none hxs
  change Lexer.tokens (ofString t.text) = _ at htokens
  rw [ReadBack, htokens]
  exact ⟨rfl, x, last, (Prod.mk.inj hx).1, Reader.reads_bind.mpr ⟨_, _, Reader.reads_get.mpr ⟨rfl, rfl⟩, hread⟩⟩

theorem ReadBack.readable (h : t.ReadBack) : t.Readable := by
  obtain ⟨-, x, last, -, hread⟩ := h
  exact Grammar.readable_of_type hread

theorem text_inj (h : t.text = u.text) : t = u := by
  have hoctets : octets t ++ [] = octets u ++ [] := by rw [octets, octets, h]
  exact (read_octets t u [] [] breaks_nil breaks_nil hoctets).1

theorem equal_iff_text_eq (t u : Ty) : t.equal u = true ↔ t.text = u.text := by
  rw [equal_iff]
  exact ⟨congrArg text, text_inj⟩

/-- The text of a type is a faithful encoding. The types that can be read are those of `Readable`; exactly these
are read back from their text, which leaves nothing but the end mark. Two types are equal if and only if they
have the same text, so equality of types is an equivalence. -/
theorem text_faithful :
    (∀ t : Ty, t.Readable ↔ ∃ s s', Reads Grammar.type s t s') ∧
    (∀ t : Ty, t.Readable ↔ t.ReadBack) ∧
    (∀ t u : Ty, t.equal u = true ↔ t.text = u.text) ∧
    Equivalence fun t u : Ty => t.equal u = true := by
  refine ⟨fun t => ⟨fun h => ?_, ?_⟩, fun t => ⟨Readable.readBack, ReadBack.readable⟩,
    equal_iff_text_eq, ?_⟩
  · obtain ⟨-, x, last, -, hread⟩ := h.readBack
    exact ⟨_, _, hread⟩
  · rintro ⟨s, s', hread⟩
    exact Grammar.readable_of_type hread
  · simp only [equal_iff_text_eq]
    exact eq_equivalence.comap text

def nested : Ty := .struct
  [.vector 4 .i8, .array Word.minSigned (.struct []), .array Word.maxSigned (.vector 0 (.int 256))]

theorem nested_text_read_back : nested.Readable ∧ nested.ReadBack ∧
    nested.text = "\x7b<4 x i8>, [-9223372036854775808 x \x7b\x7d], [9223372036854775807 x <0 x i256>]\x7d" ∧
    nested.equal (.struct []) = false := by
  have hnested : nested.Readable := by
    refine .struct ?_
    simp only [List.forall_mem_cons]
    refine ⟨.vector rfl (.int (by decide) (by decide)), .array rfl (.struct (by simp)),
      .array rfl (.vector rfl (.int (by decide) (by decide))), by simp⟩
  exact ⟨hnested, (text_faithful.2.1 nested).mp hnested, by decide +kernel, rfl⟩

end Ty

end RegPressure
