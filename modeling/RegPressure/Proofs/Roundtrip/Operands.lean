import RegPressure.Asm.Printer
import RegPressure.Proofs.Asm.Total
import RegPressure.Proofs.Roundtrip.Types

namespace RegPressure

open Bytes (ofString ofInt)
open Lexer (Spells)

variable {α β : Type}

/-! ### Names and their octets -/

theorem IsName.octets {w : String} (h : IsName w) : (ofString w).IsName := by
  obtain ⟨bs, hbs, rfl⟩ := h
  rwa [hbs.ofString_toText]

theorem IsWord.octets {w : String} (h : IsWord w) : (ofString w).IsWord := by
  obtain ⟨bs, hbs, rfl⟩ := h
  rwa [hbs.isName.ofString_toText]

theorem isWord_of_octets {w : String} (h : (ofString w).IsWord) : IsWord w :=
  ⟨_, h, h.isName.toText_ofString.symm⟩

theorem IsWord.isName {w : String} (h : IsWord w) : IsName w := by
  obtain ⟨bs, hbs, rfl⟩ := h
  exact ⟨bs, hbs.isName, rfl⟩

theorem IsName.toText_octets {w : String} (h : IsName w) : (ofString w).toText = w :=
  h.octets.toText_ofString

theorem Token.word_eq {x : Token} {k : TokenKind} {w : String} (h : IsName w)
    (hx : x.bare = (k, ofString w)) : x.kind = k ∧ x.word = w := by
  obtain ⟨hk, hl⟩ := Prod.mk.inj hx
  exact ⟨hk, by rw [Token.word, hl, h.toText_octets]⟩

theorem Stream.advance_cons {x : Token} {xs : List Token} {last : Option Nat} (hx : x.kind ≠ .eof) :
    (⟨x :: xs, last⟩ : Stream).advance = ⟨xs, some x.line⟩ := by
  simp [advance, atEnd, cur, hx]

namespace Lexer

variable {bs cs : Bytes} {ls ms : List Lexeme}

theorem Spells.append (h : Spells bs ls) (h' : Spells cs ms) (hc : Breaks cs) :
    Spells (bs ++ cs) (ls ++ ms) := by
  intro rest hrest
  refine (h (cs ++ rest) ?_).append (h' rest hrest)
  cases cs with
  | nil => exact hrest
  | cons b cs => exact hc

theorem Breaks.append (h : Breaks bs) (h' : Breaks cs) : Breaks (bs ++ cs) := by
  cases bs with
  | nil => exact h'
  | cons b bs => exact h

theorem Closed.append_spells (h : Closed bs ls) (h' : Spells cs ms) : Spells (bs ++ cs) (ls ++ ms) :=
  fun rest hrest => (h (cs ++ rest)).append (h' rest hrest)

theorem Spells.behind_blank (h : Spells bs ls) : Spells (32 :: bs) ls :=
  (closed_blank (.inl rfl)).append_spells h

end Lexer

/-! ### Texts put together -/

theorem spells_empty : Spells (ofString "") [] := fun _ _ l c => ⟨[], l, c, rfl, rfl⟩

theorem spells_blank {s : String} {ls : List Lexeme} (h : Spells (ofString s) ls) :
    Spells (ofString (" " ++ s)) ls := by
  rw [Bytes.ofString_append]
  exact h.behind_blank

theorem spells_mark {m s : String} {q : TokenKind} {c : UInt8} {ls : List Lexeme} (hm : ofString m = [c])
    (hq : Lexer.punctuation? c = some q) (h : Spells (ofString s) ls) :
    Spells (ofString (m ++ s)) ((q, [c]) :: ls) := by
  rw [Bytes.ofString_append, hm]
  exact (Lexer.closed_punctuation hq).append_spells h

theorem spells_comma {s : String} {ls : List Lexeme} (h : Spells (ofString s) ls) :
    Spells (ofString (", " ++ s)) ((.comma, [44]) :: ls) := by
  rw [show ", " = "," ++ " " from rfl, String.append_assoc]
  exact spells_mark rfl rfl (spells_blank h)

theorem spells_append {s t : String} {ls ms : List Lexeme} (h : Spells (ofString s) ls)
    (h' : Spells (ofString t) ms) (ht : Lexer.Breaks (ofString t)) : Spells (ofString (s ++ t)) (ls ++ ms) := by
  rw [Bytes.ofString_append]
  exact h.append h' ht

theorem spells_cons {s t : String} {l : Lexeme} {ms : List Lexeme} (h : Spells (ofString s) [l])
    (h' : Spells (ofString t) ms) (ht : Lexer.Breaks (ofString t)) : Spells (ofString (s ++ t)) (l :: ms) :=
  spells_append h h' ht

theorem Lexer.breaks_append {s : String} {b : UInt8} {bs : Bytes} (h : ofString s = b :: bs)
    (hb : Lexer.isNameChar b = false) (t : String) : Lexer.Breaks (ofString (s ++ t)) := by
  rw [Bytes.ofString_append, h]
  exact Lexer.breaks_cons hb

theorem Lexer.breaks_blank (t : String) : Lexer.Breaks (ofString (" " ++ t)) := Lexer.breaks_append rfl (by decide) t

theorem Lexer.breaks_comma (t : String) : Lexer.Breaks (ofString (", " ++ t)) := Lexer.breaks_append rfl (by decide) t

/-! ### What may stand next -/

def front (xs : List Token) : Lexeme := (xs.headD endToken).bare

def Leads (O F : Lexeme → Prop) : List Lexeme → Prop
  | [] => ∀ l, F l → O l
  | l :: _ => O l

variable {O M F : Lexeme → Prop} {ls ms : List Lexeme}

theorem leads_true (F : Lexeme → Prop) (ls : List Lexeme) : Leads (fun _ => True) F ls := by
  cases ls with
  | nil => exact fun _ _ => trivial
  | cons l ls => exact trivial

theorem leads_nil (F : Lexeme → Prop) : Leads F F [] := fun _ hl => hl

theorem Leads.exists_cons (h : Leads O F ls) {l : Lexeme} (hl : F l) (hO : ¬O l) :
    ∃ m ms, ls = m :: ms ∧ O m := by
  cases ls with
  | nil => exact absurd (h l hl) hO
  | cons m ms => exact ⟨m, ms, rfl, h⟩

theorem Leads.append (h : Leads O M ls) (h' : Leads M F ms) : Leads O F (ls ++ ms) := by
  cases ls with
  | nil =>
    cases ms with
    | nil => exact fun l hl => h l (h' l hl)
    | cons m ms => exact h m h'
  | cons l ls => exact h

theorem Leads.front (h : Leads O F ls) {xs rest : List Token} (hxs : xs.map Token.bare = ls)
    (hrest : F (front rest)) : O (front (xs ++ rest)) := by
  cases xs with
  | nil =>
    subst hxs
    exact h _ hrest
  | cons x xs =>
    subst hxs
    exact h

def Lexeme.Unflagged (l : Lexeme) : Prop := l.1 = .ident → l.2.toText ∉ flagWords

structure Lexeme.Opens (l : Lexeme) : Prop where
  unflagged : l.Unflagged
  kind : l.1 ∉ [.eof, .comma, .colon, .rparen, .rbracket, .rbrace, .metadata]

/-- What may stand behind an operation and is not taken for a flag, nor for the end of a label. -/
structure Lexeme.Follows (l : Lexeme) : Prop where
  unflagged : l.Unflagged
  kind : l.1 ≠ .colon

theorem Lexeme.Opens.follows {l : Lexeme} (h : l.Opens) : l.Follows :=
  ⟨h.unflagged, fun hk => h.kind (by simp [hk])⟩

theorem Lexeme.opens_of_ne {k : TokenKind} {bs : Bytes}
    (h : k ∉ [TokenKind.ident, .eof, .comma, .colon, .rparen, .rbracket, .rbrace, .metadata]) :
    Lexeme.Opens (k, bs) := by
  obtain ⟨hi, hk⟩ := not_or.mp (List.mem_cons.not.mp h)
  exact ⟨fun he => absurd he hi, hk⟩

theorem Lexeme.opens_word {w : String} (hw : IsWord w) (h : w ∉ flagWords) :
    Lexeme.Opens (.ident, ofString w) where
  unflagged := fun _ => by rwa [hw.isName.toText_octets]
  kind := by simp

/-! ### Holes -/

namespace Func

/-- The value is the result of the instruction with this name. -/
def Calls (f : Func) (name : String) (v : Value) : Prop :=
  ∃ u i, v = .instr u ∧ f.instr? u = some i ∧ i.name = name

def Labels (f : Func) (name : String) (c : Int) : Prop := ∃ blk, f.block? c = some blk ∧ blk.name = name

end Func

structure Awaited (xs : List OpenRef) (isBlock : Bool) (hole : α) (named : String → α → Prop)
    (as bs : List α) : Prop where
  length : as.length = bs.length
  cell : ∀ n, as[n]? = bs[n]? ∨ as[n]? = some hole ∧ ∃ x ∈ xs, x.isBlock = isBlock ∧ x.index = n
  named : ∀ x ∈ xs, x.isBlock = isBlock → ∃ b, bs[x.index]? = some b ∧ named x.name b

namespace Awaited

variable {xs ys : List OpenRef} {x : OpenRef} {isBlock : Bool} {hole a : α} {named : String → α → Prop}
  {as bs : List α}

theorem nil : Awaited [] isBlock hole named ([] : List α) [] where
  length := rfl
  cell := fun _ => .inl rfl
  named := fun _ hx => by cases hx

theorem concat (h : Awaited xs isBlock hole named as bs) (a : α) :
    Awaited xs isBlock hole named (as ++ [a]) (bs ++ [a]) where
  length := by simp [h.length]
  cell := by
    intro n
    rcases Nat.lt_trichotomy n as.length with hn | rfl | hn
    · rw [List.getElem?_append_left hn, List.getElem?_append_left (h.length ▸ hn)]
      exact h.cell n
    · exact .inl (by rw [List.getElem?_concat_length, h.length, List.getElem?_concat_length])
    · have := h.length
      exact .inl (by rw [List.getElem?_eq_none (by simp; omega), List.getElem?_eq_none (by simp; omega)])
  named := fun x hx hb => (h.named x hx hb).imp fun _ hn =>
    ⟨getElem?_concat_eq_some.mpr (.inl hn.1), hn.2⟩

/-- References of the other kind do not matter. -/
theorem pass (h : Awaited xs isBlock hole named as bs) (hys : ∀ y ∈ ys, y.isBlock ≠ isBlock) :
    Awaited (xs ++ ys) isBlock hole named as bs where
  length := h.length
  cell := fun n => (h.cell n).imp_right fun ho =>
    ⟨ho.1, ho.2.imp fun _ hx => ⟨List.mem_append_left _ hx.1, hx.2⟩⟩
  named := fun x hx hb => (List.mem_append.mp hx).elim (fun hx => h.named x hx hb)
    fun hx => absurd hb (hys x hx)

/-- One hole more. -/
theorem leave (h : Awaited xs isBlock hole named as bs) (hx : x.isBlock = isBlock) (hn : x.index = as.length)
    (hb : named x.name a) : Awaited (xs ++ [x]) isBlock hole named (as ++ [hole]) (bs ++ [a]) where
  length := by simp [h.length]
  cell := by
    intro n
    rcases Nat.lt_trichotomy n as.length with hlt | rfl | hlt
    · rw [List.getElem?_append_left hlt, List.getElem?_append_left (h.length ▸ hlt)]
      exact (h.cell n).imp_right fun ho => ⟨ho.1, ho.2.imp fun _ hy => ⟨List.mem_append_left _ hy.1, hy.2⟩⟩
    · exact .inr ⟨List.getElem?_concat_length, x, by simp, hx, hn⟩
    · have := h.length
      exact .inl (by rw [List.getElem?_eq_none (by simp; omega), List.getElem?_eq_none (by simp; omega)])
  named := by
    intro y hy hyb
    rcases List.mem_append.mp hy with hy | hy
    · exact (h.named y hy hyb).imp fun _ hb => ⟨getElem?_concat_eq_some.mpr (.inl hb.1), hb.2⟩
    · cases List.mem_singleton.mp hy
      exact ⟨a, by rw [hn, h.length, List.getElem?_concat_length], hb⟩

/-- One hole less, where a name belongs to one thing only. -/
theorem fill (h : Awaited (x :: xs) isBlock hole named as bs) (hx : x.isBlock = isBlock)
    (ha : named x.name a) (hinj : ∀ b, named x.name b → b = a) :
    Awaited xs isBlock hole named (as.set x.index a) bs where
  length := by rw [List.length_set, h.length]
  cell := by
    intro n
    obtain ⟨b, hb, hname⟩ := h.named x (List.mem_cons_self ..) hx
    obtain rfl := hinj b hname
    by_cases hn : x.index = n
    · have hlt := (List.getElem?_eq_some_iff.mp hb).1
      subst hn
      exact .inl (by rw [hb, List.getElem?_set_self (h.length ▸ hlt)])
    · rw [List.getElem?_set_ne hn]
      refine (h.cell n).imp_right fun ho => ⟨ho.1, ?_⟩
      obtain ⟨y, hy, hyb, rfl⟩ := ho.2
      rcases List.mem_cons.mp hy with rfl | hy
      · exact absurd rfl hn
      · exact ⟨y, hy, hyb, rfl⟩
  named := fun y hy => h.named y (List.mem_cons_of_mem _ hy)

theorem eq (h : Awaited [] isBlock hole named as bs) : as = bs := by
  refine List.ext_getElem? fun n => ?_
  rcases h.cell n with hn | ⟨-, x, hx, -⟩
  · exact hn
  · cases hx

end Awaited

namespace Instr

def recast (i : Instr) (operands : List Value) (targets : List Int) (pos : Pos) : Instr :=
  { i with operands, targets, pos }

def push (i : Instr) (v : Value) : Instr := { i with operands := i.operands ++ [v] }

def aim (i : Instr) (b : Int) : Instr := { i with targets := i.targets ++ [b] }

def Spares (c : Instr → Instr) : Prop :=
  ∀ i operands targets pos, c (i.recast operands targets pos) = (c i).recast operands targets pos

section

variable {c : Instr → Instr} (hc : Spares c) (i : Instr)

include hc

theorem Spares.eq : c i = (c i).recast i.operands i.targets i.pos := hc i i.operands i.targets i.pos

theorem Spares.operands : (c i).operands = i.operands := by
  rw [hc.eq i]
  rfl

theorem Spares.targets : (c i).targets = i.targets := by
  rw [hc.eq i]
  rfl

theorem Spares.pos : (c i).pos = i.pos := by
  rw [hc.eq i]
  rfl

end

end Instr

/-- The instruction becomes `j`, which stands in `f`, once the references `xs` are looked up there. Places
in the text do not matter. -/
structure Instr.Awaits (f : Func) (xs : List OpenRef) (i j : Instr) : Prop where
  fields : i.recast j.operands j.targets j.pos = j
  operands : Awaited xs false (.instr (-1)) f.Calls i.operands j.operands
  targets : Awaited xs true (-1) f.Labels i.targets j.targets

def Draft.Awaits (f : Func) (d : Draft) (j : Instr) : Prop := d.instr.Awaits f d.pending j

/-! ### Pieces of text and their readers -/

namespace DraftReader

def Makes (f : Func) (F : Lexeme → Prop) (r : DraftReader α) (ls : List Lexeme) (a : α) (j k : Instr) : Prop :=
  ∀ d xs rest last, d.Awaits f j → xs.map Token.bare = ls → F (front rest) →
    ∃ e last', Reads r d ⟨xs ++ rest, last⟩ a e ⟨rest, last'⟩ ∧ e.Awaits f k

def Scans (f : Func) (O F : Lexeme → Prop) (s : String) (r : DraftReader α) (a : α) (j k : Instr) : Prop :=
  ∃ ls, Spells (ofString s) ls ∧ Leads O F ls ∧ Makes f F r ls a j k

variable {f : Func} {s t : String} {r : DraftReader α} {g : α → DraftReader β} {a : α} {b : β} {j k l : Instr}

theorem Makes.bind (h : Makes f M r ls a j k) (hM : Leads M F ms) (hg : Makes f F (g a) ms b k l) :
    Makes f F (r >>= g) (ls ++ ms) b j l := by
  intro d xs rest last hd hxs hrest
  obtain ⟨ys, zs, rfl, hys, hzs⟩ := List.map_eq_append_iff.mp hxs
  obtain ⟨e, last₁, hr, he⟩ := h d ys (zs ++ rest) last hd hys (hM.front hzs hrest)
  obtain ⟨e', last₂, hr', he'⟩ := hg e zs rest last₁ he hzs hrest
  exact ⟨e', last₂, reads_bind.mpr ⟨a, e, _, by rwa [List.append_assoc], hr'⟩, he'⟩

theorem Makes.bind_nil (h : Makes f M r [] a j k) (hM : Leads M F ms) (hg : Makes f F (g a) ms b k l) :
    Makes f F (r >>= g) ms b j l := h.bind hM hg

theorem Makes.bind_cons {m : Lexeme} (h : Makes f M r [m] a j k) (hM : Leads M F ms)
    (hg : Makes f F (g a) ms b k l) : Makes f F (r >>= g) (m :: ms) b j l := h.bind hM hg

theorem makes_pure (f : Func) (a : α) (j : Instr) : Makes f F (pure a) [] a j j := by
  intro d xs rest last hd hxs _
  obtain rfl := List.map_eq_nil_iff.mp hxs
  exact ⟨d, last, reads_pure.mpr ⟨rfl, rfl, rfl⟩, hd⟩

theorem makes_lift {r : Reader α} (h : Reader.Yields r ls a) (f : Func) (j : Instr) :
    Makes f F (liftM r) ls a j j := by
  intro d xs rest last hd hxs _
  obtain ⟨last', hr⟩ := h xs rest last hxs
  exact ⟨d, last', reads_lift.mpr ⟨hr, rfl⟩, hd⟩

theorem makes_one {l : Lexeme} (hl : l.1 ≠ .eof) (h : ∀ (d : Draft) (u : Stream), d.Awaits f j → u.cur.bare = l →
    ∃ e, Reads r d u a e u.advance ∧ e.Awaits f k) : Makes f F r [l] a j k := by
  intro d xs rest last hd hxs _
  obtain ⟨x, rfl, hx⟩ := List.map_eq_singleton_iff.mp hxs
  obtain ⟨e, hr, he⟩ := h d ⟨x :: rest, last⟩ hd hx
  have hkind : x.kind ≠ .eof := fun hk => hl (by rw [← hx, Token.bare, hk])
  exact ⟨e, _, Stream.advance_cons hkind ▸ hr, he⟩

/-! What a reader finds when it looks ahead. -/

section Lookahead

variable {q : TokenKind} {bs : Bytes} {g : Bool → DraftReader β}

theorem sees_eq (xs : List Token) (last : Option Nat) (q : TokenKind) :
    (⟨xs, last⟩ : Stream).sees q = decide ((front xs).1 = q) := rfl

theorem makes_sees (hO : Leads O F ls) (hq : ∀ l, O l → l.1 = q) (h : Makes f F (g true) ls b j k) :
    Makes f F (liftM (Reader.sees q) >>= g) ls b j k := by
  intro d xs rest last hd hxs hrest
  obtain ⟨e, last', hr, he⟩ := h d xs rest last hd hxs hrest
  have hsees : (⟨xs ++ rest, last⟩ : Stream).sees q = true := by
    rw [sees_eq]
    exact decide_eq_true (hq _ (hO.front hxs hrest))
  exact ⟨e, last', reads_bind.mpr ⟨true, d, _, reads_lift.mpr ⟨Reader.reads_sees.mpr ⟨hsees, rfl⟩, rfl⟩, hr⟩, he⟩

theorem sees_eq_false {xs rest : List Token} (hO : Leads O F ls) (hne : ∀ l, O l → l.1 ≠ q)
    (hxs : xs.map Token.bare = ls) (hrest : F (front rest)) (last : Option Nat) :
    (⟨xs ++ rest, last⟩ : Stream).sees q = false := by
  rw [sees_eq]
  exact decide_eq_false (hne _ (hO.front hxs hrest))

theorem makes_sees_not (hO : Leads O F ls) (hne : ∀ l, O l → l.1 ≠ q) (h : Makes f F (g false) ls b j k) :
    Makes f F (liftM (Reader.sees q) >>= g) ls b j k := by
  intro d xs rest last hd hxs hrest
  obtain ⟨e, last', hr, he⟩ := h d xs rest last hd hxs hrest
  have hsees := sees_eq_false hO hne hxs hrest last
  exact ⟨e, last', reads_bind.mpr ⟨false, d, _, reads_lift.mpr ⟨Reader.reads_sees.mpr ⟨hsees, rfl⟩, rfl⟩, hr⟩, he⟩

theorem makes_accept_not (hO : Leads O F ls) (hne : ∀ l, O l → l.1 ≠ q) (h : Makes f F (g false) ls b j k) :
    Makes f F (liftM (Reader.accept q) >>= g) ls b j k := by
  intro d xs rest last hd hxs hrest
  obtain ⟨e, last', hr, he⟩ := h d xs rest last hd hxs hrest
  have hsees := sees_eq_false hO hne hxs hrest last
  exact ⟨e, last', reads_bind.mpr
    ⟨false, d, _, reads_lift.mpr ⟨Reader.reads_accept_false.mpr ⟨hsees, rfl⟩, rfl⟩, hr⟩, he⟩

theorem makes_accept (hq : q ≠ .eof) (f : Func) (j : Instr) :
    Makes f F (liftM (Reader.accept q)) [(q, bs)] true j j := makes_one hq fun d _ hd hu =>
  ⟨d, reads_lift.mpr ⟨Reader.reads_accept_true.mpr ⟨decide_eq_true (Prod.mk.inj hu).1, rfl⟩, rfl⟩, hd⟩

theorem makes_expect {g : Token → DraftReader β} (hq : q ≠ .eof)
    (h : ∀ x : Token, x.kind = q → x.lexeme = bs → Makes f F (g x) ls b j k) :
    Makes f F (liftM (Reader.expect q) >>= g) ((q, bs) :: ls) b j k := by
  intro d xs rest last hd hxs hrest
  obtain ⟨x, ys, rfl, hx, hys⟩ := List.map_eq_cons_iff.mp hxs
  obtain ⟨hk, hl⟩ := Prod.mk.inj hx
  obtain ⟨e, last', hread, he⟩ := h x hk hl d ys rest (some x.line) hd hys hrest
  refine ⟨e, last', reads_bind.mpr ⟨x, d, _, ?_, hread⟩, he⟩
  exact reads_lift.mpr ⟨Reader.reads_expect.mpr ⟨hk, rfl, Stream.advance_cons (hk ▸ hq)⟩, rfl⟩

theorem makes_peek {l : Lexeme} {g : Token → DraftReader β}
    (h : ∀ x : Token, x.bare = l → Makes f F (g x) (l :: ls) b j k) :
    Makes f F (liftM Reader.peek >>= g) (l :: ls) b j k := by
  intro d xs rest last hd hxs hrest
  obtain ⟨x, ys, rfl, hx, hys⟩ := List.map_eq_cons_iff.mp hxs
  obtain ⟨e, last', hread, he⟩ := h x hx d (x :: ys) rest last hd hxs hrest
  refine ⟨e, last', reads_bind.mpr ⟨x, d, _, ?_, hread⟩, he⟩
  exact reads_lift.mpr ⟨Reader.reads_peek.mpr ⟨rfl, rfl⟩, rfl⟩

theorem makes_next {l : Lexeme} (hl : l.1 ≠ .eof) {g : Token → DraftReader β}
    (h : ∀ x : Token, x.bare = l → Makes f F (g x) ls b j k) :
    Makes f F (liftM Reader.next >>= g) (l :: ls) b j k := by
  intro d xs rest last hd hxs hrest
  obtain ⟨x, ys, rfl, hx, hys⟩ := List.map_eq_cons_iff.mp hxs
  obtain ⟨e, last', hread, he⟩ := h x hx d ys rest (some x.line) hd hys hrest
  have hkind : x.kind ≠ .eof := fun hk => hl (by rw [← hx, Token.bare, hk])
  refine ⟨e, last', reads_bind.mpr ⟨x, d, _, ?_, hread⟩, he⟩
  exact reads_lift.mpr ⟨Reader.reads_next.mpr ⟨rfl, Stream.advance_cons hkind⟩, rfl⟩

theorem makes_rounds {g : Nat → DraftReader β} (h : ∀ n, ls.length < n → Makes f F (g n) ls b j k) :
    Makes f F (getThe Stream >>= fun u => g (u.rest.length + 1)) ls b j k := by
  intro d xs rest last hd hxs hrest
  have hlen : ls.length < (xs ++ rest).length + 1 := by
    rw [← hxs, List.length_map, List.length_append]
    omega
  obtain ⟨e, last', hr, he⟩ := h _ hlen d xs rest last hd hxs hrest
  exact ⟨e, last', reads_bind.mpr ⟨_, d, _, reads_stream.mpr ⟨rfl, rfl, rfl⟩, hr⟩, he⟩

end Lookahead

variable {c : Instr → Instr} {bs : Bytes}

theorem Scans.blank (h : Scans f O M s r a j k) (hg : Scans f M F t (g a) b k l) :
    Scans f O F (s ++ (" " ++ t)) (r >>= g) b j l := by
  obtain ⟨ls, hs, hO, hr⟩ := h
  obtain ⟨ms, ht, hM, hr'⟩ := hg
  exact ⟨ls ++ ms, spells_append hs (spells_blank ht) (Lexer.breaks_blank t), hO.append hM, hr.bind hM hr'⟩

/-- A piece that starts with a mark needs no blank before it. -/
theorem Scans.join (h : Scans f O M s r a j k) (hg : Scans f M F t (g a) b k l) (ht : Lexer.Breaks (ofString t)) :
    Scans f O F (s ++ t) (r >>= g) b j l := by
  obtain ⟨ls, hs, hO, hr⟩ := h
  obtain ⟨ms, ht', hM, hr'⟩ := hg
  exact ⟨ls ++ ms, spells_append hs ht' ht, hO.append hM, hr.bind hM hr'⟩

theorem Scans.behind_blank (h : Scans f O F s r a j k) : Scans f O F (" " ++ s) r a j k := by
  obtain ⟨ls, hs, h⟩ := h
  exact ⟨ls, spells_blank hs, h⟩

theorem Awaits.push {d : Draft} (h : d.Awaits f j) (v : Value) : (d.push v none).Awaits f (j.push v) where
  fields := congrArg (Instr.push · v) h.fields
  operands := by
    have := h.operands.concat v
    simpa [Draft.push, Instr.push] using this
  targets := by
    have := h.targets
    simpa [Draft.push, Instr.push] using this

theorem Awaits.edit {d : Draft} (h : d.Awaits f j) (hc : Instr.Spares c) : (d.edit c).Awaits f (c j) where
  fields := by
    change (c d.instr).recast (c j).operands (c j).targets (c j).pos = c j
    rw [hc.operands, hc.targets, hc.pos, ← hc, h.fields]
  operands := by
    change Awaited d.pending false _ _ (c d.instr).operands (c j).operands
    rw [hc.operands, hc.operands]
    exact h.operands
  targets := by
    change Awaited d.pending true _ _ (c d.instr).targets (c j).targets
    rw [hc.targets, hc.targets]
    exact h.targets

/-- A piece that changes the draft and takes nothing stands in front. -/
theorem Scans.edit {g : Unit → DraftReader β} (h : Scans f O F s (g ()) b (c j) k) (hc : Instr.Spares c) :
    Scans f O F s (Grammar.edit c >>= g) b j k := by
  obtain ⟨ls, hs, hO, hr⟩ := h
  refine ⟨ls, hs, hO, fun d xs rest last hd hxs hrest => ?_⟩
  obtain ⟨e, last', hread, he⟩ := hr (d.edit c) xs rest last (Awaits.edit hd hc) hxs hrest
  exact ⟨e, last', reads_bind.mpr ⟨(), _, _, Grammar.reads_edit.mpr ⟨rfl, rfl⟩, hread⟩, he⟩

theorem scans_one {l : Lexeme} (hs : Spells (ofString s) [l]) (hl : l.1 ≠ .eof) (hO : O l)
    (h : ∀ (d : Draft) (u : Stream), d.Awaits f j → u.cur.bare = l →
      ∃ e, Reads r d u a e u.advance ∧ e.Awaits f k) : Scans f O F s r a j k :=
  ⟨[l], hs, hO, makes_one hl h⟩

theorem makes_comma (f : Func) (j : Instr) : Makes f F Grammar.comma [(.comma, bs)] () j j :=
  makes_one (by simp) fun d _ hd hu => ⟨d, Grammar.reads_comma.mpr ⟨(Prod.mk.inj hu).1, rfl, rfl⟩, hd⟩

/-- A comma and a blank stand in front. -/
theorem Scans.comma {g : Unit → DraftReader β} (h : Scans f M F s (g ()) b j k) :
    Scans f (fun _ => True) F (", " ++ s) (Grammar.comma >>= g) b j k := by
  obtain ⟨ls, hs, hM, hr⟩ := h
  exact ⟨(.comma, [44]) :: ls, spells_comma hs, trivial, (makes_comma f j).bind hM hr⟩

theorem Scans.then_comma {g : α → DraftReader β} (h : Scans f O M s r a j k)
    (hg : Scans f M F (", " ++ t) (g a) b k l) : Scans f O F (s ++ (", " ++ t)) (r >>= g) b j l :=
  h.join hg (Lexer.breaks_comma t)

theorem makes_pushOperand (v : Value) (f : Func) (j : Instr) :
    Makes f F (Grammar.pushOperand v) [] () j (j.push v) := by
  intro d xs rest last hd hxs _
  obtain rfl := List.map_eq_nil_iff.mp hxs
  refine ⟨d.push v none, last, Grammar.reads_pushOperand.mpr ⟨rfl, rfl⟩, ?_⟩
  exact Awaits.push hd v

theorem makes_edit (hc : Instr.Spares c) (f : Func) (j : Instr) : Makes f F (Grammar.edit c) [] () j (c j) := by
  intro d xs rest last hd hxs _
  obtain rfl := List.map_eq_nil_iff.mp hxs
  exact ⟨d.edit c, last, Grammar.reads_edit.mpr ⟨rfl, rfl⟩, Awaits.edit hd hc⟩

/-- What comes last takes nothing. -/
theorem Scans.finish (h : Scans f O F s r a j k) (hg : Makes f F (g a) [] b k l) :
    Scans f O F s (r >>= g) b j l := by
  obtain ⟨ls, hs, hO, hr⟩ := h
  have := hr.bind (leads_nil F) hg
  exact ⟨ls, hs, hO, by rwa [List.append_nil] at this⟩

/-- A mark stands in front. -/
theorem Scans.mark {m : String} {q : TokenKind} {c : UInt8} {next : DraftReader β} (h : Scans f M F s next b j k)
    (hm : ofString m = [c]) (hq : Lexer.punctuation? c = some q) (hne : q ≠ .eof) :
    Scans f (· = (q, [c])) F (m ++ s) (liftM (Reader.expect q) >>= fun _ => next) b j k := by
  obtain ⟨ls, hs, hM, hr⟩ := h
  exact ⟨(q, [c]) :: ls, spells_mark hm hq hs, rfl, makes_expect hne fun _ _ _ => hr⟩

/-- A word of which only its text matters. -/
theorem Scans.word {g : Token → DraftReader β} {next : DraftReader β} {w : String} (h : Scans f M F s next b j k)
    (hw : IsWord w) (hO : O (.ident, ofString w)) (hg : ∀ p : Token, p.word = w → g p = next) :
    Scans f O F (w ++ (" " ++ s)) (liftM (Reader.expect .ident) >>= g) b j k := by
  obtain ⟨ls, hs, hM, hr⟩ := h
  refine ⟨(.ident, ofString w) :: ls, ?_, hO, makes_expect (by decide) fun p _ hp => ?_⟩
  · exact spells_append (Lexer.spells_word hw.octets) (spells_blank hs) (Lexer.breaks_blank s)
  · rwa [hg p (by rw [Token.word, hp, hw.isName.toText_octets])]

theorem scans_pure (f : Func) (a : α) (j : Instr) : Scans f F F "" (pure a) a j j :=
  ⟨[], spells_empty, fun _ hl => hl, makes_pure f a j⟩

theorem scans_lift {r : Reader α} {l : Lexeme} (hs : Spells (ofString s) (l :: ls)) (hO : O l)
    (hr : Reader.Yields r (l :: ls) a) (f : Func) (j : Instr) : Scans f O F s (liftM r) a j j :=
  ⟨l :: ls, hs, hO, makes_lift hr f j⟩

end DraftReader

namespace Grammar

open DraftReader (Scans Makes)
open Reader (Reads Yields)

variable {t : Ty} {u v : Stream} {f : Func} {x : Token} {w : String} {j k : Instr}

/-! ### Types -/

theorem startsType_of_typeWithin {depth : Nat} (h : Reads (typeWithin depth) u t v) :
    startsType u.cur = true := by
  cases depth with
  | zero => simp [typeWithin] at h
  | succ depth =>
    simp [typeWithin] at h
    split at h
    · next hk =>
      split at h
      · next hn => simp [startsType, hk, hn]
      · simp at h
    · next hk => simp [startsType, hk]
    · next hk => simp [startsType, hk]
    · next hk => simp [startsType, hk]
    · simp at h

theorem startsType_of_type (h : Reads type u t v) : startsType u.cur = true := by
  simp [type] at h
  exact startsType_of_typeWithin h

theorem opens_of_startsType (h : startsType x = true) : x.bare.Opens := by
  unfold startsType at h
  split at h
  case h_4 hk =>
    refine ⟨fun _ hflag => ?_, by simp [Token.bare, hk]⟩
    have hnone : ∀ w ∈ flagWords, namedType? w = none := by decide
    rw [hnone x.word hflag] at h
    cases h
  case h_5 => cases h
  all_goals
    next hk => exact ⟨fun hi => by simp [Token.bare, hk] at hi, by simp [Token.bare, hk]⟩

theorem exists_yields_type (h : t.Readable) :
    ∃ l ls, Spells (ofString t.text) (l :: ls) ∧ l.Opens ∧ Yields type (l :: ls) t := by
  obtain ⟨ls, hs, ⟨kind, y, more, rfl, -⟩, hread⟩ := h.exists_written
  have htype : Yields type ((kind, y) :: more) t := by
    intro xs rest last hxs
    have hlen : ((kind, y) :: more).length ≤ (xs ++ rest).length + 1 := by
      rw [← hxs, List.length_map, List.length_append]
      omega
    obtain ⟨last', hr⟩ := hread _ hlen xs rest last hxs
    exact ⟨last', Reader.reads_bind.mpr ⟨_, _, Reader.reads_get.mpr ⟨rfl, rfl⟩, hr⟩⟩
  refine ⟨_, _, hs, ?_, htype⟩
  obtain ⟨last', hr⟩ := htype (((kind, y) :: more).map fun l => ⟨l.1, l.2, 0, 0⟩) [] none (by
    rw [List.map_map]
    exact List.map_id _)
  exact opens_of_startsType (startsType_of_type hr)

theorem scans_type (h : t.Readable) (f : Func) (j : Instr) :
    Scans f Lexeme.Opens F t.text (liftM type) t j j := by
  obtain ⟨l, ls, hs, hl, hr⟩ := exists_yields_type h
  exact DraftReader.scans_lift hs hl hr f j

end Grammar

/-! ### Values -/

/-- The names in reach are those of the function, as far as they have been read. -/
structure Names.Within (ns : Names) (s : Symbols) (f : Func) : Prop where
  symbols : ns.symbols = s
  ret : ns.ret = f.ret
  params : ns.params = f.params
  locals : ∀ name id, ns.locals.lookup name = some id → f.Calls name (.instr id)
  blocks : ∀ name c, ns.blocks.lookup name = some c → f.Labels name c

def Names.Means (ns : Names) (f : Func) (ctx : Option Ty) (l : Lexeme) (v : Value) : Prop :=
  ∀ y : Token, y.bare = l → Denotes ns ctx y v none ∨ Denotes ns ctx y (.instr (-1)) (some y) ∧ f.Calls y.word v

def Names.Renders (ns : Names) (f : Func) (ctx : Option Ty) (v : Value) (x : String) : Prop :=
  ∃ l : Lexeme, Spells (ofString x) [l] ∧ l.Opens ∧ ns.Means f ctx l v

/-- The text of a constant tells which one it is. -/
def Value.Recoverable : Value → Prop
  | .int t n => t = some .i1 → n = 0 ∨ n = 1
  | .str s => s.Plain
  | _ => True

instance : DecidablePred Value.Recoverable
  | .int t n => inferInstanceAs (Decidable (t = some .i1 → n = 0 ∨ n = 1))
  | .str s => inferInstanceAs (Decidable s.Plain)
  | .float .. | .null | .undef _ | .arg _ | .global _ | .instr _ => isTrue trivial

namespace Names

variable {ns : Names} {s : Symbols} {f : Func} {tokens : List Token} {ctx : Option Ty} {v : Value}
  {x w : String}

theorem findIdx?_of_nodup {xs : List α} {key : α → String} (hxs : (xs.map key).Nodup) {n : Nat} {a : α}
    (h : xs[n]? = some a) : xs.findIdx? (fun x => key x = key a) = some n := by
  obtain ⟨hn, rfl⟩ := List.getElem?_eq_some_iff.mp h
  refine List.findIdx?_eq_some_iff_getElem.mpr ⟨hn, decide_eq_true rfl, fun j hj he => ?_⟩
  have hkeys : (xs.map key)[j]? = (xs.map key)[n]? := by
    rw [List.getElem?_map, List.getElem?_map, List.getElem?_eq_getElem (Nat.lt_trans hj hn),
      List.getElem?_eq_getElem hn]
    exact congrArg some (of_decide_eq_true he)
  exact Nat.ne_of_lt hj ((List.getElem?_inj (by simpa using Nat.lt_trans hj hn) hxs).mp hkeys)

theorem renders_word (hw : IsWord w) (hflag : w ∉ flagWords)
    (h : ∀ y : Token, y.kind = .ident → y.word = w → Denotes ns ctx y v none) : ns.Renders f ctx v w := by
  refine ⟨_, Lexer.spells_word hw.octets, Lexeme.opens_word hw hflag, fun y hy => .inl ?_⟩
  obtain ⟨hk, hword⟩ := Token.word_eq hw.isName hy
  exact h y hk hword

theorem renders_global (hs : s.Formed) (hns : ns.Within s f) {g : Global} {n : Nat}
    (hg : s.globals[n]? = some g) : ns.Renders f ctx (.global n) ("@" ++ g.name) := by
  have hname := (hs.globals g (List.mem_of_getElem? hg)).1
  refine ⟨(.global, ofString g.name), ?_, Lexeme.opens_of_ne (by decide), fun y hy => .inl ?_⟩
  · rw [Bytes.ofString_append]
    exact Lexer.spells_global hname.octets
  · obtain ⟨hk, hword⟩ := Token.word_eq hname hy
    refine .global hk ?_
    rw [hword, hns.symbols]
    exact findIdx?_of_nodup hs.distinct hg

theorem renders_arg (hf : f.Read tokens s) (hns : ns.Within s f) {p : Param} {n : Nat}
    (hp : f.params[n]? = some p) : ns.Renders f ctx (.arg n) ("%" ++ p.name) := by
  have hname := (hf.headed.params p (List.mem_of_getElem? hp)).1
  refine ⟨(.local, ofString p.name), ?_, Lexeme.opens_of_ne (by decide), fun y hy => .inl ?_⟩
  · rw [Bytes.ofString_append]
    exact Lexer.spells_local hname.octets
  · obtain ⟨hk, hword⟩ := Token.word_eq hname hy
    refine .param hk ?_
    rw [hword, param?, hns.params]
    exact findIdx?_of_nodup hf.headed.distinct hp

theorem renders_instr (hf : f.Read tokens s) (hns : ns.Within s f) {id : Int} {i : Instr}
    (hi : f.instr? id = some i) (hne : i.name ≠ "") : ns.Renders f ctx (.instr id) ("%" ++ i.name) := by
  obtain ⟨_, hformed, -⟩ := hf.formed id i hi
  have hname := (hformed.name hne).2
  refine ⟨(.local, ofString i.name), ?_, Lexeme.opens_of_ne (by decide), fun y hy => ?_⟩
  · rw [Bytes.ofString_append]
    exact Lexer.spells_local hname.octets
  · obtain ⟨hk, hword⟩ := Token.word_eq hname hy
    have hparam : ns.param? y.word = none := by
      rw [hword, param?, hns.params, List.findIdx?_eq_none_iff]
      exact fun p hp => decide_eq_false (hf.names_new id i hi hne p hp)
    cases hl : ns.locals.lookup y.word with
    | none => exact .inr ⟨.later hk hparam hl, id, i, rfl, hi, hword.symm⟩
    | some u =>
      obtain ⟨u', j, he, hj, hji⟩ := hns.locals _ _ hl
      cases he
      obtain rfl := hf.names_inj id u i j hi hj hne (hji.trans hword).symm
      exact .inl (.result hk hparam hl)

theorem word?_ofInt (n : Int64) : Decimal.word? (ofInt n.toInt) = some n := by
  have hrange := Word.range_of_wrap (n := n.toInt) (by simp [Word.wrap])
  simp [Decimal.word?, Decimal.int64?, Bytes.int?_ofInt, Word.ofInt?, hrange]

theorem renders_int {t : Option Ty} {n : Int64} (hfits : (Value.int t n).Fits ctx)
    (hrecover : (Value.int t n).Recoverable) : ns.Renders f ctx (.int t n) (Value.int t n).constText := by
  rw [Value.constText]
  split
  · next hbits =>
    have ht : t = some .i1 := by
      obtain ⟨rfl, hfloat⟩ | ⟨ht, -⟩ := hfits
      · obtain ⟨u, rfl, hu⟩ := Option.map_eq_some_iff.mp hbits
        cases u <;> simp_all [Ty.bits]
      · exact ht
    subst ht
    rcases hrecover rfl with rfl | rfl
    · exact renders_word (isWord_of_octets (Bytes.isWord_of_all (by decide))) (by decide) fun y hk hw => .no hk hw
    · exact renders_word (isWord_of_octets (Bytes.isWord_of_all (by decide))) (by decide) fun y hk hw => .yes hk hw
  · next hbits =>
    obtain ⟨rfl, hfloat⟩ | ⟨rfl, -⟩ := hfits
    · refine ⟨(.int, ofInt n.toInt), Lexer.spells_int (by simp [Word.wrap]), Lexeme.opens_of_ne (by decide),
        fun y hy => .inl ?_⟩
      obtain ⟨hk, hl⟩ := Prod.mk.inj hy
      have := (Denotes.int hk hfloat : Denotes ns _ y _ _)
      rwa [hl, word?_ofInt, Option.getD_some] at this
    · exact absurd rfl hbits

theorem renders_float {t : Option Ty} {b : Binary64} (hfits : (Value.float t b).Fits ctx) :
    ns.Renders f ctx (.float t b) (Value.floatText b) := by
  obtain ⟨rfl, hnan, hinf⟩ := hfits
  refine ⟨_, Lexer.spells_float hnan hinf, Lexeme.opens_of_ne (by decide), fun y hy => .inl ?_⟩
  obtain ⟨hk, hl⟩ := Prod.mk.inj hy
  have hdenotes := (Denotes.float hk : Denotes ns ctx y _ _)
  rwa [hl, Binary64.decimal?_floatText hnan hinf, Option.getD_some] at hdenotes

theorem renders_str {b : Bytes} (h : b.Plain) : ns.Renders f ctx (.str b) (Text.quoteBytes b) := by
  refine ⟨(.string, b), ?_, Lexeme.opens_of_ne (by decide), fun y hy => .inl ?_⟩
  · rw [show ofString (Text.quoteBytes b) = _ from h]
    exact (Lexer.closed_string b).spells
  · obtain ⟨hk, rfl⟩ := Prod.mk.inj hy
    exact .str hk

/-- The text of a value that a function has is read as the value. -/
theorem renders_value (hs : s.Formed) (hf : f.Read tokens s) (hns : ns.Within s f) (hhas : f.Has s v)
    (hfits : v.Fits ctx) (hrecover : v.Recoverable) (hx : f.valueName (some s) v = .ok x) :
    ns.Renders f ctx v x := by
  cases v with
  | arg n =>
    obtain ⟨n, rfl, hn⟩ := hhas
    have hp : f.params[n]? = some f.params[n] := List.getElem?_eq_getElem hn
    have hne := (hf.headed.params _ (List.mem_of_getElem? hp)).1.ne_empty
    rw [Func.valueName, if_pos (by omega), element_eq_ok.mpr hp, Checked.ok_bind, if_pos hne] at hx
    cases hx
    exact renders_arg hf hns hp
  | global n =>
    obtain ⟨n, rfl, hn⟩ := hhas
    have hg : s.globals[n]? = some s.globals[n] := List.getElem?_eq_getElem hn
    rw [Func.valueName, if_pos (by omega), element_eq_ok.mpr hg, Checked.ok_bind] at hx
    cases hx
    exact renders_global hs hns hg
  | instr id =>
    obtain ⟨i, hi, hne⟩ := hhas
    have hlabel : f.instrLabel id = "%" ++ i.name := by
      rw [Func.instrLabel, hi]
      exact if_pos hne
    rw [Func.valueName, Func.instrName, Func.instr_eq_ok.mpr hi, Checked.ok_bind, hlabel] at hx
    cases hx
    exact renders_instr hf hns hi hne
  | int t n =>
    cases hx
    exact renders_int hfits hrecover
  | float t b =>
    cases hx
    exact renders_float hfits
  | null =>
    cases hx
    exact renders_word (isWord_of_octets (Bytes.isWord_of_all (by decide))) (by decide) fun y hk hw => .null hk hw
  | undef t =>
    cases hx
    have ht : t = some (ctx.getD .i64) := hfits
    subst ht
    change ns.Renders f ctx _ "undef"
    exact renders_word (isWord_of_octets (Bytes.isWord_of_all (by decide))) (by decide) fun y hk hw => .undef hk hw
  | str b =>
    cases hx
    exact renders_str hrecover

end Names

namespace Grammar

open DraftReader (Scans Makes)

variable {ns : Names} {s : Symbols} {f : Func} {tokens : List Token} {ctx : Option Ty} {v : Value} {x : String}
  {d : Draft} {j k : Instr} {c : Int} {blk : Block}

theorem makes_operand {l : Lexeme} (hl : l.1 ≠ .eof) (h : ns.Means f ctx l v) (j : Instr) :
    Makes f F (addOperand ns ctx) [l] () j (j.push v) := by
  refine DraftReader.makes_one hl fun d u hd hu => ?_
  rcases h u.cur hu with hy | ⟨hy, hname⟩
  · refine ⟨d.push v none, reads_addOperand.mpr ⟨v, none, reads_value.mpr ⟨hy, rfl⟩, rfl⟩, ?_⟩
    exact DraftReader.Awaits.push hd v
  · refine ⟨d.push (.instr (-1)) (some u.cur),
      reads_addOperand.mpr ⟨_, _, reads_value.mpr ⟨hy, rfl⟩, rfl⟩, ?_⟩
    exact {
      fields := congrArg (Instr.push · v) hd.fields
      operands := hd.operands.leave rfl rfl hname
      targets := hd.targets.pass (by simp) }

theorem scans_operand (h : ns.Renders f ctx v x) : Scans f Lexeme.Opens F x (addOperand ns ctx) () j (j.push v) := by
  obtain ⟨l, hs, hl, hmeans⟩ := h
  exact ⟨[l], hs, hl, makes_operand (fun hk => hl.kind (by simp [hk])) hmeans j⟩

theorem scans_typed {t : Ty} (ht : t.Readable) (h : ns.Renders f (some t) v x) (ctx : Option Ty) :
    Scans f Lexeme.Opens F (t.text ++ (" " ++ x)) (addTypedOperand ns ctx) () j (j.push v) := by
  obtain ⟨ls, hs, hl, hread⟩ := (scans_type ht f j).blank (g := fun u => addOperand ns (some u)) (scans_operand h)
  refine ⟨ls, hs, hl, fun d xs rest last hd hxs hrest => ?_⟩
  obtain ⟨e, last', hr, he⟩ := hread d xs rest last hd hxs hrest
  obtain ⟨_, _, u, hlift, hr⟩ := DraftReader.reads_bind.mp hr
  obtain ⟨htype, rfl⟩ := DraftReader.reads_lift.mp hlift
  exact ⟨e, last', reads_addTypedOperand.mpr (.inl ⟨startsType_of_type htype, _, u, htype, hr⟩), he⟩

theorem scans_target (hf : f.Read tokens s) (hns : ns.Within s f) (hc : f.block? c = some blk)
    (hO : O (.ident, ofString blk.name)) : Scans f O F blk.name (addTarget ns) () j (j.aim c) := by
  have hword := hf.labels c blk hc
  refine DraftReader.scans_one (Lexer.spells_word hword.octets) (by simp) hO fun d u hd hu => ?_
  obtain ⟨hk, hw⟩ := Token.word_eq hword.isName hu
  refine ⟨d.aim ns u.cur, reads_addTarget.mpr ⟨hk, rfl, rfl⟩, ?_⟩
  cases hl : ns.blocks.lookup u.cur.word with
  | some b =>
    obtain ⟨blk', hb, hname⟩ := hns.blocks _ _ hl
    obtain rfl := hf.labels_inj b c blk' blk hb hc (hname.trans hw)
    exact {
      fields := congrArg (Instr.aim · b) hd.fields
      operands := by
        have := hd.operands
        simpa [Draft.aim, hl, Instr.aim] using this
      targets := by
        have := hd.targets.concat b
        simpa [Draft.aim, hl, Instr.aim] using this }
  | none =>
    exact {
      fields := congrArg (Instr.aim · c) hd.fields
      operands := by
        rw [Draft.aim, hl]
        exact hd.operands.pass (by simp)
      targets := by
        rw [Draft.aim, hl]
        exact hd.targets.leave rfl rfl ⟨blk, hc, hw.symm⟩ }

end Grammar

end RegPressure
