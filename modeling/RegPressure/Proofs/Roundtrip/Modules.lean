import RegPressure.Proofs.Faultless.Printing
import RegPressure.Proofs.Roundtrip.Functions

namespace RegPressure

open Bytes (ofString)
open Lexer (Closed Spells)

namespace Reader

variable {α β : Type} {F M O : Lexeme → Prop} {r : Reader α} {k : α → Reader β} {a : α} {b : β} {q : TokenKind}
  {bs : Bytes}
  {ls ms : List Lexeme}

def Makes (F : Lexeme → Prop) (r : Reader α) (ls : List Lexeme) (a : α) : Prop :=
  ∀ xs rest last, xs.map Token.bare = ls → F (front rest) → ∃ last', Reads r ⟨xs ++ rest, last⟩ a ⟨rest, last'⟩

theorem Yields.makes (h : Yields r ls a) : Makes F r ls a := fun xs rest last hxs _ => h xs rest last hxs

theorem Makes.bind (h : Makes M r ls a) (hM : Leads M F ms) (hk : Makes F (k a) ms b) :
    Makes F (r >>= k) (ls ++ ms) b := by
  intro xs rest last hxs hrest
  obtain ⟨ys, zs, rfl, hys, hzs⟩ := List.map_eq_append_iff.mp hxs
  obtain ⟨last₁, hr⟩ := h ys (zs ++ rest) last hys (hM.front hzs hrest)
  obtain ⟨last₂, hr'⟩ := hk zs rest last₁ hzs hrest
  exact ⟨last₂, reads_bind.mpr ⟨a, _, by rwa [List.append_assoc], hr'⟩⟩

theorem makes_pure (a : α) : Makes F (pure a) [] a := by
  intro xs rest last hxs _
  obtain rfl := List.map_eq_nil_iff.mp hxs
  exact ⟨last, reads_pure.mpr ⟨rfl, rfl⟩⟩

theorem makes_expect {k : Token → Reader β} (hq : q ≠ .eof)
    (h : ∀ x : Token, x.kind = q → x.lexeme = bs → Makes F (k x) ls b) :
    Makes F (expect q >>= k) ((q, bs) :: ls) b := by
  intro xs rest last hxs hrest
  obtain ⟨x, ys, rfl, hx, hys⟩ := List.map_eq_cons_iff.mp hxs
  obtain ⟨hk, hl⟩ := Prod.mk.inj hx
  obtain ⟨last', hread⟩ := h x hk hl ys rest (some x.line) hys hrest
  exact ⟨last', reads_bind.mpr ⟨x, _, reads_expect.mpr ⟨hk, rfl, Stream.advance_cons (hk ▸ hq)⟩, hread⟩⟩

theorem makes_sees {k : Bool → Reader β} {p : Bool} (hO : Leads O F ls) (hp : ∀ l, O l → decide (l.1 = q) = p)
    (h : Makes F (k p) ls b) : Makes F (sees q >>= k) ls b := by
  intro xs rest last hxs hrest
  obtain ⟨last', hread⟩ := h xs rest last hxs hrest
  exact ⟨last', reads_bind.mpr ⟨p, _, reads_sees.mpr ⟨hp _ (hO.front hxs hrest), rfl⟩, hread⟩⟩

theorem makes_accept {k : Bool → Reader β} (hq : q ≠ .eof) (h : Makes F (k true) ls b) :
    Makes F (accept q >>= k) ((q, bs) :: ls) b := by
  intro xs rest last hxs hrest
  obtain ⟨x, ys, rfl, hx, hys⟩ := List.map_eq_cons_iff.mp hxs
  have hk : x.kind = q := (Prod.mk.inj hx).1
  obtain ⟨last', hread⟩ := h ys rest (some x.line) hys hrest
  refine ⟨last', reads_bind.mpr ⟨true, _, reads_accept_true.mpr ⟨decide_eq_true hk, ?_⟩, hread⟩⟩
  exact Stream.advance_cons (hk ▸ hq)

theorem makes_accept_not {k : Bool → Reader β} (hO : Leads O F ls) (hne : ∀ l, O l → l.1 ≠ q)
    (h : Makes F (k false) ls b) : Makes F (accept q >>= k) ls b := by
  intro xs rest last hxs hrest
  obtain ⟨last', hread⟩ := h xs rest last hxs hrest
  have hsees : (⟨xs ++ rest, last⟩ : Stream).sees q = false := decide_eq_false (hne _ (hO.front hxs hrest))
  exact ⟨last', reads_bind.mpr ⟨false, _, reads_accept_false.mpr ⟨hsees, rfl⟩, hread⟩⟩

theorem makes_acceptWord {k : Bool → Reader β} {w : String} (hw : IsName w) (h : Makes F (k true) ls b) :
    Makes F (acceptWord w >>= k) ((.ident, ofString w) :: ls) b := by
  intro xs rest last hxs hrest
  obtain ⟨x, ys, rfl, hx, hys⟩ := List.map_eq_cons_iff.mp hxs
  obtain ⟨hk, hword⟩ := Token.word_eq hw hx
  obtain ⟨last', hread⟩ := h ys rest (some x.line) hys hrest
  refine ⟨last', reads_bind.mpr ⟨true, _, reads_acceptWord_true.mpr ⟨?_, Stream.advance_cons (by simp [hk])⟩, hread⟩⟩
  simp [Stream.atWord, Stream.sees, Stream.cur, hk, hword]

theorem makes_acceptWord_not {k : Bool → Reader β} {w : String} (hO : Leads O F ls)
    (hne : ∀ l, O l → l.1 = .ident → l.2.toText ≠ w) (h : Makes F (k false) ls b) :
    Makes F (acceptWord w >>= k) ls b := by
  intro xs rest last hxs hrest
  obtain ⟨last', hread⟩ := h xs rest last hxs hrest
  have hword : (⟨xs ++ rest, last⟩ : Stream).atWord w = false := by
    have hfront := hne _ (hO.front hxs hrest)
    by_contra hat
    simp only [Stream.atWord, Stream.sees, Bool.and_eq_true, Bool.not_eq_false] at hat
    exact hfront (of_decide_eq_true hat.1) (of_decide_eq_true hat.2)
  exact ⟨last', reads_bind.mpr ⟨false, _, reads_acceptWord_false.mpr ⟨hword, rfl⟩, hread⟩⟩

/-- A loop may take a turn more than there are tokens. -/
theorem makes_rounds {k : Nat → Reader β} (h : ∀ n, ls.length < n → Makes F (k n) ls b) :
    Makes F (get >>= fun u => k (u.rest.length + 1)) ls b := by
  intro xs rest last hxs hrest
  have hlen : ls.length ≤ (xs ++ rest).length := by
    rw [← hxs, List.length_map, List.length_append]
    exact Nat.le_add_right _ _
  obtain ⟨last', hread⟩ := h _ (Nat.lt_succ_of_le hlen) xs rest last hxs hrest
  exact ⟨last', reads_bind.mpr ⟨_, _, reads_get.mpr ⟨rfl, rfl⟩, hread⟩⟩

end Reader

namespace Parser

open Grammar (type exists_yields_type)
open Reader (Makes)

variable {F : Lexeme → Prop} {ps qs : List Param} {p : Param} {x : String} {f : Func} {m : Module} {tokens : List Token}
  {s : Symbols} {ts : List Ty}

def Item {α : Type} (w : String) (P : α → List Lexeme → Prop) (a : α) (ls : List Lexeme) : Prop :=
  ∃ more, ls = (.ident, ofString w) :: more ∧ P a more

/-! ### Heads of functions -/

def paramText (p : Param) : String := "%" ++ p.name ++ ": " ++ Ty.textOf p.ty

theorem spells_param {u : Ty} (hname : IsName p.name) (hu : p.ty = some u) {ls : List Lexeme}
    (htype : Spells (ofString u.text) ls) :
    Spells (ofString (paramText p)) ((.local, ofString p.name) :: (.colon, [58]) :: ls) := by
  have htext : paramText p = ("%" ++ p.name) ++ (":" ++ (" " ++ u.text)) := by
    rw [paramText, hu, show ": " = ":" ++ " " from rfl]
    simp only [String.append_assoc]
    rfl
  rw [htext]
  refine spells_cons ?_ (spells_mark rfl rfl (spells_blank htype)) (Lexer.breaks_append rfl (by decide) _)
  rw [Bytes.ofString_append]
  exact Lexer.spells_local hname.octets

theorem makes_param {u : Ty} {ls ms : List Lexeme} {n : Nat} (hname : IsName p.name) (hu : p.ty = some u)
    (htype : Reader.Yields type ls u) (hnew : p.name ∉ ps.map (·.name))
    (hmore : Makes F (do
      if !(← Reader.sees .rparen) then let _ ← Reader.expect .comma
      params n (ps ++ [p])) ms qs) :
    Makes F (params (n + 1) ps) ((.local, ofString p.name) :: (.colon, [58]) :: (ls ++ ms)) qs := by
  unfold params
  refine Reader.makes_sees (p := false) (O := (·.1 = .local)) rfl (fun l hl => by simp [hl]) ?_
  refine Reader.makes_expect (by decide) fun y hk hy => ?_
  have hword : y.word = p.name := by rw [Token.word, hy, hname.toText_octets]
  have hany : ¬(ps.any fun x => decide (x.name = y.word)) = true := by
    rw [hword]
    simpa using hnew
  rw [if_neg hany]
  refine Reader.makes_expect (by decide) fun _ _ _ => htype.makes.bind (leads_true _ _) ?_
  have hp : ({ name := y.word, ty := some u } : Param) = p := by rw [hword, ← hu]
  rw [hp]
  exact hmore

/-- Parameters behind others, in front of the closing mark. -/
theorem exists_params (hps : ∀ p ∈ ps, IsName p.name ∧ ∃ u, p.ty = some u ∧ u.Readable) :
    ∃ ls, Spells (ofString (", ".intercalate (ps.map paramText))) ls ∧ ∀ n done, ls.length < n →
      ((done ++ ps).map (·.name)).Nodup → Makes (·.1 = .rparen) (params n done) ls (done ++ ps) := by
  have hend : ∀ n done, 0 < n → Makes (·.1 = .rparen) (params n done) [] done := by
    intro n done hn
    obtain ⟨n, rfl⟩ := Nat.exists_eq_add_of_le' hn
    unfold params
    exact Reader.makes_sees (p := true) (leads_nil _) (fun l hl => decide_eq_true hl) (Reader.makes_pure done)
  induction ps with
  | nil => exact ⟨[], spells_empty, fun n done hn _ => by rw [List.append_nil]; exact hend n done hn⟩
  | cons p ps ih =>
    obtain ⟨⟨hname, u, hu, hreadable⟩, hps⟩ := List.forall_mem_cons.mp hps
    obtain ⟨ls, hspell, hread⟩ := ih hps
    obtain ⟨l, more, htype, -, hyields⟩ := exists_yields_type hreadable
    have hparam := spells_param hname hu htype
    have hnew : ∀ done, ((done ++ p :: ps).map (·.name)).Nodup → p.name ∉ done.map (·.name) := by
      intro done hdistinct hmem
      rw [List.map_append] at hdistinct
      exact List.disjoint_of_nodup_append hdistinct hmem (List.mem_cons_self ..)
    cases ps with
    | nil =>
      refine ⟨_, by simpa using hparam, fun n done hn hdistinct => ?_⟩
      obtain ⟨n, rfl⟩ := Nat.exists_eq_add_of_le' (Nat.zero_lt_of_lt hn)
      simp only [List.length_cons] at hn
      rw [← List.append_nil (l :: more)]
      refine makes_param hname hu hyields (hnew done hdistinct) ?_
      exact Reader.makes_sees (p := true) (leads_nil _) (fun l hl => decide_eq_true hl) (hend n _ (by omega))
    | cons q qs =>
      have hspells := spells_append hparam (spells_comma hspell) (Lexer.breaks_comma _)
      rw [List.map_cons, ← String.append_assoc, ← String.intercalate_cons_cons, ← List.map_cons, ← List.map_cons]
        at hspells
      refine ⟨_, hspells, fun n done hn hdistinct => ?_⟩
      obtain ⟨n, rfl⟩ := Nat.exists_eq_add_of_le' (Nat.zero_lt_of_lt hn)
      simp only [List.length_append, List.length_cons] at hn
      refine makes_param hname hu hyields (hnew done hdistinct) ?_
      refine Reader.makes_sees (p := false) (O := (·.1 = .comma)) rfl (fun l hl => by simp [hl]) ?_
      refine Reader.makes_expect (by decide) fun _ _ _ => ?_
      have := hread n (done ++ [p]) (by omega)
      rw [List.append_assoc] at this
      exact this hdistinct

def retText (t : Ty) : String := if t.isVoid then "" else " -> " ++ t.text

theorem exists_ret {α : Type} {t : Ty} (ht : t.Readable) : Lexer.Breaks (ofString (retText t)) ∧ ∃ ls,
    Spells (ofString (retText t)) ls ∧ ∀ (F : Lexeme → Prop) (k : Ty → Reader α) ms b,
      Leads (·.1 ≠ .arrow) F ms → Makes F (k t) ms b →
      Makes F (Reader.accept .arrow >>= fun ok => if ok then type >>= k else pure .void >>= k) (ls ++ ms) b := by
  unfold retText
  split
  · next hvoid =>
    have hnone : t = .void := by
      cases t <;> first | rfl | cases hvoid
    subst hnone
    refine ⟨Lexer.breaks_nil, [], spells_empty, fun F k ms b hms hk => ?_⟩
    exact Reader.makes_accept_not hms (fun _ hl => hl) hk
  · obtain ⟨l, more, htype, -, hyields⟩ := exists_yields_type ht
    refine ⟨Lexer.breaks_append rfl (by decide) _, (.arrow, [45, 62]) :: l :: more, ?_, fun F k ms b _ hk => ?_⟩
    · rw [show " -> " = " " ++ ("->" ++ " ") from rfl, String.append_assoc, String.append_assoc]
      refine spells_blank ?_
      rw [Bytes.ofString_append]
      exact Lexer.closed_arrow.append_spells (spells_blank htype)
    · exact Reader.makes_accept (by decide) (hyields.makes.bind (leads_true _ _) hk)

theorem exists_header (hf : f.Headed) : ∃ ls,
    Closed (ofString ("@" ++ f.name ++ "(" ++ ", ".intercalate (f.params.map paramText) ++ ")" ++ retText f.ret ++
      " \x7b\n")) ls ∧
    ∀ m : Module, m.func? f.name = none →
      Makes (fun _ => True) (header m) ls { name := f.name, params := f.params, ret := f.ret } := by
  obtain ⟨ls, hspell, hread⟩ := exists_params hf.params
  obtain ⟨-, ms, hret, hmore⟩ := exists_ret (α := Func) hf.ret
  refine ⟨(.global, ofString f.name) :: (.lparen, [40]) :: (ls ++ (.rparen, [41]) :: (ms ++ [(.lbrace, [123])])), ?_,
    fun m hnew => ?_⟩
  · have hbrace := (Lexer.closed_punctuation (rfl : Lexer.punctuation? 123 = some .lbrace)).append Lexer.closed_newline
    have htail := hret.close hbrace.behind_blank (Lexer.breaks_cons (by decide)) (List.cons_ne_nil _ _)
    have hclosed := (Lexer.closed_punctuation (rfl : Lexer.punctuation? 41 = some .rparen)).append htail
    have hparams := hspell.close hclosed (Lexer.breaks_cons (by decide)) (List.cons_ne_nil _ _)
    have hopen := (Lexer.closed_punctuation (rfl : Lexer.punctuation? 40 = some .lparen)).append hparams
    have hall := (Lexer.spells_global hf.name.octets).close hopen (Lexer.breaks_cons (by decide)) (List.cons_ne_nil _ _)
    simp only [Bytes.ofString_append, List.append_assoc]
    exact hall
  · unfold header
    refine Reader.makes_expect (by decide) fun y _ hy => ?_
    have hword : y.word = f.name := by rw [Token.word, hy, hf.name.toText_octets]
    rw [hword, hnew]
    refine Reader.makes_expect (by decide) fun _ _ _ => ?_
    refine Reader.makes_rounds (k := fun n => params n [] >>= _) fun n hn => ?_
    rw [List.length_append] at hn
    refine (hread n [] (by omega) hf.distinct).bind (M := (·.1 = .rparen)) rfl ?_
    refine Reader.makes_expect (by decide) fun _ _ _ => ?_
    refine hmore _ _ _ _ (by simp [Leads]) ?_
    refine Reader.makes_expect (by decide) fun _ _ _ => ?_
    exact Reader.makes_pure _

/-! ### Functions -/

def TellsFunc (s : Symbols) (f : Func) (ls : List Lexeme) : Prop :=
  ∃ head lss, ls = head ++ lss.flatten ++ [(.rbrace, [125])] ∧ List.Forall₂ (f.TellsBlock s) f.blocks.toList lss ∧
    ∀ m : Module, m.func? f.name = none →
      Makes (fun _ => True) (header m) head { name := f.name, params := f.params, ret := f.ret }

theorem paramTexts_eq {texts : List String} (hf : f.Headed) (hx : (f.params.mapIdxM fun n p => do
      return (← Printer.value (some s) f (.arg n)) ++ ": " ++ Ty.textOf p.ty) = .ok texts) :
    texts = f.params.map paramText := by
  have htexts := Checked.forall₂_of_mapIdxM hx
  have heach : List.Forall₂ (fun p x => paramText p = x) f.params texts := htexts.imp fun p x hn => by
    obtain ⟨n, hp, hx⟩ := hn
    obtain ⟨y, hy, hx⟩ := Checked.bind_eq_ok.mp hx
    cases hx
    have hlt := (List.getElem?_eq_some_iff.mp hp).1
    have hne := (hf.params p (List.mem_of_getElem? hp)).1.ne_empty
    rw [Printer.value, Func.valueName, if_pos (by omega), element_eq_ok.mpr hp, Checked.ok_bind, if_pos hne] at hy
    cases hy
    rfl
  rw [← List.forall₂_map_left_iff, List.forall₂_eq_eq_eq] at heach
  exact heach.symm

theorem exists_closed_func (hs : s.Formed) (hf : f.Read tokens s)
    (hrecover : ∀ id, ∀ i ∈ f.instr? id, i.Recoverable tokens f) (hx : Printer.func (some s) f = .ok x) :
    ∃ ls, Closed (ofString x) ls ∧ Item "func" (TellsFunc s) f ls := by
  obtain ⟨texts, htexts, hx⟩ := Checked.bind_eq_ok.mp hx
  obtain ⟨blocks, hblocks, hx⟩ := Checked.bind_eq_ok.mp hx
  cases hx
  cases paramTexts_eq hf.headed htexts
  obtain ⟨head, hhead, hread⟩ := exists_header hf.headed
  have htold : List.Forall₂ (fun blk x => ∃ ls, Closed (ofString x) ls ∧ f.TellsBlock s blk ls)
      f.blocks.toList blocks :=
    (Checked.forall₂_of_mapIdxM hblocks).imp fun blk x hn => by
      obtain ⟨n, hblk, hx⟩ := hn
      exact exists_closed_block hs hf hrecover (Func.block?_ofNat.trans (by simpa using hblk)) hx
  obtain ⟨lss, hlss, hclosed⟩ := exists_closed_join htold
  refine ⟨_, ?_, head ++ lss.flatten ++ [(.rbrace, [125])], rfl, head, lss, rfl, hlss, hread⟩
  have hbrace := (Lexer.closed_punctuation (rfl : Lexer.punctuation? 125 = some .rbrace)).append Lexer.closed_newline
  have hword : Bytes.IsWord (ofString "func") := Bytes.isWord_of_all (by decide)
  have hfunc := (Lexer.spells_word hword).close ((hhead.append hclosed).append hbrace).behind_blank
    (Lexer.breaks_cons (by decide)) (List.cons_ne_nil _ _)
  have htext : "func @" = "func" ++ (" " ++ "@") := rfl
  rw [htext]
  simp only [Bytes.ofString_append, List.append_assoc] at hfunc ⊢
  exact hfunc

section

variable {ts : List Token} {file : String} {st : State} {xs rest : List Token} {last : Option Nat} {ls : List Lexeme}
  {b c : Body} {u v : Stream}

/-- The state in which the reading of a body starts. -/
def Body.start (file : String) (s : Symbols) (f : Func) : Body where
  func := { name := f.name, params := f.params, ret := f.ret, file }
  names := f.outset s

theorem Body.stands_start (hf : f.Headed) (hu : Passes ts u.rest) :
    (Body.start file s f).Stands ts s f [] u where
  sound := by
    refine State.sound_opening ts (f := { name := f.name, params := f.params, ret := f.ret }) s ?_ file rfl
    exact hf.congr rfl rfl rfl
  passes := hu
  retraces := {
    name := rfl
    params := rfl
    ret := rfl
    symbols := rfl
    blocks := rfl
    labels := fun c blk hc => by simp [Body.start, Func.block?] at hc
    instrs := fun id i hi => by simp [Body.start, Func.instr?] at hi
    current := fun h => absurd rfl h
    errors := rfl }

/-- A closing brace ends the body. -/
theorem Body.Goes.stop (h : b.Goes u c v) {rest : List Token} (hv : v.rest = y :: rest) (hy : y.kind = .rbrace)
    {n : Nat} (hn : u.rest.length ≤ n) : body n b u = .ok (c, v) := by
  obtain ⟨m, hm, he⟩ := h n hn
  rw [hv] at hm
  obtain ⟨m, rfl⟩ := Nat.exists_eq_add_of_le' (Nat.zero_lt_of_lt hm)
  rw [he, body, if_pos (by simp [Stream.sees, Stream.cur, hv, hy])]
  rfl

theorem Body.finish_errors_nil {start : Token} (h : b.finish start = .ok c) (hc : c.errors = []) : b.errors = [] := by
  have hnone : (b.fixups.foldl Body.resolve b).errors = [] := by
    by_contra he
    unfold Body.finish at h
    dsimp only at h
    rw [if_pos he] at h
    cases h
    exact he hc
  exact Body.foldl_resolve_errors_nil hnone

theorem State.errors_of_func {t : State} {start : Token} (h : st.func file start = .ok t) (ht : t.errors = []) :
    st.errors = [] ∧ ∃ g u c v, (header st.module).Reads st.stream g u ∧
      body (u.rest.length + 1) { func := { g with file }, names := g.outset st.module.symbols } u = .ok (c, v) ∧
      c.errors = [] := by
  obtain ⟨⟨x, u⟩, hattempt, h⟩ := Checked.bind_eq_ok.mp h
  rcases Reader.attempt_eq_ok hattempt with ⟨g, rfl, hhead⟩ | ⟨e, rfl⟩
  · obtain ⟨⟨c, v⟩, hbody, h⟩ := Checked.bind_eq_ok.mp h
    obtain ⟨⟨x, w⟩, hattempt, h⟩ := Checked.bind_eq_ok.mp h
    rcases Reader.attempt_eq_ok hattempt with ⟨y, rfl, -⟩ | ⟨e, rfl⟩
    · obtain ⟨d, hd, h⟩ := Checked.bind_eq_ok.mp h
      cases h
      obtain ⟨hst, hde⟩ := List.append_eq_nil_iff.mp ht
      exact ⟨hst, g, u, c, v, hhead, hbody, Body.finish_errors_nil hd hde⟩
    · cases h
      simp [State.bail] at ht
  · cases h
    simp [State.bail] at ht

theorem State.item_errors_nil {t : State} (h : st.item file = .ok t) (ht : t.errors = []) : st.errors = [] := by
  have hbail : ∀ {u : State} {e stream}, (pure (u.bail e stream) : Checked State) = .ok t → st.errors = [] := by
    intro u e stream he
    cases he
    simp [State.bail] at ht
  unfold State.item at h
  dsimp only at h
  split at h
  · exact hbail h
  · split at h
    · obtain ⟨⟨x, u⟩, -, h⟩ := Checked.bind_eq_ok.mp h
      cases x with
      | ok g =>
        cases h
        exact ht
      | error e => exact hbail h
    · obtain ⟨⟨x, u⟩, -, h⟩ := Checked.bind_eq_ok.mp h
      cases x with
      | ok d =>
        cases h
        exact ht
      | error e => exact hbail h
    · exact (errors_of_func h ht).1
    · exact hbail h

theorem State.items_errors_nil {t : State} {n : Nat} (h : st.items file n = .ok t) (ht : t.errors = []) :
    st.errors = [] := by
  induction n generalizing st with
  | zero => cases h
  | succ n ih =>
    unfold State.items at h
    split at h
    · cases h
      exact ht
    · obtain ⟨u, hu, h⟩ := Checked.bind_eq_ok.mp h
      exact item_errors_nil hu (ih h)

section

variable (hproper : ∀ x ∈ ts, x.Proper) (hs : s.Formed) (hf : f.Read tokens s)
  (htold : TellsFunc s f ls) (hxs : xs.map Token.bare = ls) (hstream : st.stream = ⟨xs ++ rest, last⟩)
  (hpass : Passes ts st.stream.rest) (hsymbols : st.module.symbols = s) (hnew : st.module.func? f.name = none)

include hf htold hxs hstream hpass hnew

theorem State.exists_opening (file : String) : ∃ ws y last' lss, y.kind = .rbrace ∧ ws.map Token.bare = lss.flatten ∧
    List.Forall₂ (f.TellsBlock s) f.blocks.toList lss ∧
    (header st.module).Reads st.stream { name := f.name, params := f.params, ret := f.ret }
      ⟨ws ++ y :: rest, last'⟩ ∧
    (Body.start file s f).Stands ts s f [] ⟨ws ++ y :: rest, last'⟩ := by
  obtain ⟨head, lss, rfl, hblocks, hread⟩ := htold
  obtain ⟨ws, zs, rfl, hws, hzs⟩ := List.map_eq_append_iff.mp hxs
  obtain ⟨ys, ws, rfl, hys, hws⟩ := List.map_eq_append_iff.mp hws
  obtain ⟨y, rfl, hy⟩ := List.map_eq_singleton_iff.mp hzs
  obtain ⟨last', hhead⟩ := hread st.module hnew ys (ws ++ y :: rest) last hys trivial
  rw [List.append_assoc, List.append_assoc, List.singleton_append] at hstream
  rw [← hstream] at hhead
  exact ⟨ws, y, last', lss, (Prod.mk.inj hy).1, hws, hblocks, hhead,
    Body.stands_start hf.headed (hpass.trans ((forward_header (n := 0) st.module).ok hhead))⟩

variable (file st)

include hproper hs hsymbols

theorem State.func_retold (hapart : f.LabelsApart) (start : Token) : ∃ g last',
    st.func file start = .ok ({ st with stream := ⟨rest, last'⟩ }.addFunc g) ∧ Passes ts rest ∧
      g.unplaced = f.unplaced := by
  obtain ⟨ws, y, last₁, lss, hy, hws, hblocks, hhead, hstart⟩ := exists_opening hf htold hxs hstream hpass hnew file
  obtain ⟨c, last₂, hgoes, hc⟩ := hstart.blocks hproper hblocks hs hf (List.nil_append _).symm hapart hws hy
  obtain ⟨d, hd, herrors, hunplaced⟩ := hc.finish hf start
  have hbody : body ((ws ++ y :: rest).length + 1) (Body.start file s f) ⟨ws ++ y :: rest, last₁⟩ =
      .ok (c, ⟨y :: rest, last₂⟩) := hgoes.stop rfl hy (Nat.le_succ _)
  have hclose : (Reader.expect .rbrace).Reads ⟨y :: rest, last₂⟩ y ⟨rest, some y.line⟩ :=
    Reader.reads_expect.mpr ⟨hy, rfl, Stream.advance_cons (by simp [hy])⟩
  have hpast := hc.passes.trans ((Reader.forward_expect (n := 0) .rbrace).ok hclose)
  refine ⟨d.func, some y.line, ?_, hpast, hunplaced⟩
  unfold State.func
  rw [hhead.attempt, Checked.ok_bind, hsymbols]
  refine Checked.bind_eq_ok.mpr ⟨_, hbody, ?_⟩
  dsimp only
  rw [hclose.attempt, Checked.ok_bind]
  refine Checked.bind_eq_ok.mpr ⟨d, hd, ?_⟩
  rw [herrors, List.append_nil]
  rfl

theorem State.labelsApart {t : State} {start : Token} (h : st.func file start = .ok t) (ht : t.errors = []) :
    f.LabelsApart := by
  obtain ⟨ws, y, last₁, lss, hy, hws, hblocks, hhead, hstart⟩ := exists_opening hf htold hxs hstream hpass hnew file
  obtain ⟨-, g, u, c, v, hrun, hbody, hc⟩ := errors_of_func h ht
  cases (show EStateM.Result.ok _ _ = _ from hhead.symm.trans hrun)
  rw [hsymbols] at hbody
  exact hstart.labelsApart hproper hblocks hs hf (List.nil_append _).symm hws hy (Nat.le_succ _) hbody hc

end

end

/-! ### Globals and declarations -/

structure EndsItem (l : Lexeme) : Prop where
  arrow : l.1 ≠ .arrow
  word : l.1 = .ident → l.2.toText ∉ ["const", "readnone", "readonly"]

theorem EndsItem.ne_word {l : Lexeme} (h : EndsItem l) {w : String} (hw : w ∈ ["const", "readnone", "readonly"])
    (hk : l.1 = .ident) : l.2.toText ≠ w := fun he => h.word hk (he ▸ hw)

def itemWords : List String := ["global", "declare", "func"]

theorem isName_of_itemWord {w : String} (hw : w ∈ itemWords) : IsName w := by
  obtain rfl | rfl | rfl : w = "global" ∨ w = "declare" ∨ w = "func" := by simpa [itemWords] using hw
  all_goals exact (isWord_of_octets (Bytes.isWord_of_all (by decide))).isName

theorem endsItem_word {w : String} (hw : w ∈ itemWords) : EndsItem (.ident, ofString w) where
  arrow := by simp
  word := by
    rintro -
    rw [(isName_of_itemWord hw).toText_octets]
    revert w
    decide

theorem endsItem_eof : EndsItem (.eof, []) where
  arrow := by decide
  word := by simp

def TellsGlobal (g : Global) (ls : List Lexeme) : Prop :=
  ∀ m : Module, m.symbols.globalIndex? g.name = none → Makes EndsItem (global m) ls g

theorem exists_closed_global {g : Global} (hname : IsName g.name) {t : Ty} (ht : g.ty = some t)
    (hreadable : t.Readable) :
    ∃ ls, Closed (ofString (Printer.global g)) ls ∧ Item "global" TellsGlobal g ls := by
  obtain ⟨l, more, htype, -, hyields⟩ := exists_yields_type hreadable
  have hconst : (ofString "const").IsWord := Bytes.isWord_of_all (by decide)
  obtain ⟨hbreaks, hoption⟩ := exists_option hconst g.isConst
  refine ⟨_, ?_, (.global, ofString g.name) :: (.colon, [58]) :: ((l :: more) ++
    optional g.isConst "const"), rfl, fun m hnew => ?_⟩
  · have hword : (ofString "global").IsWord := Bytes.isWord_of_all (by decide)
    have hline := hoption.close Lexer.closed_newline (Lexer.breaks_cons (by decide)) (List.cons_ne_nil _ _)
    have hty := htype.close hline (hbreaks.append (Lexer.breaks_cons (by decide))) (by simp)
    have hcolon :=
      ((Lexer.closed_punctuation (rfl : Lexer.punctuation? 58 = some .colon)).append hty.behind_blank).behind_blank
    have hglobal := (Lexer.spells_global hname.octets).close hcolon (Lexer.breaks_cons (by decide))
      (List.cons_ne_nil _ _)
    have hall := (Lexer.spells_word hword).close hglobal.behind_blank (Lexer.breaks_cons (by decide))
      (List.cons_ne_nil _ _)
    rw [Printer.global, ht, show "global @" = "global" ++ (" " ++ "@") from rfl,
      show " const" = " " ++ "const" from rfl]
    simp only [Bytes.ofString_append, List.append_assoc, List.append_nil] at hall ⊢
    exact hall
  · unfold global
    refine Reader.makes_expect (by decide) fun y _ hy => ?_
    have hword : y.word = g.name := by rw [Token.word, hy, hname.toText_octets]
    rw [hword, hnew]
    refine Reader.makes_expect (by decide) fun _ _ _ => hyields.makes.bind (leads_true _ _) ?_
    obtain ⟨name, ty, isConst⟩ := g
    obtain rfl : ty = some t := ht
    cases isConst with
    | true => exact Reader.makes_acceptWord (isWord_of_octets hconst).isName (Reader.makes_pure _)
    | false =>
      refine Reader.makes_acceptWord_not (leads_nil _) (fun l hl => hl.ne_word (by simp)) ?_
      exact Reader.makes_pure _

/-- Types behind others, in front of the closing mark. -/
theorem exists_types (hts : ∀ t ∈ ts, t.Readable) :
    ∃ ls, Spells (ofString (", ".intercalate (ts.map Ty.text))) ls ∧ ∀ n done, ls.length < n →
      Makes (·.1 = .rparen) (Reader.commaList.go .rparen type n done) ls (done.reverse ++ ts) := by
  have hend : ∀ n done, 0 < n →
      Makes (·.1 = .rparen) (Reader.commaList.go .rparen type n done) [] done.reverse := by
    intro n done hn
    obtain ⟨n, rfl⟩ := Nat.exists_eq_add_of_le' hn
    rw [Reader.commaList.go]
    exact Reader.makes_sees (p := true) (leads_nil _) (fun l hl => decide_eq_true hl) (Reader.makes_pure done.reverse)
  induction ts with
  | nil => exact ⟨[], spells_empty, fun n done hn => by rw [List.append_nil]; exact hend n done hn⟩
  | cons t ts ih =>
    obtain ⟨ht, hts⟩ := List.forall_mem_cons.mp hts
    obtain ⟨ls, hspell, hread⟩ := ih hts
    obtain ⟨l, more, htype, hopens, hyields⟩ := exists_yields_type ht
    have hsees : ∀ k : TokenKind, l.1 = k → decide (k = .rparen) = false := by
      rintro _ rfl
      exact decide_eq_false fun he => hopens.kind (by simp [he])
    cases ts with
    | nil =>
      refine ⟨_, by simpa using htype, fun n done hn => ?_⟩
      obtain ⟨n, rfl⟩ := Nat.exists_eq_add_of_le' (Nat.zero_lt_of_lt hn)
      rw [Reader.commaList.go, ← List.append_nil (l :: more)]
      refine Reader.makes_sees (p := false) (O := (· = l)) rfl (by rintro _ rfl; exact hsees _ rfl) ?_
      refine hyields.makes.bind (leads_true _ _) ?_
      refine Reader.makes_sees (p := true) (leads_nil _) (fun l hl => decide_eq_true hl) ?_
      have := hend n (t :: done) (Nat.zero_lt_of_lt (Nat.lt_of_succ_lt_succ hn))
      rwa [List.reverse_cons] at this
    | cons u us =>
      have hspells := spells_append htype (spells_comma hspell) (Lexer.breaks_comma _)
      rw [List.map_cons, ← String.append_assoc, ← String.intercalate_cons_cons, ← List.map_cons, ← List.map_cons]
        at hspells
      refine ⟨_, hspells, fun n done hn => ?_⟩
      obtain ⟨n, rfl⟩ := Nat.exists_eq_add_of_le' (Nat.zero_lt_of_lt hn)
      simp only [List.length_append, List.length_cons] at hn
      rw [Reader.commaList.go]
      refine Reader.makes_sees (p := false) (O := (· = l)) rfl (by rintro _ rfl; exact hsees _ rfl) ?_
      refine hyields.makes.bind (leads_true _ _) ?_
      refine Reader.makes_sees (p := false) (O := (·.1 = .comma)) rfl (fun l hl => by simp [hl]) ?_
      refine Reader.makes_expect (by decide) fun _ _ _ => ?_
      have := hread n (t :: done) (by omega)
      rwa [List.reverse_cons, List.append_assoc] at this

def attributeWords (readNone readOnly : Bool) : List Lexeme :=
  optional readNone "readnone" ++ optional readOnly "readonly"

theorem makes_attributes {d : Decl} {n : Nat} (hn : (attributeWords d.readNone d.readOnly).length < n) :
    Makes EndsItem (declAttributes n { d with readNone := false, readOnly := false })
      (attributeWords d.readNone d.readOnly) d := by
  obtain ⟨name, params, ret, readNone, readOnly⟩ := d
  have hreadNone : IsName "readnone" := (isWord_of_octets (Bytes.isWord_of_all (by decide))).isName
  have hreadOnly : IsName "readonly" := (isWord_of_octets (Bytes.isWord_of_all (by decide))).isName
  have hend : ∀ n (d : Decl), 0 < n → Makes EndsItem (declAttributes n d) [] d := by
    intro n d hn
    obtain ⟨n, rfl⟩ := Nat.exists_eq_add_of_le' hn
    refine Reader.makes_acceptWord_not (leads_nil _) (fun l hl => hl.ne_word (by simp)) ?_
    exact Reader.makes_acceptWord_not (leads_nil _) (fun l hl => hl.ne_word (by simp)) (Reader.makes_pure d)
  have hsecond : ∀ n (d : Decl), (attributeWords false readOnly).length < n → d.readOnly = false →
      Makes EndsItem (declAttributes n d) (attributeWords false readOnly) { d with readOnly } := by
    intro n d hn hd
    cases readOnly with
    | false =>
      have hsame : { d with readOnly := false } = d := by rw [← hd]
      rw [hsame]
      exact hend n d hn
    | true =>
      obtain ⟨n, rfl⟩ := Nat.exists_eq_add_of_le' (Nat.zero_lt_of_lt hn)
      refine Reader.makes_acceptWord_not (O := (· = (.ident, ofString "readonly"))) rfl ?_ ?_
      · rintro _ rfl -
        rw [hreadOnly.toText_octets]
        decide
      exact Reader.makes_acceptWord hreadOnly (hend n _ (Nat.lt_of_succ_lt_succ hn))
  cases readNone with
  | false => exact hsecond n _ hn rfl
  | true =>
    obtain ⟨n, rfl⟩ := Nat.exists_eq_add_of_le' (Nat.zero_lt_of_lt hn)
    exact Reader.makes_acceptWord hreadNone (hsecond n _ (Nat.lt_of_succ_lt_succ hn) rfl)

def TellsDecl (d : Decl) (ls : List Lexeme) : Prop := Makes EndsItem declare ls d

theorem exists_closed_decl {d : Decl} (hname : IsName d.name) {t : Ty} (ht : d.ret = some t) (hreadable : t.Readable)
    (hparams : ∀ p ∈ d.params, ∃ u, p = some u ∧ u.Readable) :
    ∃ ls, Closed (ofString (Printer.decl d)) ls ∧ Item "declare" TellsDecl d ls := by
  obtain ⟨us, hus, htypes⟩ : ∃ us : List Ty, d.params = us.map some ∧ ∀ u ∈ us, u.Readable := by
    refine ⟨d.params.map (·.getD .void), ?_, fun u hu => ?_⟩
    · rw [List.map_map, List.map_congr_left, List.map_id']
      rintro _ hp
      obtain ⟨u, rfl, -⟩ := hparams _ hp
      rfl
    · obtain ⟨_, hp, rfl⟩ := List.mem_map.mp hu
      obtain ⟨u, rfl, hreadable⟩ := hparams _ hp
      exact hreadable
  obtain ⟨ls, hspell, hread⟩ := exists_types htypes
  obtain ⟨hbreaks, ms, hret, hmore⟩ := exists_ret (α := Decl) hreadable
  refine ⟨_, ?_, (.global, ofString d.name) :: (.lparen, [40]) :: (ls ++ (.rparen, [41]) :: (ms ++
    attributeWords d.readNone d.readOnly)), rfl, ?_⟩
  · have hword : (ofString "declare").IsWord := Bytes.isWord_of_all (by decide)
    have hnone := exists_option (w := "readnone") (Bytes.isWord_of_all (by decide)) d.readNone
    have honly := exists_option (w := "readonly") (Bytes.isWord_of_all (by decide)) d.readOnly
    have hline := honly.2.close Lexer.closed_newline (Lexer.breaks_cons (by decide)) (List.cons_ne_nil _ _)
    have hbreak := honly.1.append (Lexer.breaks_cons (by decide) : Lexer.Breaks [10])
    have hattributes := hnone.2.close hline hbreak (by simp)
    have hresult := hret.close hattributes (hnone.1.append hbreak) (by simp)
    have hclose := (Lexer.closed_punctuation (rfl : Lexer.punctuation? 41 = some .rparen)).append hresult
    have hlist := hspell.close hclose (Lexer.breaks_cons (by decide)) (List.cons_ne_nil _ _)
    have hopen := (Lexer.closed_punctuation (rfl : Lexer.punctuation? 40 = some .lparen)).append hlist
    have hname := (Lexer.spells_global hname.octets).close hopen (Lexer.breaks_cons (by decide)) (List.cons_ne_nil _ _)
    have hall := (Lexer.spells_word hword).close hname.behind_blank (Lexer.breaks_cons (by decide))
      (List.cons_ne_nil _ _)
    have htexts : d.params.map Ty.textOf = us.map Ty.text := by
      rw [hus, List.map_map]
      rfl
    have hrets : (if Ty.voidOrNone d.ret then "" else " -> " ++ Ty.textOf d.ret) = retText t := by
      rw [ht]
      rfl
    delta Printer.decl
    rw [htexts, hrets, show "declare @" = "declare" ++ (" " ++ "@") from rfl,
      show " readnone" = " " ++ "readnone" from rfl, show " readonly" = " " ++ "readonly" from rfl]
    simp only [Bytes.ofString_append, List.append_assoc, List.append_nil] at hall ⊢
    exact hall
  · have hlist : Makes (·.1 = .rparen) (Reader.commaList .rparen type) ls us :=
      Reader.makes_rounds fun n hn => hread n [] hn
    have hattributes : Leads (·.1 ≠ .arrow) EndsItem (attributeWords d.readNone d.readOnly) := by
      have hident : TokenKind.ident ≠ .arrow := by decide
      cases d.readNone with
      | true => exact hident
      | false =>
        cases d.readOnly with
        | true => exact hident
        | false => exact fun _ hl => hl.arrow
    unfold TellsDecl declare
    refine Reader.makes_expect (by decide) fun y _ hy => ?_
    have hword : y.word = d.name := by rw [Token.word, hy, hname.toText_octets]
    rw [hword]
    refine Reader.makes_expect (by decide) fun _ _ _ => hlist.bind (M := (·.1 = .rparen)) rfl ?_
    refine Reader.makes_expect (by decide) fun _ _ _ => hmore _ _ _ _ hattributes ?_
    refine Reader.makes_rounds (k := fun n => declAttributes n _) fun n hn => ?_
    rw [← hus, ← ht]
    exact makes_attributes hn

namespace State

variable {ts : List Token} {file : String} {st t : State} {xs rest : List Token} {last : Option Nat} {ls : List Lexeme}
  {fs : List Func}

/-! ### Items -/

def Goes (file : String) (st t : State) : Prop :=
  ∀ n, st.stream.rest.length ≤ n → ∃ m, t.stream.rest.length ≤ m ∧ st.items file n = t.items file m

theorem Goes.refl (file : String) (st : State) : Goes file st st := fun n hn => ⟨n, hn, rfl⟩

theorem Goes.trans {u : State} (h : Goes file st t) (h' : Goes file t u) : Goes file st u := by
  intro n hn
  obtain ⟨m, hm, he⟩ := h n hn
  obtain ⟨k, hk, he'⟩ := h' m hm
  exact ⟨k, hk, he.trans he'⟩

theorem items_of_ident (file : String) {n : Nat} (hk : st.stream.cur.kind = .ident) (hn : st.stream.rest.length ≤ n) :
    ∃ m, n = m + 1 ∧ st.items file n = st.item file >>= fun u => u.items file m := by
  have hmore : st.stream.atEnd = false := by simp [Stream.atEnd, hk]
  have hlen := Stream.length_advance hmore
  obtain ⟨m, rfl⟩ := Nat.exists_eq_add_of_le' (show 1 ≤ n by omega)
  exact ⟨m, rfl, by rw [items, if_neg (by simp [hmore])]⟩

theorem goes_item (h : st.item file = .ok t) (hk : st.stream.cur.kind = .ident)
    (hlt : t.stream.rest.length < st.stream.rest.length) : Goes file st t := by
  intro n hn
  obtain ⟨m, rfl, he⟩ := items_of_ident file hk hn
  refine ⟨m, by omega, ?_⟩
  rw [he, h]
  rfl

/-- Reading comes to these tokens, in a state of which `J` is true. -/
def Reaches (file : String) (st : State) (rest : List Token) (J : State → Prop) : Prop :=
  ∃ t last, Goes file st t ∧ t.stream = ⟨rest, last⟩ ∧ J t

theorem Reaches.trans {ws : List Token} {J K : State → Prop} (h : st.Reaches file rest J)
    (h' : ∀ t last, t.stream = ⟨rest, last⟩ → J t → t.Reaches file ws K) : st.Reaches file ws K := by
  obtain ⟨t, last, hgoes, ht, hJ⟩ := h
  obtain ⟨u, last', hgoes', hu, hK⟩ := h' t last ht hJ
  exact ⟨u, last', hgoes.trans hgoes', hu, hK⟩

/-- At the end of the text reading stops. -/
theorem Reaches.stop {J : State → Prop} {n : Nat} {x : Token} (h : st.Reaches file (x :: rest) J) (hx : x.kind = .eof)
    (hn : st.stream.rest.length ≤ n) (hitems : st.items file n = .ok t) : J t := by
  obtain ⟨u, last', hgoes, hu, hJ⟩ := h
  obtain ⟨m, hm, he⟩ := hgoes n hn
  rw [hu] at hm
  obtain ⟨m, rfl⟩ := Nat.exists_eq_add_of_le' (Nat.zero_lt_of_lt hm)
  have hend : u.stream.atEnd = true := decide_eq_true (by rw [hu]; exact hx)
  rw [items, if_pos hend] at he
  cases he.symm.trans hitems
  exact hJ

structure Retraces (ts : List Token) (file : String) (s : Symbols) (fs : List Func) (st : State) : Prop where
  passes : Passes ts st.stream.rest
  name : st.module.name = moduleName file
  symbols : st.module.symbols = s
  funcs : st.module.funcs.map Func.unplaced = fs.map Func.unplaced
  errors : st.errors = []

theorem heads_item {w : String} (hw : w ∈ itemWords) (hstream : st.stream = ⟨xs ++ rest, last⟩)
    (hxs : xs.map Token.bare = (.ident, ofString w) :: ls) : st.stream.cur.kind = .ident ∧ st.stream.cur.word = w ∧
      rest.length < st.stream.rest.length ∧
        ∃ ys last', ys.map Token.bare = ls ∧ st.stream.advance = ⟨ys ++ rest, last'⟩ := by
  obtain ⟨y, ys, rfl, hy, hys⟩ := List.map_eq_cons_iff.mp hxs
  obtain ⟨hk, hword⟩ := Token.word_eq (isName_of_itemWord hw) hy
  rw [hstream]
  refine ⟨hk, hword, ?_, ys, some y.line, hys, Stream.advance_cons (by simp [hk])⟩
  rw [List.cons_append, List.length_cons, List.length_append]
  omega

section

variable (h : st.Retraces ts file s fs) (hstream : st.stream = ⟨xs ++ rest, last⟩)

include h hstream

theorem Retraces.global {g : Global} (htold : TellsGlobal g ls)
    (hxs : xs.map Token.bare = (.ident, ofString "global") :: ls) (hnew : s.globalIndex? g.name = none)
    (hrest : EndsItem (front rest)) :
    st.Reaches file rest (Retraces ts file { s with globals := s.globals ++ [g] } fs) := by
  obtain ⟨hk, hword, hlt, ys, last₁, hys, hafter⟩ := heads_item (by decide) hstream hxs
  obtain ⟨last', hread⟩ := htold st.module (h.symbols ▸ hnew) ys rest last₁ hys hrest
  rw [← hafter] at hread
  have hrun : (Parser.global st.module).Reads st.stream.advance g ⟨rest, last'⟩ := hread
  have hitem : st.item file = .ok { st with
      stream := ⟨rest, last'⟩
      module := { st.module with symbols := { s with globals := s.globals ++ [g] } } } := by
    simp only [State.item, hk, hword, hrun.attempt, h.symbols]
    rfl
  refine ⟨_, last', goes_item hitem hk hlt, rfl, ?_, h.name, rfl, h.funcs, h.errors⟩
  exact h.passes.trans (st.stream.passes_advance.trans ((forward_global (n := 0) st.module).ok hrun))

theorem Retraces.decl {d : Decl} (htold : TellsDecl d ls)
    (hxs : xs.map Token.bare = (.ident, ofString "declare") :: ls) (hrest : EndsItem (front rest)) :
    st.Reaches file rest (Retraces ts file { s with decls := s.decls ++ [d] } fs) := by
  obtain ⟨hk, hword, hlt, ys, last₁, hys, hafter⟩ := heads_item (by decide) hstream hxs
  obtain ⟨last', hread⟩ := htold ys rest last₁ hys hrest
  rw [← hafter] at hread
  have hrun : declare.Reads st.stream.advance d ⟨rest, last'⟩ := hread
  have hitem : st.item file = .ok { st with
      stream := ⟨rest, last'⟩
      module := { st.module with symbols := { s with decls := s.decls ++ [d] } } } := by
    simp only [State.item, hk, hword, hrun.attempt, h.symbols]
    rfl
  refine ⟨_, last', goes_item hitem hk hlt, rfl, ?_, h.name, rfl, h.funcs, h.errors⟩
  exact h.passes.trans (st.stream.passes_advance.trans ((forward_declare (n := 0)).ok hrun))

theorem Retraces.enters (hxs : xs.map Token.bare = (.ident, ofString "func") :: ls) (hnew : f.name ∉ fs.map (·.name)) :
    ∃ ys last', ys.map Token.bare = ls ∧ st.stream.advance = ⟨ys ++ rest, last'⟩ ∧ st.module.func? f.name = none ∧
      st.item file = { st with stream := st.stream.advance }.func file st.stream.cur := by
  obtain ⟨hk, hword, -, ys, last', hys, hafter⟩ := heads_item (by decide) hstream hxs
  have hnames : st.module.funcs.map (·.name) = fs.map (·.name) := by
    have := congrArg (List.map Func.name) h.funcs
    rwa [List.map_map, List.map_map] at this
  refine ⟨ys, last', hys, hafter, ?_, by simp only [State.item, hk, hword]; rfl⟩
  rw [Module.func?, List.find?_eq_none]
  intro g hg he
  exact hnew (hnames ▸ List.mem_map.mpr ⟨g, hg, of_decide_eq_true he⟩)

variable (hproper : ∀ x ∈ ts, x.Proper) (hs : s.Formed) (hf : f.Read tokens s)
  (htold : TellsFunc s f ls) (hxs : xs.map Token.bare = (.ident, ofString "func") :: ls)
  (hnew : f.name ∉ fs.map (·.name))

include hproper hs hf htold hxs hnew

theorem Retraces.func (hapart : f.LabelsApart) : st.Reaches file rest (Retraces ts file s (fs ++ [f])) := by
  obtain ⟨ys, last₁, hys, hafter, hnone, hitem⟩ := h.enters hstream hxs hnew
  obtain ⟨g, last', hfunc, hpast, hg⟩ := State.func_retold file { st with stream := st.stream.advance }
    hproper hs hf htold hys hafter (h.passes.trans st.stream.passes_advance) h.symbols hnone hapart st.stream.cur
  obtain ⟨hk, -, hlt, -⟩ := heads_item (by decide) hstream hxs
  refine ⟨_, last', goes_item (hitem.trans hfunc) hk hlt, rfl, hpast, h.name, h.symbols, ?_, h.errors⟩
  change List.map Func.unplaced (st.module.funcs ++ [g]) = _
  rw [List.map_append, List.map_append, h.funcs, List.map_singleton, List.map_singleton, hg]

theorem Retraces.labelsApart (hitem : st.item file = .ok t) (ht : t.errors = []) : f.LabelsApart := by
  obtain ⟨ys, last₁, hys, hafter, hnone, heq⟩ := h.enters hstream hxs hnew
  exact State.labelsApart file { st with stream := st.stream.advance } hproper hs hf htold
    hys hafter (h.passes.trans st.stream.passes_advance) h.symbols hnone (heq.symm.trans hitem) ht

end

section

variable {α : Type} {w : String} {P : α → List Lexeme → Prop} {I : List α → State → Prop} {all done more : List α}
  {lss : List (List Lexeme)} (hw : w ∈ itemWords)

include hw

theorem leads_items (htold : List.Forall₂ (Item w P) more lss) : Leads EndsItem EndsItem lss.flatten := by
  cases htold with
  | nil => exact leads_nil EndsItem
  | cons ha _ =>
    obtain ⟨_, rfl, -⟩ := ha
    exact endsItem_word hw

theorem reaches_each
    (hstep : ∀ done a more, all = done ++ a :: more → ∀ st ls xs rest last, I done st → P a ls →
      xs.map Token.bare = (.ident, ofString w) :: ls → EndsItem (front rest) → st.stream = ⟨xs ++ rest, last⟩ →
      st.Reaches file rest (I (done ++ [a])))
    (htold : List.Forall₂ (Item w P) more lss) (hsplit : all = done ++ more) (hxs : xs.map Token.bare = lss.flatten)
    (hrest : EndsItem (front rest)) (hstream : st.stream = ⟨xs ++ rest, last⟩) (h : I done st) :
    st.Reaches file rest (I all) := by
  induction htold generalizing done st xs last with
  | nil =>
    obtain rfl := List.map_eq_nil_iff.mp hxs
    rw [List.append_nil] at hsplit
    exact ⟨st, last, .refl file st, hstream, hsplit ▸ h⟩
  | @cons a ls more lss ha htold ih =>
    obtain ⟨ls, rfl, ha⟩ := ha
    obtain ⟨ys, zs, rfl, hys, hzs⟩ := List.map_eq_append_iff.mp hxs
    rw [List.append_assoc] at hstream
    have hnext := (leads_items hw htold).front hzs hrest
    refine (hstep done a more hsplit st ls ys _ last h ha hys hnext hstream).trans fun t last' ht hI => ?_
    exact ih (by rw [hsplit, List.append_assoc]; rfl) hzs ht hI

end

section

variable (hs : s.Formed) (hrest : EndsItem (front rest)) (hstream : st.stream = ⟨xs ++ rest, last⟩)
  {lss : List (List Lexeme)}
  (hxs : xs.map Token.bare = lss.flatten)

include hs hrest hstream hxs

theorem Retraces.globals (h : st.Retraces ts file {} [])
    (htold : List.Forall₂ (Item "global" TellsGlobal) s.globals lss) :
    st.Reaches file rest (Retraces ts file { globals := s.globals } []) := by
  refine reaches_each (I := fun gs => Retraces ts file { globals := gs } []) (by decide) ?_ htold
    (List.nil_append _).symm hxs hrest hstream h
  intro done g more hsplit st ls xs rest last hst htold hxs hrest hstream
  refine hst.global hstream htold hxs ?_ hrest
  rw [Symbols.globalIndex?, List.findIdx?_eq_none_iff]
  intro g' hg'
  have hdistinct := hs.distinct
  rw [hsplit, List.map_append, List.map_cons] at hdistinct
  have hdisjoint := List.disjoint_of_nodup_append hdistinct (List.mem_map_of_mem hg')
  exact decide_eq_false fun he => hdisjoint (he ▸ List.mem_cons_self ..)

omit hs in
theorem Retraces.decls (h : st.Retraces ts file { globals := s.globals } [])
    (htold : List.Forall₂ (Item "declare" TellsDecl) s.decls lss) : st.Reaches file rest (Retraces ts file s []) := by
  refine reaches_each (I := fun ds => Retraces ts file { s with decls := ds } []) (by decide) ?_ htold
    (List.nil_append _).symm hxs hrest hstream h
  intro done d more _ st ls xs rest last hst htold hxs hrest hstream
  exact hst.decl hstream htold hxs hrest

variable (h : st.Retraces ts file s []) (hproper : ∀ x ∈ ts, x.Proper)
  (hdistinct : (fs.map (·.name)).Nodup) (hread : ∀ f ∈ fs, f.Read tokens s)
  (htold : List.Forall₂ (Item "func" (TellsFunc s)) fs lss)

include h hproper hdistinct hread htold

theorem Retraces.functions (hapart : ∀ f ∈ fs, f.LabelsApart) : st.Reaches file rest (Retraces ts file s fs) := by
  refine reaches_each (I := fun gs => Retraces ts file s gs) (by decide) ?_ htold
    (List.nil_append _).symm hxs hrest hstream h
  intro done f more hsplit st ls xs rest last hst htold hxs hrest hstream
  have hmem : f ∈ fs := by simp [hsplit]
  refine hst.func hstream hproper hs (hread f hmem) htold hxs (fun hnew => ?_) (hapart f hmem)
  rw [hsplit, List.map_append, List.map_cons] at hdistinct
  exact List.disjoint_of_nodup_append hdistinct hnew (List.mem_cons_self ..)

/-- If nothing is wrong in the end, no label was taken for a flag in any function. -/
theorem Retraces.functions_labelsApart {n : Nat} (hn : st.stream.rest.length ≤ n) (hitems : st.items file n = .ok t)
    (ht : t.errors = []) : ∀ f ∈ fs, f.LabelsApart := by
  have hreaches : st.Reaches file rest fun u => u.Retraces ts file s fs ∧ (∀ f ∈ fs, f.LabelsApart) ∧
      ∃ n, u.stream.rest.length ≤ n ∧ u.items file n = .ok t := by
    refine reaches_each (I := fun gs u => u.Retraces ts file s gs ∧ (∀ f ∈ gs, f.LabelsApart) ∧
      ∃ n, u.stream.rest.length ≤ n ∧ u.items file n = .ok t) (by decide) ?_ htold
      (List.nil_append _).symm hxs hrest hstream ⟨h, by simp, n, hn, hitems⟩
    rintro done f more hsplit st ls xs rest last ⟨hst, hdone, n, hn, hitems⟩ htold hxs hrest hstream
    have hmem : f ∈ fs := by simp [hsplit]
    have hnew : f.name ∉ done.map (·.name) := fun hnew => by
      rw [hsplit, List.map_append, List.map_cons] at hdistinct
      exact List.disjoint_of_nodup_append hdistinct hnew (List.mem_cons_self ..)
    have hapart : f.LabelsApart := by
      obtain ⟨hk, -⟩ := heads_item (by decide) hstream hxs
      obtain ⟨m, -, he⟩ := items_of_ident file hk hn
      obtain ⟨u, hitem, hu⟩ := Checked.bind_eq_ok.mp (he.symm.trans hitems)
      exact hst.labelsApart hstream hproper hs (hread f hmem) htold hxs hnew hitem (items_errors_nil hu ht)
    obtain ⟨u, last', hgoes, hu, hret⟩ := hst.func hstream hproper hs (hread f hmem) htold hxs hnew hapart
    obtain ⟨m, hm, he⟩ := hgoes n hn
    refine ⟨u, last', hgoes, hu, hret, ?_, m, hm, he.symm.trans hitems⟩
    simpa [or_imp, forall_and] using ⟨hdone, hapart⟩
  obtain ⟨-, -, -, -, -, hapart, -⟩ := hreaches
  exact hapart

end

end State

/-! ### Texts of modules -/

def funcsText (gap : String) : List String → String
  | [] => ""
  | t :: ts => gap ++ t ++ String.join (ts.map ("\n" ++ ·))

theorem exists_closed_funcs {fs : List Func} {texts : List String} {gap : String} (hgap : Closed (ofString gap) [])
    (h : List.Forall₂ (fun f x => ∃ ls, Closed (ofString x) ls ∧ Item "func" (TellsFunc s) f ls) fs texts) :
    ∃ lss, List.Forall₂ (Item "func" (TellsFunc s)) fs lss ∧ Closed (ofString (funcsText gap texts)) lss.flatten := by
  cases h with
  | nil => exact ⟨[], .nil, Lexer.closed_nil⟩
  | cons hf hfs =>
    obtain ⟨ls, hls, hf⟩ := hf
    have hlines := hfs.imp (S := fun f x => ∃ ls, Closed (ofString ("\n" ++ x)) ls ∧ Item "func" (TellsFunc s) f ls)
      fun f x hx => hx.imp fun ls hls => ⟨by rw [Bytes.ofString_append]; exact Lexer.closed_newline.append hls.1, hls.2⟩
    obtain ⟨lss, hlss, hclosed⟩ := exists_closed_join (List.forall₂_map_right_iff.mpr hlines)
    refine ⟨ls :: lss, .cons hf hlss, ?_⟩
    rw [funcsText, Bytes.ofString_append, Bytes.ofString_append]
    exact (hgap.append hls).append hclosed

theorem exists_closed_module (hm : m.Read tokens)
    (hrecover : ∀ f ∈ m.funcs, ∀ id, ∀ i ∈ f.instr? id, i.Recoverable tokens f) (hx : Printer.module m = .ok x) :
    ∃ gs ds fs, Closed (ofString x) (gs.flatten ++ ds.flatten ++ fs.flatten) ∧
      List.Forall₂ (Item "global" TellsGlobal) m.symbols.globals gs ∧
      List.Forall₂ (Item "declare" TellsDecl) m.symbols.decls ds ∧
      List.Forall₂ (Item "func" (TellsFunc m.symbols)) m.funcs fs := by
  obtain ⟨texts, htexts, hx⟩ := Checked.bind_eq_ok.mp hx
  cases hx
  have hglobals : List.Forall₂ (fun g x => ∃ ls, Closed (ofString x) ls ∧ Item "global" TellsGlobal g ls)
      m.symbols.globals (m.symbols.globals.map Printer.global) := by
    rw [List.forall₂_map_right_iff, List.forall₂_same]
    intro g hg
    obtain ⟨hname, u, hu, hreadable⟩ := hm.symbols.globals g hg
    exact exists_closed_global hname hu hreadable
  have hdecls : List.Forall₂ (fun d x => ∃ ls, Closed (ofString x) ls ∧ Item "declare" TellsDecl d ls)
      m.symbols.decls (m.symbols.decls.map Printer.decl) := by
    rw [List.forall₂_map_right_iff, List.forall₂_same]
    intro d hd
    obtain ⟨hname, u, hu, hreadable⟩ := hm.symbols.decls d hd
    exact exists_closed_decl hname hu hreadable (hm.symbols.params d hd)
  have hfuncs : List.Forall₂ (fun f x => ∃ ls, Closed (ofString x) ls ∧ Item "func" (TellsFunc m.symbols) f ls)
      m.funcs texts :=
    Checked.forall₂_of_mapM htexts fun f hf x hx => exists_closed_func hm.symbols (hm.funcs f hf) (hrecover f hf) hx
  obtain ⟨gs, hgs, hglobals⟩ := exists_closed_join hglobals
  obtain ⟨ds, hds, hdecls⟩ := exists_closed_join hdecls
  have hgap : Closed (ofString (if m.symbols.globals.isEmpty && m.symbols.decls.isEmpty then "" else "\n")) [] := by
    split
    · exact Lexer.closed_nil
    · exact Lexer.closed_newline
  obtain ⟨fs, hfs, hfuncs⟩ := exists_closed_funcs hgap hfuncs
  refine ⟨gs, ds, fs, ?_, hgs, hds, hfs⟩
  rw [Bytes.ofString_append, Bytes.ofString_append]
  exact (hglobals.append hdecls).append hfuncs

end Parser

/-- The module without the places in its text and the names of files. -/
def Module.unplaced (m : Module) : Module := { m with funcs := m.funcs.map Func.unplaced }

namespace Parser.State

variable {tokens ts xs : List Token} {m : Module} {file : String} {t : State} {x : Token}
  {gs ds fs : List (List Lexeme)}

theorem retraces_start (ts : List Token) (file : String) : (State.start file ts).Retraces ts file {} [] :=
  ⟨.refl ts, rfl, rfl, rfl, rfl⟩

theorem Retraces.unplaced (h : t.Retraces ts file m.symbols m.funcs) :
    t.module.unplaced = { m.unplaced with name := moduleName file } := by
  simp only [Module.unplaced, h.name, h.symbols, h.funcs]

/-- What comes of the lexemes of a whole module. -/
theorem items_retold (hm : m.Read tokens) (hproper : ∀ x ∈ ts, x.Proper) (hts : ts = xs ++ [x])
    (hx : x.bare = (.eof, []))
    (hgs : List.Forall₂ (Item "global" TellsGlobal) m.symbols.globals gs)
    (hds : List.Forall₂ (Item "declare" TellsDecl) m.symbols.decls ds)
    (hfs : List.Forall₂ (Item "func" (TellsFunc m.symbols)) m.funcs fs)
    (hxs : xs.map Token.bare = gs.flatten ++ ds.flatten ++ fs.flatten)
    (hitems : (State.start file ts).items file ts.length = .ok t) :
    (t.errors = [] ↔ ∀ f ∈ m.funcs, f.LabelsApart) ∧
      (t.errors = [] → t.Retraces ts file m.symbols m.funcs) := by
  obtain ⟨ys, zs, rfl, hys, hzs⟩ := List.map_eq_append_iff.mp hxs
  obtain ⟨ws, ys, rfl, hws, hys⟩ := List.map_eq_append_iff.mp hys
  have hstop : EndsItem (front [x]) := by
    rw [show front [x] = _ from hx]
    exact endsItem_eof
  have hbehind := (leads_items (by decide) hfs).front hzs hstop
  have hdecls := (leads_items (by decide) hds).front hys hbehind
  have hstart : (State.start file ts).stream = ⟨ws ++ (ys ++ (zs ++ [x])), none⟩ := by
    simp [State.start, hts]
  have hglobals := (retraces_start ts file).globals hm.symbols hdecls hstart hws hgs
  have hheads := hglobals.trans fun t last ht h => h.decls hbehind ht hys hds
  have hall : (∀ f ∈ m.funcs, f.LabelsApart) → t.Retraces ts file m.symbols m.funcs := fun hapart =>
    (hheads.trans fun t last ht h =>
      h.functions hm.symbols hstop ht hzs hproper hm.distinct hm.funcs hfs hapart).stop
      (Prod.mk.inj hx).1 (Nat.le_refl _) hitems
  have hback : t.errors = [] → ∀ f ∈ m.funcs, f.LabelsApart := by
    intro ht
    obtain ⟨u, last, hgoes, hu, h⟩ := hheads
    obtain ⟨n, hn, he⟩ := hgoes _ (Nat.le_refl _)
    exact h.functions_labelsApart hm.symbols hstop hu hzs hproper hm.distinct hm.funcs hfs hn
      (he.symm.trans hitems) ht
  exact ⟨⟨hback, fun hapart => (hall hapart).errors⟩, fun ht => hall (hback ht)⟩

end Parser.State

/-- A module that was read without an error has a text, and if the text tells which module it is, then reading it
gives the module again. Only a label that is called like a flag can go wrong: behind a terminator without operands
it is taken for a flag of it, and then there is an error. -/
theorem parse_print {src : Bytes} {p : Parsed} (h : parse file src = .ok p) (he : p.errors = [])
    (hrecover : ∀ f ∈ p.module.funcs, ∀ id, ∀ i ∈ f.instr? id, i.Recoverable (Lexer.tokens src).tokens f) :
    ∃ text, Printer.module p.module = .ok text ∧ ∀ file', ∃ q, parse file' (ofString text) = .ok q ∧
      (q.errors = [] ↔ ∀ f ∈ p.module.funcs, f.LabelsApart) ∧
      (q.errors = [] → q.module.unplaced = { p.module.unplaced with name := Parser.moduleName file' }) := by
  have hm := read_of_parse h he
  obtain ⟨text, htext⟩ := Printer.answers_module fun f hf => (hm.funcs f hf).solid
  refine ⟨text, htext, fun file' => ?_⟩
  obtain ⟨gs, ds, fs, hclosed, hgs, hds, hfs⟩ := Parser.exists_closed_module hm hrecover htext
  obtain ⟨xs, x, hlex, hxs, hx⟩ := hclosed.spells.exists_tokens
  obtain ⟨s, hs, -, -, hitems⟩ := exists_parse file' (ofString text)
  obtain ⟨hiff, hretraces⟩ := Parser.State.items_retold hm (Lexer.tokensFrom_spec (ofString text) 1 1).1
    (congrArg Lexer.Result.tokens hlex) hx hgs hds hfs hxs (hitems _ (Nat.le_refl _))
  have herrors : (Lexer.tokens (ofString text)).errors ++ s.errors = s.errors := by rw [hlex, List.nil_append]
  exact ⟨_, hs, by rwa [herrors], fun hq => (hretraces (herrors ▸ hq)).unplaced⟩

def joinedText : Bytes :=
  ofString ("global @t: i32 const\ndeclare @g(i32) -> i32\nfunc @f(%x: i16, %p: ptr) -> i32 \x7b\na:\n" ++
    "  %w = sext i16 %x to i32\n  %v = load i32, %p !tbaa \"int\" !invariant\n  %s = add i32 %w, -7\n" ++
    "  %b = icmp slt i32 %s, %v\n  condbr %b, c, d\nc:\n  %r = call i32 @g(%s)\n  store i32 %r, @t\n" ++
    "  br d\nd:\n  %q = phi i32 [%v, a], [%r, c]\n  ret i32 %q\n\x7d\n")

theorem joined_reread : ∃ p text, parse "in.mir" joinedText = .ok p ∧ p.errors = [] ∧
    p.module.funcs.map (·.instrs.size) = [10] ∧
    (∀ f ∈ p.module.funcs, ∀ id, ∀ i ∈ f.instr? id, i.Recoverable (Lexer.tokens joinedText).tokens f) ∧
    Printer.module p.module = .ok text ∧ ∀ file', ∃ q, parse file' (ofString text) = .ok q ∧ q.errors = [] ∧
      q.module.unplaced = { p.module.unplaced with name := Parser.moduleName file' } := by
  have hchecks : ((parse "in.mir" joinedText).toOption.map fun p =>
      (p.errors.isEmpty, p.module.funcs.map (·.instrs.size), p.module.funcs.all fun f => f.LabelsApart &&
        f.instrs.toList.all fun i => i.RecoverableIn (Lexer.tokens joinedText).tokens f)) = some (true, [10], true) := by
    decide +kernel
  obtain ⟨p, hp, hread⟩ := Option.map_eq_some_iff.mp hchecks
  simp only [Prod.mk.injEq, List.isEmpty_iff, List.all_eq_true, Bool.and_eq_true, decide_eq_true_eq] at hread
  obtain ⟨he, hsizes, hall⟩ := hread
  have hp := Checked.toOption_eq_some.mp hp
  have hrecover : ∀ f ∈ p.module.funcs, ∀ id, ∀ i ∈ f.instr? id,
      i.Recoverable (Lexer.tokens joinedText).tokens f := fun f hf id i hi =>
    ((hall f hf).2 i (Array.mem_toList_iff.mpr (Func.mem_of_instr? hi))).recoverable
  obtain ⟨text, htext, hread⟩ := parse_print hp he hrecover
  refine ⟨p, text, hp, he, hsizes, hrecover, htext, fun file' => ?_⟩
  obtain ⟨q, hq, hiff, hsame⟩ := hread file'
  have hapart : ∀ f ∈ p.module.funcs, f.LabelsApart := fun f hf => (hall f hf).1
  exact ⟨q, hq, hiff.mpr hapart, hsame (hiff.mpr hapart)⟩

def stopsText (label : String) : Bytes :=
  ofString ("func @f() \x7b\na:\n  ret !tbaa \"\"\n" ++ label ++ ":\n  ret\n\x7d\n")

def stops (label : String) : Module where
  name := "in"
  funcs := [{
    name := "f"
    file := "in.mir"
    blocks := #[{ name := "a", instrs := [0] }, { name := label, instrs := [1] }]
    instrs := #[{ home := some 0, op := .ret, pos := ⟨3, 3⟩ }, { home := some 1, op := .ret, pos := ⟨5, 3⟩ }]
    entry := some 0 }]

theorem stops.parsed (label : String)
    (h : ((parse "in.mir" (stopsText label)).toOption.map fun p => (p.errors, p.module)) = some ([], stops label)) :
    ∃ p, parse "in.mir" (stopsText label) = .ok p ∧ p.errors = [] ∧ p.module = stops label := by
  obtain ⟨p, hp, hread⟩ := Option.map_eq_some_iff.mp h
  obtain ⟨he, hmodule⟩ := Prod.ext_iff.mp hread
  exact ⟨p, Checked.toOption_eq_some.mp hp, he, hmodule⟩

theorem stops.recoverable (label : String) (tokens : List Token) :
    ∀ f ∈ (stops label).funcs, ∀ id, ∀ i ∈ f.instr? id, i.Recoverable tokens f := by
  intro f hf id i hi
  obtain rfl := List.mem_singleton.mp hf
  have hi : i = { home := some 0, op := .ret, pos := ⟨3, 3⟩ } ∨ i = { home := some 1, op := .ret, pos := ⟨5, 3⟩ } := by
    simpa using Func.mem_of_instr? hi
  rcases hi with rfl | rfl
  all_goals exact {
    named := fun h => absurd h (by decide)
    operands := fun _ h => by cases h
    ordering := fun h => absurd rfl h
    restated := fun h => absurd h (by decide)
    access := ⟨by decide +kernel, by decide +kernel, by decide +kernel⟩ }

/-- A label that is called like a flag does not come back. -/
theorem stops_not_reread : ∃ p text q, parse "in.mir" (stopsText "volatile") = .ok p ∧ p.errors = [] ∧
    p.module = stops "volatile" ∧
    (∀ f ∈ p.module.funcs, ∀ id, ∀ i ∈ f.instr? id, i.Recoverable (Lexer.tokens (stopsText "volatile")).tokens f) ∧
    Printer.module p.module = .ok text ∧ parse "in.mir" (ofString text) = .ok q ∧ q.errors ≠ [] := by
  obtain ⟨p, hp, he, hmodule⟩ := stops.parsed "volatile" (by decide +kernel)
  have hagain : ((Printer.module (stops "volatile")).toOption.bind fun text =>
      (parse "in.mir" (ofString text)).toOption.map fun q => (text, q.errors.isEmpty)) =
        some ("func @f() \x7b\na:\n  ret\nvolatile:\n  ret\n\x7d\n", false) := by decide +kernel
  obtain ⟨text, htext, hagain⟩ := Option.bind_eq_some_iff.mp hagain
  obtain ⟨q, hq, hread⟩ := Option.map_eq_some_iff.mp hagain
  have hbad : q.errors ≠ [] := fun hnone => by
    rw [hnone] at hread
    cases (Prod.ext_iff.mp hread).2
  have htext := Checked.toOption_eq_some.mp htext
  have hq := Checked.toOption_eq_some.mp hq
  exact ⟨p, text, q, hp, he, hmodule, hmodule ▸ stops.recoverable "volatile" _, hmodule ▸ htext, hq, hbad⟩

end RegPressure
