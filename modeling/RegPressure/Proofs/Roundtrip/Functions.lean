import RegPressure.Proofs.IR.Fingerprint
import RegPressure.Proofs.Roundtrip.Instructions
import RegPressure.Proofs.Run.Rewriting

namespace RegPressure

open Bytes (ofString)
open Lexer (Closed Spells)

variable {tokens ts : List Token} {s : Symbols} {f g : Func} {i j : Instr} {id : Int} {x : String}

/-! ### One hole less -/

/-- References of the other kind do not matter. -/
theorem Awaited.tail {α : Type} {y : OpenRef} {ys : List OpenRef} {isBlock : Bool} {hole : α}
    {named : String → α → Prop}
    {as bs : List α} (h : Awaited (y :: ys) isBlock hole named as bs) (hy : y.isBlock ≠ isBlock) :
    Awaited ys isBlock hole named as bs where
  length := h.length
  cell := fun n => (h.cell n).imp_right fun ho => by
    obtain ⟨hhole, z, hz, hzb, hzn⟩ := ho
    rcases List.mem_cons.mp hz with rfl | hz
    · exact absurd hzb hy
    · exact ⟨hhole, z, hz, hzb, hzn⟩
  named := fun z hz => h.named z (List.mem_cons_of_mem _ hz)

section

variable {y : OpenRef} {ys : List OpenRef} (hf : f.Read tokens s)

include hf

theorem Instr.Awaits.aimed (h : i.Awaits f (y :: ys) j) (hy : y.isBlock = true) {c : Int} (hc : f.Labels y.name c) :
    { i with targets := i.targets.set y.index c }.Awaits f ys j where
  fields := h.fields
  operands := h.operands.tail (by simp [hy])
  targets := h.targets.fill hy hc fun d hd => by
    obtain ⟨blk, hblk, hname⟩ := hc
    obtain ⟨blk', hblk', hname'⟩ := hd
    exact hf.labels_inj d c blk' blk hblk' hblk (hname'.trans hname.symm)

theorem Instr.Awaits.supplied (h : i.Awaits f (y :: ys) j) (hy : y.isBlock = false) {u : Int} {k : Instr}
    (hk : f.instr? u = some k) (hname : k.name = y.name) (hne : k.name ≠ "") :
    { i with operands := i.operands.set y.index (.instr u) }.Awaits f ys j where
  fields := h.fields
  operands := h.operands.fill hy ⟨u, k, rfl, hk, hname⟩ fun v hv => by
    obtain ⟨w, l, rfl, hl, hlname⟩ := hv
    rw [hf.names_inj u w k l hk hl hne (hname.trans hlname.symm)]
  targets := h.targets.tail (by simp [hy])

end

/-! ### Texts one behind the other -/

theorem Lexer.closed_nil : Closed [] [] := fun _ l c => ⟨[], l, c, rfl, rfl⟩

theorem exists_concat_of_forall₂ {α β : Type} {P : α → β → Prop} {as : List α} {a : α} {bs : List β}
    (h : List.Forall₂ P (as ++ [a]) bs) : ∃ cs c, bs = cs ++ [c] ∧ List.Forall₂ P as cs ∧ P a c := by
  rw [← List.forall₂_reverse_iff, List.reverse_append] at h
  obtain ⟨c, cs, ha, has, hbs⟩ := List.forall₂_cons_left_iff.mp h
  refine ⟨cs.reverse, c, ?_, ?_, ha⟩
  · rw [← List.reverse_inj, hbs, List.reverse_append, List.reverse_reverse]
    rfl
  · rwa [← List.forall₂_reverse_iff, List.reverse_reverse]

theorem exists_closed_join {α : Type} {P : α → List Lexeme → Prop} {as : List α} {texts : List String}
    (h : List.Forall₂ (fun a x => ∃ ls, Closed (ofString x) ls ∧ P a ls) as texts) :
    ∃ lss, List.Forall₂ P as lss ∧ Closed (ofString (String.join texts)) lss.flatten := by
  induction h with
  | nil => exact ⟨[], .nil, Lexer.closed_nil⟩
  | cons ha _ ih =>
    obtain ⟨ls, hls, ha⟩ := ha
    obtain ⟨lss, hlss, hclosed⟩ := ih
    refine ⟨ls :: lss, .cons ha hlss, ?_⟩
    rw [String.join_cons, Bytes.ofString_append]
    exact hls.append hclosed

theorem Checked.forall₂_of_mapIdxM {α β : Type} {k : Nat → α → Checked β} {l : List α} {r : List β}
    (h : l.mapIdxM k = .ok r) : List.Forall₂ (fun a b => ∃ n, l[n]? = some a ∧ k n a = .ok b) l r := by
  have hgo : ∀ (l : List α) (acc : Array β) (r : List β), List.mapIdxM.go k l acc = .ok r → ∃ bs,
      r = acc.toList ++ bs ∧ List.Forall₂ (fun a b => ∃ n, l[n]? = some a ∧ k (acc.size + n) a = .ok b) l bs := by
    intro l
    induction l with
    | nil =>
      intro acc r h
      cases h
      exact ⟨[], (List.append_nil _).symm, .nil⟩
    | cons a l ih =>
      intro acc r h
      obtain ⟨b, hb, h⟩ := Checked.bind_eq_ok.mp h
      obtain ⟨bs, rfl, hbs⟩ := ih _ _ h
      refine ⟨b :: bs, by simp, .cons ⟨0, rfl, hb⟩ (hbs.imp fun _ _ hn => ?_)⟩
      obtain ⟨n, hn, hc⟩ := hn
      refine ⟨n + 1, hn, ?_⟩
      rwa [Array.size_push, Nat.add_assoc, Nat.add_comm 1 n] at hc
  obtain ⟨bs, rfl, hbs⟩ := hgo l #[] r h
  simpa using hbs

/-! ### Instructions in their text -/

def optional (on : Bool) (w : String) : List Lexeme := if on then [(.ident, ofString w)] else []

theorem exists_option {w : String} (hw : (ofString w).IsWord) (on : Bool) :
    Lexer.Breaks (ofString (if on then " " ++ w else "")) ∧
      Spells (ofString (if on then " " ++ w else "")) (optional on w) := by
  cases on with
  | true => exact ⟨Lexer.breaks_blank w, spells_blank (Lexer.spells_word hw)⟩
  | false => exact ⟨Lexer.breaks_nil, spells_empty⟩

theorem flag_of_optional {on : Bool} {w : String} {x : Token} (hw : w ∈ flagWords) (hx : x.bare ∈ optional on w) :
    x.kind = .ident ∧ x.word ∈ flagWords := by
  have hname : IsName w := by
    obtain rfl | rfl | rfl : w = "volatile" ∨ w = "checked" ∨ w = "atomic" := by simpa [flagWords] using hw
    all_goals exact (isWord_of_octets (Bytes.isWord_of_all (by decide))).isName
  cases on with
  | true =>
    obtain ⟨hk, hword⟩ := Token.word_eq hname (List.mem_singleton.mp hx)
    exact ⟨hk, hword.symm ▸ hw⟩
  | false => cases hx

theorem Leads.here {O F : Lexeme → Prop} {ls : List Lexeme} (h : Leads O F ls) : Leads O O ls := by
  cases ls with
  | nil => exact leads_nil O
  | cons l ls => exact h

theorem Lexeme.Opens.ends {l : Lexeme} (h : l.Opens) (i : Instr) : Grammar.Ends i (· = l) where
  comma := by
    rintro _ rfl hk
    exact h.kind (by simp [hk])
  metadata := by
    rintro _ rfl hk
    exact h.kind (by simp [hk])
  colon := by
    rintro _ rfl
    exact h.follows.kind
  unflagged := by
    rintro - - _ rfl
    exact h.unflagged

theorem Grammar.ends_brace {l : Lexeme} (h : l.1 = .rbrace) (i : Instr) : Ends i (· = l) where
  comma := by
    rintro _ rfl
    simp [h]
  metadata := by
    rintro _ rfl
    simp [h]
  colon := by
    rintro _ rfl
    simp [h]
  unflagged := by
    rintro - - _ rfl hk
    simp [h] at hk

theorem Grammar.ends_label {w : String} (hw : IsName w) (h : i.Bare → i.access = {} → w ∉ flagWords) :
    Ends i (· = (.ident, ofString w)) where
  comma := by
    rintro _ rfl
    simp
  metadata := by
    rintro _ rfl
    simp
  colon := by
    rintro _ rfl
    simp
  unflagged := by
    rintro hbare hempty _ rfl -
    rw [hw.toText_octets]
    exact h hbare hempty

theorem Instr.Formed.of_bare {ret w : Ty} (h : i.Formed ret w) (hbare : i.Bare) :
    i.ty = .void ∧ (i.op = .unreachable ∨ i.op = .ret ∧ i.operands = [] ∧ ret.isVoid = true) := by
  obtain ⟨slots, hlayout, hslots⟩ := h.layout
  rcases hbare with hop | ⟨hop, hnone⟩
  · rw [Instr.Layout, hop] at hlayout
    exact ⟨hlayout.2.2, .inl hop⟩
  · rw [Instr.Layout, hop] at hlayout
    refine ⟨hlayout.2.2, .inr ⟨hop, hnone, ?_⟩⟩
    by_contra hret
    obtain ⟨t, -, rfl⟩ := (if_neg hret ▸ hlayout).1
    rw [hnone] at hslots
    cases hslots

structure Instr.Told (s : Symbols) (f : Func) (i : Instr) (ls : List Lexeme) : Prop where
  starts : ∃ l more, ls = l :: more ∧ l.Opens ∧ (l.1 = .ident → Leads (·.1 ≠ .colon) (·.1 ≠ .colon) more)
  reads : ∀ (ns : Names) (F : Lexeme → Prop), ns.Within s f → (i.name ≠ "" → ns.locals.lookup i.name = none) →
    Grammar.Ends i F → Grammar.ReadsInstr ns f F ls { i with home := none }
  bare : i.Bare → i.access = {} → ls = (.ident, ofString i.op.name) ::
    (optional i.volatile "volatile" ++ optional i.checked "checked")

def Func.Tells (s : Symbols) (f : Func) (id : Int) (ls : List Lexeme) : Prop :=
  ∃ i, f.instr? id = some i ∧ i.Told s f ls

def Func.TellsBlock (s : Symbols) (f : Func) (blk : Block) (ls : List Lexeme) : Prop :=
  ∃ lss, List.Forall₂ (f.Tells s) blk.instrs lss ∧
    ls = (.ident, ofString blk.name) :: (.colon, [58]) :: lss.flatten

def Func.Parts (f : Func) (blk blk' : Block) : Prop :=
  ∀ id ∈ blk.instrs.getLast?, ∀ i ∈ f.instr? id, i.Bare → i.access = {} → blk'.name ∉ flagWords

instance (f : Func) (blk blk' : Block) : Decidable (f.Parts blk blk') :=
  inferInstanceAs (Decidable (∀ id ∈ blk.instrs.getLast?, ∀ i ∈ f.instr? id, _))

def Func.LabelsApart (f : Func) : Prop := f.blocks.toList.IsChain f.Parts

instance (f : Func) : Decidable f.LabelsApart := inferInstanceAs (Decidable (f.blocks.toList.IsChain f.Parts))

def Func.outset (s : Symbols) (f : Func) : Names := { symbols := s, ret := f.ret, params := f.params }

theorem Func.Read.number_eq (hf : f.Read tokens s) {l r : List Int}
    (h : f.blocks.toList.flatMap (·.instrs) = l ++ id :: r) : id = l.length := by
  rw [hf.order, Func.instrIds] at h
  obtain ⟨ns, ms, hrange, rfl, hms⟩ := List.map_eq_append_iff.mp h
  obtain ⟨n, ms, rfl, rfl, -⟩ := List.map_eq_cons_iff.mp hms
  have hn : (List.range f.instrs.size)[ns.length]? = some n := by simp [hrange]
  obtain ⟨hlt, rfl⟩ := List.getElem?_eq_some_iff.mp hn
  simp

theorem Func.within_outset (s : Symbols) (f : Func) : (f.outset s).Within s f where
  symbols := rfl
  ret := rfl
  params := rfl
  locals := fun _ _ hl => by cases hl
  blocks := fun _ _ hl => by cases hl

theorem Instr.spells_bare {w : Ty} (h : i.Formed f.ret w) (hbare : i.Bare) (hempty : i.access = {})
    (hx : Printer.instr (some s) f id i = .ok x) : Spells (ofString x)
      ((.ident, ofString i.op.name) :: (optional i.volatile "volatile" ++ optional i.checked "checked")) := by
  obtain ⟨hvoid, hop⟩ := h.of_bare hbare
  have hbody : Printer.body (some s) f i = .ok "" := by
    rcases hop with hop | ⟨hop, hnone, -⟩
    · simp [Printer.body, hop, Op.isBinary, Op.isCast]
    · simp [Printer.body, hop, hnone]
  have hatomic : i.op ≠ .load ∧ i.op ≠ .store := by
    rcases hop with hop | ⟨hop, -⟩
    all_goals simp [hop]
  have hname : IsWord i.op.name := (Op.isWord_name (by rcases hop with hop | ⟨hop, -⟩ <;> simp [hop])).1
  obtain ⟨hvolatile, hv⟩ := exists_option (w := "volatile") (Bytes.isWord_of_all (by decide)) i.volatile
  obtain ⟨hchecked, hc⟩ := exists_option (w := "checked") (Bytes.isWord_of_all (by decide)) i.checked
  obtain ⟨y, hy, hx⟩ := Checked.bind_eq_ok.mp hx
  cases hbody.symm.trans hy
  cases hx
  have hspell := spells_append (Lexer.spells_word hname.octets) (spells_append hv hc hchecked)
    (by rw [Bytes.ofString_append]; exact hvolatile.append hchecked)
  simpa [hatomic, hempty, Instr.hasResult, hvoid, Ty.isVoid, Printer.accessMeta] using hspell

theorem Instr.exists_told (hs : s.Formed) (hf : f.Read tokens s) (hi : f.instr? id = some i)
    (hrecover : i.Recoverable tokens f) (hx : Printer.instr (some s) f id i = .ok x) :
    ∃ ls, Spells (ofString x) ls ∧ i.Told s f ls := by
  have hends : Grammar.Ends i fun l => l.Opens := {
    comma := fun l hl => (hl.ends i).comma l rfl
    metadata := fun l hl => (hl.ends i).metadata l rfl
    colon := fun l hl => (hl.ends i).colon l rfl
    unflagged := fun _ _ _ hl => hl.unflagged }
  obtain ⟨l, ls, hspell, hopens, hmore, -⟩ := Grammar.exists_readsInstr hs hf (f.within_outset s) hi hrecover
    (fun _ => rfl) hx hends
  refine ⟨l :: ls, hspell, ⟨l, ls, rfl, hopens, fun hk => (hmore hk).here⟩, fun ns F hns hfresh hF => ?_, ?_⟩
  · obtain ⟨l', ls', hspell', -, -, hread⟩ := Grammar.exists_readsInstr hs hf hns hi hrecover hfresh hx hF
    rwa [hspell.unique hspell']
  · intro hbare hempty
    obtain ⟨w, hformed, -⟩ := hf.formed id i hi
    exact hspell.unique (Instr.spells_bare hformed hbare hempty hx)

theorem exists_closed_line (hs : s.Formed) (hf : f.Read tokens s) (hrecover : ∀ i ∈ f.instr? id, i.Recoverable tokens f)
    (hx : Printer.instrAt (some s) f id = .ok x) :
    ∃ ls, Closed (ofString ("  " ++ x ++ "\n")) ls ∧ f.Tells s id ls := by
  obtain ⟨i, hi, hx⟩ := Checked.bind_eq_ok.mp hx
  have hi := Func.instr_eq_ok.mp hi
  obtain ⟨ls, hspell, htold⟩ := Instr.exists_told hs hf hi (hrecover i hi) hx
  refine ⟨ls, ?_, i, hi, htold⟩
  have hline := hspell.close Lexer.closed_newline (Lexer.breaks_cons (by decide)) (List.cons_ne_nil _ _)
  rw [List.append_nil] at hline
  rw [String.append_assoc, Bytes.ofString_append, Bytes.ofString_append]
  exact hline.behind_blank.behind_blank

theorem exists_closed_block {c : Int} {blk : Block} (hs : s.Formed) (hf : f.Read tokens s)
    (hrecover : ∀ id, ∀ i ∈ f.instr? id, i.Recoverable tokens f) (hblk : f.block? c = some blk)
    (hx : Printer.block (some s) f c blk = .ok x) : ∃ ls, Closed (ofString x) ls ∧ f.TellsBlock s blk ls := by
  obtain ⟨texts, htexts, hx⟩ := Checked.bind_eq_ok.mp hx
  cases hx
  have hword := hf.labels c blk hblk
  have hname : f.blockLabel c = blk.name := by
    rw [Func.blockLabel, hblk]
    exact if_pos hword.isName.ne_empty
  have hlines : List.Forall₂ (fun id x => ∃ ls, Closed (ofString x) ls ∧ f.Tells s id ls) blk.instrs
      (texts.map ("  " ++ · ++ "\n")) := by
    rw [List.forall₂_map_right_iff]
    exact Checked.forall₂_of_mapM htexts fun id _ x hx => exists_closed_line hs hf (hrecover id) hx
  obtain ⟨lss, hlss, hclosed⟩ := exists_closed_join hlines
  refine ⟨_, ?_, lss, hlss, rfl⟩
  have hcolon := (Lexer.closed_punctuation (rfl : Lexer.punctuation? 58 = some .colon)).append Lexer.closed_newline
  have hlabel := (Lexer.spells_word hword.octets).close hcolon (Lexer.breaks_cons (by decide)) (List.cons_ne_nil _ _)
  rw [hname, Bytes.ofString_append, Bytes.ofString_append]
  exact hlabel.append hclosed

/-! ### Words taken for flags -/

namespace Grammar

variable {ns : Names} {ret w : Ty} {ws rest : List Token} {z : Token} {d e : Draft} {u v : Stream} {y : Unit} {n : Nat}

theorem body_of_bare (h : i.Formed ns.ret w) (hbare : i.Bare) : body ns i.op = pure () := by
  rcases (h.of_bare hbare).2 with hop | ⟨hop, -, hret⟩
  · rw [hop, body]
  · rw [hop, body, hret]
    rfl

theorem reads_ordering {o : MemOrder} (h : Reader.Reads ordering u o v) :
    u.cur.kind = .ident ∧ MemOrder.ofName? u.cur.word = some o := by
  simp only [ordering, Reader.reads_bind, Reader.reads_expect] at h
  obtain ⟨_, _, ⟨hk, rfl, rfl⟩, h⟩ := h
  refine ⟨hk, ?_⟩
  split at h
  · next hname =>
    obtain ⟨rfl, -⟩ := Reader.reads_pure.mp h
    exact hname
  · simp at h

/-- All words that are flags are taken, on whichever line they stand. -/
theorem rest_of_reads_flags_go (h : DraftReader.Reads (flags.go n) d u y e v) (hu : u.rest = ws ++ z :: rest)
    (hws : ∀ x ∈ ws, x.kind = .ident ∧ x.word ∈ flagWords) (hz : z.kind ≠ .ident) :
    v.rest = z :: rest := by
  induction n generalizing d u ws with
  | zero => simp [flags.go] at h
  | succ n ih =>
    have hat : ∀ w, u.atWord w = true → ∃ x xs, ws = x :: xs ∧ u.advance.rest = xs ++ z :: rest := by
      intro w hw
      simp only [Stream.atWord, Stream.sees, Stream.cur, hu, Bool.and_eq_true, decide_eq_true_eq] at hw
      cases ws with
      | nil => exact absurd hw.1 hz
      | cons x xs => exact ⟨x, xs, rfl, by simp [Stream.advance, Stream.atEnd, Stream.cur, hu, hws]⟩
    have hmore : ∀ w d', u.atWord w = true → DraftReader.Reads (flags.go n) d' u.advance y e v →
        v.rest = z :: rest := by
      intro w d' hw h
      obtain ⟨x, xs, rfl, hadvance⟩ := hat w hw
      exact ih h hadvance fun x hx => hws x (List.mem_cons_of_mem _ hx)
    simp [flags.go] at h
    rcases h with ⟨hv, ⟨hc, ⟨⟨ha, rfl⟩, rfl⟩ | ⟨ha, o, t, ho, -⟩⟩ | ⟨hc, h⟩⟩ | ⟨hv, h⟩
    · cases ws with
      | nil => exact hu
      | cons x xs =>
        obtain ⟨hk, hword⟩ := hws x (List.mem_cons_self ..)
        have hnot : ∀ w, u.atWord w = false → x.word ≠ w := by simp [Stream.atWord, Stream.sees, Stream.cur, hu, hk]
        simp [flagWords, hnot _ hv, hnot _ hc, hnot _ ha] at hword
    · -- No flag word is an ordering, and neither is what ends them.
      obtain ⟨x, xs, rfl, hadvance⟩ := hat _ ha
      obtain ⟨hk, hname⟩ := reads_ordering ho
      cases xs with
      | nil => exact absurd (by simpa [Stream.cur, hadvance] using hk) hz
      | cons x' xs =>
        have hnone : ∀ w ∈ flagWords, MemOrder.ofName? w = none := by decide
        rw [Stream.cur, hadvance, List.cons_append, List.headD_cons, hnone _ (hws x' (by simp)).2] at hname
        cases hname
    · exact hmore _ _ hc h
    · exact hmore _ _ hv h

theorem cur_of_reads_rest (h : DraftReader.Reads (Grammar.rest ns i.op) d u () e v) (hi : i.Formed ns.ret w)
    (hbare : i.Bare)
    (hu : u.rest = ws ++ z :: rest) (hws : ∀ x ∈ ws, x.kind = .ident ∧ x.word ∈ flagWords)
    (hz : z.kind ≠ .ident ∧ z.kind ≠ .metadata) : v.cur = z := by
  simp only [Grammar.rest, body_of_bare hi hbare, flags, metadata, DraftReader.reads_bind, DraftReader.reads_pure,
    DraftReader.reads_stream] at h
  obtain ⟨_, d₁, u₁, ⟨_, _, _, ⟨rfl, rfl, rfl⟩, hflags⟩, _, _, _, ⟨_, rfl, rfl⟩, _, _, _, ⟨rfl, rfl, rfl⟩, h⟩ := h
  have hrest := rest_of_reads_flags_go hflags hu hws hz.1
  have hcur : u₁.cur = z := by rw [Stream.cur, hrest, List.headD_cons]
  rw [hrest, List.length_cons, metadata.go] at h
  simp [Stream.sees, hcur, hz.2] at h
  rw [← h.2, hcur]

end Grammar

namespace Parser

open Grammar (instruction)

variable {b c : Body} {u v w : Stream} {bs : List Block} {pre : List Int}
  {y z : Token} {xs rest : List Token} {last : Option Nat} {ls : List Lexeme}

/-! ### Steps through a body -/

theorem body_succ (hu : u.cur.kind ≠ .rbrace ∧ u.cur.kind ≠ .eof)
    (hlabel : u.cur.kind = .ident → u.ahead.kind ≠ .colon) (n : Nat) (b : Body) :
    body (n + 1) b u = b.step u >>= fun p => body n p.1 p.2 := by
  have hnot : (u.sees .ident && u.ahead.kind = .colon) = false := by
    by_cases hk : u.cur.kind = .ident <;> simp [Stream.sees, hk, hlabel]
  rw [body, if_neg (by simp [Stream.sees, Stream.atEnd, hu]), hnot]
  rfl

def Body.Goes (b : Body) (u : Stream) (c : Body) (v : Stream) : Prop :=
  ∀ n, u.rest.length ≤ n → ∃ m, v.rest.length ≤ m ∧ body n b u = body m c v

namespace Body.Goes

variable {d : Body}

theorem refl (b : Body) (u : Stream) : b.Goes u b u := fun n hn => ⟨n, hn, rfl⟩

theorem trans (h : b.Goes u c v) (h' : c.Goes v d w) : b.Goes u d w := by
  intro n hn
  obtain ⟨m, hm, he⟩ := h n hn
  obtain ⟨k, hk, he'⟩ := h' m hm
  exact ⟨k, hk, he.trans he'⟩

theorem label {x y : Token} {rest : List Token} {last : Option Nat} (hx : x.kind = .ident) (hy : y.kind = .colon) :
    b.Goes ⟨x :: y :: rest, last⟩ (b.label x) ⟨rest, some y.line⟩ := by
  intro n hn
  obtain ⟨n, rfl⟩ := Nat.exists_eq_add_of_le' (Nat.le_trans (Nat.succ_le_succ (Nat.zero_le _)) hn)
  refine ⟨n, ?_, ?_⟩
  · simp only [List.length_cons] at hn ⊢
    omega
  · have hadvance : (⟨x :: y :: rest, last⟩ : Stream).advance.advance = ⟨rest, some y.line⟩ := by
      rw [Stream.advance_cons (by simp [hx]), Stream.advance_cons (by simp [hy])]
    rw [body, hadvance]
    simp [Stream.sees, Stream.atEnd, Stream.cur, Stream.ahead, hx, hy]

theorem instr {d : Draft} (hr : Reader.Reads (instruction b.names b.current.isSome) u d v) (hc : b.push d = .ok c)
    (hu : u.cur.kind ≠ .rbrace ∧ u.cur.kind ≠ .eof) (hlabel : u.cur.kind = .ident → u.ahead.kind ≠ .colon) :
    b.Goes u c v := by
  intro n hn
  have hlt := Grammar.length_lt_of_reads_instruction hr
  obtain ⟨n, rfl⟩ := Nat.exists_eq_add_of_le' (Nat.le_trans (Nat.succ_le_of_lt (Nat.zero_lt_of_lt hlt)) hn)
  refine ⟨n, by omega, ?_⟩
  have hstep : b.step u = .ok (c, v) := by
    simp only [Body.step, hr.attempt, Checked.ok_bind, hc]
    rfl
  rw [body_succ hu hlabel, hstep]
  rfl

end Body.Goes

/-! ### What has been read -/

theorem Body.Sound.exists_of_fixup (h : b.Sound ts) {y : Fixup} (hy : y ∈ b.fixups) :
    ∃ i, b.func.instr? y.instr = some i := by
  cases hblock : y.ref.isBlock with
  | true => exact (h.references.openTarget y hy hblock).imp fun _ hi => hi.1
  | false =>
    obtain ⟨i, v, hi, -⟩ := h.references.openOperand y hy hblock
    exact ⟨i, hi⟩

def openAt (xs : List Fixup) (id : Int) : List OpenRef := (xs.filter (·.instr = id)).map (·.ref)

theorem openAt_append_self {xs : List Fixup} (h : ∀ x ∈ xs, x.instr ≠ id) (ys : List OpenRef) :
    openAt (xs ++ ys.map (⟨id, ·⟩)) id = ys := by
  have hnone : xs.filter (·.instr = id) = [] := List.filter_eq_nil_iff.mpr fun x hx => by simpa using h x hx
  rw [openAt, List.filter_append, hnone, List.nil_append, List.filter_eq_self.mpr (by simp), List.map_map]
  exact List.map_id ys

theorem openAt_append_of_ne {v : Int} (h : v ≠ id) (xs : List Fixup) (ys : List OpenRef) :
    openAt (xs ++ ys.map (⟨v, ·⟩)) id = openAt xs id := by
  have hnone : (ys.map (Fixup.mk v)).filter (·.instr = id) = [] := List.filter_eq_nil_iff.mpr
    (by simpa using fun _ _ => h)
  rw [openAt, List.filter_append, hnone, List.append_nil, openAt]

/-- The blocks `bs` of `f` have been read, and nothing was wrong. The edges are yet unknown, and so are the names
of what comes later. -/
structure Body.Retraces (s : Symbols) (f : Func) (bs : List Block) (b : Body) : Prop where
  name : b.func.name = f.name
  params : b.func.params = f.params
  ret : b.func.ret = f.ret
  symbols : b.names.symbols = s
  blocks : b.func.blocks.toList = bs
  labels : ∀ c blk, b.func.block? c = some blk → f.Labels blk.name c
  instrs : ∀ id i, b.func.instr? id = some i → ∃ j, f.instr? id = some j ∧ i.Awaits f (openAt b.fixups id) j
  current : bs ≠ [] → b.current.isSome = true
  errors : b.errors = []

/-- Reading stands at `u`, with the blocks `bs` of `f` behind it. -/
structure Body.Stands (ts : List Token) (s : Symbols) (f : Func) (bs : List Block) (b : Body) (u : Stream) : Prop where
  sound : b.Sound ts
  passes : Passes ts u.rest
  retraces : b.Retraces s f bs

namespace Body.Retraces

theorem nameOf (h : b.Retraces s f bs) {i : Instr} (hi : b.func.instr? id = some i) :
    ∃ j, f.instr? id = some j ∧ i.name = j.name := by
  obtain ⟨j, hj, hawaits⟩ := h.instrs id i hi
  have hname := congrArg Instr.name hawaits.fields
  exact ⟨j, hj, hname⟩

theorem within (h : b.Retraces s f bs) (hb : b.Sound ts) : b.names.Within s f where
  symbols := h.symbols
  ret := hb.called.ret.trans h.ret
  params := hb.called.params.trans h.params
  locals := by
    intro name id hl
    obtain ⟨i, hi, rfl, -⟩ := hb.called.locals name id hl
    obtain ⟨j, hj, hname⟩ := h.nameOf hi
    exact ⟨id, j, rfl, hj, hname.symm⟩
  blocks := by
    intro name c hl
    obtain ⟨blk, hblk, rfl⟩ := hb.called.blocks name c hl
    exact h.labels c blk hblk

theorem lookup_instr (h : b.Retraces s f bs) (hb : b.Sound ts) (hf : f.Read tokens s)
    (hi : f.instr? b.func.instrs.size = some i) (hne : i.name ≠ "") : b.names.locals.lookup i.name = none := by
  by_contra hsome
  obtain ⟨u, hu⟩ := Option.ne_none_iff_exists'.mp hsome
  obtain ⟨k, hk, hname, -⟩ := hb.called.locals _ _ hu
  obtain ⟨j, hj, hkj⟩ := h.nameOf hk
  have hid := hf.names_inj _ _ i j hi hj hne (hname.symm.trans hkj)
  have := Func.lt_of_instr? hk
  omega

theorem lookup_block (h : b.Retraces s f bs) (hb : b.Sound ts) (hf : f.Read tokens s)
    (hx : f.Labels x b.func.blocks.size) : b.names.blocks.lookup x = none := by
  by_contra hsome
  obtain ⟨c, hc⟩ := Option.ne_none_iff_exists'.mp hsome
  obtain ⟨blk, hblk, rfl⟩ := hb.called.blocks _ _ hc
  obtain ⟨blk₁, h₁, hname₁⟩ := h.labels c blk hblk
  obtain ⟨blk₂, h₂, hname₂⟩ := hx
  have hid := hf.labels_inj _ _ _ _ h₁ h₂ (hname₁.trans hname₂.symm)
  obtain ⟨n, rfl, hn⟩ := Func.block?_eq_some.mp hblk
  have := (Array.getElem?_eq_some_iff.mp hn).1
  omega

theorem label (h : b.Retraces s f bs) (hb : b.Sound ts) (hf : f.Read tokens s) {y : Token}
    (hy : f.Labels y.word b.func.blocks.size) : (b.label y).Retraces s f (bs ++ [{ name := y.word }]) := by
  rw [Body.label_eq, h.lookup_block hb hf hy]
  exact {
    name := h.name
    params := h.params
    ret := h.ret
    symbols := h.symbols
    blocks := by
      change (b.func.blocks.push _).toList = _
      rw [Array.toList_push, h.blocks]
    labels := by
      intro c blk hc
      change (b.func.addBlock y.word).1.block? c = some blk at hc
      rw [Func.block?_addBlock] at hc
      split at hc
      · next hid =>
        cases hc
        exact hid ▸ hy
      · exact h.labels c blk hc
    instrs := h.instrs
    current := fun _ => rfl
    errors := h.errors }

theorem push (h : b.Retraces s f (bs ++ [{ name := x, instrs := pre }])) (hb : b.Sound ts) {d : Draft}
    (hd : d.Awaits f { i with home := none }) (hi : f.instr? b.func.instrs.size = some i)
    (hhome : i.home = some (bs.length : Int)) (hc : b.push d = .ok c) :
    c.Retraces s f (bs ++ [{ name := x, instrs := pre ++ [(b.func.instrs.size : Int)] }]) := by
  have hsize : b.func.blocks.size = bs.length + 1 := by
    rw [← Array.length_toList, h.blocks, List.length_append, List.length_singleton]
  obtain ⟨n, hn⟩ := Option.isSome_iff_exists.mp (h.current (by simp))
  obtain rfl : n = (bs.length : Int) := by
    have := hb.current n hn
    omega
  obtain ⟨blk, hblk⟩ : ∃ blk, b.func.block? bs.length = some blk := by
    rw [Func.block?, if_neg (by omega)]
    exact ⟨_, Array.getElem?_eq_getElem (by omega)⟩
  obtain ⟨g, hg, happ⟩ := Func.exists_append (i := d.instr) hblk
  have hpush : b.push d = .ok { b with
      func := g
      names := { b.names with
        locals := if d.instr.name = "" then b.names.locals
                  else (d.instr.name, (b.func.instrs.size : Int)) :: b.names.locals }
      fixups := b.fixups ++ d.pending.map (⟨b.func.instrs.size, ·⟩) } := by
    simp only [Body.push, hn, Option.getD_some, hg]
    rfl
  cases hpush.symm.trans hc
  exact {
    name := happ.name.trans h.name
    params := happ.params.trans h.params
    ret := happ.ret.trans h.ret
    symbols := h.symbols
    blocks := by
      change g.blocks.toList = _
      rw [happ.blocks, Array.toList_modify, h.blocks, Int.toNat_natCast]
      simp [List.modify_eq_take_cons_drop]
    labels := by
      intro c blk hc
      obtain ⟨blk', hblk', hname, -⟩ := happ.some_of_block? hc
      rw [hname]
      exact h.labels c blk' hblk'
    instrs := by
      intro id i' hi'
      change g.instr? id = some i' at hi'
      rw [happ.instr?] at hi'
      split at hi'
      · -- The references of the draft wait for the same names as those of the instruction.
        next hid =>
        subst hid
        cases hi'
        have hnew : ∀ y ∈ b.fixups, y.instr ≠ b.func.instrs.size := fun y hy he => by
          obtain ⟨k, hk⟩ := hb.exists_of_fixup hy
          have := Func.lt_of_instr? hk
          omega
        refine ⟨i, hi, ?_⟩
        rw [openAt_append_self hnew]
        have hfields := congrArg (fun k => { k with home := some (bs.length : Int) }) hd.fields
        exact {
          fields := by
            rw [← hhome] at hfields ⊢
            exact hfields
          operands := hd.operands
          targets := hd.targets }
      · next hid =>
        obtain ⟨j, hj, hawaits⟩ := h.instrs id i' hi'
        refine ⟨j, hj, ?_⟩
        rwa [openAt_append_of_ne (Ne.symm hid)]
    current := fun _ => h.current (by simp)
    errors := h.errors }

end Body.Retraces

/-! ### Bodies -/

theorem ahead_ne_colon {ys : List Token} (hys : Leads (·.1 ≠ .colon) (·.1 ≠ .colon) (ys.map Token.bare))
    (hrest : (front rest).1 ≠ .colon) (hy : y.kind ≠ .colon) :
    (⟨y :: ys ++ rest, last⟩ : Stream).ahead.kind ≠ .colon := by
  cases ys with
  | nil =>
    cases rest with
    | nil => exact hy
    | cons z rest => exact hrest
  | cons z ys => exact hys

namespace Body.Stands

theorem instrs_length (h : b.Stands ts s f bs u) : (bs.flatMap (·.instrs)).length = b.func.instrs.size := by
  rw [← h.retraces.blocks, h.sound.arranged.order, Func.instrIds, List.length_map, List.length_range]

theorem label (h : b.Stands ts s f bs ⟨y :: z :: rest, last⟩) (hf : f.Read tokens s) (hy : y.kind = .ident)
    (hz : z.kind = .colon) (hname : f.Labels y.word bs.length) :
    b.Goes ⟨y :: z :: rest, last⟩ (b.label y) ⟨rest, some z.line⟩ ∧
      (b.label y).Stands ts s f (bs ++ [{ name := y.word }]) ⟨rest, some z.line⟩ := by
  have hsize : b.func.blocks.size = bs.length := by rw [← Array.length_toList, h.retraces.blocks]
  have hword : IsWord y.word := by
    obtain ⟨blk, hblk, hname⟩ := hname
    exact hname ▸ hf.labels _ _ hblk
  refine ⟨.label hy hz, h.sound.label hword, h.passes.trans ⟨[y, z], rfl, by simp [hy, hz]⟩, ?_⟩
  exact h.retraces.label h.sound hf (by rwa [hsize])

theorem opening {done more : List Block} {blk : Block} {lss : List (List Lexeme)} (hf : f.Read tokens s)
    (hsplit : f.blocks.toList = done ++ blk :: more) (h : b.Stands ts s f (done.map Block.bare) ⟨xs ++ rest, last⟩)
    (hxs : xs.map Token.bare = (.ident, ofString blk.name) :: (.colon, [58]) :: lss.flatten) :
    ∃ c zs last', zs.map Token.bare = lss.flatten ∧ b.Goes ⟨xs ++ rest, last⟩ c ⟨zs ++ rest, last'⟩ ∧
      c.Stands ts s f (done.map Block.bare ++ [{ name := blk.name }]) ⟨zs ++ rest, last'⟩ := by
  obtain ⟨y, ys, rfl, hy, hys⟩ := List.map_eq_cons_iff.mp hxs
  obtain ⟨z, zs, rfl, hz, hzs⟩ := List.map_eq_cons_iff.mp hys
  have hblk : f.block? done.length = some blk := by
    rw [Func.block?_ofNat, ← Array.getElem?_toList, hsplit]
    simp
  obtain ⟨hk, hword⟩ := Token.word_eq (hf.labels _ _ hblk).isName hy
  obtain ⟨hgoes, hstands⟩ := h.label hf hk (Prod.mk.inj hz).1
    ⟨blk, by rwa [List.length_map], hword.symm⟩
  rw [hword] at hstands
  exact ⟨_, zs, _, hzs, hgoes, hstands⟩

theorem ends_block {done more : List Block} {blk : Block} {lss : List (List Lexeme)} {zs : List Token}
    (htold : List.Forall₂ (f.TellsBlock s) more lss) (hf : f.Read tokens s)
    (hsplit : f.blocks.toList = done ++ blk :: more) (hzs : zs.map Token.bare = lss.flatten)
    (hrest : (front rest).1 = .rbrace) (hparts : ∀ blk' ∈ more.head?, f.Parts blk blk') :
    ∀ id ∈ blk.instrs.getLast?, ∀ i ∈ f.instr? id, Grammar.Ends i (· = front (zs ++ rest)) := by
  intro id hid i hi
  cases htold with
  | nil =>
    obtain rfl := List.map_eq_nil_iff.mp hzs
    exact Grammar.ends_brace hrest i
  | @cons blk' ls' more' lss' hblk' _ =>
    obtain ⟨lines, -, rfl⟩ := hblk'
    obtain ⟨z, zs, rfl, hz, -⟩ := List.map_eq_cons_iff.mp hzs
    have hmem : f.block? (done ++ [blk]).length = some blk' := by
      rw [Func.block?_ofNat, ← Array.getElem?_toList, hsplit]
      simp
    rw [show front (z :: zs ++ rest) = _ from hz]
    exact Grammar.ends_label (hf.labels _ _ hmem).isName (hparts blk' (by simp) id hid i hi)

section

variable (hproper : ∀ x ∈ ts, x.Proper)

include hproper

theorem instr (h : b.Stands ts s f (bs ++ [{ name := x, instrs := pre }]) ⟨xs ++ rest, last⟩) (hs : s.Formed)
    (hf : f.Read tokens s) (hi : f.instr? b.func.instrs.size = some i) (hhome : i.home = some (bs.length : Int))
    (htold : i.Told s f ls) (hxs : xs.map Token.bare = ls) (hends : Grammar.Ends i (· = front rest)) :
    ∃ c last', b.Goes ⟨xs ++ rest, last⟩ c ⟨rest, last'⟩ ∧
      c.Stands ts s f (bs ++ [{ name := x, instrs := pre ++ [(b.func.instrs.size : Int)] }]) ⟨rest, last'⟩ := by
  obtain ⟨l, more, rfl, hopens, hmore⟩ := htold.starts
  obtain ⟨y, ys, rfl, hy, hys⟩ := List.map_eq_cons_iff.mp hxs
  obtain ⟨d, last', hread, hd⟩ := htold.reads b.names _ (h.retraces.within h.sound)
    (h.retraces.lookup_instr h.sound hf hi) hends _ rest last hxs rfl
  have hkind : ∀ k ∈ [TokenKind.eof, .comma, .colon, .rparen, .rbracket, .rbrace, .metadata], y.kind ≠ k := by
    rintro _ hk rfl
    exact (hy ▸ hopens).kind hk
  rw [← h.retraces.current (by simp)] at hread
  have hcur : (⟨y :: ys ++ rest, last⟩ : Stream).atEnd = false := by
    simp [Stream.atEnd, Stream.cur, hkind]
  obtain ⟨c, u, hstep, hsound, hpass, -⟩ := h.sound.step hproper (h.retraces.symbols ▸ hs) h.passes hcur
  simp only [Body.step, hread.attempt, Checked.ok_bind] at hstep
  obtain ⟨c', hc, hstep⟩ := Checked.bind_eq_ok.mp hstep
  cases hstep
  refine ⟨c, last', .instr hread hc ?_ ?_, hsound, h.passes.trans hpass,
    h.retraces.push h.sound hd hi hhome hc⟩
  · exact ⟨hkind .rbrace (by decide), hkind .eof (by decide)⟩
  · intro hident
    refine ahead_ne_colon ?_ (hends.colon _ rfl) (hkind .colon (by decide))
    rw [hys]
    exact hmore (by rw [← hy]; exact hident)

/-- Some of the instructions of a block, one after the other. -/
theorem lines {done more : List Block} {blk : Block} {ids post : List Int} {lss : List (List Lexeme)}
    (htold : List.Forall₂ (f.Tells s) ids lss) (hs : s.Formed) (hf : f.Read tokens s)
    (hsplit : f.blocks.toList = done ++ blk :: more) (hids : blk.instrs = pre ++ (ids ++ post))
    (h : b.Stands ts s f (done.map Block.bare ++ [{ name := blk.name, instrs := pre }]) ⟨xs ++ rest, last⟩)
    (hxs : xs.map Token.bare = lss.flatten)
    (hends : ∀ id ∈ ids.getLast?, ∀ i ∈ f.instr? id, Grammar.Ends i (· = front rest)) :
    ∃ c last', b.Goes ⟨xs ++ rest, last⟩ c ⟨rest, last'⟩ ∧
      c.Stands ts s f (done.map Block.bare ++ [{ name := blk.name, instrs := pre ++ ids }]) ⟨rest, last'⟩ := by
  induction htold generalizing pre b xs last with
  | nil =>
    obtain rfl := List.map_eq_nil_iff.mp hxs
    refine ⟨b, last, .refl b _, ?_⟩
    rwa [List.append_nil]
  | @cons id ls ids lss hid htold ih =>
    obtain ⟨i, hi, htells⟩ := hid
    obtain ⟨ys, zs, rfl, hys, hzs⟩ := List.map_eq_append_iff.mp hxs
    have hflat : f.blocks.toList.flatMap (·.instrs) =
        (done.flatMap (·.instrs) ++ pre) ++ id :: (ids ++ (post ++ more.flatMap (·.instrs))) := by
      simp [hsplit, hids]
    obtain rfl : id = b.func.instrs.size := by
      rw [hf.number_eq hflat, ← h.instrs_length]
      simp [Block.bare, List.flatMap_map]
    have hhome : i.home = some ((done.map Block.bare).length : Int) := by
      have hblk : f.block? done.length = some blk := by
        rw [Func.block?_ofNat, ← Array.getElem?_toList, hsplit]
        simp
      have hmem : (b.func.instrs.size : Int) ∈ blk.instrs := by simp [hids]
      obtain ⟨j, hj, hhome, -⟩ := hf.wellFormed.home_of_stands ⟨blk, hblk, hmem⟩
      cases hi.symm.trans hj
      rwa [List.length_map]
    -- The next line tells where this one ends.
    have hnext : Grammar.Ends i (· = front (zs ++ rest)) := by
      cases htold with
      | nil =>
        obtain rfl := List.map_eq_nil_iff.mp hzs
        exact hends _ (by simp) i hi
      | cons hid _ =>
        obtain ⟨j, -, hj⟩ := hid
        obtain ⟨l, more, rfl, hopens, -⟩ := hj.starts
        rw [List.flatten_cons, List.cons_append] at hzs
        obtain ⟨z, zs, rfl, rfl, -⟩ := List.map_eq_cons_iff.mp hzs
        exact hopens.ends i
    rw [List.append_assoc] at h ⊢
    obtain ⟨c, last₁, hgoes, hc⟩ := h.instr hproper hs hf hi hhome htells hys hnext
    have hnext : blk.instrs = (pre ++ [(b.func.instrs.size : Int)]) ++ (ids ++ post) := by
      rw [hids, List.append_assoc]
      rfl
    obtain ⟨d, last₂, hgoes', hd⟩ := ih hnext hc hzs
      (fun id hid => hends id (by simp [List.getLast?_cons, Option.mem_def.mp hid]))
    rw [List.append_assoc] at hd
    exact ⟨d, last₂, hgoes.trans hgoes', hd⟩

theorem block {done more : List Block} {blk : Block} (htold : f.TellsBlock s blk ls) (hs : s.Formed)
    (hf : f.Read tokens s) (hsplit : f.blocks.toList = done ++ blk :: more)
    (h : b.Stands ts s f (done.map Block.bare) ⟨xs ++ rest, last⟩) (hxs : xs.map Token.bare = ls)
    (hends : ∀ id ∈ blk.instrs.getLast?, ∀ i ∈ f.instr? id, Grammar.Ends i (· = front rest)) :
    ∃ c last', b.Goes ⟨xs ++ rest, last⟩ c ⟨rest, last'⟩ ∧
      c.Stands ts s f ((done ++ [blk]).map Block.bare) ⟨rest, last'⟩ := by
  obtain ⟨lss, hlines, rfl⟩ := htold
  obtain ⟨d, zs, last₁, hzs, hgoes, hstands⟩ := h.opening hf hsplit hxs
  have hall : blk.instrs = [] ++ (blk.instrs ++ []) := by simp
  obtain ⟨c, last', hgoes', hc⟩ := hstands.lines hproper hlines hs hf hsplit hall hzs hends
  refine ⟨c, last', hgoes.trans hgoes', ?_⟩
  rw [List.map_append]
  exact hc

/-- The blocks of a body, one after the other. -/
theorem blocks {done more : List Block} {lss : List (List Lexeme)} (htold : List.Forall₂ (f.TellsBlock s) more lss)
    (hs : s.Formed) (hf : f.Read tokens s) (hsplit : f.blocks.toList = done ++ more) (hapart : more.IsChain f.Parts)
    (h : b.Stands ts s f (done.map Block.bare) ⟨xs ++ rest, last⟩) (hxs : xs.map Token.bare = lss.flatten)
    (hrest : (front rest).1 = .rbrace) : ∃ c last', b.Goes ⟨xs ++ rest, last⟩ c ⟨rest, last'⟩ ∧
      c.Stands ts s f (f.blocks.toList.map Block.bare) ⟨rest, last'⟩ := by
  induction htold generalizing done b xs last with
  | nil =>
    obtain rfl := List.map_eq_nil_iff.mp hxs
    rw [List.append_nil] at hsplit
    exact ⟨b, last, .refl b _, hsplit ▸ h⟩
  | @cons blk ls more lss hblk htold ih =>
    obtain ⟨hparts, hapart⟩ := List.isChain_cons.mp hapart
    obtain ⟨ys, zs, rfl, hys, hzs⟩ := List.map_eq_append_iff.mp hxs
    have hends := ends_block htold hf hsplit hzs hrest hparts
    rw [List.append_assoc] at h ⊢
    obtain ⟨c, last₁, hgoes, hc⟩ := h.block hproper hblk hs hf hsplit hys hends
    obtain ⟨d, last₂, hgoes', hd⟩ := ih (hsplit.trans (List.append_cons done blk more)) hapart hc hzs
    exact ⟨d, last₂, hgoes.trans hgoes', hd⟩

end

end Body.Stands

/-! ### Labels taken for flags -/

section

variable {n : Nat}

theorem Body.errors_push {d : Draft} (h : b.push d = .ok c) : c.errors = b.errors := by
  obtain ⟨_, -, h⟩ := Checked.bind_eq_ok.mp h
  cases h
  rfl

theorem Body.errors_step (h : b.step u = .ok (c, v)) :
    (∃ d, Reader.Reads (instruction b.names b.current.isSome) u d v ∧ c.errors = b.errors) ∨ c.errors ≠ [] := by
  obtain ⟨⟨x, w⟩, hr, h⟩ := Checked.bind_eq_ok.mp h
  rcases Reader.attempt_eq_ok hr with ⟨d, rfl, hread⟩ | ⟨e, rfl⟩
  · obtain ⟨b', hb, h⟩ := Checked.bind_eq_ok.mp h
    cases h
    exact .inl ⟨d, hread, errors_push hb⟩
  · cases h
    exact .inr (List.append_ne_nil_of_right_ne_nil _ (List.cons_ne_nil _ _))

theorem body_errors_nil (h : body n b u = .ok (c, v)) (hc : c.errors = []) : b.errors = [] := by
  induction n generalizing b u with
  | zero => cases h
  | succ n ih =>
    unfold body at h
    split at h
    · cases h
      exact hc
    split at h
    · have := ih h
      unfold Body.label at this
      split at this
      · simp [Body.report] at this
      · exact this
    · obtain ⟨⟨b', u'⟩, hstep, h⟩ := Checked.bind_eq_ok.mp h
      rcases b.errors_step hstep with ⟨-, -, hb⟩ | hb
      · exact hb ▸ ih h
      · exact absurd (ih h) hb

theorem exists_step (hu : u.cur.kind ≠ .rbrace ∧ u.cur.kind ≠ .eof)
    (hlabel : u.cur.kind = .ident → u.ahead.kind ≠ .colon) (h : body n b u = .ok (c, v)) :
    ∃ m b' u', b.step u = .ok (b', u') ∧ body m b' u' = .ok (c, v) := by
  cases n with
  | zero => cases h
  | succ m =>
    rw [body_succ hu hlabel] at h
    obtain ⟨p, hstep, h⟩ := Checked.bind_eq_ok.mp h
    exact ⟨m, p.1, p.2, hstep, h⟩

theorem body_colon (hu : u.cur.kind = .colon) (h : body n b u = .ok (c, v)) : c.errors ≠ [] := by
  intro hc
  obtain ⟨m, b', u', hstep, h⟩ := exists_step (by simp [hu]) (by simp [hu]) h
  rcases b.errors_step hstep with ⟨d, hr, -⟩ | hb
  · have hnamed : Grammar.named u = false := by simp [Grammar.named, Stream.sees, hu]
    obtain ⟨_, hk, -⟩ := Grammar.reads_operation.mp (Grammar.reads_instruction.mp hr)
    rw [Grammar.unnamed, hnamed, if_neg Bool.false_ne_true, hu] at hk
    cases hk
  · exact hb (body_errors_nil h hc)

namespace Body.Stands

/-- A label that is called like a flag is lost behind a terminator without operands. -/
theorem label_lost (h : b.Stands ts s f bs ⟨xs ++ y :: z :: rest, last⟩)
    (hf : f.Read tokens s) (hi : f.instr? id = some i) (hbare : i.Bare)
    (hxs : xs.map Token.bare = (.ident, ofString i.op.name) ::
      (optional i.volatile "volatile" ++ optional i.checked "checked"))
    (hy : y.kind = .ident ∧ y.word ∈ flagWords) (hz : z.kind = .colon)
    (hbody : body n b ⟨xs ++ y :: z :: rest, last⟩ = .ok (c, v)) : c.errors ≠ [] := by
  intro hc
  obtain ⟨u, us, rfl, hu, hus⟩ := List.map_eq_cons_iff.mp hxs
  obtain ⟨t, hformed, -⟩ := hf.formed id i hi
  have hop : i.op ≠ .invalid := by
    rcases hbare with hop | ⟨hop, -⟩
    all_goals simp [hop]
  obtain ⟨hw, hname⟩ := Op.isWord_name hop
  obtain ⟨hk, hword⟩ := Token.word_eq hw.isName hu
  have hwords : ∀ x ∈ us ++ [y], x.kind = .ident ∧ x.word ∈ flagWords := by
    intro x hx
    rcases List.mem_append.mp hx with hx | hx
    · have hbare : x.bare ∈ optional i.volatile "volatile" ++ optional i.checked "checked" :=
        hus ▸ List.mem_map_of_mem hx
      rcases List.mem_append.mp hbare with hbare | hbare
      · exact flag_of_optional (by decide) hbare
      · exact flag_of_optional (by decide) hbare
    · exact List.mem_singleton.mp hx ▸ hy
  have hnamed : Grammar.named ⟨u :: us ++ y :: z :: rest, last⟩ = false := by
    simp [Grammar.named, Stream.sees, Stream.cur, hk]
  -- Nothing shows that the line before is at its end, so the label is read as one more flag and the
  -- colon is left over.
  have hahead : (⟨u :: us ++ y :: z :: rest, last⟩ : Stream).ahead.kind ≠ .colon := by
    refine ahead_ne_colon ?_ (by simp [front, Token.bare, hy.1]) (by simp [hk])
    cases us with
    | nil => exact leads_nil _
    | cons x us => simp [Leads, Token.bare, hwords]
  obtain ⟨m, b', u', hstep, hmore⟩ := exists_step (by simp [Stream.cur, hk]) (fun _ => hahead) hbody
  rcases b.errors_step hstep with ⟨d, hr, -⟩ | hb
  · obtain ⟨op, -, hop', -, hread, -⟩ := Grammar.reads_operation.mp (Grammar.reads_instruction.mp hr)
    rw [Grammar.unnamed, hnamed, if_neg Bool.false_ne_true] at hop' hread
    rw [show (⟨u :: us ++ y :: z :: rest, last⟩ : Stream).cur = u from rfl, hword, hname] at hop'
    cases hop'
    have hbehind : (⟨u :: us ++ y :: z :: rest, last⟩ : Stream).advance.rest = us ++ [y] ++ z :: rest := by
      simp [Stream.advance_cons, hk]
    have hcur := Grammar.cur_of_reads_rest hread ((h.retraces.within h.sound).ret ▸ hformed) hbare hbehind hwords
      (by simp [hz])
    exact body_colon (hcur ▸ hz) hmore hc
  · exact hb (body_errors_nil hmore hc)

variable {done more : List Block} {blk : Block} (hproper : ∀ x ∈ ts, x.Proper)

include hproper

/-- If nothing is wrong, the label behind a block has not been taken for a flag. -/
theorem parts {blk' : Block} (h : b.Stands ts s f (done.map Block.bare) ⟨xs ++ y :: z :: rest, last⟩) (hs : s.Formed)
    (hf : f.Read tokens s) (htold : f.TellsBlock s blk ls) (hsplit : f.blocks.toList = done ++ blk :: more)
    (hxs : xs.map Token.bare = ls) (hy : y.kind = .ident ∧ y.word = blk'.name) (hz : z.kind = .colon)
    (hn : (xs ++ y :: z :: rest).length ≤ n) (hbody : body n b ⟨xs ++ y :: z :: rest, last⟩ = .ok (c, v))
    (hc : c.errors = []) : f.Parts blk blk' := by
  intro id hid i hi hbare hempty hflag
  obtain ⟨ids, hids⟩ := List.getLast?_eq_some_iff.mp hid
  obtain ⟨lss, hlines, rfl⟩ := htold
  rw [hids] at hlines
  obtain ⟨lss, line, rfl, hinit, j, hj, hline⟩ := exists_concat_of_forall₂ hlines
  cases hi.symm.trans hj
  obtain ⟨d, zs, last₁, hzs, hgoes, hd⟩ := h.opening hf hsplit hxs
  rw [List.flatten_append, List.flatten_singleton] at hzs
  obtain ⟨ys, ws, rfl, hys, hws⟩ := List.map_eq_append_iff.mp hzs
  rw [List.append_assoc] at hgoes hd
  obtain ⟨l, more', rfl, hopens, -⟩ := hline.starts
  have hends : ∀ id ∈ ids.getLast?, ∀ i ∈ f.instr? id, Grammar.Ends i (· = front (ws ++ y :: z :: rest)) := by
    intro _ _ i _
    obtain ⟨w, ws, rfl, rfl, -⟩ := List.map_eq_cons_iff.mp hws
    exact hopens.ends i
  have hinstrs : blk.instrs = [] ++ (ids ++ [id]) := by simpa using hids
  obtain ⟨e, last₂, hgoes', he⟩ := hd.lines hproper hinit hs hf hsplit hinstrs hys hends
  obtain ⟨m, -, hbody'⟩ := hgoes.trans hgoes' n hn
  refine he.label_lost hf hi hbare ?_ ⟨hy.1, hy.2.symm ▸ hflag⟩ hz (hbody'.symm.trans hbody) hc
  rw [hws]
  exact hline.bare hbare hempty

/-- If nothing is wrong with a body, no label in it has been taken for a flag. -/
theorem labelsApart {lss : List (List Lexeme)} (htold : List.Forall₂ (f.TellsBlock s) more lss) (hs : s.Formed)
    (hf : f.Read tokens s) (hsplit : f.blocks.toList = done ++ more)
    (h : b.Stands ts s f (done.map Block.bare) ⟨xs ++ rest, last⟩) (hxs : xs.map Token.bare = lss.flatten)
    (hrest : (front rest).1 = .rbrace) (hn : (xs ++ rest).length ≤ n)
    (hbody : body n b ⟨xs ++ rest, last⟩ = .ok (c, v)) (hc : c.errors = []) : more.IsChain f.Parts := by
  induction htold generalizing done b xs last n with
  | nil => exact .nil
  | @cons blk ls more lss hblk htold ih =>
    obtain ⟨ys, zs, rfl, hys, hzs⟩ := List.map_eq_append_iff.mp hxs
    rw [List.append_assoc] at h hbody hn
    have hparts : ∀ blk' ∈ more.head?, f.Parts blk blk' := by
      intro blk' hblk'
      cases htold with
      | nil => cases hblk'
      | cons htold' _ =>
        cases hblk'
        obtain ⟨lines, -, rfl⟩ := htold'
        obtain ⟨y, zs, rfl, hy, hzs⟩ := List.map_eq_cons_iff.mp hzs
        obtain ⟨z, zs, rfl, hz, -⟩ := List.map_eq_cons_iff.mp hzs
        have hmem : f.block? (done ++ [blk]).length = some blk' := by
          rw [Func.block?_ofNat, ← Array.getElem?_toList, hsplit]
          simp
        exact h.parts hproper hs hf hblk hsplit hys (Token.word_eq (hf.labels _ _ hmem).isName hy)
          (Prod.mk.inj hz).1 hn hbody hc
    obtain ⟨d, last₁, hgoes, hd⟩ := h.block hproper hblk hs hf hsplit hys
      (ends_block htold hf hsplit hzs hrest hparts)
    obtain ⟨m, hm, hbody'⟩ := hgoes n hn
    refine List.isChain_cons.mpr ⟨hparts, ?_⟩
    exact ih (hsplit.trans (List.append_cons done blk more)) hd hzs hm (hbody'.symm.trans hbody)

end Body.Stands

end

/-! ### References looked up -/

theorem openAt_cons (y : Fixup) (fixups : List Fixup) (id : Int) :
    openAt (y :: fixups) id = if y.instr = id then y.ref :: openAt fixups id else openAt fixups id := by
  unfold openAt
  by_cases hid : y.instr = id
  · rw [if_pos hid, List.filter_cons_of_pos (by simpa using hid), List.map_cons]
  · rw [if_neg hid, List.filter_cons_of_neg (by simpa using hid)]

namespace Body.Retraces

theorem lookup_label (h : b.Retraces s f (f.blocks.toList.map Block.bare)) (hb : b.Sound ts) {c : Int}
    (hc : f.Labels x c) : b.names.blocks.lookup x = some c := by
  obtain ⟨blk, hblk, rfl⟩ := hc
  obtain ⟨n, rfl, hn⟩ := Func.block?_eq_some.mp hblk
  refine hb.unlabelled h.errors n blk.bare ?_
  rw [Func.block?_ofNat, ← Array.getElem?_toList, h.blocks, List.getElem?_map, Array.getElem?_toList, hn]
  rfl

theorem instrIds_eq (h : b.Retraces s f (f.blocks.toList.map Block.bare)) (hb : b.Sound ts)
    (hf : f.Read tokens s) : b.func.instrIds = f.instrIds := by
  rw [← hb.arranged.order, ← hf.order, h.blocks, List.flatMap_map]
  rfl

theorem lookup_name (h : b.Retraces s f (f.blocks.toList.map Block.bare)) (hb : b.Sound ts) (hf : f.Read tokens s)
    {u : Int} (hj : f.instr? u = some j) (hne : j.name ≠ "") : b.names.locals.lookup j.name = some u := by
  obtain ⟨i, hi⟩ : ∃ i, b.func.instr? u = some i := by
    rw [← Func.mem_instrIds, h.instrIds_eq hb hf]
    exact Func.mem_instrIds.mpr ⟨j, hj⟩
  obtain ⟨k, hk, hname⟩ := h.nameOf hi
  cases hj.symm.trans hk
  rw [← hname] at hne ⊢
  exact (hb.called.unique u i hi hne).1

variable {y : Fixup} {ys : List Fixup}

theorem setInstr {change : Instr → Instr} (h : Retraces s f bs { b with fixups := y :: ys })
    (hchange : ∀ i j, f.instr? y.instr = some j → i.Awaits f (y.ref :: openAt ys y.instr) j →
      (change i).Awaits f (openAt ys y.instr) j) :
    Retraces s f bs { b with func := b.func.setInstr y.instr change, fixups := ys } where
  name := Func.name_setInstr.trans h.name
  params := Func.params_setInstr.trans h.params
  ret := Func.ret_setInstr.trans h.ret
  symbols := h.symbols
  blocks := (congrArg Array.toList Func.blocks_setInstr).trans h.blocks
  labels := fun c blk hc => h.labels c blk (Func.block?_setInstr ▸ hc)
  instrs := by
    intro id i hi
    rw [Func.instr?_setInstr] at hi
    split at hi
    · next hid =>
      subst hid
      obtain ⟨k, hk, rfl⟩ := Option.map_eq_some_iff.mp hi
      obtain ⟨j, hj, hawaits⟩ := h.instrs _ k hk
      rw [openAt_cons, if_pos rfl] at hawaits
      exact ⟨j, hj, hchange k j hj hawaits⟩
    · next hid =>
      obtain ⟨j, hj, hawaits⟩ := h.instrs id i hi
      rw [openAt_cons, if_neg hid] at hawaits
      exact ⟨j, hj, hawaits⟩
  current := h.current
  errors := h.errors

/-- What a reference names is there, and takes the place that was left for it. -/
theorem resolve (h : Retraces s f (f.blocks.toList.map Block.bare) { b with fixups := y :: ys })
    (hb : Sound ts { b with fixups := y :: ys }) (hf : f.Read tokens s) :
    Retraces s f (f.blocks.toList.map Block.bare) { b.resolve y with fixups := ys } := by
  obtain ⟨i, hi⟩ := hb.exists_of_fixup (List.mem_cons_self ..)
  obtain ⟨j, hj, hawaits⟩ := h.instrs _ i hi
  rw [openAt_cons, if_pos rfl] at hawaits
  cases hblock : y.ref.isBlock with
  | true =>
    obtain ⟨c, -, hc⟩ := hawaits.targets.named y.ref (List.mem_cons_self ..) hblock
    have hlookup : b.names.blocks.lookup y.ref.name = some c := h.lookup_label hb hc
    have hresolve : b.resolve y = { b with
        func := b.func.setInstr y.instr fun i => { i with targets := i.targets.set y.ref.index c } } := by
      rw [Body.resolve, if_pos hblock, hlookup]
    rw [hresolve]
    exact h.setInstr fun i j hj hawaits => hawaits.aimed hf hblock hc
  | false =>
    obtain ⟨v, hv, hname⟩ := hawaits.operands.named y.ref (List.mem_cons_self ..) hblock
    obtain ⟨u, k, rfl, hk, hkname⟩ := hname
    obtain ⟨k', hk', hne⟩ := hf.has _ j hj _ (List.mem_of_getElem? hv)
    cases hk.symm.trans hk'
    have hlookup : b.names.locals.lookup y.ref.name = some u := hkname ▸ h.lookup_name hb hf hk hne
    have hresolve : b.resolve y = { b with
        func := b.func.setInstr y.instr fun i => { i with operands := i.operands.set y.ref.index (.instr u) } } := by
      rw [Body.resolve, if_neg (by simp [hblock]), hlookup]
    rw [hresolve]
    exact h.setInstr fun i j hj hawaits => hawaits.supplied hf hblock hk hkname hne

theorem foldl_resolve (h : Retraces s f (f.blocks.toList.map Block.bare) { b with fixups := ys })
    (hb : Sound ts { b with fixups := ys }) (hf : f.Read tokens s) :
    Retraces s f (f.blocks.toList.map Block.bare) { ys.foldl Body.resolve b with fixups := [] } ∧
      Sound ts { ys.foldl Body.resolve b with fixups := [] } := by
  induction ys generalizing b with
  | nil => exact ⟨h, hb⟩
  | cons y ys ih =>
    have hnext := h.resolve hb hf
    exact ih hnext (hb.resolve hnext.errors)

end Body.Retraces

end Parser

/-! ### The same function, elsewhere -/

theorem Func.instr?_ofNat (f : Func) (n : Nat) : f.instr? n = f.instrs[n]? := by simp [instr?]

theorem Func.Read.linked (hf : f.Read tokens s) : f.Linked where
  member := by
    intro c blk hblk id hid
    obtain ⟨i, hi, -⟩ := hf.wellFormed.home_of_stands ⟨blk, hblk, hid⟩
    exact ⟨i, hi⟩
  targets := fun _ _ hi => (hf.references hi).targets

/-- The function without its places in the text. -/
def Func.unplaced (f : Func) : Func := { f with instrs := f.instrs.map Instr.content, file := "" }

namespace Func

theorem Rewrites.terminator {σ : Value → Value} (h : f.Rewrites σ g) (c : Int) : g.terminator c = f.terminator c := by
  have hblock : g.block c = f.block c := by rw [block, block, h.block?, h.name]
  unfold Func.terminator
  rw [hblock]
  cases f.block c with
  | error e => rfl
  | ok blk =>
    rw [Checked.ok_bind, Checked.ok_bind]
    cases blk.instrs.getLast? with
    | none => rfl
    | some id =>
      dsimp only
      cases hi : f.instr? id with
      | none =>
        have hnone : g.instr? id = none := by simpa [hi] using h.instr id
        rw [Func.instr, Func.instr, hi, hnone, h.name]
      | some i =>
        obtain ⟨i', hi', hshape, -⟩ := h.exists_instr hi
        rw [instr_eq_ok.mpr hi, instr_eq_ok.mpr hi', Checked.ok_bind, Checked.ok_bind, Instr.op_of_shape hshape]

theorem Rewrites.targetsOf {σ : Value → Value} (h : f.Rewrites σ g) : g.targetsOf = f.targetsOf := by
  funext c
  unfold Func.targetsOf
  rw [h.terminator]
  split
  · next id _ =>
    have hinstr := congrArg (Option.map fun i => i.1.targets) (h.instr id)
    rw [Option.map_map, Option.map_map] at hinstr
    exact congrArg (·.getD []) hinstr
  · rfl

theorem Edged.unique {succs preds : Int → List Int} {k : Func} (h : f.Edged succs preds g)
    (h' : f.Edged succs preds k) : g = k := by
  have hbare := h.bare.trans h'.bare.symm
  have hblocks : g.blocks = k.blocks := by
    refine Array.ext_getElem? fun n => ?_
    rw [← block?_ofNat, ← block?_ofNat]
    cases hn : g.block? n with
    | none =>
      by_contra hne
      obtain ⟨blk, hblk⟩ := Option.ne_none_iff_exists'.mp (Ne.symm hne)
      obtain ⟨blk', hblk', -⟩ := block?_of_bare hbare hblk
      cases hn.symm.trans hblk'
    | some blk =>
      obtain ⟨blk', hblk', he⟩ := block?_of_bare hbare.symm hn
      rw [hblk']
      refine congrArg some (?_ : Block.mk blk.name blk.instrs blk.succs blk.preds = blk')
      rw [h.succs n blk hn, h.preds n blk hn, ← h'.succs n blk' hblk', ← h'.preds n blk' hblk']
      exact congrArg (fun c => Block.mk c.name c.instrs blk'.succs blk'.preds) he.symm
  have hall := congrArg (fun f : Func => { f with blocks := k.blocks }) hbare
  rw [← hblocks] at hall
  refine hall.trans ?_
  rw [hblocks]
  rfl

/-- Where the edges are those of the terminators, so they are with other operands. -/
theorem Rewrites.rebuildEdges {σ : Value → Value} (h : f.Rewrites σ g) (hf : f.rebuildEdges = (f, .ok ()))
    (hends : f.EndsInBlocks) : g.rebuildEdges = (g, .ok ()) := by
  obtain ⟨f', hf', hedged, -⟩ := hends.exists_rebuildEdges
  cases hf.symm.trans hf'
  have hids : g.blockIds = f.blockIds := by rw [blockIds, h.blocks, blockIds]
  have harrivals : g.arrivals g.blockIds = f.arrivals f.blockIds := by
    funext c
    rw [arrivals, h.targetsOf, hids, arrivals]
  have hends' : g.EndsInBlocks := {
    terminator := fun c blk hc => by
      rw [h.terminator]
      exact hends.terminator c blk (h.block? c ▸ hc)
    targets := fun c t ht => by
      rw [h.block?]
      exact hends.targets c t (h.targetsOf ▸ ht) }
  obtain ⟨g', hg', hedged', -⟩ := hends'.exists_rebuildEdges
  have hself : g.Edged g.targetsOf (g.arrivals g.blockIds) g := by
    rw [harrivals, h.targetsOf]
    refine ⟨rfl, fun c blk hc => ?_, fun c blk hc => ?_⟩
    · exact hedged.succs c blk (h.block? c ▸ hc)
    · exact hedged.preds c blk (h.block? c ▸ hc)
  rw [hg', hedged'.unique hself]

end Func

theorem Instr.Awaits.content (h : i.Awaits f [] j) : i.content = j.content := by
  calc i.content = (i.recast i.operands i.targets j.pos).content := rfl
    _ = (i.recast j.operands j.targets j.pos).content := by rw [h.operands.eq, h.targets.eq]
    _ = j.content := by rw [h.fields]

namespace Parser.Body

variable {b : Body} {u : Stream} {start : Token}

/-- Once no name is open, the instructions are those of the function. -/
theorem Retraces.content (h : b.Retraces s f (f.blocks.toList.map Block.bare)) (hb : b.Sound ts)
    (hf : f.Read tokens s) (hopen : b.fixups = []) (id : Int) :
    (b.func.instr? id).map Instr.content = (f.instr? id).map Instr.content := by
  cases hi : b.func.instr? id with
  | none =>
    have hnone : f.instr? id = none := by
      by_contra hne
      obtain ⟨j, hj⟩ := Option.ne_none_iff_exists'.mp hne
      have hmem := Func.mem_instrIds.mpr ⟨j, hj⟩
      rw [← h.instrIds_eq hb hf, Func.mem_instrIds, hi] at hmem
      obtain ⟨_, hk⟩ := hmem
      cases hk
    rw [hnone]
  | some i =>
    obtain ⟨j, hj, hawaits⟩ := h.instrs id i hi
    rw [hopen] at hawaits
    rw [hj, Option.map_some, Option.map_some, hawaits.content]

def retold (b : Body) (f : Func) : Func := { f with instrs := b.func.instrs, file := b.func.file }

theorem Retraces.rewrites (h : b.Retraces s f (f.blocks.toList.map Block.bare)) (hb : b.Sound ts)
    (hf : f.Read tokens s) (hopen : b.fixups = []) : f.Rewrites (fun v => v) (b.retold f) where
  name := rfl
  entry := rfl
  params := rfl
  blocks := rfl
  instr := fun id => by
    have hcontent := congrArg (Option.map fun i => (i.shape, i.home)) (h.content hb hf hopen id)
    rwa [Option.map_map, Option.map_map] at hcontent
  operands := fun _ id i i' _ hi hi' => by
    have hcontent := h.content hb hf hopen id
    rw [show b.func.instr? id = some i' from hi', hi] at hcontent
    rw [List.map_id']
    have hoperands := congrArg Instr.operands (Option.some.inj hcontent)
    exact hoperands

theorem Retraces.unplaced (h : b.Retraces s f (f.blocks.toList.map Block.bare)) (hb : b.Sound ts)
    (hf : f.Read tokens s) (hopen : b.fixups = []) : (b.retold f).unplaced = f.unplaced := by
  have hinstrs : b.func.instrs.map Instr.content = f.instrs.map Instr.content := by
    refine Array.ext_getElem? fun n => ?_
    have hcontent := h.content hb hf hopen n
    rwa [Func.instr?_ofNat, Func.instr?_ofNat, ← Array.getElem?_map, ← Array.getElem?_map] at hcontent
  rw [Func.unplaced, Func.unplaced, retold, hinstrs]

theorem Retraces.bare_retold (h : b.Retraces s f (f.blocks.toList.map Block.bare)) (hb : b.Sound ts)
    (hf : f.Read tokens s) : (b.retold f).bare = b.func.bare := by
  have hblocks : f.blocks.map Block.bare = b.func.blocks.map Block.bare := by
    refine Array.toList_inj.mp ?_
    rw [Array.toList_map, Array.toList_map, h.blocks, List.map_map]
    rfl
  have hentry : f.entry = b.func.entry := by
    obtain ⟨e, blk, he, hblk, -⟩ := hf.wellFormed.entry
    obtain ⟨n, rfl, hn⟩ := Func.block?_eq_some.mp hblk
    have hsize : b.func.blocks.size = f.blocks.size := by
      rw [← Array.length_toList, h.blocks, List.length_map, Array.length_toList]
    have hlt := (Array.getElem?_eq_some_iff.mp hn).1
    rw [hf.entry, hb.arranged.entry, if_neg (by omega)]
  change Func.mk f.name f.params f.ret (f.blocks.map Block.bare) b.func.instrs f.entry b.func.file = _
  rw [hblocks, hentry, ← h.name, ← h.params, ← h.ret]
  rfl

/-- The function is closed without an error, and it is the one that was printed. -/
theorem Stands.finish (h : b.Stands ts s f (f.blocks.toList.map Block.bare) u) (hf : f.Read tokens s)
    (start : Token) : ∃ c, b.finish start = .ok c ∧ c.errors = [] ∧ c.func.unplaced = f.unplaced := by
  obtain ⟨hr, hb⟩ := h.retraces.foldl_resolve h.sound hf
  unfold Body.finish
  generalize b.fixups.foldl Body.resolve b = r at hr hb
  have hrewrites := hr.rewrites hb hf rfl
  have hbare := hr.bare_retold hb hf
  have hedges : r.func.rebuildEdges = (Body.retold { r with fixups := [] } f, .ok ()) :=
    (Func.rebuildEdges_of_bare hbare).symm.trans (hrewrites.rebuildEdges hf.edges hf.linked.endsInBlocks)
  have hverify : (Body.retold { r with fixups := [] } f).verify (some r.names.symbols) = .ok [] := by
    rw [hr.symbols]
    refine Func.verify_eq_nil.mpr (hrewrites.wellFormed hf.wellFormed fun c id i v _ hi hv => ?_)
    exact (hf.references hi).operands v hv
  have hblocks : r.func.blocks.isEmpty = false := by
    rw [← Array.isEmpty_toList, hr.blocks]
    obtain ⟨e, blk, he, hblk, -⟩ := hf.wellFormed.entry
    obtain ⟨n, rfl, hn⟩ := Func.block?_eq_some.mp hblk
    have hmem := Array.mem_toList_iff.mpr (Array.mem_of_getElem? hn)
    simpa using List.ne_nil_of_mem hmem
  refine ⟨{ r with func := Body.retold { r with fixups := [] } f, errors := [] }, ?_, rfl, hr.unplaced hb hf rfl⟩
  rw [if_neg (not_not.mpr hr.errors), if_neg (by simp [hblocks]), hedges]
  exact Checked.bind_eq_ok.mpr ⟨(), rfl, Checked.bind_eq_ok.mpr ⟨[], hverify, rfl⟩⟩

end Parser.Body

end RegPressure
