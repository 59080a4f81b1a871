import RegPressure.Proofs.Roundtrip.Operands

namespace RegPressure

open Bytes (ofString ofInt)
open DraftReader (Scans Makes)
open Lexer (Spells)

variable {α β : Type}

namespace Instr

def pushAll (i : Instr) (vs : List Value) : Instr := { i with operands := i.operands ++ vs }

theorem pushAll_nil (i : Instr) : i.pushAll [] = i := by
  rw [pushAll, List.append_nil]

theorem pushAll_cons (i : Instr) (v : Value) (vs : List Value) : i.pushAll (v :: vs) = (i.push v).pushAll vs := by
  simp [pushAll, push]

def join (i : Instr) (p : Value × Int) : Instr := (i.push p.1).aim p.2

def joinAll (i : Instr) (ps : List (Value × Int)) : Instr :=
  { i with operands := i.operands ++ ps.map (·.1), targets := i.targets ++ ps.map (·.2) }

theorem joinAll_nil (i : Instr) : i.joinAll [] = i := by
  simp [joinAll]

theorem joinAll_cons (i : Instr) (p : Value × Int) (ps : List (Value × Int)) :
    i.joinAll (p :: ps) = (i.join p).joinAll ps := by
  simp [joinAll, join, push, aim]

theorem joinAll_zip (i : Instr) {vs : List Value} {cs : List Int} (h : vs.length = cs.length) :
    i.joinAll (vs.zip cs) = { i with operands := i.operands ++ vs, targets := i.targets ++ cs } := by
  rw [joinAll, List.map_fst_zip (Nat.le_of_eq h), List.map_snd_zip (Nat.le_of_eq h.symm)]

end Instr

namespace Grammar

variable {ns : Names} {s : Symbols} {f : Func} {tokens : List Token} {O M F : Lexeme → Prop} {j : Instr}
  {t u : Ty} {v v' v'' : Value} {x y z : String} {n : Int}

theorem isWord_ordering {o : MemOrder} (h : o ≠ .none) : IsWord o.name ∧ o.name ∉ flagWords ∧
    MemOrder.ofName? o.name = some o := by
  cases o with
  | none => exact absurd rfl h
  | _ => exact ⟨isWord_of_octets (Bytes.isWord_of_all (by decide)), by decide, rfl⟩

theorem scans_ordering {o : MemOrder} (h : o ≠ .none) (f : Func) (j : Instr) :
    Scans f Lexeme.Opens F o.name (liftM ordering) o j j := by
  obtain ⟨hw, hflag, ho⟩ := isWord_ordering h
  refine DraftReader.scans_lift (Lexer.spells_word hw.octets) (Lexeme.opens_word hw hflag) ?_ f j
  refine Reader.yields_expect (by decide) fun p _ hp => ?_
  have hword : p.word = o.name := by rw [Token.word, hp, hw.isName.toText_octets]
  rw [hword, ho]
  exact Reader.yields_pure o

theorem scans_vectorType (h : (Ty.vector n t).Readable) (f : Func) (j : Instr) :
    Scans f Lexeme.Opens F (Ty.vector n t).text (liftM vectorType) (n, t) j j := by
  obtain ⟨l, ls, hs, hl, hr⟩ := exists_yields_type h
  refine DraftReader.scans_lift hs hl (fun xs rest last hxs => ?_) f j
  exact (hr xs rest last hxs).imp fun _ hread => reads_vectorType.mpr hread

/-! ### Shapes with a fixed number of operands -/

theorem scans_negation (ht : t.Readable) (hx : ns.Renders f (some t) v x) :
    Scans f Lexeme.Opens F (t.text ++ (" " ++ x)) (body ns .fneg) () j ({ j with ty := t }.push v) :=
  (scans_type ht f j).blank ((scans_operand hx).edit fun _ _ _ _ => rfl)

theorem scans_arith (ht : t.Readable) (hx : ns.Renders f (some t) v x) (hy : ns.Renders f (some t) v' y) :
    Scans f Lexeme.Opens F (t.text ++ (" " ++ (x ++ (", " ++ y)))) (do
      let t ← liftM type
      setTy t
      addOperand ns (some t)
      comma
      addOperand ns (some t)) () j (({ j with ty := t }.push v).push v') := by
  exact (scans_type ht f j).blank
    (.edit ((scans_operand hx).then_comma (scans_operand hy).comma) fun _ _ _ _ => rfl)

theorem scans_to (f : Func) (j : Instr) :
    Scans f (fun _ => True) F "to" (liftM (Reader.expectWord "to")) () j j := by
  have hto : IsWord "to" := isWord_of_octets (Bytes.isWord_of_all (by decide))
  refine DraftReader.scans_one (Lexer.spells_word hto.octets) (by decide) trivial fun d u hd hu => ?_
  obtain ⟨hk, hw⟩ := Token.word_eq hto.isName hu
  refine ⟨d, DraftReader.reads_lift.mpr ⟨Reader.reads_expectWord.mpr ⟨?_, rfl⟩, rfl⟩, hd⟩
  simp [Stream.atWord, Stream.sees, hk, hw]

theorem scans_cast (hu : u.Readable) (ht : t.Readable) (hx : ns.Renders f (some u) v x) :
    Scans f Lexeme.Opens F (u.text ++ (" " ++ (x ++ (" " ++ ("to" ++ (" " ++ t.text)))))) (do
      let t ← liftM type
      addOperand ns (some t)
      Reader.expectWord "to"
      setTy (← liftM type)) () j { j.push v with ty := t } :=
  (scans_type hu f j).blank ((scans_operand hx).blank ((scans_to f _).blank
    ((scans_type ht f _).finish (DraftReader.makes_edit (fun _ _ _ _ => rfl) f _))))

theorem scans_compare (op : Op) {pred : String} (hpred : IsWord pred ∧ pred ∉ flagWords)
    (hknown : op = .icmp → pred ∈ icmpPreds) (ht : t.Readable) (hx : ns.Renders f (some t) v x)
    (hy : ns.Renders f (some t) v' y) :
    Scans f Lexeme.Opens F (pred ++ (" " ++ (t.text ++ (" " ++ (x ++ (", " ++ y)))))) (do
      let p ← liftM (Reader.expect .ident)
      edit ({ · with pred := p.word })
      if op = .icmp && p.word ∉ icmpPreds then
        liftM (Reader.failAt p (.invalidPredicate p.word) : Reader Unit)
      let t ← liftM type
      setTy .i1
      addOperand ns (some t)
      comma
      addOperand ns (some t)) () j (({ { j with pred } with ty := .i1 }.push v).push v') := by
  have hrest : Scans f Lexeme.Opens F (t.text ++ (" " ++ (x ++ (", " ++ y)))) (do
      edit ({ · with pred })
      let t ← liftM type
      setTy .i1
      addOperand ns (some t)
      comma
      addOperand ns (some t)) () j (({ { j with pred } with ty := .i1 }.push v).push v') :=
    .edit ((scans_type ht f _).blank
      (.edit ((scans_operand hx).then_comma (scans_operand hy).comma) fun _ _ _ _ => rfl)) fun _ _ _ _ => rfl
  refine hrest.word hpred.1 (Lexeme.opens_word hpred.1 hpred.2) fun p hp => ?_
  have hmember : (decide (op = .icmp) && decide (p.word ∉ icmpPreds)) = false := by
    rw [hp]
    simpa using hknown
  rw [hmember, hp]
  rfl

theorem scans_select (ht : t.Readable) (hx : ns.Renders f (some .i1) v x) (hy : ns.Renders f (some t) v' y)
    (hz : ns.Renders f (some t) v'' z) :
    Scans f Lexeme.Opens F (t.text ++ (" " ++ (x ++ (", " ++ (y ++ (", " ++ z)))))) (body ns .select) () j
      ((({ j with ty := t }.push v).push v').push v'') :=
  (scans_type ht f j).blank (.edit ((scans_operand hx).then_comma
    (((scans_operand hy).then_comma (scans_operand hz).comma).comma)) fun _ _ _ _ => rfl)

theorem scans_extractelement (ht : (Ty.vector n t).Readable) (hx : ns.Renders f (some (.vector n t)) v x)
    (hy : ns.Renders f (some .i32) v' y) :
    Scans f Lexeme.Opens F ((Ty.vector n t).text ++ (" " ++ (x ++ (", " ++ y)))) (body ns .extractelement) () j
      (({ j with ty := t }.push v).push v') :=
  (scans_vectorType ht f j).blank
    (.edit ((scans_operand hx).then_comma (scans_operand hy).comma) fun _ _ _ _ => rfl)

theorem scans_insertelement (ht : (Ty.vector n t).Readable) (hx : ns.Renders f (some (.vector n t)) v x)
    (hy : ns.Renders f (some t) v' y) (hz : ns.Renders f (some .i32) v'' z) :
    Scans f Lexeme.Opens F ((Ty.vector n t).text ++ (" " ++ (x ++ (", " ++ (y ++ (", " ++ z))))))
      (body ns .insertelement) () j ((({ j with ty := .vector n t }.push v).push v').push v'') :=
  (scans_vectorType ht f j).blank (.edit ((scans_operand hx).then_comma
    (((scans_operand hy).then_comma (scans_operand hz).comma).comma)) fun _ _ _ _ => rfl)

theorem scans_shufflevector (ht : (Ty.vector n t).Readable) (hu : u.Readable)
    (hx : ns.Renders f (some (.vector n t)) v x) (hy : ns.Renders f (some (.vector n t)) v' y)
    (hz : ns.Renders f (some u) v'' z) :
    Scans f Lexeme.Opens F
      ((Ty.vector n t).text ++ (" " ++ (x ++ (", " ++ (y ++ (", " ++ (u.text ++ (" " ++ z))))))))
        (body ns .shufflevector) () j ((({ j with ty := .vector n t }.push v).push v').push v'') :=
  (scans_vectorType ht f j).blank (.edit ((scans_operand hx).then_comma
    (((scans_operand hy).then_comma (scans_typed hu hz _).comma).comma)) fun _ _ _ _ => rfl)

theorem scans_load (ht : t.Readable) (hx : ns.Renders f (some .ptr) v x) :
    Scans f Lexeme.Opens F (t.text ++ (", " ++ x)) (body ns .load) () j
      ({ { j with ty := t } with elem := some t }.push v) :=
  (scans_type ht f j).then_comma
    (.edit (.edit (scans_operand hx).comma fun _ _ _ _ => rfl) fun _ _ _ _ => rfl)

theorem scans_store (ht : t.Readable) (hx : ns.Renders f (some t) v x) (hy : ns.Renders f (some .ptr) v' y) :
    Scans f Lexeme.Opens F (t.text ++ (" " ++ (x ++ (", " ++ y)))) (body ns .store) () j
      (({ j with elem := some t }.push v).push v') :=
  (scans_type ht f j).blank
    (.edit ((scans_operand hx).then_comma (scans_operand hy).comma) fun _ _ _ _ => rfl)

theorem scans_atomicrmw {rmw : String} {o : MemOrder} (hrmw : IsWord rmw ∧ rmw ∉ flagWords) (ho : o ≠ .none)
    (ht : t.Readable) (hx : ns.Renders f (some .ptr) v x) (hy : ns.Renders f (some t) v' y) :
    Scans f Lexeme.Opens F (rmw ++ (" " ++ (o.name ++ (" " ++ (t.text ++ (" " ++ (x ++ (", " ++ y))))))))
      (body ns .atomicrmw) ()
      j (({ { { { j with rmw } with ordering := o } with ty := t } with elem := some t }.push v).push v') := by
  have hrest : Scans f Lexeme.Opens F (o.name ++ (" " ++ (t.text ++ (" " ++ (x ++ (", " ++ y)))))) (do
      edit ({ · with rmw })
      let o ← liftM ordering
      edit ({ · with ordering := o })
      let t ← liftM type
      setTy t
      setElem t
      addOperand ns (some .ptr)
      comma
      addOperand ns (some t)) ()
      j (({ { { { j with rmw } with ordering := o } with ty := t } with elem := some t }.push v).push v') :=
    .edit ((scans_ordering ho f _).blank (.edit ((scans_type ht f _).blank
      (.edit (.edit ((scans_operand hx).then_comma (scans_operand hy).comma) fun _ _ _ _ => rfl)
        fun _ _ _ _ => rfl)) fun _ _ _ _ => rfl)) fun _ _ _ _ => rfl
  refine hrest.word hrmw.1 (Lexeme.opens_word hrmw.1 hrmw.2) fun p hp => ?_
  rw [hp]

theorem scans_cmpxchg {o : MemOrder} (ho : o ≠ .none) (ht : t.Readable) (hx : ns.Renders f (some .ptr) v x)
    (hy : ns.Renders f (some t) v' y) (hz : ns.Renders f (some t) v'' z) :
    Scans f Lexeme.Opens F
      (o.name ++ (" " ++ (t.text ++ (" " ++ (x ++ (", " ++ (y ++ (", " ++ z)))))))) (body ns .cmpxchg) ()
      j ((({ { { j with ordering := o } with ty := t } with elem := some t }.push v).push v').push v'') :=
  (scans_ordering ho f j).blank (.edit ((scans_type ht f _).blank (.edit (.edit ((scans_operand hx).then_comma
    (((scans_operand hy).then_comma (scans_operand hz).comma).comma)) fun _ _ _ _ => rfl) fun _ _ _ _ => rfl))
    fun _ _ _ _ => rfl)

theorem scans_fence {o : MemOrder} (ho : o ≠ .none) :
    Scans f Lexeme.Opens F o.name (body ns .fence) () j { j with ordering := o } :=
  (scans_ordering ho f j).finish (DraftReader.makes_edit (fun _ _ _ _ => rfl) f _)

theorem scans_condbr {b c : Int} {blk blk' : Block} (hf : f.Read tokens s) (hns : ns.Within s f)
    (hx : ns.Renders f (some .i1) v x) (hb : f.block? b = some blk) (hc : f.block? c = some blk') :
    Scans f Lexeme.Opens F (x ++ (", " ++ (blk.name ++ (", " ++ blk'.name)))) (body ns .condbr) () j
      (((j.push v).aim b).aim c) :=
  (scans_operand hx).then_comma ((scans_target hf hns hb (O := fun _ => True) trivial).then_comma
    (scans_target hf hns hc (O := fun _ => True) trivial).comma).comma

theorem scans_return (ht : t.Readable) (hx : ns.Renders f (some t) v x) :
    Scans f Lexeme.Opens F (t.text ++ (" " ++ x)) (do addOperand ns (some (← liftM type))) () j (j.push v) :=
  (scans_type ht f j).blank (g := fun u => addOperand ns (some u)) (scans_operand hx)

/-! ### Lists -/

def behind (xs : List String) : String := String.join (xs.map (", " ++ ·))

theorem behind_cons (x : String) (xs : List String) : behind (x :: xs) = ", " ++ (x ++ behind xs) := by
  rw [behind, List.map_cons, String.join_cons, String.append_assoc]
  rfl

theorem intercalate_cons (x : String) (xs : List String) : ", ".intercalate (x :: xs) = x ++ behind xs := by
  induction xs generalizing x with
  | nil => rw [String.intercalate_singleton, behind, List.map_nil, String.join_nil, String.append_empty]
  | cons y xs ih => rw [String.intercalate_cons_cons, ih, behind_cons, String.append_assoc]

theorem breaks_behind (xs : List String) : Lexer.Breaks (ofString (behind xs)) := by
  cases xs with
  | nil => exact Lexer.breaks_nil
  | cons x xs =>
    rw [behind_cons]
    exact Lexer.breaks_comma _

def RendersTyped (ns : Names) (f : Func) (v : Value) (x : String) : Prop :=
  ∃ (t : Ty) (y : String), x = t.text ++ (" " ++ y) ∧ t.Readable ∧ ns.Renders f (some t) v y

def Loops (f : Func) (O F : Lexeme → Prop) (s : String) (r : Nat → DraftReader α) (a : α) (j k : Instr) : Prop :=
  ∃ ls, Spells (ofString s) ls ∧ Leads O F ls ∧ ∀ n, ls.length < n → Makes f F (r n) ls a j k

section

variable {r : Nat → DraftReader α} {g : α → DraftReader β} {a : α} {b : β} {k l : Instr}

theorem Loops.scans (h : Loops f O F x r a j k) :
    Scans f O F x (getThe Stream >>= fun u => r (u.rest.length + 1)) a j k := by
  obtain ⟨ls, hs, hO, hr⟩ := h
  exact ⟨ls, hs, hO, DraftReader.makes_rounds hr⟩

/-- Behind a loop the text goes on with a mark. -/
theorem Loops.join (h : Loops f O M x r a j k) (hg : Scans f M F y (g a) b k l) (hy : Lexer.Breaks (ofString y)) :
    Scans f O F (x ++ y) (getThe Stream >>= fun u => r (u.rest.length + 1) >>= g) b j l := by
  obtain ⟨ls, hs, hO, hr⟩ := h
  obtain ⟨ms, hs', hM, hr'⟩ := hg
  refine ⟨ls ++ ms, spells_append hs hs' hy, hO.append hM,
    DraftReader.makes_rounds (g := fun n => r n >>= g) fun n hn => ?_⟩
  exact (hr n (by rw [List.length_append] at hn; omega)).bind hM hr'

end

theorem loops_gepIndices {vs : List Value} {xs : List String} (h : List.Forall₂ (RendersTyped ns f) vs xs)
    (hF : ∀ l, F l → l.1 ≠ .comma) (j : Instr) :
    Loops f (fun _ => True) F (behind xs) (gepIndices ns) () j (j.pushAll vs) := by
  induction h generalizing j with
  | nil =>
    rw [Instr.pushAll_nil]
    refine ⟨[], spells_empty, fun _ _ => trivial, fun n hn => ?_⟩
    obtain ⟨n, rfl⟩ := Nat.exists_eq_add_of_le' hn
    exact DraftReader.makes_accept_not (fun _ hl => hl) hF (DraftReader.makes_pure f () j)
  | @cons v x vs xs hx hxs ih =>
    rw [Instr.pushAll_cons]
    obtain ⟨t, y, rfl, ht, hy⟩ := hx
    obtain ⟨ms, hms, hM, hmore⟩ := ih (j.push v)
    obtain ⟨ls, hls, -, hread⟩ := scans_typed (F := fun _ => True) (j := j) ht hy (some .i64)
    refine ⟨(.comma, [44]) :: (ls ++ ms), ?_, trivial, fun n hn => ?_⟩
    · rw [behind_cons]
      exact spells_comma (spells_append hls hms (breaks_behind xs))
    · obtain ⟨n, rfl⟩ := Nat.exists_eq_add_of_le' (Nat.zero_lt_of_lt hn)
      simp only [List.length_cons, List.length_append] at hn
      exact (DraftReader.makes_accept (by decide) f j).bind (leads_true _ _) (hread.bind hM (hmore n (by omega)))

theorem loops_indices {is : List Int} (h : Path t is u) (hF : ∀ l, F l → l.1 ≠ .comma) (j : Instr) :
    Loops f (fun _ => True) F (behind (is.map toString)) (indices.go · t) u j
      (j.pushAll (is.map fun i => .int (some .i32) (.ofInt i))) := by
  induction is generalizing t j with
  | nil =>
    cases h
    rw [List.map_nil, List.map_nil, Instr.pushAll_nil]
    refine ⟨[], spells_empty, fun _ _ => trivial, fun n hn => ?_⟩
    obtain ⟨n, rfl⟩ := Nat.exists_eq_add_of_le' hn
    exact DraftReader.makes_accept_not (fun _ hl => hl) hF (DraftReader.makes_pure f u j)
  | cons i is ih =>
    rw [List.map_cons, List.map_cons, Instr.pushAll_cons]
    obtain ⟨hi, w, hw, hpath⟩ := h
    obtain ⟨ms, hms, -, hmore⟩ := ih hpath (j.push (.int (some .i32) (.ofInt i)))
    refine ⟨(.comma, [44]) :: ((.int, ofInt i) :: ms), ?_, trivial, fun n hn => ?_⟩
    · rw [behind_cons]
      exact spells_comma (spells_cons (Lexer.spells_int hi) hms (breaks_behind _))
    · obtain ⟨n, rfl⟩ := Nat.exists_eq_add_of_le' (Nat.zero_lt_of_lt hn)
      simp only [List.length_cons] at hn
      refine (DraftReader.makes_accept (by decide) f j).bind (leads_true _ _) ?_
      refine DraftReader.makes_expect (by decide) fun y _ hy => ?_
      simp only [Ty.count_eq hi hy, hw]
      exact (DraftReader.makes_pushOperand _ f j).bind (leads_true _ _) (hmore n (by omega))

theorem makes_args_end (hF : ∀ l, F l → l.1 = .rparen) (params : List (Option Ty)) {n : Nat} (hn : 0 < n)
    (j : Instr) : Makes f F (callBody.args ns params n) [] () j j := by
  obtain ⟨n, rfl⟩ := Nat.exists_eq_add_of_le' hn
  exact DraftReader.makes_sees (leads_nil F) hF (DraftReader.makes_pure f () j)

/-- The arguments of a call, up to the closing parenthesis. -/
theorem loops_args {vs : List Value} {xs : List String} (h : List.Forall₂ (RendersTyped ns f) vs xs)
    (hF : ∀ l, F l → l.1 = .rparen) (params : List (Option Ty)) (j : Instr) :
    Loops f (fun l => l.Opens ∨ F l) F (", ".intercalate xs) (callBody.args ns params) () j
      (j.pushAll vs) := by
  induction h generalizing params j with
  | nil =>
    rw [Instr.pushAll_nil]
    exact ⟨[], spells_empty, fun _ => .inr, fun n hn => makes_args_end hF params hn j⟩
  | @cons v x vs xs hx hxs ih =>
    rw [Instr.pushAll_cons]
    obtain ⟨t, y, rfl, ht, hy⟩ := hx
    obtain ⟨ls, hls, hl, hread⟩ := scans_typed (F := fun l => l.1 = .comma ∨ F l) (j := j) ht hy
      (params.headD (some .i64))
    obtain ⟨l, ls, rfl, hl⟩ := hl.exists_cons (l := (.comma, [44])) (.inl rfl) fun h => h.kind (by simp)
    have hopens : ∀ ms, Leads (fun l => l.Opens ∨ F l) F (l :: ls ++ ms) := fun ms => .inl hl
    have hrparen : ∀ l : Lexeme, l.Opens → l.1 ≠ .rparen := fun l hl hk => hl.kind (by simp [hk])
    cases hxs with
    | nil =>
      rw [Instr.pushAll_nil]
      refine ⟨l :: ls ++ [], ?_, hopens [], fun n hn => ?_⟩
      · rwa [String.intercalate_singleton, List.append_nil]
      · obtain ⟨n, rfl⟩ := Nat.exists_eq_add_of_le' (Nat.zero_lt_of_lt hn)
        refine DraftReader.makes_sees_not (show Leads Lexeme.Opens F (l :: ls ++ []) from hl) hrparen ?_
        refine hread.bind (fun _ => .inr) ?_
        refine DraftReader.makes_sees (leads_nil F) hF ?_
        exact makes_args_end hF _ (Nat.zero_lt_of_lt (Nat.lt_of_succ_lt_succ hn)) _
    | @cons w z vs xs hz hxs =>
      obtain ⟨ms, hms, -, hmore⟩ := ih params.tail (j.push v)
      refine ⟨l :: ls ++ (.comma, [44]) :: ms, ?_, hopens _, fun n hn => ?_⟩
      · rw [intercalate_cons, behind_cons, ← intercalate_cons]
        exact spells_append hls (spells_comma hms) (Lexer.breaks_comma _)
      · obtain ⟨n, rfl⟩ := Nat.exists_eq_add_of_le' (Nat.zero_lt_of_lt hn)
        rw [List.length_append, List.length_cons, List.length_cons] at hn
        refine DraftReader.makes_sees_not (show Leads Lexeme.Opens F (l :: ls ++ _) from hl) hrparen ?_
        refine hread.bind (show Leads _ F (_ :: ms) from .inl rfl) ?_
        refine DraftReader.makes_sees_not (show Leads (·.1 = .comma) F (_ :: ms) from rfl)
          (fun l hl => by rw [show l.1 = .comma from hl]; decide) ?_
        exact (DraftReader.makes_comma f _).bind (leads_true _ _) (hmore n (by omega))

theorem scans_close {m : String} {q : TokenKind} {c : UInt8} (hm : ofString m = [c])
    (hq : Lexer.punctuation? c = some q) (hne : q ≠ .eof) : Scans f (· = (q, [c])) F m (do
      let _ ← Reader.expect q) () j j := by
  have := (DraftReader.scans_pure (F := F) f () j).mark hm hq hne
  rwa [String.append_empty] at this

theorem scans_arguments {vs : List Value} {xs : List String} (h : List.Forall₂ (RendersTyped ns f) vs xs)
    (params : List (Option Ty)) (j : Instr) :
    Scans f (· = (.lparen, [40])) F ("(" ++ (", ".intercalate xs ++ ")")) (do
      let _ ← Reader.expect .lparen
      callBody.args ns params ((← getThe Stream).rest.length + 1)
      let _ ← Reader.expect .rparen) () j (j.pushAll vs) := by
  have hargs := loops_args (F := (· = (.rparen, [41]))) h (fun l hl => by rw [hl]) params j
  exact .mark (hargs.join (g := fun _ => _) (scans_close (q := .rparen) rfl rfl (by decide))
    (Lexer.breaks_cons (by decide))) rfl rfl (by decide)

theorem scans_call_global {vs : List Value} {xs : List String} {w : String} (ht : t.Readable) (hw : IsName w)
    (h : List.Forall₂ (RendersTyped ns f) vs xs) :
    Scans f Lexeme.Opens F (t.text ++ (" " ++ ("@" ++ (w ++ ("(" ++ (", ".intercalate xs ++ ")"))))))
      (callBody ns) () j ({ { j with ty := t } with callee := w }.pushAll vs) := by
  obtain ⟨ls, hs, hl, hread⟩ := scans_arguments (F := F) h (((ns.symbols.decl? w).map (·.params)).getD [])
    { { j with ty := t } with callee := w }
  rw [← @String.append_assoc "@" w]
  refine (scans_type (F := fun _ => True) ht f j).blank (.edit ?_ fun _ _ _ _ => rfl)
  refine ⟨(.global, ofString w) :: ls, ?_, trivial, DraftReader.makes_peek fun y hy => ?_⟩
  · refine spells_cons ?_ hs (Lexer.breaks_append rfl (by decide) _)
    rw [Bytes.ofString_append]
    exact Lexer.spells_global hw.octets
  · obtain ⟨hk, hword⟩ := Token.word_eq hw hy
    subst hword
    simp only [hk]
    refine DraftReader.makes_next (by simp) fun _ _ => ?_
    exact (DraftReader.makes_edit (fun _ _ _ _ => rfl) f _).bind_nil hl
      ((DraftReader.makes_pure f _ _).bind_nil hl hread)

theorem kind_of_means {l : Lexeme} (h : ns.Means f (some t) l v) (hv : Slot.local.Holds v) : l.1 = .local := by
  have hy := h ⟨l.1, l.2, 0, 0⟩ rfl
  obtain ⟨n, rfl⟩ | ⟨id, rfl⟩ := hv
  · obtain hy | ⟨hy, -⟩ := hy <;> cases hy <;> assumption
  · obtain hy | ⟨hy, -⟩ := hy <;> cases hy <;> assumption

theorem scans_call_local {vs : List Value} {xs : List String} (ht : t.Readable) (hv : Slot.local.Holds v)
    (hx : ns.Renders f (some .ptr) v x) (h : List.Forall₂ (RendersTyped ns f) vs xs) :
    Scans f Lexeme.Opens F (t.text ++ (" " ++ (x ++ ("(" ++ (", ".intercalate xs ++ ")"))))) (callBody ns) ()
      j (({ j with ty := t }.push v).pushAll vs) := by
  obtain ⟨ls, hs, hl, hread⟩ := scans_arguments (F := F) h [] ({ j with ty := t }.push v)
  obtain ⟨l, hl', hopens, hmeans⟩ := hx
  refine (scans_type (F := fun _ => True) ht f j).blank (.edit ?_ fun _ _ _ _ => rfl)
  refine ⟨l :: ls, spells_append hl' hs (Lexer.breaks_append rfl (by decide) _), trivial,
    DraftReader.makes_peek fun y hy => ?_⟩
  have hk : y.kind = .local := (congrArg Prod.fst hy).trans (kind_of_means hmeans hv)
  simp only [hk]
  exact (makes_operand (fun he => hopens.kind (by simp [he])) hmeans _).bind hl
    ((DraftReader.makes_pure f _ _).bind_nil hl hread)

theorem scans_gep {vs : List Value} {xs : List String} (ht : t.Readable) (hx : ns.Renders f (some .ptr) v x)
    (h : List.Forall₂ (RendersTyped ns f) vs xs) (hF : ∀ l, F l → l.1 ≠ .comma) :
    Scans f Lexeme.Opens F (t.text ++ (", " ++ (x ++ behind xs))) (body ns .gep) ()
      j (({ { j with elem := some t } with ty := .ptr }.push v).pushAll vs) :=
  (scans_type ht f j).then_comma (.edit (.edit
    (.comma (.join (scans_operand hx) (loops_gepIndices h hF _).scans (breaks_behind xs)))
    fun _ _ _ _ => rfl) fun _ _ _ _ => rfl)

theorem scans_extractvalue {is : List Int} (ht : t.Readable) (hx : ns.Renders f (some t) v x) (h : Path t is u)
    (hF : ∀ l, F l → l.1 ≠ .comma) :
    Scans f Lexeme.Opens F (t.text ++ (" " ++ (x ++ behind (is.map toString)))) (body ns .extractvalue) () j
      { (j.push v).pushAll (is.map fun i => .int (some .i32) (.ofInt i)) with ty := u } :=
  (scans_type ht f j).blank (.join (scans_operand hx)
    ((loops_indices h hF _).scans.finish (DraftReader.makes_edit (fun _ _ _ _ => rfl) f _)) (breaks_behind _))

theorem makes_retype (h : ∀ v, j.operands[1]? = some v → retype u v = v) :
    Makes f F (edit fun i => { i with operands := i.operands.modify 1 (retype u) }) [] () j j := by
  intro d xs rest last hd hxs _
  obtain rfl := List.map_eq_nil_iff.mp hxs
  have hsame : d.instr.operands.modify 1 (retype u) = d.instr.operands := by
    refine List.ext_getElem? fun n => ?_
    rw [List.getElem?_modify]
    split
    · next hn =>
      subst hn
      rcases hd.operands.cell 1 with h1 | ⟨h1, -⟩
      · rw [h1]
        cases hv : j.operands[1]? with
        | none => rfl
        | some v => exact congrArg some (h v hv)
      · rw [h1]
        rfl
    · exact Option.map_id'
  refine ⟨d.edit fun i => { i with operands := i.operands.modify 1 (retype u) }, last,
    reads_edit.mpr ⟨rfl, rfl⟩, ?_⟩
  rw [Draft.edit, hsame]
  exact hd

theorem scans_insertvalue {is : List Int} {w : Ty} (ht : t.Readable) (hx : ns.Renders f (some t) v x)
    (hu : u.Readable) (hy : ns.Renders f (some u) v' y) (h : Path t is w) (hF : ∀ l, F l → l.1 ≠ .comma)
    (hj : j.operands = []) (hv : ∀ z, retype z v' = v') :
    Scans f Lexeme.Opens F (t.text ++ (" " ++ (x ++ (", " ++ (u.text ++ (" " ++ (y ++ behind (is.map toString))))))))
      (body ns .insertvalue) ()
      j ((({ j with ty := t }.push v).push v').pushAll (is.map fun i => .int (some .i32) (.ofInt i))) := by
  have hretype : ∀ z, ((({ j with ty := t }.push v).push v').pushAll
      (is.map fun i => .int (some .i32) (.ofInt i))).operands[1]? = some z → retype w z = z := by
    intro z hz
    simp [Instr.pushAll, Instr.push, hj] at hz
    rw [← hz, hv]
  rw [← @String.append_assoc " " y, ← @String.append_assoc u.text]
  exact (scans_type ht f j).blank (.edit (.then_comma (scans_operand hx) (.comma (.join (scans_typed hu hy none)
    ((loops_indices h hF _).scans.finish (makes_retype hretype)) (breaks_behind _)))) fun _ _ _ _ => rfl)

theorem scans_alloca (ht : t.Readable) (hF : ∀ l, F l → l.1 ≠ .comma) :
    Scans f Lexeme.Opens F t.text (body ns .alloca) () j { { j with elem := some t } with ty := .ptr } := by
  have hrest : Makes f F (do
      setElem t
      setTy .ptr
      if ← Reader.accept .comma then addOperand ns (some .i64)) [] ()
      j { { j with elem := some t } with ty := .ptr } := by
    refine (DraftReader.makes_edit (fun _ _ _ _ => rfl) f j).bind_nil (leads_nil F)
      ((DraftReader.makes_edit (fun _ _ _ _ => rfl) f _).bind_nil (leads_nil F) ?_)
    exact DraftReader.makes_accept_not (leads_nil F) hF (DraftReader.makes_pure f () _)
  exact (scans_type ht f j).finish hrest

theorem scans_alloca_count (ht : t.Readable) (hx : ns.Renders f (some .i64) v x) :
    Scans f Lexeme.Opens F (t.text ++ (", " ++ x)) (body ns .alloca) ()
      j ({ { j with elem := some t } with ty := .ptr }.push v) := by
  obtain ⟨ls, hs, -, hread⟩ := scans_operand (F := F) (j := { { j with elem := some t } with ty := .ptr }) hx
  refine (scans_type (F := fun _ => True) ht f j).join (.edit (.edit ?_ fun _ _ _ _ => rfl) fun _ _ _ _ => rfl)
    (Lexer.breaks_comma x)
  exact ⟨(.comma, [44]) :: ls, spells_comma hs, trivial,
    (DraftReader.makes_accept (by decide) f _).bind (leads_true _ _) hread⟩

/-! ### Values that belong to blocks -/

def phiEdge (ns : Names) (t : Ty) : DraftReader Unit := do
  let _ ← Reader.expect .lbracket
  addOperand ns (some t)
  comma
  addTarget ns
  let _ ← Reader.expect .rbracket

theorem phiBody_succ (ns : Names) (t : Ty) (n : Nat) : phiBody ns t (n + 1) =
    phiEdge ns t >>= fun _ => (do if ← Reader.accept .comma then phiBody ns t n) := by
  simp [phiBody, phiEdge]

def switchCase (ns : Names) (t : Ty) : DraftReader Unit := do
  addOperand ns (some t)
  let _ ← Reader.expect .colon
  addTarget ns

theorem switchCases_succ (ns : Names) (t : Ty) (n : Nat) : switchCases ns t (n + 1) = (do
    if ← Reader.sees .rbracket then return
    switchCase ns t >>= fun _ => do
      let _ ← Reader.accept .comma
      switchCases ns t n) := by
  simp [switchCases, switchCase]

theorem makes_cases_end (hF : ∀ l, F l → l.1 = .rbracket) {n : Nat} (hn : 0 < n) (j : Instr) :
    Makes f F (switchCases ns t n) [] () j j := by
  obtain ⟨n, rfl⟩ := Nat.exists_eq_add_of_le' hn
  exact DraftReader.makes_sees (leads_nil F) hF (DraftReader.makes_pure f () j)

def RendersEdge (ns : Names) (f : Func) (t : Ty) (p : Value × Int) (q : String × String) : Prop :=
  ns.Renders f (some t) p.1 q.1 ∧ ∃ blk, f.block? p.2 = some blk ∧ blk.name = q.2

section

variable {p : Value × Int} {q : String × String} {ps : List (Value × Int)} {qs : List (String × String)}
  (hf : f.Read tokens s) (hns : ns.Within s f)

include hf hns

theorem scans_phiEdge (h : RendersEdge ns f t p q) (j : Instr) :
    Scans f (· = (.lbracket, [91])) F ("[" ++ (q.1 ++ (", " ++ (q.2 ++ "]")))) (phiEdge ns t) () j (j.join p) := by
  obtain ⟨hx, blk, hblk, hname⟩ := h
  rw [← hname]
  exact .mark (.then_comma (scans_operand hx) (.comma (.join (scans_target (O := fun _ => True) hf hns hblk trivial)
    (scans_close (q := .rbracket) rfl rfl (by decide)) (Lexer.breaks_cons (by decide))))) rfl rfl (by decide)

theorem scans_switchCase (h : RendersEdge ns f t p q) (j : Instr) :
    Scans f Lexeme.Opens F (q.1 ++ (":" ++ (" " ++ q.2))) (switchCase ns t) () j (j.join p) := by
  obtain ⟨hx, blk, hblk, hname⟩ := h
  rw [← hname]
  exact .join (scans_operand hx) (.mark (.behind_blank (scans_target (O := fun _ => True) hf hns hblk trivial))
    rfl rfl (by decide)) (Lexer.breaks_append rfl (by decide) _)

def edgeText (q : String × String) : String := "[" ++ (q.1 ++ (", " ++ (q.2 ++ "]")))

def caseText (q : String × String) : String := q.1 ++ (":" ++ (" " ++ q.2))

theorem loops_moreEdges (hps : List.Forall₂ (RendersEdge ns f t) ps qs) (hF : ∀ l, F l → l.1 ≠ .comma) (j : Instr) :
    Loops f (fun l => l.1 = .comma ∨ F l) F (behind (qs.map edgeText))
      (fun n => do if ← Reader.accept .comma then phiBody ns t n) () j (j.joinAll ps) := by
  induction hps generalizing j with
  | nil =>
    rw [Instr.joinAll_nil]
    exact ⟨[], spells_empty, fun _ => .inr, fun n _ =>
      DraftReader.makes_accept_not (leads_nil F) hF (DraftReader.makes_pure f () j)⟩
  | @cons p q ps qs h hps ih =>
    rw [Instr.joinAll_cons]
    obtain ⟨ms, hms, hM, hmore⟩ := ih (j.join p)
    obtain ⟨ls, hls, -, hread⟩ := scans_phiEdge (F := fun l => l.1 = .comma ∨ F l) hf hns h j
    refine ⟨(.comma, [44]) :: (ls ++ ms), ?_, .inl rfl, fun n hn => ?_⟩
    · rw [List.map_cons, behind_cons]
      exact spells_comma (spells_append hls hms (breaks_behind _))
    · obtain ⟨n, rfl⟩ := Nat.exists_eq_add_of_le' (Nat.zero_lt_of_lt hn)
      rw [List.length_cons, List.length_append] at hn
      refine (DraftReader.makes_accept (by decide) f j).bind (leads_true _ _) ?_
      rw [if_pos rfl, phiBody_succ]
      exact hread.bind hM (hmore n (by omega))

theorem loops_phiBody (h : RendersEdge ns f t p q) (hps : List.Forall₂ (RendersEdge ns f t) ps qs)
    (hF : ∀ l, F l → l.1 ≠ .comma) (j : Instr) :
    Loops f (· = (.lbracket, [91])) F (", ".intercalate ((q :: qs).map edgeText)) (phiBody ns t) ()
      j (j.joinAll (p :: ps)) := by
  rw [Instr.joinAll_cons]
  obtain ⟨ms, hms, hM, hmore⟩ := loops_moreEdges hf hns hps hF (j.join p)
  obtain ⟨ls, hls, hl, hread⟩ := scans_phiEdge (F := fun l => l.1 = .comma ∨ F l) hf hns h j
  obtain ⟨l, ls, rfl, rfl⟩ := hl.exists_cons (l := (.comma, [44])) (.inl rfl) (by simp)
  refine ⟨_ :: ls ++ ms, ?_, rfl, fun n hn => ?_⟩
  · rw [List.map_cons, intercalate_cons]
    exact spells_append hls hms (breaks_behind _)
  · obtain ⟨n, rfl⟩ := Nat.exists_eq_add_of_le' (Nat.zero_lt_of_lt hn)
    rw [List.length_append, List.length_cons] at hn
    rw [phiBody_succ]
    exact hread.bind hM (hmore n (by omega))

theorem loops_switchCases (hps : List.Forall₂ (RendersEdge ns f t) ps qs) (hF : ∀ l, F l → l.1 = .rbracket)
    (j : Instr) :
    Loops f (fun l => l.Opens ∨ F l) F (", ".intercalate (qs.map caseText)) (switchCases ns t) ()
      j (j.joinAll ps) := by
  induction hps generalizing j with
  | nil =>
    rw [Instr.joinAll_nil]
    exact ⟨[], spells_empty, fun _ => .inr, fun n hn => makes_cases_end hF hn j⟩
  | @cons p q ps qs h hps ih =>
    rw [Instr.joinAll_cons]
    obtain ⟨ls, hls, hl, hread⟩ := scans_switchCase (F := fun l => l.1 = .comma ∨ F l) hf hns h j
    obtain ⟨l, ls, rfl, hl⟩ := hl.exists_cons (l := (.comma, [44])) (.inl rfl) fun h => h.kind (by simp)
    have hopens : ∀ ms, Leads Lexeme.Opens F (l :: ls ++ ms) := fun ms => hl
    have hleads : ∀ ms, Leads (fun l => l.Opens ∨ F l) F (l :: ls ++ ms) := fun ms => .inl hl
    have hrbracket : ∀ l : Lexeme, l.Opens → l.1 ≠ .rbracket := fun l hl hk => hl.kind (by simp [hk])
    cases hps with
    | nil =>
      rw [Instr.joinAll_nil]
      refine ⟨l :: ls ++ [], ?_, hleads [], fun n hn => ?_⟩
      · rwa [List.map_singleton, String.intercalate_singleton, List.append_nil]
      · obtain ⟨n, rfl⟩ := Nat.exists_eq_add_of_le' (Nat.zero_lt_of_lt hn)
        rw [switchCases_succ]
        refine DraftReader.makes_sees_not (hopens _) hrbracket (hread.bind (fun _ => .inr) ?_)
        refine DraftReader.makes_accept_not (leads_nil F) (fun l hl => ?_)
          (makes_cases_end hF (Nat.zero_lt_of_lt (Nat.lt_of_succ_lt_succ hn)) _)
        rw [hF l hl]
        decide
    | @cons p' q' ps qs h' hps =>
      obtain ⟨ms, hms, -, hmore⟩ := ih (j.join p)
      refine ⟨l :: ls ++ (.comma, [44]) :: ms, ?_, hleads _, fun n hn => ?_⟩
      · rw [List.map_cons, List.map_cons, intercalate_cons, behind_cons, ← intercalate_cons]
        exact spells_append hls (spells_comma hms) (Lexer.breaks_comma _)
      · obtain ⟨n, rfl⟩ := Nat.exists_eq_add_of_le' (Nat.zero_lt_of_lt hn)
        rw [List.length_append, List.length_cons, List.length_cons] at hn
        rw [switchCases_succ]
        refine DraftReader.makes_sees_not (hopens _) hrbracket (hread.bind (.inl rfl) ?_)
        exact (DraftReader.makes_accept (by decide) f _).bind (leads_true _ _) (hmore n (by omega))

theorem scans_phi {vs : List Value} {c : Int} {cs : List Int} (ht : t.Readable) (hlen : vs.length = cs.length)
    (h : List.Forall₂ (RendersEdge ns f t) ((v :: vs).zip (c :: cs)) qs) (hF : ∀ l, F l → l.1 ≠ .comma) :
    Scans f Lexeme.Opens F (t.text ++ (" " ++ ", ".intercalate (qs.map edgeText))) (body ns .phi) ()
      j { j with ty := t, operands := j.operands ++ v :: vs, targets := j.targets ++ c :: cs } := by
  rw [List.zip_cons_cons] at h
  obtain ⟨q, qs, hq, hqs, rfl⟩ := List.forall₂_cons_left_iff.mp h
  have hedges := (loops_phiBody hf hns hq hqs hF { j with ty := t }).scans
  rw [← List.zip_cons_cons, Instr.joinAll_zip _ (by simpa using hlen)] at hedges
  exact (scans_type ht f j).blank (.edit hedges fun _ _ _ _ => rfl)

theorem scans_switch {vs : List Value} {b : Int} {bs : List Int} {blk : Block} (ht : t.Readable)
    (hx : ns.Renders f (some t) v x) (hb : f.block? b = some blk) (hlen : vs.length = bs.length)
    (hps : List.Forall₂ (RendersEdge ns f t) (vs.zip bs) qs) :
    Scans f Lexeme.Opens F (t.text ++ (" " ++ (x ++ (", " ++ (blk.name ++
        (" " ++ ("[" ++ (", ".intercalate (qs.map caseText) ++ "]")))))))) (body ns .switch) ()
      j { j with operands := (j.operands ++ [v]) ++ vs, targets := (j.targets ++ [b]) ++ bs } := by
  have hcases := loops_switchCases (F := (· = (.rbracket, [93]))) hf hns hps (fun l hl => by rw [hl])
    ((j.push v).aim b)
  rw [Instr.joinAll_zip _ hlen] at hcases
  have hlist := hcases.join (g := fun _ => _) (scans_close (F := F) (m := "]") (q := .rbracket) rfl rfl (by decide))
    (Lexer.breaks_cons (by decide))
  exact (scans_type ht f j).blank (.then_comma (scans_operand hx) (.comma
    (.blank (scans_target (O := fun _ => True) hf hns hb trivial) (.mark hlist rfl rfl (by decide)))))

end

end Grammar

/-! ### What is printed of an instruction -/

theorem Checked.forall₂_of_mapM {g : α → Checked β} {R : α → β → Prop} {as : List α} {bs : List β}
    (h : as.mapM g = .ok bs) (hR : ∀ a ∈ as, ∀ b, g a = .ok b → R a b) : List.Forall₂ R as bs := by
  induction Checked.mapM_eq_ok.mp h with
  | nil => exact .nil
  | @cons a b as bs hb hbs ih =>
    exact .cons (hR a (List.mem_cons_self ..) b hb)
      (ih (Checked.mapM_eq_ok.mpr hbs) fun a ha => hR a (List.mem_cons_of_mem _ ha))

/-- The type that is printed of an operand suits it. -/
theorem Slot.exists_typeOf {s : Symbols} {f : Func} {tokens : List Token} {v : Value} (hf : f.Read tokens s)
    (hhas : f.Has s v) (h : Slot.typed.Holds v) : ∃ t, f.typeOf v = .ok (some t) ∧ t.Readable ∧ v.Fits (some t) := by
  obtain ⟨u, hu, hfits⟩ := h
  cases v with
  | arg n =>
    obtain ⟨n, rfl, hn⟩ := hhas
    obtain ⟨-, t, ht, hread⟩ := hf.headed.params _ (List.getElem_mem hn)
    refine ⟨t, ?_, hread, trivial⟩
    rw [Func.typeOf, if_pos (by omega), element_eq_ok.mpr (List.getElem?_eq_getElem hn), Checked.ok_bind, ht]
    rfl
  | global n => exact ⟨.ptr, rfl, .ptr, trivial⟩
  | instr id =>
    obtain ⟨i, hi, -⟩ := hhas
    obtain ⟨_, hformed, -⟩ := hf.formed id i hi
    refine ⟨i.ty, ?_, hformed.ty, trivial⟩
    rw [Func.typeOf, Func.instr_eq_ok.mpr hi]
    rfl
  | int t n =>
    obtain ⟨rfl, hfloat⟩ | ⟨rfl, hbit⟩ := hfits
    · exact ⟨u, rfl, hu, .inl ⟨rfl, hfloat⟩⟩
    · exact ⟨.i1, rfl, Grammar.i1_readable, .inr ⟨rfl, hbit⟩⟩
  | float t b =>
    obtain ⟨rfl, hnan⟩ := hfits
    by_cases hfloat : u.isFloat
    · have hfilter : (some u).filter (·.isFloat) = some u := by simp [Option.filter, hfloat]
      rw [hfilter]
      exact ⟨u, rfl, hu, by rw [hfilter], hnan⟩
    · have hfilter : (some u).filter (·.isFloat) = none := by simp [Option.filter, hfloat]
      rw [hfilter]
      exact ⟨.f64, rfl, .f64, rfl, hnan⟩
  | null => exact ⟨.ptr, rfl, .ptr, trivial⟩
  | undef t =>
    have ht : t = some u := hfits
    subst ht
    exact ⟨u, rfl, hu, rfl⟩
  | str b => exact ⟨.ptr, rfl, .ptr, trivial⟩

variable {f : Func} {s : Symbols} {tokens : List Token} {ns : Names} {i j k : Instr} {w : Ty} {O M F : Lexeme → Prop}
  {x : String} {v : Value} {ctx : Option Ty}

namespace Slot

variable {a b c : Slot} {vs : List Value}

theorem holds_one (h : List.Forall₂ Holds [a] vs) : ∃ v, vs = [v] ∧ a.Holds v := by
  obtain ⟨v, _, hv, hrest, rfl⟩ := List.forall₂_cons_left_iff.mp h
  obtain rfl := List.forall₂_nil_left_iff.mp hrest
  exact ⟨v, rfl, hv⟩

theorem holds_two (h : List.Forall₂ Holds [a, b] vs) : ∃ v v', vs = [v, v'] ∧ a.Holds v ∧ b.Holds v' := by
  obtain ⟨v, _, hv, hrest, rfl⟩ := List.forall₂_cons_left_iff.mp h
  obtain ⟨v', rfl, hv'⟩ := holds_one hrest
  exact ⟨v, v', rfl, hv, hv'⟩

theorem holds_three (h : List.Forall₂ Holds [a, b, c] vs) :
    ∃ v v' v'', vs = [v, v', v''] ∧ a.Holds v ∧ b.Holds v' ∧ c.Holds v'' := by
  obtain ⟨v, _, hv, hrest, rfl⟩ := List.forall₂_cons_left_iff.mp h
  obtain ⟨v', v'', rfl, h'⟩ := holds_two hrest
  exact ⟨v, v', v'', rfl, hv, h'⟩

end Slot

theorem Func.blockName_eq {c : Int} {blk : Block} (hblk : f.block? c = some blk) (hne : blk.name ≠ "") :
    f.blockName c = .ok blk.name := by
  rw [Func.blockName, Func.block_eq_ok.mpr hblk, Checked.ok_bind, Func.blockLabel, hblk]
  exact congrArg _ (if_pos hne)

namespace Instr

def Bare (i : Instr) : Prop := i.op = .unreachable ∨ i.op = .ret ∧ i.operands = []

instance (i : Instr) : Decidable i.Bare := inferInstanceAs (Decidable (_ ∨ _))

def begun (i : Instr) : Instr where
  name := i.name
  op := i.op
  volatile := i.volatile
  checked := i.checked
  ordering := if i.op = .load ∨ i.op = .store then i.ordering else .none
  pos := i.pos

def dressed (i : Instr) : Instr := { i with home := none, access := {} }

/-- The fields that an operation does not have are empty. -/
theorem Formed.dressed_eq {ret : Ty} (h : i.Formed ret w)
    (hordering : i.ordering ≠ .none → i.op ∈ [Op.load, .store, .atomicrmw, .cmpxchg, .fence]) :
    i.dressed = { i.begun with
      ty := i.ty
      operands := i.operands
      targets := i.targets
      elem := if i.op.hasElem then i.elem else none
      pred := if i.op.isCompare then i.pred else ""
      rmw := if i.op = .atomicrmw then i.rmw else ""
      callee := if i.op = .call then i.callee else ""
      ordering := if i.op ∈ [Op.load, .store, .atomicrmw, .cmpxchg, .fence] then i.ordering else .none } := by
  have helem : i.elem = if i.op.hasElem then i.elem else none := by
    have := h.elem
    split at this
    · next hop => rw [if_pos hop]
    · next hop => rw [if_neg hop, this]
  have hpred : i.pred = if i.op.isCompare then i.pred else "" := by
    have := h.pred
    split at this
    · next hop => rw [if_pos hop]
    · next hop => rw [if_neg hop, this]
  have hrmw : i.rmw = if i.op = .atomicrmw then i.rmw else "" := by
    have := h.rmw
    split at this
    · next hop => rw [if_pos hop]
    · next hop => rw [if_neg hop, this]
  have hcallee : i.callee = if i.op = .call then i.callee else "" := by
    split
    · rfl
    · next hop => exact by_contra fun hne => hop (h.callee hne).1
  have hord : i.ordering =
      if i.op ∈ [Op.load, .store, .atomicrmw, .cmpxchg, .fence] then i.ordering else .none := by
    split
    · rfl
    · next hop => exact by_contra fun hne => hop (hordering hne)
  rw [← helem, ← hpred, ← hrmw, ← hcallee, ← hord]
  rfl

end Instr

namespace Grammar

theorem Scans.spaced {r : DraftReader α} {a : α} (h : Scans f Lexeme.Opens F x r a j k) :
    Lexer.Breaks (ofString (" " ++ x)) ∧ Scans f Lexeme.Follows F (" " ++ x) r a j k := by
  obtain ⟨ls, hs, hl, hread⟩ := h.behind_blank
  refine ⟨Lexer.breaks_blank x, ls, hs, ?_, hread⟩
  cases ls with
  | nil => exact fun l hF => (hl l hF).follows
  | cons l ls => exact hl.follows

section

variable {vs : List Value} {t : Ty} {n : Nat} {xs : List String}
  (hblock : ∀ c ∈ i.targets, ∃ blk, f.block? c = some blk ∧ blk.name ≠ "")
  (hv : ∀ v ∈ vs, ∀ x, Printer.value (some s) f v = .ok x → ns.Renders f (some t) v x)

include hblock hv

theorem edges_of_phiEdges (h : Printer.phiEdges (some s) f i n vs = .ok xs) :
    ∃ qs, xs = qs.map edgeText ∧ List.Forall₂ (RendersEdge ns f t) (vs.zip (i.targets.drop n)) qs := by
  induction vs generalizing n xs with
  | nil =>
    cases h
    exact ⟨[], rfl, .nil⟩
  | cons v vs ih =>
    simp only [Printer.phiEdges, Checked.bind_eq_ok, Checked.pure_eq_ok, element_eq_ok] at h
    obtain ⟨x, hx, c, hc, y, hy, ys, hys, rfl⟩ := h
    obtain ⟨qs, rfl, hqs⟩ := ih (fun v hm => hv v (List.mem_cons_of_mem _ hm)) hys
    obtain ⟨hn, rfl⟩ := List.getElem?_eq_some_iff.mp hc
    obtain ⟨blk, hblk, hname⟩ := hblock _ (List.getElem_mem hn)
    cases hy.symm.trans (Func.blockName_eq hblk hname)
    refine ⟨(x, blk.name) :: qs, by simp [edgeText, String.append_assoc], ?_⟩
    rw [List.drop_eq_getElem_cons hn]
    exact .cons ⟨hv v (List.mem_cons_self ..) x hx, blk, hblk, rfl⟩ hqs

theorem edges_of_switchCases (h : Printer.switchCases (some s) f i n vs = .ok xs) :
    ∃ qs, xs = qs.map caseText ∧ List.Forall₂ (RendersEdge ns f t) (vs.zip (i.targets.drop n)) qs := by
  induction vs generalizing n xs with
  | nil =>
    cases h
    exact ⟨[], rfl, .nil⟩
  | cons v vs ih =>
    simp only [Printer.switchCases, Checked.bind_eq_ok, Checked.pure_eq_ok, element_eq_ok] at h
    obtain ⟨x, hx, c, hc, y, hy, ys, hys, rfl⟩ := h
    obtain ⟨qs, rfl, hqs⟩ := ih (fun v hm => hv v (List.mem_cons_of_mem _ hm)) hys
    obtain ⟨hn, rfl⟩ := List.getElem?_eq_some_iff.mp hc
    obtain ⟨blk, hblk, hname⟩ := hblock _ (List.getElem_mem hn)
    cases hy.symm.trans (Func.blockName_eq hblk hname)
    refine ⟨(x, blk.name) :: qs, by simp [caseText, String.append_assoc]; rfl, ?_⟩
    rw [List.drop_eq_getElem_cons hn]
    exact .cons ⟨hv v (List.mem_cons_self ..) x hx, blk, hblk, rfl⟩ hqs

end

theorem rendersTyped (hs : s.Formed) (hf : f.Read tokens s) (hns : ns.Within s f) (hhas : f.Has s v)
    (hrecover : v.Recoverable) (hv : Slot.typed.Holds v) (hx : Printer.typed (some s) f v = .ok x) :
    RendersTyped ns f v x := by
  obtain ⟨t, ht, hread, hfits⟩ := Slot.exists_typeOf hf hhas hv
  rw [Printer.typed, ht, Checked.ok_bind] at hx
  obtain ⟨y, hy, hx⟩ := Checked.bind_eq_ok.mp hx
  cases hx
  exact ⟨t, y, String.append_assoc .., hread, Names.renders_value hs hf hns hhas hfits hrecover hy⟩

theorem fields_of_holds {is : List Int} {vs : List Value} (h : List.Forall₂ Slot.Holds (is.map .field) vs) :
    vs = is.map fun n => .int (some .i32) (.ofInt n) := by
  induction is generalizing vs with
  | nil => exact List.forall₂_nil_left_iff.mp h
  | cons n is ih =>
    obtain ⟨v, vs, rfl, hvs, rfl⟩ := List.forall₂_cons_left_iff.mp h
    rw [ih hvs, List.map_cons]

theorem wrap_of_path {t u : Ty} {is : List Int} (h : Path t is u) : ∀ n ∈ is, Word.wrap n = n := by
  induction is generalizing t with
  | nil => exact fun n hn => by cases hn
  | cons m is ih =>
    obtain ⟨hm, v, -, hpath⟩ := h
    exact List.forall_mem_cons.mpr ⟨hm, ih hpath⟩

theorem mapM_fields {t u : Ty} {is : List Int} (h : Path t is u) (f : Func) :
    (is.map fun n => Value.int (some .i32) (.ofInt n)).mapM (Printer.value (some s) f) = .ok (is.map toString) := by
  rw [Checked.mapM_eq_ok, List.forall₂_map_left_iff, List.forall₂_map_right_iff, List.forall₂_same]
  intro n hn
  have hwrap : (Int64.ofInt n).toInt = n := wrap_of_path h n hn
  change Except.ok (toString (Int64.ofInt n).toInt) = _
  rw [hwrap]

theorem typeText_eq {t : Ty} (h : f.typeOf v = .ok (some t)) : Printer.typeText f v = .ok t.text := by
  rw [Printer.typeText, h]
  rfl

theorem retype_of_typed (hv : Slot.typed.Holds v) (t : Ty) : retype t v = v := by
  obtain ⟨u, -, hfits⟩ := hv
  cases v with
  | int c n =>
    obtain ⟨rfl, -⟩ | ⟨rfl, -⟩ := hfits <;> rfl
  | _ => rfl

theorem forall_of_replicate {sl : Slot} {n : Nat} {vs : List Value}
    (h : List.Forall₂ Slot.Holds (List.replicate n sl) vs) :
    ∀ v ∈ vs, sl.Holds v := by
  induction n generalizing vs with
  | zero =>
    obtain rfl := List.forall₂_nil_left_iff.mp h
    exact fun v hv => by cases hv
  | succ n ih =>
    obtain ⟨v, vs, hv, hvs, rfl⟩ := List.forall₂_cons_left_iff.mp h
    exact List.forall_mem_cons.mpr ⟨hv, ih hvs⟩

theorem intercalate_pair (x y : String) : ", ".intercalate [x, y] = x ++ (", " ++ y) := by
  rw [intercalate_cons, behind_cons]
  exact congrArg _ (congrArg _ String.append_empty)

theorem intercalate_triple (x y z : String) : ", ".intercalate [x, y, z] = x ++ (", " ++ (y ++ (", " ++ z))) := by
  rw [intercalate_cons, behind_cons, ← intercalate_cons, intercalate_pair]

section Values

variable {v' v'' : Value}

theorem values_two (h : Printer.values (some s) f [v, v'] = .ok x) :
    ∃ y y', Printer.value (some s) f v = .ok y ∧ Printer.value (some s) f v' = .ok y' ∧ x = y ++ (", " ++ y') := by
  obtain ⟨ys, hys, h⟩ := Checked.bind_eq_ok.mp h
  cases h
  obtain ⟨y, _, hy, hrest, rfl⟩ := List.forall₂_cons_left_iff.mp (Checked.mapM_eq_ok.mp hys)
  obtain ⟨y', _, hy', hnil, rfl⟩ := List.forall₂_cons_left_iff.mp hrest
  obtain rfl := List.forall₂_nil_left_iff.mp hnil
  exact ⟨y, y', hy, hy', intercalate_pair y y'⟩

theorem values_three (h : Printer.values (some s) f [v, v', v''] = .ok x) :
    ∃ y y' y'', Printer.value (some s) f v = .ok y ∧ Printer.value (some s) f v' = .ok y' ∧
      Printer.value (some s) f v'' = .ok y'' ∧ x = y ++ (", " ++ (y' ++ (", " ++ y''))) := by
  obtain ⟨ys, hys, h⟩ := Checked.bind_eq_ok.mp h
  cases h
  obtain ⟨y, _, hy, hrest, rfl⟩ := List.forall₂_cons_left_iff.mp (Checked.mapM_eq_ok.mp hys)
  obtain ⟨y', _, hy', hmore, rfl⟩ := List.forall₂_cons_left_iff.mp hrest
  obtain ⟨y'', _, hy'', hnil, rfl⟩ := List.forall₂_cons_left_iff.mp hmore
  obtain rfl := List.forall₂_nil_left_iff.mp hnil
  exact ⟨y, y', y'', hy, hy', hy'', intercalate_triple y y' y''⟩

theorem values_path {t u : Ty} {is : List Int} (hpath : Path t is u)
    (h : Printer.values (some s) f (v :: is.map fun n => .int (some .i32) (.ofInt n)) = .ok x) :
    ∃ y, Printer.value (some s) f v = .ok y ∧ x = y ++ behind (is.map toString) := by
  obtain ⟨ys, hys, h⟩ := Checked.bind_eq_ok.mp h
  cases h
  obtain ⟨y, ys, hy, hrest, rfl⟩ := List.forall₂_cons_left_iff.mp (Checked.mapM_eq_ok.mp hys)
  cases (mapM_fields hpath f).symm.trans (Checked.mapM_eq_ok.mpr hrest)
  exact ⟨y, hy, intercalate_cons y _⟩

end Values

section Body

variable {id : Int} (hs : s.Formed) (hf : f.Read tokens s) (hns : ns.Within s f) (hi : f.instr? id = some i)
  (hformed : i.Formed f.ret w) (hrecover : ∀ v ∈ i.operands, v.Recoverable)

include hs hf hns hi hrecover

theorem renders_operand (hv : v ∈ i.operands) (hfits : v.Fits ctx) (hx : Printer.value (some s) f v = .ok x) :
    ns.Renders f ctx v x :=
  Names.renders_value hs hf hns (hf.has id i hi v hv) hfits (hrecover v hv) hx

theorem rendersTyped_operand (hv : v ∈ i.operands) (hholds : Slot.typed.Holds v)
    (hx : Printer.typed (some s) f v = .ok x) : RendersTyped ns f v x :=
  rendersTyped hs hf hns (hf.has id i hi v hv) (hrecover v hv) hholds hx

end Body

theorem scans_body {id : Int} (hs : s.Formed) (hf : f.Read tokens s) (hns : ns.Within s f) (hi : f.instr? id = some i)
    (hformed : i.Formed f.ret w) (hrecover : ∀ v ∈ i.operands, v.Recoverable)
    (hrestated : i.op.restatesType = true → ∀ v ∈ i.operands.head?, f.typeOf v = .ok (some w))
    (hordering : i.ordering ≠ .none → i.op ∈ [Op.load, .store, .atomicrmw, .cmpxchg, .fence])
    (hx : Printer.body (some s) f i = .ok x) (hF : ∀ l, F l → l.1 ≠ .comma)
    (hbare : i.Bare → ∀ l, F l → l.Follows) :
    Lexer.Breaks (ofString x) ∧ Scans f Lexeme.Follows F x (body ns i.op) () i.begun i.dressed := by
  rw [hformed.dressed_eq hordering]
  have hrender : ∀ v ∈ i.operands, ∀ ctx x, v.Fits ctx → Printer.value (some s) f v = .ok x →
      ns.Renders f ctx v x := fun v hv ctx x => renders_operand hs hf hns hi hrecover hv
  have htyped : ∀ v ∈ i.operands, ∀ x, Slot.typed.Holds v → Printer.typed (some s) f v = .ok x →
      RendersTyped ns f v x := fun v hv x => rendersTyped_operand hs hf hns hi hrecover hv
  have hblock : ∀ c ∈ i.targets, ∃ blk, f.block? c = some blk ∧ blk.name ≠ "" := by
    intro c hc
    obtain ⟨blk, hblk, -⟩ := hf.aims id i hi c hc
    exact ⟨blk, hblk, (hf.labels c blk hblk).isName.ne_empty⟩
  have haims := hf.aims id i hi
  have hhas := hf.has id i hi
  clear hi
  obtain ⟨⟨slots, hlayout, hslots⟩, hty, helem, hpred, hrmw, hcallee, -, -, hwritten⟩ := hformed
  obtain ⟨home, name, op, ty, operands, targets, pred, rmw, callee, elem, volatile, ordering, checked, access, pos⟩ := i
  cases op
  case fneg =>
    obtain ⟨rfl, htargets⟩ := hlayout
    obtain ⟨v, rfl, hv⟩ := Slot.holds_one hslots
    obtain rfl := List.length_eq_zero_iff.mp htargets
    obtain ⟨y, hy, hx⟩ := Checked.bind_eq_ok.mp hx
    cases hx
    simp only [String.append_assoc]
    exact Scans.spaced (scans_negation hty (hrender v (by simp) _ _ hv hy))
  case icmp =>
    obtain ⟨rfl, htargets, rfl, hknown⟩ := hlayout
    obtain ⟨v, v', rfl, hv, hv'⟩ := Slot.holds_two hslots
    obtain rfl := List.length_eq_zero_iff.mp htargets
    obtain ⟨t, ht, hx⟩ := Checked.bind_eq_ok.mp hx
    obtain ⟨y, hy, hx⟩ := Checked.bind_eq_ok.mp hx
    obtain ⟨y', hy', hx⟩ := Checked.bind_eq_ok.mp hx
    cases hx
    cases ht.symm.trans (typeText_eq (hrestated rfl v rfl))
    simp only [String.append_assoc]
    exact Scans.spaced (scans_compare .icmp hpred (fun _ => hknown) (hwritten rfl)
      (hrender v (by simp) _ _ hv hy) (hrender v' (by simp) _ _ hv' hy'))
  case fcmp =>
    obtain ⟨rfl, htargets, rfl⟩ := hlayout
    obtain ⟨v, v', rfl, hv, hv'⟩ := Slot.holds_two hslots
    obtain rfl := List.length_eq_zero_iff.mp htargets
    obtain ⟨t, ht, hx⟩ := Checked.bind_eq_ok.mp hx
    obtain ⟨y, hy, hx⟩ := Checked.bind_eq_ok.mp hx
    obtain ⟨y', hy', hx⟩ := Checked.bind_eq_ok.mp hx
    cases hx
    cases ht.symm.trans (typeText_eq (hrestated rfl v rfl))
    simp only [String.append_assoc]
    exact Scans.spaced (scans_compare .fcmp hpred (by simp) (hwritten rfl)
      (hrender v (by simp) _ _ hv hy) (hrender v' (by simp) _ _ hv' hy'))
  case select =>
    obtain ⟨rfl, htargets⟩ := hlayout
    obtain ⟨v, v', v'', rfl, hv, hv', hv''⟩ := Slot.holds_three hslots
    obtain rfl := List.length_eq_zero_iff.mp htargets
    obtain ⟨y, hy, hx⟩ := Checked.bind_eq_ok.mp hx
    obtain ⟨y', hy', hx⟩ := Checked.bind_eq_ok.mp hx
    obtain ⟨y'', hy'', hx⟩ := Checked.bind_eq_ok.mp hx
    cases hx
    simp only [String.append_assoc]
    exact Scans.spaced (scans_select hty (hrender v (by simp) _ _ hv hy) (hrender v' (by simp) _ _ hv' hy')
      (hrender v'' (by simp) _ _ hv'' hy''))
  case gep =>
    obtain ⟨n, rfl, htargets, rfl, -⟩ := hlayout
    obtain ⟨v, vs, hv, hvs, rfl⟩ := List.forall₂_cons_left_iff.mp hslots
    obtain rfl := List.length_eq_zero_iff.mp htargets
    obtain ⟨t, rfl, ht⟩ := helem
    obtain ⟨y, hy, hx⟩ := Checked.bind_eq_ok.mp hx
    obtain ⟨ys, hys, hx⟩ := Checked.bind_eq_ok.mp hx
    cases hx
    simp only [String.append_assoc]
    have hrest := Checked.forall₂_of_mapM hys fun u hu z => htyped u (by simp_all) z (forall_of_replicate hvs u hu)
    exact Scans.spaced (scans_gep ht (hrender v (by simp) _ _ hv hy) hrest hF)
  case extractelement =>
    obtain ⟨n, t, rfl, rfl, htargets, rfl⟩ := hlayout
    obtain ⟨v, v', rfl, hv, hv'⟩ := Slot.holds_two hslots
    obtain rfl := List.length_eq_zero_iff.mp htargets
    obtain ⟨t, ht, hx⟩ := Checked.bind_eq_ok.mp hx
    obtain ⟨ys, hys, hx⟩ := Checked.bind_eq_ok.mp hx
    cases hx
    cases ht.symm.trans (typeText_eq (hrestated rfl v rfl))
    obtain ⟨y, y', hy, hy', rfl⟩ := values_two hys
    simp only [String.append_assoc]
    exact Scans.spaced (scans_extractelement (hwritten rfl) (hrender v (by simp) _ _ hv hy)
      (hrender v' (by simp) _ _ hv' hy'))
  case insertelement =>
    obtain ⟨n, t, rfl, rfl, htargets, rfl⟩ := hlayout
    obtain ⟨v, v', v'', rfl, hv, hv', hv''⟩ := Slot.holds_three hslots
    obtain rfl := List.length_eq_zero_iff.mp htargets
    obtain ⟨t, ht, hx⟩ := Checked.bind_eq_ok.mp hx
    obtain ⟨ys, hys, hx⟩ := Checked.bind_eq_ok.mp hx
    cases hx
    cases ht.symm.trans (typeText_eq (hrestated rfl v rfl))
    obtain ⟨y, y', y'', hy, hy', hy'', rfl⟩ := values_three hys
    simp only [String.append_assoc]
    exact Scans.spaced (scans_insertelement (hwritten rfl) (hrender v (by simp) _ _ hv hy)
      (hrender v' (by simp) _ _ hv' hy') (hrender v'' (by simp) _ _ hv'' hy''))
  case shufflevector =>
    obtain ⟨n, t, rfl, rfl, htargets⟩ := hlayout
    obtain ⟨v, v', v'', rfl, hv, hv', hv''⟩ := Slot.holds_three hslots
    obtain rfl := List.length_eq_zero_iff.mp htargets
    obtain ⟨y, hy, hx⟩ := Checked.bind_eq_ok.mp hx
    obtain ⟨y', hy', hx⟩ := Checked.bind_eq_ok.mp hx
    obtain ⟨z, hz, hx⟩ := Checked.bind_eq_ok.mp hx
    cases hx
    obtain ⟨u, y'', rfl, hu, hy''⟩ := htyped v'' (by simp) z hv'' hz
    simp only [String.append_assoc]
    exact Scans.spaced (scans_shufflevector hty hu (hrender v (by simp) _ _ hv hy)
      (hrender v' (by simp) _ _ hv' hy') hy'')
  case extractvalue =>
    obtain ⟨is, rfl, htargets, hpath⟩ := hlayout
    obtain ⟨v, vs, hv, hvs, rfl⟩ := List.forall₂_cons_left_iff.mp hslots
    obtain rfl := fields_of_holds hvs
    obtain rfl := List.length_eq_zero_iff.mp htargets
    obtain ⟨t, ht, hx⟩ := Checked.bind_eq_ok.mp hx
    obtain ⟨ys, hys, hx⟩ := Checked.bind_eq_ok.mp hx
    cases hx
    cases ht.symm.trans (typeText_eq (hrestated rfl v rfl))
    obtain ⟨y, hy, rfl⟩ := values_path hpath hys
    simp only [String.append_assoc]
    exact Scans.spaced (scans_extractvalue (hwritten rfl) (hrender v (by simp) _ _ hv hy) hpath hF)
  case insertvalue =>
    obtain ⟨is, u, rfl, htargets, hpath⟩ := hlayout
    obtain ⟨v, _, hv, hrest, rfl⟩ := List.forall₂_cons_left_iff.mp hslots
    obtain ⟨v', vs, hv', hvs, rfl⟩ := List.forall₂_cons_left_iff.mp hrest
    obtain rfl := fields_of_holds hvs
    obtain rfl := List.length_eq_zero_iff.mp htargets
    obtain ⟨y, hy, hx⟩ := Checked.bind_eq_ok.mp hx
    obtain ⟨z, hz, hx⟩ := Checked.bind_eq_ok.mp hx
    obtain ⟨ys, hys, hx⟩ := Checked.bind_eq_ok.mp hx
    cases hx
    cases (mapM_fields hpath f).symm.trans hys
    obtain ⟨t, y', rfl, ht, hy'⟩ := htyped v' (by simp) z hv' hz
    simp only [String.append_assoc]
    exact Scans.spaced (scans_insertvalue hty (hrender v (by simp) _ _ hv hy) ht hy' hpath hF rfl
      (retype_of_typed hv'))
  case alloca =>
    obtain ⟨hslot, htargets, rfl, -⟩ := hlayout
    obtain rfl := List.length_eq_zero_iff.mp htargets
    obtain ⟨t, rfl, ht⟩ := helem
    rcases hslot with rfl | rfl
    · obtain rfl := List.forall₂_nil_left_iff.mp hslots
      cases hx
      exact Scans.spaced (scans_alloca ht hF)
    · obtain ⟨v, rfl, hv⟩ := Slot.holds_one hslots
      obtain ⟨y, hy, hx⟩ := Checked.bind_eq_ok.mp hx
      cases hx
      simp only [String.append_assoc]
      exact Scans.spaced (scans_alloca_count ht (hrender v (by simp) _ _ hv hy))
  case load =>
    obtain ⟨rfl, htargets, (rfl : elem = some ty)⟩ := hlayout
    obtain ⟨v, rfl, hv⟩ := Slot.holds_one hslots
    obtain rfl := List.length_eq_zero_iff.mp htargets
    obtain ⟨y, hy, hx⟩ := Checked.bind_eq_ok.mp hx
    cases hx
    simp only [String.append_assoc]
    exact Scans.spaced (scans_load hty (hrender v (by simp) _ _ hv hy))
  case store =>
    obtain ⟨t, rfl, rfl, htargets, rfl⟩ := hlayout
    obtain ⟨v, v', rfl, hv, hv'⟩ := Slot.holds_two hslots
    obtain rfl := List.length_eq_zero_iff.mp htargets
    obtain ⟨t, ⟨⟩, ht⟩ := helem
    obtain ⟨y, hy, hx⟩ := Checked.bind_eq_ok.mp hx
    obtain ⟨y', hy', hx⟩ := Checked.bind_eq_ok.mp hx
    cases hx
    simp only [String.append_assoc]
    exact Scans.spaced (scans_store ht (hrender v (by simp) _ _ hv hy) (hrender v' (by simp) _ _ hv' hy'))
  case atomicrmw =>
    obtain ⟨rfl, htargets, (rfl : elem = some ty), horder⟩ := hlayout
    obtain ⟨v, v', rfl, hv, hv'⟩ := Slot.holds_two hslots
    obtain rfl := List.length_eq_zero_iff.mp htargets
    obtain ⟨ys, hys, hx⟩ := Checked.bind_eq_ok.mp hx
    cases hx
    obtain ⟨y, y', hy, hy', rfl⟩ := values_two hys
    simp only [String.append_assoc]
    exact Scans.spaced (scans_atomicrmw hrmw horder hty (hrender v (by simp) _ _ hv hy)
      (hrender v' (by simp) _ _ hv' hy'))
  case cmpxchg =>
    obtain ⟨rfl, htargets, (rfl : elem = some ty), horder⟩ := hlayout
    obtain ⟨v, v', v'', rfl, hv, hv', hv''⟩ := Slot.holds_three hslots
    obtain rfl := List.length_eq_zero_iff.mp htargets
    obtain ⟨ys, hys, hx⟩ := Checked.bind_eq_ok.mp hx
    cases hx
    obtain ⟨y, y', y'', hy, hy', hy'', rfl⟩ := values_three hys
    simp only [String.append_assoc]
    exact Scans.spaced (scans_cmpxchg horder hty (hrender v (by simp) _ _ hv hy)
      (hrender v' (by simp) _ _ hv' hy') (hrender v'' (by simp) _ _ hv'' hy''))
  case fence =>
    obtain ⟨rfl, htargets, rfl, horder⟩ := hlayout
    obtain rfl := List.forall₂_nil_left_iff.mp hslots
    obtain rfl := List.length_eq_zero_iff.mp htargets
    cases hx
    exact Scans.spaced (scans_fence horder)
  case call =>
    obtain ⟨n, rfl, htargets⟩ := hlayout
    obtain rfl := List.length_eq_zero_iff.mp htargets
    by_cases hname : callee = ""
    · subst hname
      obtain ⟨v, vs, hv, hvs, rfl⟩ := List.forall₂_cons_left_iff.mp hslots
      have hfits : v.Fits (some .ptr) := by
        obtain ⟨n, rfl⟩ | ⟨n, rfl⟩ := hv <;> trivial
      simp only [Printer.body, ne_eq, not_true_eq_false, if_false] at hx
      obtain ⟨y, hy, hx⟩ := Checked.bind_eq_ok.mp hx
      obtain ⟨ys, hys, hx⟩ := Checked.bind_eq_ok.mp hx
      cases hx
      have hrest := Checked.forall₂_of_mapM hys fun u hu z =>
        htyped u (List.mem_cons_of_mem _ hu) z (forall_of_replicate hvs u hu)
      simp only [String.append_assoc]
      exact Scans.spaced (scans_call_local hty hv (hrender v (by simp) _ _ hfits hy) hrest)
    · simp only [Printer.body, ne_eq, hname, not_false_eq_true, if_true] at hx
      obtain ⟨y, hy, hx⟩ := Checked.bind_eq_ok.mp hx
      obtain ⟨ys, hys, hx⟩ := Checked.bind_eq_ok.mp hx
      cases hy
      cases hx
      simp only [hname, if_false, List.nil_append] at hslots
      have hargs : (Instr.callArgs ⟨home, name, .call, ty, operands, [], pred, rmw, callee, elem, volatile, ordering,
          checked, access, pos⟩) = operands := by
        simp [Instr.callArgs, hname]
      rw [hargs] at hys
      have hrest := Checked.forall₂_of_mapM hys fun u hu z => htyped u hu z (forall_of_replicate hslots u hu)
      simp only [String.append_assoc]
      exact Scans.spaced (scans_call_global hty (hcallee hname).2 hrest)
  case phi =>
    obtain ⟨n, rfl, htargets⟩ := hlayout
    obtain ⟨v, vs, hv, hvs, rfl⟩ := List.forall₂_cons_left_iff.mp hslots
    obtain ⟨c, cs, rfl⟩ := List.exists_cons_of_length_eq_add_one htargets
    obtain ⟨ys, hys, hx⟩ := Checked.bind_eq_ok.mp hx
    cases hx
    have hfits := List.forall_mem_cons.mpr ⟨hv, forall_of_replicate hvs⟩
    obtain ⟨qs, rfl, hqs⟩ := edges_of_phiEdges hblock (fun u hu z => hrender u hu (some ty) z (hfits u hu)) hys
    have hlen : vs.length = cs.length := by
      have := hslots.length_eq
      simp only [List.length_replicate, List.length_cons] at this htargets
      omega
    simp only [String.append_assoc]
    exact Scans.spaced (scans_phi hf hns hty hlen hqs hF)
  case br =>
    obtain ⟨rfl, htargets, rfl⟩ := hlayout
    obtain rfl := List.forall₂_nil_left_iff.mp hslots
    obtain ⟨c, rfl⟩ := List.length_eq_one_iff.mp htargets
    obtain ⟨y, hy, hx⟩ := Checked.bind_eq_ok.mp hx
    cases hx
    obtain ⟨blk, hblk, hflag⟩ := haims c (by simp)
    have hword := hf.labels c blk hblk
    cases hy.symm.trans (Func.blockName_eq hblk hword.isName.ne_empty)
    have hfollows : Lexeme.Follows (.ident, ofString blk.name) :=
      ⟨fun _ => by rw [hword.isName.toText_octets]; exact hflag rfl, by simp⟩
    exact ⟨Lexer.breaks_blank _, (scans_target hf hns hblk hfollows).behind_blank⟩
  case condbr =>
    obtain ⟨rfl, htargets, rfl⟩ := hlayout
    obtain ⟨v, rfl, hv⟩ := Slot.holds_one hslots
    obtain ⟨b, c, rfl⟩ := List.length_eq_two.mp htargets
    obtain ⟨y, hy, hx⟩ := Checked.bind_eq_ok.mp hx
    obtain ⟨z, hz, hx⟩ := Checked.bind_eq_ok.mp hx
    obtain ⟨z', hz', hx⟩ := Checked.bind_eq_ok.mp hx
    cases hx
    obtain ⟨blk, hblk, hne⟩ := hblock b (by simp)
    obtain ⟨blk', hblk', hne'⟩ := hblock c (by simp)
    cases hz.symm.trans (Func.blockName_eq hblk hne)
    cases hz'.symm.trans (Func.blockName_eq hblk' hne')
    simp only [String.append_assoc]
    exact Scans.spaced (scans_condbr hf hns (hrender v (by simp) _ _ hv hy) hblk hblk')
  case switch =>
    obtain ⟨n, rfl, htargets, rfl⟩ := hlayout
    obtain ⟨v, vs, hv, hvs, rfl⟩ := List.forall₂_cons_left_iff.mp hslots
    obtain ⟨c, cs, rfl⟩ := List.exists_cons_of_length_eq_add_one htargets
    obtain ⟨t, ht, hx⟩ := Checked.bind_eq_ok.mp hx
    obtain ⟨y, hy, hx⟩ := Checked.bind_eq_ok.mp hx
    obtain ⟨z, hz, hx⟩ := Checked.bind_eq_ok.mp hx
    obtain ⟨ys, hys, hx⟩ := Checked.bind_eq_ok.mp hx
    cases hx
    cases ht.symm.trans (typeText_eq (hrestated rfl v rfl))
    obtain ⟨blk, hblk, hne⟩ := hblock c (by simp)
    cases hz.symm.trans (Func.blockName_eq hblk hne)
    obtain ⟨qs, rfl, hqs⟩ := edges_of_switchCases hblock
      (fun u hu z => hrender u (List.mem_cons_of_mem _ hu) (some w) z (forall_of_replicate hvs u hu))
      (show Printer.switchCases (some s) f _ 1 vs = .ok ys from hys)
    have hlen : vs.length = cs.length := by
      have := hslots.length_eq
      simp only [List.length_replicate, List.length_cons] at this htargets
      omega
    rw [show " [" = " " ++ "[" from rfl]
    simp only [String.append_assoc]
    exact Scans.spaced (scans_switch hf hns (hwritten rfl) (hrender v (by simp) _ _ hv hy) hblk hlen hqs)
  case ret =>
    obtain ⟨hlayout, htargets, rfl⟩ := hlayout
    obtain rfl := List.length_eq_zero_iff.mp htargets
    by_cases hret : f.ret.isVoid
    · rw [if_pos hret] at hlayout
      subst hlayout
      obtain rfl := List.forall₂_nil_left_iff.mp hslots
      cases hx
      have hread : body ns .ret = pure () := by
        rw [body, hns.ret, hret]
        rfl
      rw [hread]
      exact ⟨Lexer.breaks_nil, [], spells_empty, hbare (.inr ⟨rfl, rfl⟩), DraftReader.makes_pure f () _⟩
    · rw [if_neg hret] at hlayout
      obtain ⟨t, ht, rfl⟩ := hlayout
      obtain ⟨v, rfl, hv⟩ := Slot.holds_one hslots
      obtain ⟨u, hu, hx⟩ := Checked.bind_eq_ok.mp hx
      obtain ⟨y, hy, hx⟩ := Checked.bind_eq_ok.mp hx
      cases hx
      have hread : body ns .ret = (do addOperand ns (some (← liftM type))) := by
        rw [body, hns.ret, Bool.eq_false_iff.mpr hret]
        rfl
      rw [hread]
      obtain ⟨t', ht', hreadable, hfits⟩ := Slot.exists_typeOf hf (hhas v (by simp)) ⟨t, ht, hv⟩
      cases hu.symm.trans (typeText_eq ht')
      simp only [String.append_assoc]
      exact Scans.spaced (scans_return hreadable (hrender v (by simp) _ _ hfits hy))
  case unreachable =>
    obtain ⟨rfl, htargets, rfl⟩ := hlayout
    obtain rfl := List.forall₂_nil_left_iff.mp hslots
    obtain rfl := List.length_eq_zero_iff.mp htargets
    cases hx
    exact ⟨Lexer.breaks_nil, [], spells_empty, hbare (.inl rfl), DraftReader.makes_pure f () _⟩
  case invalid => exact hlayout.elim
  case trunc | zext | sext | fptrunc | fpext | fptosi | fptoui | sitofp | uitofp | ptrtoint | inttoptr
      | bitcast =>
    obtain ⟨rfl, htargets⟩ := hlayout
    obtain ⟨v, rfl, hv⟩ := Slot.holds_one hslots
    obtain rfl := List.length_eq_zero_iff.mp htargets
    obtain ⟨t, ht, hx⟩ := Checked.bind_eq_ok.mp hx
    obtain ⟨y, hy, hx⟩ := Checked.bind_eq_ok.mp hx
    cases hx
    cases ht.symm.trans (typeText_eq (hrestated rfl v rfl))
    simp only [String.append_assoc]
    exact Scans.spaced (scans_cast (hwritten rfl) hty (hrender v (by simp) _ _ hv hy))
  all_goals
    obtain ⟨rfl, htargets⟩ := hlayout
    obtain ⟨v, v', rfl, hv, hv'⟩ := Slot.holds_two hslots
    obtain rfl := List.length_eq_zero_iff.mp htargets
    obtain ⟨y, hy, hx⟩ := Checked.bind_eq_ok.mp hx
    obtain ⟨y', hy', hx⟩ := Checked.bind_eq_ok.mp hx
    cases hx
    simp only [String.append_assoc]
    exact Scans.spaced (scans_arith hty (hrender v (by simp) _ _ hv hy) (hrender v' (by simp) _ _ hv' hy'))

end Grammar

theorem Op.isWord_name {op : Op} (h : op ≠ .invalid) : IsWord op.name ∧ Op.ofName? op.name = some op := by
  refine ⟨isWord_of_octets (Bytes.isWord_of_all ?_), ?_⟩
  · cases op <;> first | exact absurd rfl h | decide
  · cases op <;> first | exact absurd rfl h | rfl

theorem Op.opens_name {op : Op} (h : op ≠ .invalid) : Lexeme.Opens (.ident, ofString op.name) :=
  Lexeme.opens_word (isWord_name h).1 (by cases op <;> decide)

/-- Each text of the metadata comes back from its quotes. -/
structure AccessMeta.Recoverable (m : AccessMeta) : Prop where
  tbaa : m.tbaa.Plain
  scope : m.scope.Plain
  noAlias : Bytes.Plain (List.intercalate [44] m.noAlias)

/-- The text of an instruction tells which one it is: its result has a name, each constant and each piece of
metadata comes back from its text, and so do the ordering and the type that is not kept. -/
structure Instr.Recoverable (tokens : List Token) (f : Func) (i : Instr) : Prop where
  named : i.hasResult = true → i.name ≠ ""
  operands : ∀ v ∈ i.operands, v.Recoverable
  ordering : i.ordering ≠ .none → i.op ∈ [Op.load, .store, .atomicrmw, .cmpxchg, .fence]
  restated : i.op.restatesType = true → ∀ t, Parser.Stated tokens i t → ∀ v ∈ i.operands.head?,
    f.typeOf v = .ok (some t)
  access : i.access.Recoverable

namespace Grammar

def typeWritten (tokens : List Token) : Option Ty := do
  let s : Stream := ⟨tokens, none⟩
  let op ← Op.ofName? (unnamed s).cur.word
  match (flags.run (opened (named s) s.cur op)).run (unnamed s).advance with
  | .error .. => none
  | .ok _ t =>
    match (typeBehind op).run t with
    | .error .. => none
    | .ok w _ => some w

theorem advance_unnamed {s : Stream} (hk : (unnamed s).cur.kind = .ident) :
    (unnamed ⟨s.rest, none⟩).cur = (unnamed s).cur ∧ (unnamed ⟨s.rest, none⟩).advance = (unnamed s).advance := by
  obtain ⟨tokens, last⟩ := s
  have hnamed : named ⟨tokens, none⟩ = named ⟨tokens, last⟩ := rfl
  unfold unnamed at hk ⊢
  rw [hnamed]
  cases tokens with
  | nil => simp [named, Stream.sees, Stream.cur, endToken] at hk
  | cons x tokens =>
    split at hk
    · next hn =>
      have hx : x.kind = .local := of_decide_eq_true (Bool.and_eq_true_iff.mp hn).1
      rw [if_pos hn, if_pos hn, Stream.advance_cons (by simp [hx]), Stream.advance_cons (by simp [hx])]
      exact ⟨rfl, rfl⟩
    · next hn =>
      have hx : x.kind ≠ .eof := by simp [show x.kind = .ident from hk]
      rw [if_neg hn, if_neg hn, Stream.advance_cons hx, Stream.advance_cons hx]
      exact ⟨rfl, rfl⟩

theorem Writes.typeWritten_eq {s : Stream} {w : Ty} (h : Writes s w) : typeWritten s.rest = some w := by
  obtain ⟨op, d, t, u, hk, hop, hflags, htype⟩ := h
  obtain ⟨hcur, hadvance⟩ := advance_unnamed hk
  have hflags : (flags.run (opened (named ⟨s.rest, none⟩) (Stream.cur ⟨s.rest, none⟩) op)).run (unnamed s).advance =
      .ok ((), d) t := hflags
  have htype : (typeBehind op).run t = .ok w u := htype
  simp only [typeWritten, hcur, hadvance, hop, Option.bind_eq_bind, Option.bind_some, hflags, htype]

end Grammar

def Instr.RecoverableIn (tokens : List Token) (f : Func) (i : Instr) : Prop :=
  (i.hasResult = true → i.name ≠ "") ∧ (∀ v ∈ i.operands, v.Recoverable) ∧
    (i.ordering ≠ .none → i.op ∈ [Op.load, .store, .atomicrmw, .cmpxchg, .fence]) ∧
    (i.op.restatesType = true → ∀ ts ∈ tokens.tails,
      i.pos = ⟨(Stream.cur ⟨ts, none⟩).line, (Stream.cur ⟨ts, none⟩).column⟩ →
        ∀ t ∈ Grammar.typeWritten ts, ∀ v ∈ i.operands.head?, (f.typeOf v).toOption = some (some t)) ∧
    i.access.tbaa.Plain ∧ i.access.scope.Plain ∧ Bytes.Plain (List.intercalate [44] i.access.noAlias)

instance (tokens : List Token) (f : Func) (i : Instr) : Decidable (i.RecoverableIn tokens f) :=
  inferInstanceAs (Decidable (_ ∧ _))

theorem Instr.RecoverableIn.recoverable {tokens : List Token} (h : i.RecoverableIn tokens f) :
    i.Recoverable tokens f := by
  obtain ⟨hnamed, hoperands, hordering, hrestated, htbaa, hscope, hnoAlias⟩ := h
  refine ⟨hnamed, hoperands, hordering, fun hop t ht v hv => ?_, htbaa, hscope, hnoAlias⟩
  obtain ⟨s, hpasses, hpos, hwrites⟩ := ht
  have htails : s.rest ∈ tokens.tails := (List.mem_tails _ _).mpr hpasses.suffix
  exact Checked.toOption_eq_some.mp (hrestated hop _ htails hpos t hwrites.typeWritten_eq v hv)

namespace DraftReader

variable {ls : List Lexeme} {g : Bool → DraftReader β} {b : β} {word : String}

theorem makes_acceptWord (hw : IsName word) (f : Func) (j : Instr) :
    Makes f F (liftM (Reader.acceptWord word)) [(.ident, ofString word)] true j j :=
  makes_one (by simp) fun d u hd hu => by
    obtain ⟨hk, hword⟩ := Token.word_eq hw hu
    refine ⟨d, reads_lift.mpr ⟨Reader.reads_acceptWord_true.mpr ⟨?_, rfl⟩, rfl⟩, hd⟩
    simp [Stream.atWord, Stream.sees, hk, hword]

theorem makes_acceptWord_not (hO : Leads O F ls) (hne : ∀ l, O l → l.1 = .ident → l.2.toText ≠ word)
    (h : Makes f F (g false) ls b j k) : Makes f F (liftM (Reader.acceptWord word) >>= g) ls b j k := by
  intro d xs rest last hd hxs hrest
  obtain ⟨e, last', hr, he⟩ := h d xs rest last hd hxs hrest
  have hword : (⟨xs ++ rest, last⟩ : Stream).atWord word = false := by
    have hfront := hne _ (hO.front hxs hrest)
    by_contra hat
    simp only [Stream.atWord, Stream.sees, Bool.and_eq_true, Bool.not_eq_false] at hat
    exact hfront (of_decide_eq_true hat.1) (of_decide_eq_true hat.2)
  exact ⟨e, last', reads_bind.mpr
    ⟨false, d, _, reads_lift.mpr ⟨Reader.reads_acceptWord_false.mpr ⟨hword, rfl⟩, rfl⟩, hr⟩, he⟩

end DraftReader

namespace Grammar

/-! ### Flags -/

theorem makes_flags_end (hF : ∀ l, F l → l.Unflagged) {n : Nat} (hn : 0 < n) (j : Instr) :
    Makes f F (flags.go n) [] () j j := by
  have hnot : ∀ w ∈ flagWords, ∀ l, F l → l.1 = .ident → l.2.toText ≠ w := fun w hw l hl hk he =>
    hF l hl hk (he ▸ hw)
  obtain ⟨n, rfl⟩ := Nat.exists_eq_add_of_le' hn
  refine DraftReader.makes_acceptWord_not (leads_nil F) (hnot "volatile" (by decide)) ?_
  refine DraftReader.makes_acceptWord_not (leads_nil F) (hnot "checked" (by decide)) ?_
  exact DraftReader.makes_acceptWord_not (leads_nil F) (hnot "atomic" (by decide)) (DraftReader.makes_pure f () j)

theorem loops_volatile (h : Loops f M F x flags.go () { j with volatile := true } k)
    (hx : Lexer.Breaks (ofString x)) :
    Loops f (· = (.ident, ofString "volatile")) F (" volatile" ++ x) flags.go () j k := by
  have hw : IsWord "volatile" := isWord_of_octets (Bytes.isWord_of_all (by decide))
  obtain ⟨ls, hs, hl, hread⟩ := h
  refine ⟨_ :: ls, spells_append (spells_blank (Lexer.spells_word hw.octets)) hs hx, rfl, fun n hn => ?_⟩
  obtain ⟨n, rfl⟩ := Nat.exists_eq_add_of_le' (Nat.zero_lt_of_lt hn)
  refine (DraftReader.makes_acceptWord hw.isName f j).bind_cons (leads_true _ _) ?_
  exact (DraftReader.makes_edit (fun _ _ _ _ => rfl) f j).bind_nil hl (hread n (by simpa using hn))

theorem loops_checked (h : Loops f M F x flags.go () { j with checked := true } k)
    (hx : Lexer.Breaks (ofString x)) :
    Loops f (· = (.ident, ofString "checked")) F (" checked" ++ x) flags.go () j k := by
  have hw : IsWord "checked" := isWord_of_octets (Bytes.isWord_of_all (by decide))
  obtain ⟨ls, hs, hl, hread⟩ := h
  refine ⟨_ :: ls, spells_append (spells_blank (Lexer.spells_word hw.octets)) hs hx, rfl, fun n hn => ?_⟩
  obtain ⟨n, rfl⟩ := Nat.exists_eq_add_of_le' (Nat.zero_lt_of_lt hn)
  refine DraftReader.makes_acceptWord_not (O := (· = (.ident, ofString "checked"))) rfl ?_ ?_
  · rintro _ rfl -
    rw [hw.isName.toText_octets]
    decide
  refine (DraftReader.makes_acceptWord hw.isName f j).bind_cons (leads_true _ _) ?_
  exact (DraftReader.makes_edit (fun _ _ _ _ => rfl) f j).bind_nil hl (hread n (by simpa using hn))

theorem loops_atomic {o : MemOrder} (ho : o ≠ .none) (h : Loops f M F x flags.go () { j with ordering := o } k)
    (hx : Lexer.Breaks (ofString x)) :
    Loops f (· = (.ident, ofString "atomic")) F (" atomic " ++ (o.name ++ x)) flags.go () j k := by
  have hw : IsWord "atomic" := isWord_of_octets (Bytes.isWord_of_all (by decide))
  obtain ⟨ls, hs, hl, hread⟩ := h
  obtain ⟨ms, hms, -, hmore⟩ := scans_ordering (F := M) ho f j
  refine ⟨_ :: (ms ++ ls), ?_, rfl, fun n hn => ?_⟩
  · rw [show " atomic " = " " ++ ("atomic" ++ " ") from rfl]
    simp only [String.append_assoc]
    exact spells_blank (spells_append (Lexer.spells_word hw.octets)
      (spells_blank (spells_append hms hs hx)) (Lexer.breaks_blank _))
  obtain ⟨n, rfl⟩ := Nat.exists_eq_add_of_le' (Nat.zero_lt_of_lt hn)
  rw [List.length_cons, List.length_append] at hn
  have hnot : ∀ w ∈ ["volatile", "checked"], ∀ l, l = (TokenKind.ident, ofString "atomic") →
      l.1 = .ident → l.2.toText ≠ w := by
    rintro w hmem _ rfl -
    rw [hw.isName.toText_octets]
    rintro rfl
    revert hmem
    decide
  refine DraftReader.makes_acceptWord_not (O := (· = (.ident, ofString "atomic"))) rfl (hnot "volatile" (by simp)) ?_
  refine DraftReader.makes_acceptWord_not (O := (· = (.ident, ofString "atomic"))) rfl (hnot "checked" (by simp)) ?_
  refine (DraftReader.makes_acceptWord hw.isName f j).bind_cons (leads_true _ _) ?_
  exact hmore.bind hl ((DraftReader.makes_edit (fun _ _ _ _ => rfl) f j).bind_nil hl (hread n (by omega)))

theorem Loops.weaken {r : Nat → DraftReader α} {a : α} {O' : Lexeme → Prop} (h : Loops f O F x r a j k)
    (hO : ∀ l, O l → O' l) : Loops f O' F x r a j k := by
  obtain ⟨ls, hs, hl, hread⟩ := h
  refine ⟨ls, hs, ?_, hread⟩
  cases ls with
  | nil => exact fun l hF => hO l (hl l hF)
  | cons l ls => exact hO l hl

def orderingText (o : MemOrder) : String := if o = .none then "" else " atomic " ++ o.name

def flagsText (volatile checked : Bool) (o : MemOrder) : String :=
  (if volatile then " volatile" else "") ++ ((if checked then " checked" else "") ++ orderingText o)

section

variable (hF : ∀ l, F l → l.Follows)

include hF

theorem loops_orderingText (o : MemOrder) (hj : j.ordering = .none) : Lexer.Breaks (ofString (orderingText o)) ∧
    Loops f (·.1 ≠ .colon) F (orderingText o) flags.go () j { j with ordering := o } := by
  have hend : ∀ j, Loops f (·.1 ≠ .colon) F "" flags.go () j j := fun j =>
    ⟨[], spells_empty, fun l hl => (hF l hl).kind, fun n hn => makes_flags_end (fun l hl => (hF l hl).unflagged) hn j⟩
  unfold orderingText
  split
  · next ho =>
    subst ho
    refine ⟨Lexer.breaks_nil, ?_⟩
    rw [← hj]
    exact hend j
  · next ho =>
    refine ⟨Lexer.breaks_append rfl (by decide) _, ?_⟩
    have := loops_atomic ho (hend { j with ordering := o }) Lexer.breaks_nil
    rw [String.append_empty] at this
    exact this.weaken (by rintro _ rfl; simp)

theorem loops_flags (volatile checked : Bool) (o : MemOrder)
    (hj : j.volatile = false ∧ j.checked = false ∧ j.ordering = .none) :
    Lexer.Breaks (ofString (flagsText volatile checked o)) ∧
      Loops f (·.1 ≠ .colon) F (flagsText volatile checked o) flags.go ()
        j { j with volatile, checked, ordering := o } := by
  obtain ⟨hvolatile, hchecked, hordering⟩ := hj
  unfold flagsText
  have hrest : ∀ j : Instr, j.checked = false → j.ordering = .none →
      Lexer.Breaks (ofString ((if checked then " checked" else "") ++ orderingText o)) ∧
      Loops f (·.1 ≠ .colon) F ((if checked then " checked" else "") ++ orderingText o) flags.go ()
        j { j with checked, ordering := o } := by
    intro j hc ho
    cases checked with
    | false =>
      rw [if_neg Bool.false_ne_true, String.empty_append, ← hc]
      exact loops_orderingText hF o ho
    | true =>
      obtain ⟨hbreaks, hloop⟩ := loops_orderingText (f := f) (j := { j with checked := true }) hF o ho
      exact ⟨Lexer.breaks_append rfl (by decide) _, (loops_checked hloop hbreaks).weaken (by rintro _ rfl; simp)⟩
  cases volatile with
  | false =>
    rw [if_neg Bool.false_ne_true, String.empty_append, ← hvolatile]
    exact hrest j hchecked hordering
  | true =>
    obtain ⟨hbreaks, hloop⟩ := hrest { j with volatile := true } hchecked hordering
    exact ⟨Lexer.breaks_append rfl (by decide) _, (loops_volatile hloop hbreaks).weaken (by rintro _ rfl; simp)⟩

end

/-! ### Metadata -/

def metadataItem (t : Token) : DraftReader Unit := do
  match t.word with
  | "tbaa" =>
    let s ← Reader.expect .string
    setMeta ({ · with tbaa := s.lexeme })
  | "scope" =>
    let s ← Reader.expect .string
    setMeta ({ · with scope := s.lexeme })
  | "noalias" =>
    let s ← Reader.expect .string
    setMeta fun m => { m with noAlias := m.noAlias ++ scopes s.lexeme }
  | "invariant" => setMeta ({ · with invariant := true })
  | _ => Reader.failAt t (.unknownMetadata t)

theorem metadata_go_succ (n : Nat) : metadata.go (n + 1) = (do
    if ← Reader.sees .metadata then
      let t ← Reader.expect .metadata
      metadataItem t
      metadata.go n) := by
  rw [metadata.go]
  congr 1
  funext b
  cases b with
  | false => rfl
  | true =>
    simp only [if_true]
    congr 1
    funext t
    unfold metadataItem
    split <;> simp_all

def Marked (last : Prop) (F : Lexeme → Prop) (l : Lexeme) : Prop := l.1 = .metadata ∨ last ∧ F l

theorem loops_metadata_end (hF : ∀ l, F l → l.1 ≠ .metadata) (j : Instr) :
    Lexer.Breaks (ofString "") ∧ Loops f (Marked True F) F "" metadata.go () j j := by
  refine ⟨Lexer.breaks_nil, [], spells_empty, fun l hl => .inr ⟨trivial, hl⟩, fun n hn => ?_⟩
  obtain ⟨n, rfl⟩ := Nat.exists_eq_add_of_le' hn
  exact DraftReader.makes_sees_not (leads_nil F) hF (DraftReader.makes_pure f () j)

theorem loops_item (on : Prop) {last : Prop} [Decidable on] {word rest : String} {ls : List Lexeme} {j' : Instr}
    (hw : IsName word) (hrest : Spells (ofString rest) ls) (hbreaks : Lexer.Breaks (ofString rest))
    (hitem : on → ∀ t : Token, t.word = word → Makes f (Marked last F) (metadataItem t) ls () j j')
    (hoff : ¬on → j = j')
    (h : Lexer.Breaks (ofString x) ∧ Loops f (Marked last F) F x metadata.go () j' k) :
    Lexer.Breaks (ofString ((if on then " !" ++ (word ++ rest) else "") ++ x)) ∧
      Loops f (Marked (¬on ∧ last) F) F ((if on then " !" ++ (word ++ rest) else "") ++ x) metadata.go () j k := by
  obtain ⟨hx, ms, hms, hM, hmore⟩ := h
  by_cases hon : on
  · rw [if_pos hon, String.append_assoc, String.append_assoc]
    refine ⟨Lexer.breaks_append rfl (by decide) _, (.metadata, ofString word) :: (ls ++ ms), ?_, .inl rfl,
      fun n hn => ?_⟩
    · rw [show " !" = " " ++ "!" from rfl, String.append_assoc, ← @String.append_assoc "!"]
      refine spells_blank (spells_cons ?_ (spells_append hrest hms hx) ?_)
      · rw [Bytes.ofString_append]
        exact Lexer.spells_metadata hw.octets
      · rw [Bytes.ofString_append]
        exact hbreaks.append hx
    · obtain ⟨n, rfl⟩ := Nat.exists_eq_add_of_le' (Nat.zero_lt_of_lt hn)
      rw [List.length_cons, List.length_append] at hn
      rw [metadata_go_succ]
      refine DraftReader.makes_sees (O := (·.1 = .metadata)) rfl (fun _ hl => hl) ?_
      refine DraftReader.makes_expect (by decide) fun t hk ht => ?_
      exact (hitem hon t (Token.word_eq hw (Prod.ext hk ht)).2).bind hM (hmore n (by omega))
  · rw [if_neg hon, String.empty_append, hoff hon]
    have hloop : Loops f (Marked last F) F x metadata.go () j' k := ⟨ms, hms, hM, hmore⟩
    exact ⟨hx, hloop.weaken fun l hl => hl.imp_right fun hl => ⟨⟨hon, hl.1⟩, hl.2⟩⟩

theorem scopes_intercalate {xs : List Bytes} (hne : xs ≠ []) (h : ∀ x ∈ xs, ∃ list, x ∈ scopes list) :
    scopes (List.intercalate [44] xs) = xs := by
  have hitem : ∀ x ∈ xs, x.trim = x ∧ x ≠ [] ∧ 44 ∉ x := by
    intro x hx
    obtain ⟨list, hlist⟩ := h x hx
    obtain ⟨hmem, hx⟩ := List.mem_filter.mp hlist
    obtain ⟨y, hy, rfl⟩ := List.mem_map.mp hmem
    exact ⟨y.trim_trim, of_decide_eq_true hx, fun h => Bytes.not_mem_of_split hy (y.subset_trim h)⟩
  rw [scopes, Bytes.split_intercalate hne fun x hx => (hitem x hx).2.2,
    List.map_congr_left fun x hx => (hitem x hx).1, List.map_id']
  exact List.filter_eq_self.mpr fun x hx => decide_eq_true (hitem x hx).2.1

theorem spells_quoted {b : Bytes} (h : b.Plain) : Spells (ofString (" " ++ Text.quoteBytes b)) [(.string, b)] := by
  refine spells_blank ?_
  rw [show ofString (Text.quoteBytes b) = _ from h]
  exact (Lexer.closed_string b).spells

theorem accessMeta_eq (m : AccessMeta) : Printer.accessMeta m =
    (if m.tbaa ≠ [] then " !" ++ ("tbaa" ++ (" " ++ Text.quoteBytes m.tbaa)) else "") ++
    ((if m.scope ≠ [] then " !" ++ ("scope" ++ (" " ++ Text.quoteBytes m.scope)) else "") ++
    ((if m.noAlias ≠ [] then
        " !" ++ ("noalias" ++ (" " ++ Text.quoteBytes (List.intercalate [44] m.noAlias))) else "") ++
    ((if m.invariant = true then " !" ++ ("invariant" ++ "") else "") ++ ""))) := by
  have hsplit : " !tbaa " = " !" ++ "tbaa" ++ " " ∧ " !scope " = " !" ++ "scope" ++ " " ∧
      " !noalias " = " !" ++ "noalias" ++ " " ∧ " !invariant" = " !" ++ "invariant" := ⟨rfl, rfl, rfl, rfl⟩
  rw [Printer.accessMeta, hsplit.1, hsplit.2.1, hsplit.2.2.1, hsplit.2.2.2]
  simp only [String.append_assoc, String.append_empty]

section

variable {a : AccessMeta} {b : Bytes} {t : Token}

theorem makes_setMeta (change : Bytes → AccessMeta → AccessMeta) (a : AccessMeta) (b : Bytes) (f : Func) (j : Instr) :
    Makes f F (do
      let s ← liftM (Reader.expect .string)
      setMeta (change s.lexeme)) [(.string, b)] () { j with access := a } { j with access := change b a } := by
  refine DraftReader.makes_expect (by decide) fun y _ hy => ?_
  rw [hy]
  exact DraftReader.makes_edit (fun _ _ _ _ => rfl) f { j with access := a }

theorem makes_tbaa (ht : t.word = "tbaa") (a : AccessMeta) (b : Bytes) : Makes f F (metadataItem t) [(.string, b)] ()
    { j with access := a } { j with access := { a with tbaa := b } } := by
  have hitem : metadataItem t = (do
      let s ← liftM (Reader.expect .string)
      setMeta ({ · with tbaa := s.lexeme })) := by simp [metadataItem, ht]
  rw [hitem]
  exact makes_setMeta (fun b m => { m with tbaa := b }) a b f j

theorem makes_scope (ht : t.word = "scope") (a : AccessMeta) (b : Bytes) : Makes f F (metadataItem t) [(.string, b)] ()
    { j with access := a } { j with access := { a with scope := b } } := by
  have hitem : metadataItem t = (do
      let s ← liftM (Reader.expect .string)
      setMeta ({ · with scope := s.lexeme })) := by simp [metadataItem, ht]
  rw [hitem]
  exact makes_setMeta (fun b m => { m with scope := b }) a b f j

theorem makes_noAlias {xs : List Bytes} (ht : t.word = "noalias") (hne : xs ≠ [])
    (hxs : ∀ x ∈ xs, ∃ list, x ∈ scopes list) (ha : a.noAlias = []) :
    Makes f F (metadataItem t) [(.string, List.intercalate [44] xs)] ()
      { j with access := a } { j with access := { a with noAlias := xs } } := by
  have hitem : metadataItem t = (do
      let s ← liftM (Reader.expect .string)
      setMeta fun m => { m with noAlias := m.noAlias ++ scopes s.lexeme }) := by simp [metadataItem, ht]
  have hread := makes_setMeta (F := F) (fun b m => { m with noAlias := m.noAlias ++ scopes b }) a
    (List.intercalate [44] xs) f j
  rw [scopes_intercalate hne hxs, ha, List.nil_append] at hread
  rwa [hitem]

theorem makes_invariant (ht : t.word = "invariant") (a : AccessMeta) : Makes f F (metadataItem t) [] ()
    { j with access := a } { j with access := { a with invariant := true } } := by
  have hitem : metadataItem t = setMeta ({ · with invariant := true }) := by simp [metadataItem, ht]
  rw [hitem]
  exact DraftReader.makes_edit (fun _ _ _ _ => rfl) f { j with access := a }

end

theorem loops_metadata {m : AccessMeta} (hm : m.Recoverable) (hitems : ∀ x ∈ m.noAlias, ∃ list, x ∈ scopes list)
    (hF : ∀ l, F l → l.1 ≠ .metadata) (j : Instr) :
    Lexer.Breaks (ofString (Printer.accessMeta m)) ∧
      Loops f (fun l => l.1 = .metadata ∨ m = {} ∧ F l) F (Printer.accessMeta m) metadata.go ()
        { j with access := {} } { j with access := m } := by
  have hname : ∀ w : String, (ofString w).IsWord → IsName w := fun w h => (isWord_of_octets h).isName
  obtain ⟨tbaa, scope, noAlias, invariant⟩ := m
  have hinvariant := loops_item (invariant = true) (hname "invariant" (Bytes.isWord_of_all (by decide)))
    spells_empty Lexer.breaks_nil
    (fun hon t ht => hon ▸ makes_invariant (j := j) ht { tbaa, scope, noAlias })
    (fun hoff => by rw [← Bool.eq_false_iff.mpr hoff])
    (loops_metadata_end (f := f) hF { j with access := { tbaa, scope, noAlias, invariant } })
  have hnoAlias := loops_item (noAlias ≠ []) (hname "noalias" (Bytes.isWord_of_all (by decide)))
    (spells_quoted hm.noAlias) (Lexer.breaks_blank _)
    (fun hon t ht => makes_noAlias (a := { tbaa, scope }) ht hon hitems rfl)
    (fun hoff => by rw [not_not.mp hoff])
    hinvariant
  have hscope := loops_item (scope ≠ []) (hname "scope" (Bytes.isWord_of_all (by decide)))
    (spells_quoted hm.scope) (Lexer.breaks_blank _)
    (fun _ t ht => makes_scope ht { tbaa } scope)
    (fun hoff => by rw [not_not.mp hoff])
    hnoAlias
  have htbaa := loops_item (tbaa ≠ []) (hname "tbaa" (Bytes.isWord_of_all (by decide)))
    (spells_quoted hm.tbaa) (Lexer.breaks_blank _)
    (fun _ t ht => makes_tbaa ht {} tbaa)
    (fun hoff => by rw [not_not.mp hoff])
    hscope
  rw [accessMeta_eq]
  refine ⟨htbaa.1, htbaa.2.weaken fun l hl => hl.imp_right fun hl => ⟨?_, hl.2⟩⟩
  obtain ⟨⟨h1, h2, h3, h4, -⟩, -⟩ := hl
  rw [not_not.mp h1, not_not.mp h2, not_not.mp h3, Bool.eq_false_iff.mpr h4]

/-! ### Whole instructions -/

structure Ends (i : Instr) (F : Lexeme → Prop) : Prop where
  comma : ∀ l, F l → l.1 ≠ .comma
  metadata : ∀ l, F l → l.1 ≠ .metadata
  colon : ∀ l, F l → l.1 ≠ .colon
  unflagged : i.Bare → i.access = {} → ∀ l, F l → l.Unflagged

theorem scans_rest {id : Int} (hs : s.Formed) (hf : f.Read tokens s) (hns : ns.Within s f) (hi : f.instr? id = some i)
    (hrecover : i.Recoverable tokens f) (hx : Printer.body (some s) f i = .ok x) (hF : Ends i F) :
    Lexer.Breaks (ofString (flagsText i.volatile i.checked i.begun.ordering ++ (x ++ Printer.accessMeta i.access))) ∧
      Scans f (·.1 ≠ .colon) F (flagsText i.volatile i.checked i.begun.ordering ++ (x ++ Printer.accessMeta i.access))
        (rest ns i.op) () { name := i.name, op := i.op, pos := i.pos } { i with home := none } := by
  obtain ⟨w, hformed, hstated⟩ := hf.formed id i hi
  obtain ⟨hbreaks, hmeta⟩ := loops_metadata (f := f) hrecover.access hformed.noAlias hF.metadata { i with home := none }
  obtain ⟨hbody, hscan⟩ := scans_body (F := fun l => l.1 = .metadata ∨ i.access = {} ∧ F l) hs hf hns hi hformed
    hrecover.operands (fun h => hrecover.restated h w (hstated h)) hrecover.ordering hx
    (by
      rintro l (hl | ⟨-, hl⟩)
      · rw [hl]
        decide
      · exact hF.comma l hl)
    (by
      rintro hbare l (hl | ⟨hempty, hl⟩)
      · exact ⟨fun hk => by simp [hl] at hk, by simp [hl]⟩
      · exact ⟨hF.unflagged hbare hempty l hl, hF.colon l hl⟩)
  obtain ⟨hfront, hflags⟩ := loops_flags (f := f) (F := Lexeme.Follows)
    (j := { name := i.name, op := i.op, pos := i.pos }) (fun _ hl => hl) i.volatile i.checked i.begun.ordering
    ⟨rfl, rfl, rfl⟩
  have hrest : Lexer.Breaks (ofString (x ++ Printer.accessMeta i.access)) := by
    rw [Bytes.ofString_append]
    exact hbody.append hbreaks
  refine ⟨?_, hflags.scans.join (hscan.join hmeta.scans hbreaks) hrest⟩
  rw [Bytes.ofString_append]
  exact hfront.append hrest

theorem flagsText_eq (i : Instr) : flagsText i.volatile i.checked i.begun.ordering =
    (if i.volatile then " volatile" else "") ++ (if i.checked then " checked" else "") ++
      (if (i.ordering ≠ .none && (i.op = .load || i.op = .store)) = true then
        " atomic " ++ i.ordering.name else "") := by
  have hordering : orderingText i.begun.ordering =
      if (i.ordering ≠ .none && (i.op = .load || i.op = .store)) = true then " atomic " ++ i.ordering.name else "" := by
    have hbegun : i.begun.ordering = if i.op = .load ∨ i.op = .store then i.ordering else .none := rfl
    unfold orderingText
    rw [hbegun]
    by_cases hop : i.op = .load ∨ i.op = .store
    · by_cases ho : i.ordering = .none <;> simp [hop, ho]
    · rw [if_neg hop, if_pos rfl, if_neg]
      simpa using fun _ => not_or.mp hop
  rw [flagsText, hordering, String.append_assoc]

def ReadsInstr (ns : Names) (f : Func) (F : Lexeme → Prop) (ls : List Lexeme) (j : Instr) : Prop :=
  ∀ (xs rest : List Token) (last : Option Nat), xs.map Token.bare = ls → F (front rest) →
    ∃ d last', Reader.Reads (instruction ns true) ⟨xs ++ rest, last⟩ d ⟨rest, last'⟩ ∧ d.Awaits f j

theorem exists_reads_operation {ls : List Lexeme} (named : Bool) (start : Token) {xs more : List Token}
    (hop : i.op ≠ .invalid)
    (hread : Makes f F (rest ns i.op) ls () { name := i.name, op := i.op, pos := i.pos } { i with home := none })
    (hstart : i.name = if named then start.word else "")
    (hnamed : named = true → i.ty.isVoid = false ∧ ns.locals.lookup start.word = none ∧ ns.param? start.word = none)
    (hxs : xs.map Token.bare = (.ident, ofString i.op.name) :: ls) (hmore : F (front more)) (last : Option Nat) :
    ∃ d last', Reader.Reads (operation ns true named start) ⟨xs ++ more, last⟩ d ⟨more, last'⟩ ∧
      d.Awaits f { i with home := none } := by
  obtain ⟨hw, hname⟩ := Op.isWord_name hop
  obtain ⟨y, ys, rfl, hy, hys⟩ := List.map_eq_cons_iff.mp hxs
  obtain ⟨hk, hword⟩ := Token.word_eq hw.isName hy
  have hopened : (opened named start i.op).Awaits f { name := i.name, op := i.op, pos := i.pos } := by
    refine ⟨?_, .nil, .nil⟩
    rw [hstart]
    rfl
  obtain ⟨d, last', hr, hd⟩ := hread _ ys more (some y.line) hopened hys hmore
  have hty := congrArg Instr.ty hd.fields
  refine ⟨d, last', reads_operation.mpr ⟨i.op, hk, ?_, rfl, ?_, fun h => ?_⟩, hd⟩
  · change Op.ofName? y.word = _
    rw [hword, hname]
  · rw [List.cons_append, Stream.advance_cons (by simp [hk])]
    exact hr
  · rw [show d.instr.ty = i.ty from hty]
    exact hnamed h

theorem exists_readsInstr {id : Int} (hs : s.Formed) (hf : f.Read tokens s) (hns : ns.Within s f)
    (hi : f.instr? id = some i) (hrecover : i.Recoverable tokens f)
    (hfresh : i.name ≠ "" → ns.locals.lookup i.name = none)
    (hx : Printer.instr (some s) f id i = .ok x) (hF : Ends i F) :
    ∃ l ls, Spells (ofString x) (l :: ls) ∧ l.Opens ∧ (l.1 = .ident → Leads (·.1 ≠ .colon) F ls) ∧
      ReadsInstr ns f F (l :: ls) { i with home := none } := by
  obtain ⟨w, hformed, -⟩ := hf.formed id i hi
  have hop : i.op ≠ .invalid := by
    obtain ⟨slots, hlayout, -⟩ := hformed.layout
    intro hop
    rw [Instr.Layout, hop] at hlayout
    exact hlayout
  have hw := (Op.isWord_name hop).1
  obtain ⟨y, hy, hx⟩ := Checked.bind_eq_ok.mp hx
  cases hx
  obtain ⟨hbreaks, ls, hspell, hl, hread⟩ := scans_rest hs hf hns hi hrecover hy hF
  have hoperation := spells_append (Lexer.spells_word hw.octets) hspell hbreaks
  simp only [String.append_assoc] at hoperation ⊢
  by_cases hname : i.name = ""
  · have hresult : i.hasResult = false := Bool.eq_false_iff.mpr fun h => hrecover.named h hname
    rw [hresult]
    refine ⟨_, ls, by simpa [flagsText_eq, String.append_assoc] using hoperation, Op.opens_name hop, fun _ => hl, ?_⟩
    intro xs more last hxs hmore
    obtain ⟨y, ys, rfl, hy, -⟩ := List.map_eq_cons_iff.mp hxs
    have hnot : named ⟨y :: ys ++ more, last⟩ = false := by
      simp [named, Stream.sees, Stream.cur, (Prod.mk.inj hy).1]
    obtain ⟨d, last', hr, hd⟩ := exists_reads_operation false y hop hread
      (by simpa using hname) (by simp) hxs hmore last
    refine ⟨d, last', reads_instruction.mpr ?_, hd⟩
    rw [hnot, unnamed, hnot]
    exact hr
  · obtain ⟨hvoid, hisName⟩ := hformed.name hname
    have hresult : i.hasResult = true := by simp [Instr.hasResult, hvoid]
    have hlabel : f.instrLabel id = "%" ++ i.name := by
      rw [Func.instrLabel, hi]
      exact if_pos hname
    rw [hresult, if_pos rfl, hlabel]
    refine ⟨(.local, ofString i.name), (.assign, [61]) :: (.ident, ofString i.op.name) :: ls, ?_,
      Lexeme.opens_of_ne (by decide), by simp, ?_⟩
    · rw [show " = " = " " ++ ("=" ++ " ") from rfl]
      simp only [flagsText_eq, String.append_assoc] at hoperation ⊢
      rw [← @String.append_assoc "%"]
      refine spells_cons ?_ (spells_blank (spells_mark rfl rfl (spells_blank hoperation))) (Lexer.breaks_blank _)
      rw [Bytes.ofString_append]
      exact Lexer.spells_local hisName.octets
    · intro xs more last hxs hmore
      obtain ⟨y, ys, rfl, hy, hys⟩ := List.map_eq_cons_iff.mp hxs
      obtain ⟨z, zs, rfl, hz, hzs⟩ := List.map_eq_cons_iff.mp hys
      obtain ⟨hk, hword⟩ := Token.word_eq hisName hy
      have hkz : z.kind = .assign := (Prod.mk.inj hz).1
      have hnamed : named ⟨y :: z :: zs ++ more, last⟩ = true := by
        simp [named, Stream.sees, Stream.cur, Stream.ahead, hk, hkz]
      have hparam : ns.param? y.word = none := by
        rw [hword, Names.param?, hns.params, List.findIdx?_eq_none_iff]
        exact fun p hp => decide_eq_false (hf.names_new id i hi hname p hp)
      obtain ⟨d, last', hr, hd⟩ := exists_reads_operation true y hop hread
        (by simp [hword]) (fun _ => ⟨hvoid, hword ▸ hfresh hname, hparam⟩) hzs hmore (some z.line)
      refine ⟨d, last', reads_instruction.mpr ?_, hd⟩
      have hadvance : (⟨y :: z :: zs ++ more, last⟩ : Stream).advance.advance = ⟨zs ++ more, some z.line⟩ := by
        rw [List.cons_append, List.cons_append, Stream.advance_cons (by simp [hk]), Stream.advance_cons (by simp [hkz])]
      rw [hnamed, unnamed, hnamed, if_pos rfl, hadvance]
      exact hr

end Grammar
end RegPressure
