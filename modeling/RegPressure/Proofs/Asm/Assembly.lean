import RegPressure.Proofs.Asm.Progress

namespace RegPressure

variable {α β : Type}

def DraftReader.Takes (r : DraftReader α) (a : α) : Prop :=
  ∀ d s e t, Reads r d s a e t → t.rest.length < s.rest.length

/-- A reader put together from the steps that reading an instruction takes, none of which goes on
without an end on fewer than `n` tokens. -/
inductive Built (ns : Names) : Nat → {α : Type} → DraftReader α → Prop
  | pure {n : Nat} {α : Type} (a : α) : Built ns n (pure a : DraftReader α)
  | lift {n : Nat} {α : Type} {r : Reader α} (hr : r.Forward n) :
      Built ns n (liftM r : DraftReader α)
  | step {n : Nat} {α β : Type} {r : DraftReader α} {k : α → DraftReader β} (m : α → Nat)
      (hr : Built ns n r) (hm : ∀ a, m a = n ∨ m a = n - 1 ∧ r.Takes a)
      (hk : ∀ a, Built ns (m a) (k a)) : Built ns n (r >>= k)
  | rounds {n : Nat} {α : Type} {k : Nat → DraftReader α} (hk : ∀ i, Built ns i (k i)) :
      Built ns n (do k ((← getThe Stream).rest.length + 1))
  | edit {n : Nat} {change : Instr → Instr}
      (ho : ∀ i, (change i).operands = i.operands := by intro; rfl)
      (ht : ∀ i, (change i).targets = i.targets := by intro; rfl) : Built ns n (Grammar.edit change)
  | const {n : Nat} {v : Value} (hv : v.isConst = true) : Built ns n (Grammar.pushOperand v)
  | retype {n : Nat} (index : Nat) (ty : Ty) : Built ns n <|
      Grammar.edit fun i => { i with operands := i.operands.modify index (Grammar.retype ty) }
  | operand {n : Nat} (ctx : Option Ty) : Built ns n (Grammar.addOperand ns ctx)
  | target {n : Nat} : Built ns n (Grammar.addTarget ns)

namespace Built

open Reader Grammar

variable {ns : Names} {n : Nat}

theorem endless : Built ns 0 (throw ReadError.endless : DraftReader α) := lift forward_endless

theorem bind {r : DraftReader α} {k : α → DraftReader β} (hr : Built ns n r)
    (hk : ∀ a, Built ns n (k a)) : Built ns n (r >>= k) :=
  .step (fun _ => n) hr (fun _ => .inl rfl) hk

/-- What comes behind a step that takes a token. -/
theorem behind {r : DraftReader α} {k : α → DraftReader β} (hr : Built ns (n + 1) r)
    (ht : ∀ a, r.Takes a) (hk : ∀ a, Built ns n (k a)) : Built ns (n + 1) (r >>= k) :=
  .step (fun _ => n) hr (fun a => .inr ⟨rfl, ht a⟩) hk

theorem seq {r : DraftReader α} {q : DraftReader β} (hr : Built ns n r) (hq : Built ns n q) :
    Built ns n (r >>= fun _ => q) := hr.bind fun _ => hq

theorem map {r : DraftReader α} (f : α → β) (hr : Built ns n r) : Built ns n (f <$> r) := by
  rw [← bind_pure_comp]
  exact hr.bind fun a => .pure (f a)

theorem ite {p : Prop} [Decidable p] {r q : DraftReader α} (hr : Built ns n r) (hq : Built ns n q) :
    Built ns n (if p then r else q) := by
  split
  · exact hr
  · exact hq

theorem setTy (ty : Ty) : Built ns n (setTy ty) := .edit

theorem setElem (ty : Ty) : Built ns n (setElem ty) := .edit

theorem setMeta (change : AccessMeta → AccessMeta) : Built ns n (setMeta change) :=
  .edit

theorem comma : Built ns n comma := (lift (forward_expect .comma)).bind fun _ => .pure ()

theorem expect (k : TokenKind) : Built ns n (liftM (expect k) : DraftReader Token) :=
  .lift (forward_expect k)

theorem accept (k : TokenKind) : Built ns n (liftM (accept k) : DraftReader Bool) :=
  .lift (forward_accept k)

theorem acceptWord (w : String) : Built ns n (liftM (acceptWord w) : DraftReader Bool) :=
  .lift (forward_acceptWord w)

theorem sees (k : TokenKind) : Built ns n (liftM (sees k) : DraftReader Bool) :=
  .lift (forward_sees k)

theorem peek : Built ns n (liftM peek : DraftReader Token) := .lift forward_peek

theorem next : Built ns n (liftM next : DraftReader Token) := .lift forward_next

theorem type : Built ns n (liftM type : DraftReader Ty) := .lift forward_type

theorem vectorType : Built ns n (liftM vectorType : DraftReader (Int × Ty)) :=
  .lift forward_vectorType

theorem ordering : Built ns n (liftM ordering : DraftReader MemOrder) := .lift forward_ordering

theorem fail (t : Token) (e : SourceError) : Built ns n (liftM (failAt t e) : DraftReader α) :=
  .lift (forward_failAt t e)

theorem typedOperand (ctx : Option Ty) : Built ns n (addTypedOperand ns ctx) :=
  peek.bind fun _ => ite (type.bind fun _ => .operand _) (.operand ctx)

theorem takes_lift {r : Reader α} {a : α} (h : r.Takes a) :
    DraftReader.Takes (liftM r : DraftReader α) a :=
  fun _ s _ t hr => h s t (DraftReader.reads_lift.mp hr).1

theorem takes_expect {k : TokenKind} (hk : k ≠ .eof) (t : Token) :
    DraftReader.Takes (liftM (Reader.expect k) : DraftReader Token) t :=
  takes_lift (Reader.takes_expect hk t)

theorem takes_operand (ctx : Option Ty) (y : Unit) : (addOperand ns ctx).Takes y := by
  intro d s e t h
  obtain ⟨v, later, hv, -⟩ := reads_addOperand.mp h
  exact (forward_value (n := 0) ns ctx).2 _ s t hv

theorem takes_typedOperand (ctx : Option Ty) (y : Unit) : (addTypedOperand ns ctx).Takes y := by
  intro d s e t h
  rcases reads_addTypedOperand.mp h with ⟨-, ty, u, hty, h⟩ | ⟨-, h⟩
  · exact Nat.lt_trans (takes_operand _ y d u e t h) (takes_type ty s u hty)
  · exact takes_operand _ y d s e t h

/-- A branch on a word that is taken if it is there. -/
theorem word (w : String) {q q' : DraftReader α} (hq : Built ns n q) (hq' : Built ns (n + 1) q') :
    Built ns (n + 1) (do if ← Reader.acceptWord w then q else q') := by
  refine .step (fun b => if b then n else n + 1) (acceptWord w) (fun b => ?_) fun b => ?_
  · cases b with
    | false => exact .inl rfl
    | true => exact .inr ⟨rfl, takes_lift (takes_acceptWord w)⟩
  · cases b with
    | false => exact hq'
    | true => exact hq

theorem indices_go (n : Nat) (ty : Ty) : Built ns n (indices.go n ty) := by
  induction n generalizing ty with
  | zero => exact endless
  | succ n ih =>
    unfold indices.go
    refine (accept .comma).bind fun _ => ite (.pure ty) ?_
    refine (expect .int).behind (takes_expect (by decide)) fun tok => (const rfl).bind fun _ => ?_
    split
    · exact ih _
    · exact fail tok _

theorem indices (ty : Ty) : Built ns n (indices ty) := .rounds fun i => indices_go i ty

theorem args (params : List (Option Ty)) (n : Nat) : Built ns n (callBody.args ns params n) := by
  induction n generalizing params with
  | zero => exact endless
  | succ n ih =>
    unfold callBody.args
    refine (sees .rparen).bind fun _ => ite (.pure ()) ?_
    refine (typedOperand _).behind (takes_typedOperand _) fun _ => (sees .rparen).bind fun _ => ite ?_ (ih _)
    exact comma.bind fun _ => ih _

theorem callBody : Built ns n (callBody ns) := by
  refine type.bind fun ty => (setTy ty).bind fun _ => peek.bind fun t => ?_
  have hrest (params : List (Option Ty)) : Built ns n (do
      let _ ← Reader.expect .lparen
      callBody.args ns params ((← getThe Stream).rest.length + 1)
      let _ ← Reader.expect .rparen : DraftReader Unit) :=
    (expect .lparen).bind fun _ => .rounds fun i => (args params i).bind fun _ =>
      (expect .rparen).bind fun _ => .pure ()
  dsimp only
  split
  · exact next.bind fun _ => bind .edit fun _ => (pure _).bind fun params => hrest params
  · exact (operand _).bind fun _ => (pure _).bind fun params => hrest params
  · exact (fail t _).bind fun params => hrest params

theorem phiBody (ty : Ty) (n : Nat) : Built ns n (phiBody ns ty n) := by
  induction n with
  | zero => exact endless
  | succ n ih =>
    refine (expect .lbracket).behind (takes_expect (by decide)) fun _ => (operand _).bind fun _ => comma.bind fun _ =>
      target.bind fun _ => (expect .rbracket).bind fun _ => (accept .comma).bind fun _ => ?_
    exact ite ih (.pure ())

theorem switchCases (ty : Ty) (n : Nat) : Built ns n (switchCases ns ty n) := by
  induction n with
  | zero => exact endless
  | succ n ih =>
    refine (sees .rbracket).bind fun _ => ite (.pure ()) ?_
    exact (operand _).behind (takes_operand _) fun _ => (expect .colon).bind fun _ => target.bind fun _ =>
      (accept .comma).bind fun _ => ih

theorem gepIndices (n : Nat) : Built ns n (gepIndices ns n) := by
  induction n with
  | zero => exact endless
  | succ n ih =>
    exact (accept .comma).bind fun _ =>
      ite ((typedOperand _).behind (takes_typedOperand _) fun _ => ih) (.pure ())

theorem pair (ty u : Ty) : Built ns n (do
    addOperand ns (some ty)
    Grammar.comma
    addOperand ns (some u) : DraftReader Unit) :=
  (operand _).seq (comma.seq (operand _))

theorem compare (icmp : Bool) : Built ns n (do
    let p ← liftM (Reader.expect .ident)
    Grammar.edit ({ · with pred := p.word })
    if icmp && p.word ∉ icmpPreds then
      failAt p (.invalidPredicate p.word)
    let t ← liftM Grammar.type
    Grammar.setTy .i1
    addOperand ns (some t)
    Grammar.comma
    addOperand ns (some t) : DraftReader Unit) := by
  have hrest : Built ns n (do
      let t ← liftM Grammar.type
      Grammar.setTy .i1
      addOperand ns (some t)
      Grammar.comma
      addOperand ns (some t) : DraftReader Unit) :=
    type.bind fun t => (setTy _).seq (pair t t)
  exact (expect .ident).bind fun p => seq .edit (ite ((fail p _).seq hrest) hrest)

theorem arith : Built ns n (do
    let t ← liftM Grammar.type
    Grammar.setTy t
    addOperand ns (some t)
    Grammar.comma
    addOperand ns (some t) : DraftReader Unit) :=
  type.bind fun t => (setTy t).seq (pair t t)

theorem cast : Built ns n (do
    let t ← liftM Grammar.type
    addOperand ns (some t)
    Reader.expectWord "to"
    Grammar.setTy (← liftM Grammar.type) : DraftReader Unit) :=
  type.bind fun _ => (operand _).seq ((lift (forward_expectWord "to")).seq
    (type.bind fun u => setTy u))

theorem body (op : Op) : Built ns n (body ns op) := by
  cases op
  case fneg => exact type.bind fun t => (setTy t).seq (operand _)
  case icmp => exact compare true
  case fcmp => exact compare false
  case select =>
    exact type.bind fun t => (setTy t).seq ((operand _).seq (comma.seq (pair t t)))
  case gep =>
    exact type.bind fun t => (setElem t).seq ((setTy _).seq
      (comma.seq ((operand _).seq (.rounds gepIndices))))
  case extractelement => exact vectorType.bind fun x => (setTy _).seq (pair ..)
  case insertelement =>
    exact vectorType.bind fun x => (setTy _).seq ((operand _).seq (comma.seq (pair ..)))
  case shufflevector =>
    exact vectorType.bind fun x => (setTy _).seq ((operand _).seq
      (comma.seq ((operand _).seq (comma.seq (typedOperand _)))))
  case extractvalue =>
    exact type.bind fun t => (operand _).seq ((indices t).bind fun u => setTy u)
  case insertvalue =>
    exact type.bind fun t => (setTy t).seq ((operand _).seq (comma.seq ((typedOperand _).seq
      ((indices t).bind fun u => retype 1 u))))
  case alloca =>
    exact type.bind fun t => (setElem t).seq ((setTy _).seq
      ((accept .comma).bind fun _ => ite (operand _) (pure ())))
  case load =>
    exact type.bind fun t => (setTy t).seq ((setElem t).seq (comma.seq (operand _)))
  case store => exact type.bind fun t => (setElem t).seq (pair ..)
  case atomicrmw =>
    exact (expect .ident).bind fun w => seq .edit (ordering.bind fun o => seq .edit
      (type.bind fun t => (setTy t).seq ((setElem t).seq (pair ..))))
  case cmpxchg =>
    exact ordering.bind fun o => seq .edit (type.bind fun t => (setTy t).seq ((setElem t).seq
      ((operand _).seq (comma.seq (pair ..)))))
  case fence => exact ordering.bind fun o => .edit
  case call => exact callBody
  case phi => exact type.bind fun t => (setTy t).seq (.rounds (phiBody t))
  case br => exact target
  case condbr =>
    exact (operand _).seq (comma.seq (target.seq (comma.seq target)))
  case switch =>
    exact type.bind fun t => (operand _).seq (comma.seq (target.seq ((expect .lbracket).seq
      (.rounds fun i => (switchCases t i).seq ((expect .rbracket).seq (pure ()))))))
  case ret => exact ite (type.bind fun t => operand _) (pure ())
  case unreachable => exact pure ()
  case invalid => exact peek.bind fun t => fail t _
  all_goals first | exact arith | exact cast

theorem flags_go (n : Nat) : Built ns n (flags.go n) := by
  induction n with
  | zero => exact endless
  | succ n ih =>
    exact word "volatile" (seq .edit ih) (word "checked" (seq .edit ih)
      (word "atomic" (ordering.bind fun o => seq .edit ih) (pure ())))

theorem flags : Built ns n flags := .rounds flags_go

theorem metadata_go (n : Nat) : Built ns n (metadata.go n) := by
  induction n with
  | zero => exact endless
  | succ n ih =>
    refine (sees .metadata).bind fun _ =>
      ite ((expect .metadata).behind (takes_expect (by decide)) fun t => ?_) (pure ())
    dsimp only
    split
    · exact (expect .string).bind fun _ => (setMeta _).seq ih
    · exact (expect .string).bind fun _ => (setMeta _).seq ih
    · exact (expect .string).bind fun _ => (setMeta _).seq ih
    · exact (setMeta _).seq ih
    · exact (fail t _).seq ih

theorem metadata : Built ns n metadata := .rounds metadata_go

theorem rest (op : Op) : Built ns n (rest ns op) := flags.seq ((body op).seq metadata)

/-! ### Built readers put nothing back -/

theorem forward_run_bind {r : DraftReader α} {k : α → DraftReader β}
    (hr : ∀ d, (r.run d).Forward n) (hk : ∀ a d, ((k a).run d).Forward n) (d : Draft) :
    ((r >>= k).run d).Forward n := by
  rw [StateT.run_bind]
  exact forward_bind (hr d) fun p => hk p.1 p.2

theorem forward_addOperand (ctx : Option Ty) : ∀ d, ((addOperand ns ctx).run d).Forward n := by
  refine forward_run_bind (fun _ => forward_map _ (forward_value ns ctx).1) fun p => ?_
  refine forward_run_bind (fun _ => forward_pure _) fun g => ?_
  refine forward_run_bind (fun _ => forward_pure _) fun _ d => ?_
  split
  · exact forward_pure _
  · exact forward_pure _

theorem forward_addTarget : ∀ d, ((addTarget ns).run d).Forward n := by
  refine forward_run_bind (fun _ => forward_map _ (forward_expect .ident)) fun t => ?_
  refine forward_run_bind (fun _ => forward_pure _) fun g d => ?_
  dsimp only
  split
  · exact forward_pure _
  · exact forward_run_bind (fun _ => forward_pure _) (fun _ _ => forward_pure _) d

theorem forward {r : DraftReader α} (h : Built ns n r) (d : Draft) : (r.run d).Forward n := by
  induction h generalizing d with
  | pure a => exact forward_pure _
  | lift hr => exact forward_map _ hr
  | step m _ hm _ ihr ihk =>
    rw [StateT.run_bind]
    refine forward_step (ihr d) fun p => ?_
    rcases hm p.1 with he | ⟨he, ht⟩
    · exact .inr (he ▸ ihk p.1 p.2)
    · exact .inl ⟨fun s t h => ht d s p.2 t h, he ▸ ihk p.1 p.2⟩
  | rounds _ ihk => exact forward_rounds fun i => (ihk i d).mono (Nat.min_le_left ..)
  | edit => exact forward_pure _
  | const => exact forward_pure _
  | retype => exact forward_pure _
  | operand ctx => exact forward_addOperand ctx d
  | target => exact forward_addTarget d

end Built

namespace Grammar

open Reader

variable {ns : Names} {inBlock : Bool} {s t : Stream} {d : Draft} {n : Nat}

theorem forward_checkName (start : Token) (op : Op) (d : Draft) :
    (checkName ns start op d).Forward n := by
  have hrest : Forward (do
      if (ns.locals.lookup start.word).isSome || (ns.param? start.word).isSome then
        failAt start (.valueRedefined start.word)
      return d : Reader Draft) n :=
    forward_ite (forward_bind (forward_failAt _ _) fun _ => forward_pure _) (forward_pure _)
  exact forward_ite (forward_bind (forward_failAt _ _) fun _ => hrest) hrest

theorem forward_operation (named : Bool) (start : Token) :
    (operation ns inBlock named start).Forward n := by
  refine forward_bind (forward_expect .ident) fun t => ?_
  dsimp only
  split
  · next op _ =>
    have hrest : Forward (do
        let p ← (rest ns op).run (opened named start op)
        if named then checkName ns start op p.2 else return p.2) n :=
      forward_bind ((Built.rest op).forward _) fun p =>
        forward_ite (forward_checkName _ _ _) (forward_pure _)
    exact forward_ite (forward_bind (forward_failAt _ _) fun _ => hrest) hrest
  · exact forward_failAt t _

theorem forward_instruction : (instruction ns inBlock).Forward n := by
  rw [instruction_eq]
  refine forward_bind forward_peek fun t => forward_bind forward_get fun u =>
    forward_bind forward_get fun v => ?_
  exact forward_ite (forward_bind forward_next fun _ => forward_bind forward_next fun _ =>
    forward_operation _ t) (forward_operation _ t)

theorem length_unnamed_le (s : Stream) : (unnamed s).rest.length ≤ s.rest.length := by
  unfold unnamed
  split
  · exact (s.passes_advance.trans s.advance.passes_advance).length_le
  · exact Nat.le_refl _

theorem length_lt_of_reads_instruction (h : Reader.Reads (instruction ns inBlock) s d t) :
    t.rest.length < s.rest.length := by
  obtain ⟨op, hk, -, -, hrest, -⟩ := reads_operation.mp (reads_instruction.mp h)
  have hlt := Stream.length_advance (s := unnamed s) (by simp [Stream.atEnd, hk])
  have hle := (((Built.rest (n := 0) op).forward _).ok hrest).length_le
  have := length_unnamed_le s
  omega

end Grammar

end RegPressure
