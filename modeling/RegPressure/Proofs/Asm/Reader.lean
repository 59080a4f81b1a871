import RegPressure.Asm.InstrGrammar
import Mathlib.Tactic.Common

namespace RegPressure

variable {α β : Type} {a c : α} {b : β} {s t : Stream}

namespace Reader

/-- The reader succeeds on `s` with the answer `a` and leaves `t`. -/
def Reads (r : Reader α) (s : Stream) (a : α) (t : Stream) : Prop := r.run s = .ok a t

section
variable {r : Reader α} {k : α → Reader β}

@[simp] theorem reads_bind : Reads (r >>= k) s b t ↔ ∃ a u, Reads r s a u ∧ Reads (k a) u b t := by
  simp only [Reads, EStateM.run, Bind.bind, EStateM.bind]
  cases r s with
  | error e u => simp
  | ok a u => simp

@[simp] theorem reads_pure : Reads (pure a) s c t ↔ a = c ∧ s = t := by
  simp [Reads, EStateM.run, pure, EStateM.pure]

@[simp] theorem reads_map {f : α → β} : Reads (f <$> r) s b t ↔ ∃ a, Reads r s a t ∧ f a = b := by
  simp only [Reads, EStateM.run, Functor.map, EStateM.map]
  cases r s with
  | error e u => simp
  | ok a u => simp [and_comm]

@[simp] theorem reads_ite {p : Prop} [Decidable p] {q : Reader α} :
    Reads (if p then r else q) s a t ↔ (p ∧ Reads r s a t) ∨ (¬p ∧ Reads q s a t) := by
  split <;> simp [*]

@[simp] theorem reads_get {u : Stream} : Reads get s u t ↔ s = u ∧ s = t := by
  change EStateM.Result.ok s s = .ok u t ↔ _
  simp

@[simp] theorem reads_throw {e : ReadError} : Reads (throw e : Reader α) s a t ↔ False := by
  change EStateM.Result.error e s = .ok a t ↔ _
  simp

@[simp] theorem reads_failAt {x : Token} {e : SourceError} :
    Reads (failAt x e : Reader α) s a t ↔ False := by
  simp [failAt]

end

section
variable {x : Token} {k : TokenKind} {w : String} {p : Bool}

@[simp] theorem reads_peek : Reads peek s x t ↔ s.cur = x ∧ s = t := by
  simp [peek, and_comm]

@[simp] theorem reads_next : Reads next s x t ↔ s.cur = x ∧ s.advance = t := by
  change EStateM.Result.ok s.cur s.advance = .ok x t ↔ _
  simp

@[simp] theorem reads_sees : Reads (sees k) s p t ↔ s.sees k = p ∧ s = t := by
  simp [sees, and_comm]

@[simp] theorem reads_atWord : Reads (atWord w) s p t ↔ s.atWord w = p ∧ s = t := by
  simp [atWord, and_comm]

@[simp] theorem reads_expect :
    Reads (expect k) s x t ↔ s.cur.kind = k ∧ s.cur = x ∧ s.advance = t := by
  by_cases h : s.cur.kind = k <;> simp [expect, h]

@[simp] theorem reads_expectWord {y : Unit} :
    Reads (expectWord w) s y t ↔ s.atWord w = true ∧ s.advance = t := by
  cases h : s.atWord w <;> simp [expectWord, h]

@[simp] theorem reads_accept_true :
    Reads (accept k) s true t ↔ s.sees k = true ∧ s.advance = t := by
  cases h : s.sees k <;> simp [accept, h]

@[simp] theorem reads_accept_false :
    Reads (accept k) s false t ↔ s.sees k = false ∧ s = t := by
  cases h : s.sees k <;> simp [accept, h]

@[simp] theorem reads_acceptWord_true :
    Reads (acceptWord w) s true t ↔ s.atWord w = true ∧ s.advance = t := by
  cases h : s.atWord w <;> simp [acceptWord, h]

@[simp] theorem reads_acceptWord_false :
    Reads (acceptWord w) s false t ↔ s.atWord w = false ∧ s = t := by
  cases h : s.atWord w <;> simp [acceptWord, h]

end

end Reader

namespace DraftReader

/-- The reader succeeds on `s`, takes the draft `d` to `e` and leaves `t`. -/
def Reads (r : DraftReader α) (d : Draft) (s : Stream) (a : α) (e : Draft) (t : Stream) : Prop :=
  Reader.Reads (r.run d) s (a, e) t

variable {d e : Draft} {r : DraftReader α} {k : α → DraftReader β}

@[simp] theorem reads_bind :
    Reads (r >>= k) d s b e t ↔ ∃ a d' u, Reads r d s a d' u ∧ Reads (k a) d' u b e t := by
  simp [Reads, StateT.run_bind]

@[simp] theorem reads_pure : Reads (pure a) d s c e t ↔ a = c ∧ d = e ∧ s = t := by
  simp [Reads, and_assoc]

@[simp] theorem reads_map {f : α → β} :
    Reads (f <$> r) d s b e t ↔ ∃ a, Reads r d s a e t ∧ f a = b := by
  rw [← bind_pure_comp, reads_bind]
  simp

@[simp] theorem reads_ite {p : Prop} [Decidable p] {q : DraftReader α} :
    Reads (if p then r else q) d s a e t ↔ (p ∧ Reads r d s a e t) ∨ (¬p ∧ Reads q d s a e t) := by
  split <;> simp [*]

@[simp] theorem reads_lift {r : Reader α} :
    Reads (liftM r) d s a e t ↔ Reader.Reads r s a t ∧ d = e := by
  simp [Reads]

@[simp] theorem reads_throw {x : ReadError} :
    Reads (throw x : DraftReader α) d s a e t ↔ False := by
  simp [Reads]

@[simp] theorem reads_stream {u : Stream} :
    Reads (getThe Stream : DraftReader Stream) d s u e t ↔ s = u ∧ d = e ∧ s = t := by
  change Reads (liftM (get : Reader Stream)) d s u e t ↔ _
  rw [reads_lift, Reader.reads_get, and_assoc, and_comm (a := s = t)]

@[simp] theorem reads_stream' {u : Stream} :
    Reads (@MonadState.get Stream DraftReader (instMonadStateOfMonadStateOf _ _)) d s u e t ↔
      s = u ∧ d = e ∧ s = t := reads_stream

@[simp] theorem reads_get {g : Draft} :
    Reads (get : DraftReader Draft) d s g e t ↔ d = g ∧ d = e ∧ s = t := by
  simp [Reads, and_assoc]

@[simp] theorem reads_modify {change : Draft → Draft} {y : PUnit} :
    Reads (modify change : DraftReader PUnit) d s y e t ↔ change d = e ∧ s = t := by
  simp [Reads]

end DraftReader

/-- The draft with one more operand; `later` is the name to look it up by, if it is still open. -/
def Draft.push (d : Draft) (v : Value) (later : Option Token) : Draft where
  instr := { d.instr with operands := d.instr.operands ++ [v] }
  pending := d.pending ++ later.toList.map fun t => ⟨d.instr.operands.length, t.word, t, false⟩

def Draft.aim (ns : Names) (d : Draft) (x : Token) : Draft where
  instr :=
    { d.instr with targets := d.instr.targets ++ [(ns.blocks.lookup x.word).getD (-1)] }
  pending := d.pending ++
    if (ns.blocks.lookup x.word).isSome then []
    else [⟨d.instr.targets.length, x.word, x, true⟩]

def Draft.edit (d : Draft) (change : Instr → Instr) : Draft := { d with instr := change d.instr }

namespace Grammar

open DraftReader

variable {d e : Draft} {ns : Names} {y : Unit}

@[simp] theorem reads_edit {change : Instr → Instr} :
    Reads (edit change) d s y e t ↔ d.edit change = e ∧ s = t := by
  simp [edit, Draft.edit]

@[simp] theorem reads_setTy {ty : Ty} :
    Reads (setTy ty) d s y e t ↔ d.edit ({ · with ty }) = e ∧ s = t := by
  simp [setTy]

@[simp] theorem reads_setElem {ty : Ty} :
    Reads (setElem ty) d s y e t ↔ d.edit ({ · with elem := some ty }) = e ∧ s = t := by
  simp [setElem]

@[simp] theorem reads_comma :
    Reads comma d s y e t ↔ s.cur.kind = .comma ∧ s.advance = t ∧ d = e := by
  simp [comma, and_assoc]

@[simp] theorem reads_pushOperand {v : Value} :
    Reads (pushOperand v) d s y e t ↔ d.push v none = e ∧ s = t := by
  simp [pushOperand, Draft.edit, Draft.push]

theorem reads_addOperand {ctx : Option Ty} :
    Reads (addOperand ns ctx) d s y e t ↔
      ∃ v later, Reader.Reads (value ns ctx) s (v, later) t ∧ d.push v later = e := by
  simp only [addOperand, DraftReader.reads_bind, reads_lift, DraftReader.reads_get, reads_pushOperand]
  constructor
  · rintro ⟨⟨v, later⟩, _, u, ⟨hv, rfl⟩, _, _, _, ⟨rfl, rfl, rfl⟩, _, _, _, ⟨rfl, rfl⟩, h⟩
    refine ⟨v, later, ?_⟩
    cases later with
    | none =>
      obtain ⟨-, rfl, rfl⟩ := DraftReader.reads_pure.mp h
      exact ⟨hv, rfl⟩
    | some x =>
      obtain ⟨rfl, rfl⟩ := reads_modify.mp h
      refine ⟨hv, by simp [Draft.push]⟩
  · rintro ⟨v, later, hv, rfl⟩
    refine ⟨(v, later), d, t, ⟨hv, rfl⟩, _, _, _, ⟨rfl, rfl, rfl⟩, (), _, _, ⟨rfl, rfl⟩, ?_⟩
    cases later <;> simp [Draft.push]

theorem reads_addTypedOperand {ctx : Option Ty} :
    Reads (addTypedOperand ns ctx) d s y e t ↔
      (startsType s.cur = true ∧
        ∃ ty u, Reader.Reads type s ty u ∧ Reads (addOperand ns (some ty)) d u y e t) ∨
      (startsType s.cur = false ∧ Reads (addOperand ns ctx) d s y e t) := by
  cases h : startsType s.cur <;> simp [addTypedOperand, h]

theorem reads_addTarget :
    Reads (addTarget ns) d s y e t ↔
      s.cur.kind = .ident ∧ d.aim ns s.cur = e ∧ s.advance = t := by
  cases h : ns.blocks.lookup s.cur.word <;>
    simp [addTarget, h, Draft.edit, Draft.aim, and_comm, and_left_comm]

/-- All that stands behind the operation of an instruction. -/
def rest (ns : Names) (op : Op) : DraftReader Unit := do
  flags
  body ns op
  metadata

def named (s : Stream) : Bool := s.sees .local && s.ahead.kind = .assign

def unnamed (s : Stream) : Stream := if named s then s.advance.advance else s

def opened (named : Bool) (start : Token) (op : Op) : Draft where
  instr := { name := if named then start.word else "", op, pos := ⟨start.line, start.column⟩ }

def checkName (ns : Names) (start : Token) (op : Op) (d : Draft) : Reader Draft := do
  if d.instr.ty.isVoid then Reader.failAt start (.noResult op)
  if (ns.locals.lookup start.word).isSome || (ns.param? start.word).isSome then
    Reader.failAt start (.valueRedefined start.word)
  return d

theorem reads_checkName {start : Token} {op : Op} :
    Reader.Reads (checkName ns start op d) s e t ↔
      (d.instr.ty.isVoid = false ∧ ns.locals.lookup start.word = none ∧
        ns.param? start.word = none) ∧ d = e ∧ s = t := by
  cases hv : d.instr.ty.isVoid <;> cases hl : ns.locals.lookup start.word <;>
    cases hp : ns.param? start.word <;> simp [checkName, hv, hl, hp]

def operation (ns : Names) (inBlock named : Bool) (start : Token) : Reader Draft := do
  let opToken ← Reader.expect .ident
  let some op := Op.ofName? opToken.word
    | Reader.failAt opToken (.unknownInstr opToken.word)
  if !inBlock then Reader.failAt start .outsideBlock
  let ((), d) ← (rest ns op).run (opened named start op)
  if named then checkName ns start op d else return d

theorem instruction_eq (ns : Names) (inBlock : Bool) : instruction ns inBlock = (do
    let start ← Reader.peek
    let named := (← get).sees .local && (← get).ahead.kind = .assign
    if named then
      let _ ← Reader.next
      let _ ← Reader.next
    operation ns inBlock named start) := by
  unfold instruction
  congr 1; funext start
  congr 1; funext u
  congr 1; funext v
  cases u.sees .local && v.ahead.kind = .assign <;> rfl

theorem reads_operation {inBlock named : Bool} {start : Token} :
    Reader.Reads (operation ns inBlock named start) s d t ↔
      ∃ op, s.cur.kind = .ident ∧ Op.ofName? s.cur.word = some op ∧ inBlock = true ∧
        Reads (rest ns op) (opened named start op) s.advance () d t ∧
        (named = true → d.instr.ty.isVoid = false ∧ ns.locals.lookup start.word = none ∧
          ns.param? start.word = none) := by
  have hrun (op : Op) (d e : Draft) (u v : Stream) :
      Reader.Reads ((rest ns op).run d) u ((), e) v ↔ Reads (rest ns op) d u () e v := Iff.rfl
  cases hop : Op.ofName? s.cur.word with
  | none => simp [operation, hop]
  | some op =>
    cases inBlock with
    | false => simp [operation, hop]
    | true =>
      cases named with
      | false => simp [operation, hop, hrun]
      | true =>
        simp [operation, hop, hrun, reads_checkName]

theorem reads_instruction {inBlock : Bool} :
    Reader.Reads (instruction ns inBlock) s d t ↔
      Reader.Reads (operation ns inBlock (named s) s.cur) (unnamed s) d t := by
  have hrest : Reader.Reads (instruction ns inBlock) s d t ↔
      Reader.Reads (do
        if named s then
          let _ ← Reader.next
          let _ ← Reader.next
        operation ns inBlock (named s) s.cur) s d t := by
    rw [instruction_eq, Reader.reads_bind]
    simp only [Reader.reads_bind, Reader.reads_peek, Reader.reads_get]
    constructor
    · rintro ⟨_, _, ⟨rfl, rfl⟩, _, _, ⟨rfl, rfl⟩, _, _, ⟨rfl, rfl⟩, h⟩
      exact h
    · exact fun h => ⟨_, _, ⟨rfl, rfl⟩, _, _, ⟨rfl, rfl⟩, _, _, ⟨rfl, rfl⟩, h⟩
  rw [hrest]
  cases hn : named s <;> simp [unnamed, hn]

end Grammar

end RegPressure
