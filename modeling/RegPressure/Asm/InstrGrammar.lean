import RegPressure.Asm.Grammar
import RegPressure.IR.Func

namespace RegPressure

/-- A reference to fill in later: operand or target number `index` of an instruction. -/
structure OpenRef where
  index : Nat
  name : String
  token : Token
  isBlock : Bool
  deriving DecidableEq, Repr

/-- The names in reach of an instruction. -/
structure Names where
  symbols : Symbols
  ret : Ty
  params : List Param
  locals : List (String × Int) := []
  blocks : List (String × Int) := []

def Names.param? (ns : Names) (name : String) : Option Nat :=
  ns.params.findIdx? (·.name = name)

/-- An instruction in the making. -/
structure Draft where
  instr : Instr
  pending : List OpenRef := []

abbrev DraftReader := StateT Draft Reader

namespace Grammar

/-- An operand, or the name that it will have to be looked up by. -/
def value (ns : Names) (ctx : Option Ty) : Reader (Value × Option Token) := do
  let t ← Reader.next
  let known (v : Value) : Reader (Value × Option Token) := return (v, none)
  match t.kind with
  | .local =>
    match ns.param? t.word with
    | some i => known (.arg i)
    | none =>
      match ns.locals.lookup t.word with
      | some id => known (.instr id)
      | none => return (.instr (-1), some t)
  | .global =>
    match ns.symbols.globalIndex? t.word with
    | some i => known (.global i)
    | none => Reader.failAt t (.undefinedGlobal t.word)
  | .int =>
    let n := (Decimal.word? t.lexeme).getD 0
    match ctx with
    | some (.float b) => known (.float (some (.float b)) (.ofInt n.toInt))
    | _ => known (.int ctx n)
  | .float =>
    let x := (Binary64.decimal? t.lexeme).getD .zero
    known (.float (some (ctx.filter (·.isFloat) |>.getD .f64)) x)
  | .string => known (.str t.lexeme)
  | .ident =>
    match t.word with
    | "true" => known (.int (some .i1) 1)
    | "false" => known (.int (some .i1) 0)
    | "null" => known .null
    | "undef" => known (.undef (some (ctx.getD .i64)))
    | _ => Reader.failAt t (.expectedValue t)
  | _ => Reader.failAt t (.expectedValue t)

def edit (change : Instr → Instr) : DraftReader Unit :=
  modify fun d => { d with instr := change d.instr }

def setTy (t : Ty) : DraftReader Unit := edit ({ · with ty := t })

def setElem (t : Ty) : DraftReader Unit := edit ({ · with elem := some t })

def comma : DraftReader Unit := do let _ ← Reader.expect .comma

def pushOperand (v : Value) : DraftReader Unit :=
  edit fun i => { i with operands := i.operands ++ [v] }

def addOperand (ns : Names) (ctx : Option Ty) : DraftReader Unit := do
  let (v, later) ← value ns ctx
  let index := (← get).instr.operands.length
  pushOperand v
  match later with
  | some t =>
    modify fun d => { d with pending := d.pending ++ [⟨index, t.word, t, false⟩] }
  | none => return

def addTypedOperand (ns : Names) (ctx : Option Ty) : DraftReader Unit := do
  if startsType (← Reader.peek) then addOperand ns (some (← type)) else addOperand ns ctx

def addTarget (ns : Names) : DraftReader Unit := do
  let t ← Reader.expect .ident
  let index := (← get).instr.targets.length
  let push (b : Int) := edit fun i => { i with targets := i.targets ++ [b] }
  match ns.blocks.lookup t.word with
  | some b => push b
  | none =>
    push (-1)
    modify fun d => { d with pending := d.pending ++ [⟨index, t.word, t, true⟩] }

def flags : DraftReader Unit := do
  go ((← getThe Stream).rest.length + 1)
where
  go : Nat → DraftReader Unit
    | 0 => throw ReadError.endless
    | n + 1 => do
      if ← Reader.acceptWord "volatile" then
        edit ({ · with volatile := true })
        go n
      else if ← Reader.acceptWord "checked" then
        edit ({ · with checked := true })
        go n
      else if ← Reader.acceptWord "atomic" then
        let o ← ordering
        edit ({ · with ordering := o })
        go n

def setMeta (change : AccessMeta → AccessMeta) : DraftReader Unit :=
  edit fun i => { i with access := change i.access }

def scopes (s : Bytes) : List Bytes := ((s.split 44).map Bytes.trim).filter (· ≠ [])

def metadata : DraftReader Unit := do
  go ((← getThe Stream).rest.length + 1)
where
  go : Nat → DraftReader Unit
    | 0 => throw ReadError.endless
    | n + 1 => do
      if ← Reader.sees .metadata then
        let t ← Reader.expect .metadata
        match t.word with
        | "tbaa" =>
          let s ← Reader.expect .string
          setMeta ({ · with tbaa := s.lexeme })
        | "scope" =>
          let s ← Reader.expect .string
          setMeta ({ · with scope := s.lexeme })
        | "noalias" =>
          let s ← Reader.expect .string
          setMeta fun m => { m with noAlias := m.noAlias ++ scopes s.lexeme }
        | "invariant" => setMeta ({ · with invariant := true })
        | _ => Reader.failAt t (.unknownMetadata t)
        go n

def part? (t : Ty) (i : Int) : Option Ty :=
  match t with
  | .struct ts => if 0 ≤ i then ts[i.toNat]? else none
  | .array n elem => if 0 ≤ i && i < n then some elem else none
  | _ => none

def indices (t : Ty) : DraftReader Ty := do
  go ((← getThe Stream).rest.length + 1) t
where
  go : Nat → Ty → DraftReader Ty
    | 0, _ => throw ReadError.endless
    | n + 1, t => do
      if !(← Reader.accept .comma) then return t
      let tok ← Reader.expect .int
      let i := count tok
      pushOperand (.int (some .i32) (.ofInt i))
      match part? t i with
      | some u => go n u
      | none => Reader.failAt tok (.indexRange i t)

def retype (t : Ty) : Value → Value
  | .int none n => if t.isFloat then .float (some t) (.ofInt n.toInt) else .int (some t) n
  | v => v

def callBody (ns : Names) : DraftReader Unit := do
  setTy (← type)
  let t ← Reader.peek
  let params : List (Option Ty) ←
    match t.kind with
    | .global =>
      let _ ← Reader.next
      edit ({ · with callee := t.word })
      pure (((ns.symbols.decl? t.word).map (·.params)).getD [])
    | .local =>
      addOperand ns (some .ptr)
      pure []
    | _ => Reader.failAt t (.expectedCallee t)
  let _ ← Reader.expect .lparen
  args params ((← getThe Stream).rest.length + 1)
  let _ ← Reader.expect .rparen
where
  args (params : List (Option Ty)) : Nat → DraftReader Unit
    | 0 => throw ReadError.endless
    | n + 1 => do
      if ← Reader.sees .rparen then return
      addTypedOperand ns (params.headD (some .i64))
      if !(← Reader.sees .rparen) then comma
      args params.tail n

def phiBody (ns : Names) (t : Ty) : Nat → DraftReader Unit
  | 0 => throw ReadError.endless
  | n + 1 => do
    let _ ← Reader.expect .lbracket
    addOperand ns (some t)
    comma
    addTarget ns
    let _ ← Reader.expect .rbracket
    if ← Reader.accept .comma then phiBody ns t n

def switchCases (ns : Names) (t : Ty) : Nat → DraftReader Unit
  | 0 => throw ReadError.endless
  | n + 1 => do
    if ← Reader.sees .rbracket then return
    addOperand ns (some t)
    let _ ← Reader.expect .colon
    addTarget ns
    let _ ← Reader.accept .comma
    switchCases ns t n

def gepIndices (ns : Names) : Nat → DraftReader Unit
  | 0 => throw ReadError.endless
  | n + 1 => do
    if ← Reader.accept .comma then
      addTypedOperand ns (some .i64)
      gepIndices ns n

/-- What follows the flags of an instruction, up to its metadata. -/
def body (ns : Names) (op : Op) : DraftReader Unit := do
  let operand (t : Ty) := addOperand ns (some t)
  match op with
  | .fneg =>
    let t ← type
    setTy t
    operand t
  | .icmp | .fcmp =>
    let p ← Reader.expect .ident
    edit ({ · with pred := p.word })
    if op = .icmp && p.word ∉ icmpPreds then
      Reader.failAt p (.invalidPredicate p.word)
    let t ← type
    setTy .i1
    operand t
    comma
    operand t
  | .select =>
    let t ← type
    setTy t
    operand .i1
    comma
    operand t
    comma
    operand t
  | .gep =>
    setElem (← type)
    setTy .ptr
    comma
    operand .ptr
    gepIndices ns ((← getThe Stream).rest.length + 1)
  | .extractelement =>
    let (n, elem) ← vectorType
    setTy elem
    operand (.vector n elem)
    comma
    operand .i32
  | .insertelement =>
    let (n, elem) ← vectorType
    setTy (.vector n elem)
    operand (.vector n elem)
    comma
    operand elem
    comma
    operand .i32
  | .shufflevector =>
    let (n, elem) ← vectorType
    setTy (.vector n elem)
    operand (.vector n elem)
    comma
    operand (.vector n elem)
    comma
    addTypedOperand ns (some .i32)
  | .extractvalue =>
    let t ← type
    operand t
    setTy (← indices t)
  | .insertvalue =>
    let t ← type
    setTy t
    operand t
    comma
    addTypedOperand ns none
    let field ← indices t
    edit fun i => { i with operands := i.operands.modify 1 (retype field) }
  | .alloca =>
    setElem (← type)
    setTy .ptr
    if ← Reader.accept .comma then operand .i64
  | .load =>
    let t ← type
    setTy t
    setElem t
    comma
    operand .ptr
  | .store =>
    let t ← type
    setElem t
    operand t
    comma
    operand .ptr
  | .atomicrmw =>
    let w ← Reader.expect .ident
    edit ({ · with rmw := w.word })
    let o ← ordering
    edit ({ · with ordering := o })
    let t ← type
    setTy t
    setElem t
    operand .ptr
    comma
    operand t
  | .cmpxchg =>
    let o ← ordering
    edit ({ · with ordering := o })
    let t ← type
    setTy t
    setElem t
    operand .ptr
    comma
    operand t
    comma
    operand t
  | .fence =>
    let o ← ordering
    edit ({ · with ordering := o })
  | .call => callBody ns
  | .phi =>
    let t ← type
    setTy t
    phiBody ns t ((← getThe Stream).rest.length + 1)
  | .br => addTarget ns
  | .condbr =>
    operand .i1
    comma
    addTarget ns
    comma
    addTarget ns
  | .switch =>
    let t ← type
    operand t
    comma
    addTarget ns
    let _ ← Reader.expect .lbracket
    switchCases ns t ((← getThe Stream).rest.length + 1)
    let _ ← Reader.expect .rbracket
  | .ret => if !ns.ret.isVoid then operand (← type)
  | .unreachable => return
  | _ =>
    if op.isBinary then
      let t ← type
      setTy t
      operand t
      comma
      operand t
    else if op.isCast then
      let t ← type
      operand t
      Reader.expectWord "to"
      setTy (← type)
    else
      let t ← Reader.peek
      Reader.failAt t (.unsupportedInstr op)

/-- One instruction; `inBlock` tells whether a label came before it. -/
def instruction (ns : Names) (inBlock : Bool) : Reader Draft := do
  let start ← Reader.peek
  let named := (← get).sees .local && (← get).ahead.kind = .assign
  let name := if named then start.word else ""
  if named then
    let _ ← Reader.next
    let _ ← Reader.next
  let opToken ← Reader.expect .ident
  let some op := Op.ofName? opToken.word
    | Reader.failAt opToken (.unknownInstr opToken.word)
  if !inBlock then Reader.failAt start .outsideBlock
  let first : Draft := { instr := { name, op, pos := ⟨start.line, start.column⟩ } }
  let ((), draft) ← (do flags; body ns op; metadata : DraftReader Unit).run first
  if named then
    if draft.instr.ty.isVoid then Reader.failAt start (.noResult op)
    if (ns.locals.lookup name).isSome || (ns.param? name).isSome then
      Reader.failAt start (.valueRedefined name)
  return draft

end Grammar

end RegPressure
