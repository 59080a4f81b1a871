import RegPressure.IR.Func
import RegPressure.Ssa.Select

namespace RegPressure.Symbol

/-- What stands for a punctuation mark: brackets around type arguments become dollar signs, path
separators become points, and decoration goes. -/
def punctuation? (c : Char) : Option (List Char) :=
  match c with
  | '(' | ')' | '*' | ']' | ' ' | '\x7b' | '\x7d' => some []
  | '/' => some ['.']
  | '[' | ',' => some ['$']
  | _ => none

def isLetter (c : Char) : Bool := c.isAlpha || c = '_' || c = '.' || c = '$'

def spell (s : String) : List Char :=
  let cs := s.toList.flatMap fun c => (punctuation? c).getD [c]
  let cs' := cs.map fun c => if isLetter c || c.isDigit then c else '_'
  if (cs.head?.map Char.isDigit).getD false then '_' :: cs' else cs'

def legal (s : String) : String :=
  let cs := spell s
  if cs.isEmpty then "_" else String.ofList cs

end RegPressure.Symbol

namespace RegPressure.Ssa

/-- The place of an operand that is to be filled in when the numbered value is recorded. -/
structure Fixup where
  instr : Nat
  operand : Nat
  value : Nat
  deriving DecidableEq, Repr, Inhabited

/-- A procedure in work. `types` has the type of every numbered value, and `values` what has been
recorded so far; globals and callees are those of the whole module, by first use. -/
structure Draft where
  types : Array SourceTy
  ret : Ty
  values : Array (Option Value) := #[]
  body : Array Instr := #[]
  fixups : List Fixup := []
  globals : List Global := []
  callees : List Decl := []
  deriving Repr, Inhabited

def Draft.recorded (d : Draft) (n : Nat) : Except Nat Value :=
  match (d.values[n]?).join with
  | some v => .ok v
  | none => .error n

abbrev Lowering := StateM Draft

/-- Where a step stands. -/
structure Site where
  block : Int
  pos : Pos := {}
  deriving DecidableEq, Repr, Inhabited

namespace Lowering

def useGlobal (name : String) (ty : Ty) (isConst : Bool) : Lowering Value := do
  let d ← get
  match d.globals.findIdx? (·.name = name) with
  | some i => return .global i
  | none =>
    let made : Global := ⟨name, some ty, isConst⟩
    set { d with globals := d.globals ++ [made] }
    return .global d.globals.length

def useCallee (callee : Decl) : Lowering Unit :=
  modify fun d =>
    if d.callees.any (·.name = callee.name) then d
    else { d with callees := d.callees ++ [callee] }

def valueOf : Operand → Lowering (Except Nat Value)
  | .value n => return (← get).recorded n
  | .const t l => return .ok (l.value t)
  | .global name t => .ok <$> useGlobal (Symbol.legal name) t.pointee.lower false
  | .func name => .ok <$> useGlobal (Symbol.legal name) .ptr true
  | .builtin name => .ok <$> useGlobal ("go.builtin." ++ name) .ptr true

def typeOf : Operand → Lowering SourceTy
  | .value n => return (← get).types.getD n .invalid
  | .const t _ | .global _ t => return t
  | .func _ | .builtin _ => return .func

def placeholder (x : Operand) : Lowering Value := return .undef (some (← typeOf x).lower)

def operandsOf (sofar : List Value) : List Operand → Lowering (List Value × List (Nat × Nat))
  | [] => return (sofar, [])
  | x :: xs => do
    match ← valueOf x with
    | .ok v => operandsOf (sofar ++ [v]) xs
    | .error n =>
      let (ops, late) ← operandsOf (sofar ++ [← placeholder x]) xs
      return (ops, (sofar.length, n) :: late)

/-- Drafts an instruction at the end of its block and gives its number. Source operands come behind
those that it has already. -/
def add (site : Site) (i : Instr) (xs : List Operand) : Lowering Nat := do
  let (operands, late) ← operandsOf i.operands xs
  let d ← get
  let id := d.body.size
  set { d with
    body := d.body.push { i with home := some site.block, pos := site.pos, operands }
    fixups := d.fixups ++ late.map fun (k, n) => Fixup.mk id k n }
  return id

/-- One more operand for a drafted instruction. -/
def append (id : Nat) (v : Value) : Lowering Unit :=
  modify fun d =>
    { d with body := d.body.modify id fun i => { i with operands := i.operands ++ [v] } }

def appendIndex (id : Nat) (x : Operand) : Lowering Unit := do
  match ← valueOf x with
  | .ok v => append id v
  | .error n =>
    modify fun d =>
      { d with fixups := d.fixups ++ [⟨id, (d.body.getD id default).operands.length, n⟩] }
    append id (← placeholder x)

def addWith (site : Site) (i : Instr) (x : Operand) (n : Int64) : Lowering Nat := do
  let id ← add site i [x]
  append id (.int (some i.ty) n)
  return id

def callOut (site : Site) (name : String) (ret : Ty) (xs : List Operand) : Lowering Nat := do
  let params ← xs.mapM fun x => return some (← typeOf x).lower
  let callee := "go." ++ name
  useCallee ⟨callee, params, some ret, pureOperations.contains name, false⟩
  add site { op := .call, ty := ret, callee } xs

def define (name : String) (id : Option Nat) : Lowering Unit :=
  modify fun d =>
    { d with
      values := d.values.push (id.map fun k => .instr k)
      body :=
        match id with
        | some k =>
          if name = "" then d.body
          else d.body.modify k ({ · with name := Symbol.legal name })
        | none => d.body }

end Lowering

namespace Draft

def putOperand (body : Array Instr) (x : Fixup) (v : Value) : Checked (Array Instr) := do
  let i ← cell body x.instr
  discard <| element i.operands x.operand
  return body.modify x.instr fun i => { i with operands := i.operands.set x.operand v }

/-- Fills in one place after the other, up to one whose value nothing defines. -/
def fill (d : Draft) : List Fixup → Array Instr → Checked (Except Nat (Array Instr))
  | [], body => return .ok body
  | x :: xs, body =>
    match d.recorded x.value with
    | .ok v => do d.fill xs (← putOperand body x v)
    | .error n => return .error n

def membersOf (body : Array Instr) (b : Int) : List Int :=
  (body.toList.zipIdx.filter (·.1.home = some b)).map fun x => (x.2 : Int)

/-- The blocks and instructions of a finished draft. -/
def build (body : Array Instr) (blocks : Nat) (f : Func) : Func :=
  let block (b : Nat) : Block := { name := "b" ++ toString b, instrs := membersOf body b }
  { f with
    entry := if blocks = 0 then none else some 0
    instrs := body
    blocks := ((List.range blocks).map block).toArray }

end Draft

end RegPressure.Ssa
