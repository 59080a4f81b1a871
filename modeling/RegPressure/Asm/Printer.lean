import RegPressure.IR.Func

namespace RegPressure.Printer

variable (scope : Option Symbols) (f : Func)

def value (v : Value) : Checked String := f.valueName scope v

def values (vs : List Value) : Checked String :=
  return ", ".intercalate (← vs.mapM (value scope f))

/-- An operand behind its type, if it has one. -/
def typed (v : Value) : Checked String := do
  match ← f.typeOf v with
  | some t => return t.text ++ " " ++ (← value scope f v)
  | none => value scope f v

def typeText (v : Value) : Checked String := return Ty.textOf (← f.typeOf v)

def phiEdges (i : Instr) : Nat → List Value → Checked (List String)
  | _, [] => return []
  | n, v :: rest => do
    let v ← value scope f v
    let b ← f.blockName (← element i.targets n)
    return ("[" ++ v ++ ", " ++ b ++ "]") :: (← phiEdges i (n + 1) rest)

def switchCases (i : Instr) : Nat → List Value → Checked (List String)
  | _, [] => return []
  | n, v :: rest => do
    let v ← value scope f v
    let b ← f.blockName (← element i.targets n)
    return (v ++ ": " ++ b) :: (← switchCases i (n + 1) rest)

/-- What follows the flags of an instruction. -/
def body (i : Instr) : Checked String := do
  let ops := i.operands
  let op (n : Nat) : Checked String := do value scope f (← element ops n)
  let opTy (n : Nat) : Checked String := do typeText f (← element ops n)
  let opTyped (n : Nat) : Checked String := do typed scope f (← element ops n)
  let target (n : Nat) : Checked String := do f.blockName (← element i.targets n)
  let ty := i.ty.text
  let elem := Ty.textOf i.elem
  match i.op with
  | .fneg => return " " ++ ty ++ " " ++ (← op 0)
  | .icmp | .fcmp =>
    return " " ++ i.pred ++ " " ++ (← opTy 0) ++ " " ++ (← op 0) ++ ", " ++ (← op 1)
  | .select => return " " ++ ty ++ " " ++ (← op 0) ++ ", " ++ (← op 1) ++ ", " ++ (← op 2)
  | .gep =>
    let base ← op 0
    let rest ← (ops.drop 1).mapM (typed scope f)
    return " " ++ elem ++ ", " ++ base ++ String.join (rest.map (", " ++ ·))
  | .extractelement | .insertelement | .extractvalue =>
    return " " ++ (← opTy 0) ++ " " ++ (← values scope f ops)
  | .shufflevector =>
    return " " ++ ty ++ " " ++ (← op 0) ++ ", " ++ (← op 1) ++ ", " ++ (← opTyped 2)
  | .insertvalue =>
    let agg ← op 0
    let field ← opTyped 1
    let rest ← (ops.drop 2).mapM (value scope f)
    return " " ++ ty ++ " " ++ agg ++ ", " ++ field ++ String.join (rest.map (", " ++ ·))
  | .alloca =>
    match ops with
    | [] => return " " ++ elem
    | v :: _ => return " " ++ elem ++ ", " ++ (← value scope f v)
  | .load => return " " ++ elem ++ ", " ++ (← op 0)
  | .store => return " " ++ elem ++ " " ++ (← op 0) ++ ", " ++ (← op 1)
  | .atomicrmw =>
    return " " ++ i.rmw ++ " " ++ i.ordering.name ++ " " ++ elem ++ " " ++ (← values scope f ops)
  | .cmpxchg => return " " ++ i.ordering.name ++ " " ++ elem ++ " " ++ (← values scope f ops)
  | .fence => return " " ++ i.ordering.name
  | .call =>
    let callee ← if i.callee ≠ "" then pure ("@" ++ i.callee) else op 0
    let args ← i.callArgs.mapM (typed scope f)
    return " " ++ ty ++ " " ++ callee ++ "(" ++ ", ".intercalate args ++ ")"
  | .phi => return " " ++ ty ++ " " ++ ", ".intercalate (← phiEdges scope f i 0 ops)
  | .br => return " " ++ (← target 0)
  | .condbr => return " " ++ (← op 0) ++ ", " ++ (← target 0) ++ ", " ++ (← target 1)
  | .switch =>
    let head := " " ++ (← opTy 0) ++ " " ++ (← op 0) ++ ", " ++ (← target 0)
    return head ++ " [" ++ ", ".intercalate (← switchCases scope f i 1 (ops.drop 1)) ++ "]"
  | .ret =>
    match ops with
    | [] => return ""
    | v :: _ => return " " ++ (← typeText f v) ++ " " ++ (← value scope f v)
  | _ =>
    if i.op.isBinary then return " " ++ ty ++ " " ++ (← op 0) ++ ", " ++ (← op 1)
    else if i.op.isCast then return " " ++ (← opTy 0) ++ " " ++ (← op 0) ++ " to " ++ ty
    else return ""

def accessMeta (m : AccessMeta) : String :=
  (if m.tbaa ≠ [] then " !tbaa " ++ Text.quoteBytes m.tbaa else "") ++
  (if m.scope ≠ [] then " !scope " ++ Text.quoteBytes m.scope else "") ++
  (if m.noAlias ≠ [] then " !noalias " ++ Text.quoteBytes (List.intercalate [44] m.noAlias)
    else "") ++
  (if m.invariant then " !invariant" else "")

/-- One instruction, without indentation and line end. -/
def instr (id : Int) (i : Instr) : Checked String := do
  let result := if i.hasResult then f.instrLabel id ++ " = " else ""
  let atomic := i.ordering ≠ .none && (i.op = .load || i.op = .store)
  let flags := (if i.volatile then " volatile" else "") ++ (if i.checked then " checked" else "") ++
    (if atomic then " atomic " ++ i.ordering.name else "")
  return result ++ i.op.name ++ flags ++ (← body scope f i) ++ accessMeta i.access

def instrAt (id : Int) : Checked String := do instr scope f id (← f.instr id)

def block (b : Int) (blk : Block) : Checked String := do
  let lines ← blk.instrs.mapM (instrAt scope f)
  return f.blockLabel b ++ ":\n" ++ String.join (lines.map ("  " ++ · ++ "\n"))

def func : Checked String := do
  let ps ← f.params.mapIdxM fun n p => do
    return (← value scope f (.arg n)) ++ ": " ++ Ty.textOf p.ty
  let ret := if f.ret.isVoid then "" else " -> " ++ f.ret.text
  let blocks ← f.blocks.toList.mapIdxM fun b blk => block scope f b blk
  return "func @" ++ f.name ++ "(" ++ ", ".intercalate ps ++ ")" ++ ret ++ " \x7b\n" ++
    String.join blocks ++ "\x7d\n"

def global (g : Global) : String :=
  "global @" ++ g.name ++ " : " ++ Ty.textOf g.ty ++ (if g.isConst then " const" else "") ++ "\n"

def decl (d : Decl) : String :=
  "declare @" ++ d.name ++ "(" ++ ", ".intercalate (d.params.map Ty.textOf) ++ ")" ++
    (if Ty.voidOrNone d.ret then "" else " -> " ++ Ty.textOf d.ret) ++
    (if d.readNone then " readnone" else "") ++ (if d.readOnly then " readonly" else "") ++ "\n"

/-- Globals, declarations and functions; an empty line stands before each function that is not
first of all. -/
def module (m : Module) : Checked String := do
  let s := m.symbols
  let head := String.join (s.globals.map global) ++ String.join (s.decls.map decl)
  let funcs ← m.funcs.mapM (func (some s))
  let gap := if s.globals.isEmpty && s.decls.isEmpty then "" else "\n"
  return head ++ match funcs with
    | [] => ""
    | t :: ts => gap ++ t ++ String.join (ts.map ("\n" ++ ·))

end RegPressure.Printer
