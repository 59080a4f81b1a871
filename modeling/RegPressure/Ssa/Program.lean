import RegPressure.IR.Instr
import RegPressure.Ssa.SourceTy

namespace RegPressure.Ssa

inductive Literal
  | nil
  | bool (b : Bool)
  | int (n : Int)
  | float (x : Binary64)
  | string (s : Bytes)
  /-- A complex number, or nothing that makes sense. -/
  | other
  deriving DecidableEq, Repr, Inhabited

inductive Operand
  | value (n : Nat)
  | const (ty : SourceTy) (lit : Literal)
  | global (name : String) (ty : SourceTy)
  | func (name : String)
  | builtin (name : String)
  deriving Repr, Inhabited

inductive Relation
  | eq | ne | lt | le | gt | ge
  deriving DecidableEq, Repr, Inhabited

inductive Arith
  | add | sub | mul | quo | rem | and | or | xor | andNot | shl | shr
  deriving DecidableEq, Repr, Inhabited

inductive BinaryOp
  | compare (r : Relation)
  | arith (a : Arith)
  deriving DecidableEq, Repr, Inhabited

def BinaryOp.ofText? : String → Option BinaryOp
  | "==" => some (.compare .eq)
  | "!=" => some (.compare .ne)
  | "<" => some (.compare .lt)
  | "<=" => some (.compare .le)
  | ">" => some (.compare .gt)
  | ">=" => some (.compare .ge)
  | "+" => some (.arith .add)
  | "-" => some (.arith .sub)
  | "*" => some (.arith .mul)
  | "/" => some (.arith .quo)
  | "%" => some (.arith .rem)
  | "&" => some (.arith .and)
  | "|" => some (.arith .or)
  | "^" => some (.arith .xor)
  | "&^" => some (.arith .andNot)
  | "<<" => some (.arith .shl)
  | ">>" => some (.arith .shr)
  | _ => none

inductive UnaryOp
  | deref | neg | complement | not | receive
  deriving DecidableEq, Repr, Inhabited

def UnaryOp.ofText? : String → Option UnaryOp
  | "*" => some .deref
  | "-" => some .neg
  | "^" => some .complement
  | "!" => some .not
  | "<-" => some .receive
  | _ => none

/-- What a call calls. -/
inductive Callee
  | builtin (name : String)
  | method (receiver : Operand) (name : String)
  | static (name : String)
  | dynamic (target : Operand)
  deriving Repr, Inhabited

inductive Action
  /-- A remark for a debugger. -/
  | remark
  | jump
  | branch (cond : Operand)
  | ret (results : List Operand)
  | panic (x : Operand)
  | phi (edges : List Operand)
  | binary (op : Option BinaryOp) (x y : Operand)
  | unary (op : Option UnaryOp) (x : Operand)
  | store (val addr : Operand)
  | alloc (heap : Bool)
  | fieldAddr (x : Operand) (field : Int)
  | indexAddr (x index : Operand)
  | call (callee : Callee) (args : List Operand)
  | convert (x : Operand)
  | changeType (x : Operand)
  | extract (x : Operand) (field : Int)
  /-- Anything that the intermediate representation has no instruction for. -/
  | special (kind : String) (args : List Operand)
  deriving Repr, Inhabited

structure Result where
  name : String
  ty : SourceTy
  deriving Repr, Inhabited

/-- A step; a place of zeros is no place. -/
structure Step where
  action : Action
  pos : Pos := {}
  result : Option Result := none
  deriving Repr, Inhabited

def Step.ty (s : Step) : SourceTy := (s.result.map (·.ty)).getD (.tuple [])

structure BasicBlock where
  steps : List Step
  succs : List Int
  preds : List Int
  deriving Repr, Inhabited

/-- A procedure. The full name is the one that errors show; captured variables follow the
parameters. -/
structure Procedure where
  name : String
  fullName : String
  file : String
  pos : Pos
  params : List Result
  results : SourceTy
  blocks : List BasicBlock
  deriving Repr, Inhabited

/-- Every numbered value, in order. -/
def Procedure.values (p : Procedure) : List Result :=
  p.params ++ p.blocks.flatMap fun b => b.steps.filterMap (·.result)

structure Package where
  path : String
  procedures : List Procedure
  deriving Repr, Inhabited

end RegPressure.Ssa
