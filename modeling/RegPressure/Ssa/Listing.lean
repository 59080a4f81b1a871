import RegPressure.Number.Notation
import RegPressure.Ssa.Program

namespace RegPressure

def SourceTy.ofShape (shape name : String) (len : Int) (parts : List SourceTy) : SourceTy :=
  let last := parts.getLastD .invalid
  match shape with
  | "ptr" => .pointer last
  | "array" => .array len last
  | "struct" => .struct parts
  | "tuple" => .tuple parts
  | "named" => .named name last
  | "alias" => .synonym name last
  | "chan" => .chan
  | "map" => .map
  | "slice" => .slice
  | "func" => .func
  | _ => .interface

namespace Ssa

def Literal.ofText (kind text : String) : Literal :=
  let bs := Bytes.ofString text
  match kind with
  | "nil" => .nil
  | "bool" => .bool (text = "true")
  | "int" => ((Notation.int? bs).map .int).getD .other
  | "float" => ((Notation.float? bs).map .float).getD .other
  | "string" => .string bs
  | _ => .other

structure Listed where
  kind : String
  args : List Operand
  token : String := ""
  field : Int := 0
  heap : Bool := false
  call : String := ""
  callee : String := ""
  target : Operand := default
  deriving Repr, Inhabited

namespace Listed

/-- A method is called on its target, and a call of no other kind calls its target. -/
def calls (s : Listed) : Callee :=
  match s.call with
  | "builtin" => .builtin s.callee
  | "invoke" => .method s.target s.callee
  | "static" => .static s.callee
  | _ => .dynamic s.target

def action (s : Listed) : Action :=
  let x := s.args.headD default
  let y := s.args.getD 1 default
  match s.kind with
  | "DebugRef" => .remark
  | "Jump" => .jump
  | "If" => .branch x
  | "Return" => .ret s.args
  | "Panic" => .panic x
  | "Phi" => .phi s.args
  | "BinOp" => .binary (BinaryOp.ofText? s.token) x y
  | "UnOp" => .unary (UnaryOp.ofText? s.token) x
  | "Store" => .store x y
  | "Alloc" => .alloc s.heap
  | "FieldAddr" => .fieldAddr x s.field
  | "IndexAddr" => .indexAddr x y
  | "Convert" => .convert x
  | "ChangeType" => .changeType x
  | "Field" | "Extract" => .extract x s.field
  | "Call" => .call s.calls s.args
  | kind => .special kind s.args

end Listed

end Ssa

end RegPressure
