import RegPressure.IR.Op
import RegPressure.IR.Ty
import RegPressure.Number.Binary64
import RegPressure.Text.Quoted

namespace RegPressure

/-- An operand: a constant, or a reference by number to a parameter, a global or an instruction. A
reference may dangle, so its number is any integer. -/
inductive Value
  | int (ty : Option Ty) (n : Int64)
  | float (ty : Option Ty) (x : Binary64)
  | null
  | undef (ty : Option Ty)
  | str (s : Bytes)
  | arg (i : Int)
  | global (i : Int)
  | instr (id : Int)
  deriving DecidableEq, Repr, Inhabited

namespace Value

def isConst : Value → Bool
  | .arg _ | .global _ | .instr _ => false
  | _ => true

def intConst? : Value → Option Int64
  | .int _ n => some n
  | _ => none

def constTy : Value → Option Ty
  | .int t _ | .float t _ | .undef t => t
  | .null | .str _ => some .ptr
  | .arg _ | .global _ | .instr _ => none

/-- Both operands stand for the same value. Floating constants compare as numbers, so a NaN
is never the same as anything. -/
def sameAs : Value → Value → Bool
  | .arg i, .arg j | .global i, .global j | .instr i, .instr j => i == j
  | .int t n, .int u m => n == m && t == u
  | .float t x, .float u y => x.same y && t == u
  | .null, .null => true
  | .undef t, .undef u => t == u
  | .str a, .str b => a == b
  | _, _ => false

def floatText (x : Binary64) : String :=
  let s := x.text
  if (Decimal.int64? (Bytes.ofString s)).isSome then s ++ ".0" else s

def constText : Value → String
  | .int t n =>
    if (t.map Ty.bits) = some 1 then if n ≠ 0 then "true" else "false" else toString n.toInt
  | .float _ x => floatText x
  | .null => "null"
  | .undef _ => "undef"
  | .str s => Text.quoteBytes s
  | .arg _ | .global _ | .instr _ => ""

end Value

/-! ### Instructions -/

/-- A place in the source; zero where it is unknown. -/
structure Pos where
  line : Int := 0
  column : Int := 0
  deriving DecidableEq, Repr, Inhabited

/-- What is known about the memory that an access touches. -/
structure AccessMeta where
  tbaa : Bytes := []
  scope : Bytes := []
  noAlias : List Bytes := []
  invariant : Bool := false
  deriving DecidableEq, Repr, Inhabited

def AccessMeta.isEmpty (m : AccessMeta) : Bool :=
  m.tbaa = [] && m.scope = [] && m.noAlias = [] && !m.invariant

/-- An instruction. `home` is the block it stands in and is missing once it is erased; `targets`
are the blocks that a terminator names, or the incoming blocks of a phi. A call without a callee
calls its first operand. -/
structure Instr where
  home : Option Int := none
  name : String := ""
  op : Op
  ty : Ty := .void
  operands : List Value := []
  targets : List Int := []
  pred : String := ""
  rmw : String := ""
  callee : String := ""
  elem : Option Ty := none
  volatile : Bool := false
  ordering : MemOrder := .none
  checked : Bool := false
  access : AccessMeta := {}
  pos : Pos := {}
  deriving DecidableEq, Repr, Inhabited

namespace Instr

def isErased (i : Instr) : Bool := i.home.isNone

def hasResult (i : Instr) : Bool := !i.ty.isVoid

def isUnordered (i : Instr) : Bool := !i.volatile && i.ordering.rank ≤ MemOrder.unordered.rank

def address? (i : Instr) : Option Value :=
  match i.op with
  | .load | .atomicrmw | .cmpxchg => i.operands[0]?
  | .store => i.operands[1]?
  | _ => none

def accessSize (i : Instr) : UInt64 :=
  let t := if i.elem.isNone && i.op = .load then some i.ty else i.elem
  (Ty.storeSizeOf t).getD 0

def callArgs (i : Instr) : List Value :=
  if i.op ≠ .call then []
  else if i.callee = "" then i.operands.drop 1
  else i.operands

end Instr

end RegPressure
