import RegPressure.Ssa.Program

namespace RegPressure.Ssa

namespace Literal

/-- A missing value of a plain type is its zero. -/
def orZero (t : SourceTy) : Literal → Literal
  | .nil =>
    match t.basicKind? with
    | some .boolean => .bool false
    | some (.integer ..) | some (.float _) | some .complex => .int 0
    | some .string => .string []
    | _ => .nil
  | l => l

/-- The word that holds a whole number; one that no signed word holds keeps the low bits of its
magnitude. -/
def word (n : Int) : Int64 :=
  (Word.ofInt? n).getD (.ofInt n.natAbs)

/-- The constant operand for a literal of a source type. A number that does not fit the kind of its
type is undefined, and so is a complex number. -/
def value (t : SourceTy) (l : Literal) : Value :=
  match l.orZero t, t.lower with
  | .nil, .ptr => .null
  | .bool b, _ => .int (some .i1) (if b then 1 else 0)
  | .int n, .int bits => .int (some (.int bits)) (word n)
  | .int n, .float bits => .float (some (.float bits)) (.ofInt n)
  | .float x, .float bits => .float (some (.float bits)) x
  | .string s, _ => .str s
  | _, ty => .undef (some ty)

def shiftAmount : Literal → Int64
  | .int n => word n
  | .float x => (x.whole?.map word).getD 0
  | _ => 0

end Literal

namespace Relation

def isEquality : Relation → Bool
  | .eq | .ne => true
  | _ => false

def wordPred (unsigned : Bool) : Relation → String
  | .eq => "eq"
  | .ne => "ne"
  | .lt => if unsigned then "ult" else "slt"
  | .le => if unsigned then "ule" else "sle"
  | .gt => if unsigned then "ugt" else "sgt"
  | .ge => if unsigned then "uge" else "sge"

def floatPred : Relation → String
  | .eq => "oeq"
  | .ne => "une"
  | .lt => "olt"
  | .le => "ole"
  | .gt => "ogt"
  | .ge => "oge"

end Relation

namespace Arith

def wordOp? (unsigned : Bool) : Arith → Option Op
  | .add => some .add
  | .sub => some .sub
  | .mul => some .mul
  | .quo => some (if unsigned then .udiv else .sdiv)
  | .rem => some (if unsigned then .urem else .srem)
  | .and => some .and
  | .or => some .or
  | .xor => some .xor
  | .shl => some .shl
  | .shr => some (if unsigned then .lshr else .ashr)
  | .andNot => none

def floatOp? : Arith → Option Op
  | .add => some .fadd
  | .sub => some .fsub
  | .mul => some .fmul
  | .quo => some .fdiv
  | _ => none

def mayTrap : Arith → Bool
  | .quo | .rem => true
  | _ => false

def isShift : Arith → Bool
  | .shl | .shr => true
  | _ => false

def isLogical : Arith → Bool
  | .and | .or | .xor => true
  | _ => false

end Arith

/-- The cast between two types of one kind, by their widths. -/
def resize (source target : Nat) (shrink grow : Op) : Op :=
  if source = target then .bitcast else if target < source then shrink else grow

def conversion? (source target : SourceTy) : Option Op :=
  let resized := resize source.lower.bits target.lower.bits
  match source.isInteger, source.isFloat, source.isPointer,
      target.isInteger, target.isFloat, target.isPointer with
  | true, _, _, true, _, _ => some (resized .trunc (if source.isUnsigned then .zext else .sext))
  | true, _, _, _, true, _ => some (if source.isUnsigned then .uitofp else .sitofp)
  | _, true, _, true, _, _ => some (if target.isUnsigned then .fptoui else .fptosi)
  | _, true, _, _, true, _ => some (resized .fptrunc .fpext)
  | _, _, true, _, _, true => some .bitcast
  | _, _, true, true, _, _ => some .ptrtoint
  | true, _, _, _, _, true => some .inttoptr
  | _, _, _, _, _, _ => none

def pureOperations : List String :=
  ["len", "cap", "min", "max", "real", "imag", "complex", "makeinterface", "changeinterface",
   "binop"]

end RegPressure.Ssa
