import RegPressure.IR.Ty

namespace RegPressure

inductive BasicKind
  | boolean
  | integer (signed : Bool) (bits : Nat)
  | float (bits : Nat)
  | complex
  | string
  | pointer
  | other
  deriving DecidableEq, Repr, Inhabited

def basicTypes : List (String × BasicKind) :=
  [("invalid type", .other), ("bool", .boolean),
   ("int", .integer true 64), ("int8", .integer true 8), ("int16", .integer true 16),
   ("int32", .integer true 32), ("int64", .integer true 64),
   ("uint", .integer false 64), ("uint8", .integer false 8), ("uint16", .integer false 16),
   ("uint32", .integer false 32), ("uint64", .integer false 64), ("uintptr", .integer false 64),
   ("float32", .float 32), ("float64", .float 64),
   ("complex64", .complex), ("complex128", .complex), ("string", .string),
   ("unsafe.Pointer", .pointer),
   ("untyped bool", .boolean), ("untyped int", .integer true 64),
   ("untyped rune", .integer true 32), ("untyped float", .float 64),
   ("untyped complex", .complex), ("untyped string", .string), ("untyped nil", .other),
   ("byte", .integer false 8), ("rune", .integer true 32)]

structure BasicTy where
  name : String
  kind : BasicKind
  known : (name, kind) ∈ basicTypes
  deriving DecidableEq, Repr

namespace BasicTy

def invalid : BasicTy := ⟨"invalid type", .other, by decide⟩

instance : Inhabited BasicTy := ⟨invalid⟩

def ofName? (s : String) : Option BasicTy :=
  (basicTypes.attach.find? (·.1.1 = s)).map fun b => ⟨b.1.1, b.1.2, b.2⟩

/-- Text and complex numbers are handed around by reference. -/
def lower (b : BasicTy) : Ty :=
  match b.kind with
  | .boolean => .i1
  | .integer _ bits => .int bits
  | .float bits => .float bits
  | .complex | .string | .pointer | .other => .ptr

def accessTag (b : BasicTy) : String := if b.kind = .pointer then "go.ptr" else "go." ++ b.name

end BasicTy

/-- A type of the source language. A tuple is what a call with several results gives. -/
inductive SourceTy
  | basic (b : BasicTy)
  | pointer (elem : SourceTy)
  | array (len : Int) (elem : SourceTy)
  | struct (fields : List SourceTy)
  | tuple (items : List SourceTy)
  | named (name : String) (meaning : SourceTy)
  /-- Another name for a type. -/
  | synonym (name : String) (meaning : SourceTy)
  | chan
  | map
  | slice
  | func
  | interface
  deriving Repr, Inhabited

namespace SourceTy

def invalid : SourceTy := .basic .invalid

def ofName (s : String) : SourceTy :=
  if s = "error" then .named s .interface else .basic ((BasicTy.ofName? s).getD .invalid)

/-- What a type is behind its names. -/
def underlying : SourceTy → SourceTy
  | .named _ t | .synonym _ t => t.underlying
  | t => t

mutual

/-- Numbers keep their width, structs and arrays their shape, and all else is a pointer. -/
def lower : SourceTy → Ty
  | .basic b => b.lower
  | .array n t => .array n (lower t)
  | .struct ts => .struct (lowerAll ts)
  | .tuple [] => .void
  | .tuple [t] => lower t
  | .tuple ts => .struct (lowerAll ts)
  | .named _ t | .synonym _ t => lower t
  | .pointer _ | .chan | .map | .slice | .func | .interface => .ptr

def lowerAll : List SourceTy → List Ty
  | [] => []
  | t :: ts => lower t :: lowerAll ts

end

def basicKind? (t : SourceTy) : Option BasicKind :=
  match t.underlying with
  | .basic b => some b.kind
  | _ => none

def isInteger (t : SourceTy) : Bool := t.basicKind? matches some (.integer ..)

def isUnsigned (t : SourceTy) : Bool := t.basicKind? matches some (.integer false _)

def isFloat (t : SourceTy) : Bool := t.basicKind? matches some (.float _)

def isBoolean (t : SourceTy) : Bool := t.basicKind? matches some .boolean

def isPointer (t : SourceTy) : Bool :=
  t.basicKind? matches some .pointer || t.underlying matches .pointer _

def isScalar (t : SourceTy) : Bool :=
  t.isInteger || t.isFloat || t.isBoolean || t.isPointer ||
    t.underlying matches .chan || t.underlying matches .map

def pointee (t : SourceTy) : SourceTy :=
  match t.underlying with
  | .pointer elem => elem
  | _ => t

def accessTag (t : SourceTy) : String :=
  match t.underlying with
  | .basic b => b.accessTag
  | .struct _ | .array .. => "go.agg"
  | _ => "go.ptr"

end SourceTy

end RegPressure
