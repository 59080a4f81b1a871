namespace RegPressure

inductive Ty
  | void
  | int (bits : Nat)
  | float (bits : Nat)
  | ptr
  | vector (len : Int) (elem : Ty)
  | array (len : Int) (elem : Ty)
  | struct (fields : List Ty)
  | label
  deriving Repr, Inhabited

namespace Ty

abbrev i1 : Ty := .int 1
abbrev i8 : Ty := .int 8
abbrev i16 : Ty := .int 16
abbrev i32 : Ty := .int 32
abbrev i64 : Ty := .int 64
abbrev f32 : Ty := .float 32
abbrev f64 : Ty := .float 64

mutual

/-- Two types of the same shape, with the same width, count and parts. -/
def equal : Ty → Ty → Bool
  | .void, .void | .ptr, .ptr | .label, .label => true
  | .int a, .int b | .float a, .float b => a = b
  | .vector m t, .vector n u | .array m t, .array n u => m = n && equal t u
  | .struct ts, .struct us => equals ts us
  | _, _ => false

def equals : List Ty → List Ty → Bool
  | [], [] => true
  | t :: ts, u :: us => equal t u && equals ts us
  | _, _ => false

end

mutual

theorem equal_iff : ∀ t u : Ty, equal t u = true ↔ t = u
  | .void, u | .ptr, u | .label, u => by cases u <;> simp [equal]
  | .int _, u | .float _, u => by cases u <;> simp [equal]
  | .vector _ t, u | .array _ t, u => by cases u <;> simp [equal, equal_iff t]
  | .struct ts, u => by cases u <;> simp [equal, equals_iff ts]

theorem equals_iff : ∀ ts us : List Ty, equals ts us = true ↔ ts = us
  | [], us => by cases us <;> simp [equals]
  | t :: ts, us => by cases us <;> simp [equals, equal_iff t, equals_iff ts]

end

instance : DecidableEq Ty := fun t u => decidable_of_iff _ (equal_iff t u)

def isInt : Ty → Bool
  | .int _ => true
  | _ => false

def isFloat : Ty → Bool
  | .float _ => true
  | _ => false

def isVoid : Ty → Bool
  | .void => true
  | _ => false

/-- The width of a number type, and zero for any other. -/
def bits : Ty → Nat
  | .int b | .float b => b
  | _ => 0

def len : Ty → Int
  | .vector n _ | .array n _ => n
  | _ => 0

def fields : Ty → List Ty
  | .struct ts => ts
  | _ => []

def shape : Ty → Nat
  | .void => 0
  | .int _ => 1
  | .float _ => 2
  | .ptr => 3
  | .vector .. => 4
  | .array .. => 5
  | .struct _ => 6
  | .label => 7

mutual

def text : Ty → String
  | .void => "void"
  | .int b => "i" ++ toString b
  | .float b => "f" ++ toString b
  | .ptr => "ptr"
  | .vector n t => "<" ++ toString n ++ " x " ++ text t ++ ">"
  | .array n t => "[" ++ toString n ++ " x " ++ text t ++ "]"
  | .struct ts => "\x7b" ++ ", ".intercalate (texts ts) ++ "\x7d"
  | .label => "label"

def texts : List Ty → List String
  | [] => []
  | t :: ts => text t :: texts ts

end

def alignUp (n a : UInt64) : UInt64 := (n + a - 1) / a * a

def naturalAlign (size : UInt64) : UInt64 :=
  if size ≥ 8 then 8 else if size ≥ 4 then 4 else if size ≥ 2 then 2 else 1

/-- A running struct layout: the end of the fields so far and the largest alignment among them. -/
structure Extent where
  offset : UInt64 := 0
  align : UInt64 := 1

/-- Where the next field starts once it is aligned. -/
def Extent.place (x : Extent) (align : UInt64) : UInt64 := alignUp x.offset align

def Extent.push (x : Extent) (size align : UInt64) : Extent :=
  ⟨x.place align + size, max x.align align⟩

mutual

def align : Ty → UInt64
  | .int b => naturalAlign (UInt64.ofNat ((b + 7) / 8))
  | .float b => naturalAlign (UInt64.ofNat (b / 8))
  | .ptr => 8
  | .vector _ t | .array _ t => align t
  | .struct ts => aligns ts
  | .void | .label => 1

def aligns : List Ty → UInt64
  | [] => 1
  | t :: ts => max (align t) (aligns ts)

end

mutual

/-- The octets that a value takes in memory; `none` for a type of no fixed size. -/
def storeSize : Ty → Option UInt64
  | .int b => some (UInt64.ofNat ((b + 7) / 8))
  | .float b => some (UInt64.ofNat (b / 8))
  | .ptr => some 8
  | .vector n t | .array n t => (storeSize t).map (· * (Int64.ofInt n).toUInt64)
  | .struct ts => (layout {} ts).map fun x => alignUp x.offset x.align
  | .void | .label => none

/-- The extent after placing the fields in order. -/
def layout (x : Extent) : List Ty → Option Extent
  | [] => some x
  | t :: ts =>
    match storeSize t with
    | some size => layout (x.push size (align t)) ts
    | none => none

end

def offsetFrom (x : Extent) : List Ty → Nat → Option UInt64
  | [], _ => none
  | t :: ts, i =>
    match storeSize t with
    | none => none
    | some size =>
      match i with
      | 0 => some (x.place (align t))
      | i + 1 => offsetFrom (x.push size (align t)) ts i

def fieldOffset (t : Ty) (i : Int) : Option UInt64 :=
  match t with
  | .struct ts => if i < 0 then none else offsetFrom {} ts i.toNat
  | _ => none

end Ty

def Ty.textOf (t : Option Ty) : String := (t.getD .void).text

def Ty.voidOrNone (t : Option Ty) : Bool := (t.getD .void).isVoid

def Ty.storeSizeOf (t : Option Ty) : Option UInt64 := t.bind Ty.storeSize

end RegPressure
