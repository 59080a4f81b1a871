import RegPressure.Graph.Digraph

namespace RegPressure.Memory

inductive Overlap
  | none
  | maybe
  | exact
  deriving DecidableEq, Repr, Inhabited

def Overlap.name : Overlap → String
  | .none => "NoAlias"
  | .maybe => "MayAlias"
  | .exact => "MustAlias"

structure Effect where
  reads : Bool := false
  writes : Bool := false
  deriving DecidableEq, Repr, Inhabited

def Effect.both : Effect := ⟨true, true⟩

def Effect.digit (e : Effect) : Nat := (if e.reads then 1 else 0) + (if e.writes then 2 else 0)

/-- A place in memory; size zero stands for an unknown one. -/
structure Location where
  ptr : Value
  size : UInt64
  access : AccessMeta := {}
  deriving DecidableEq, Repr

/-- An address as an object and an offset, if that is constant. -/
structure Base where
  object : Value
  offset : Int64 := 0
  known : Bool := true
  deriving DecidableEq, Repr

def innerOffset : (indices : List Value) → Ty → Option Int64
  | [], _ => some 0
  | v :: rest, t => do
    let c ← v.intConst?
    match t with
    | .struct ts =>
      let off ← t.fieldOffset c.toInt
      let field ← ts[c.toInt.toNat]?
      return off.toInt64 + (← innerOffset rest field)
    | .array _ elem | .vector _ elem =>
      let size ← elem.storeSize
      return c * size.toInt64 + (← innerOffset rest elem)
    | _ => none

/-- The octets that an address computation adds, if its indices are constants. -/
def gepOffset (i : Instr) : Option Int64 :=
  match i.operands.drop 1 with
  | [] => some 0
  | first :: rest => do
    let t ← i.elem
    let size ← t.storeSize
    let c ← first.intConst?
    return c * size.toInt64 + (← innerOffset rest t)

def decomposeWithin (f : Func) : (steps : Nat) → Base → Checked Base
  | 0, b => return b
  | n + 1, b => do
    match b.object with
    | .instr id =>
      let i ← f.instr id
      match i.op with
      | .bitcast => decomposeWithin f n { b with object := ← element i.operands 0 }
      | .gep =>
        let object ← element i.operands 0
        match gepOffset i with
        | some off => decomposeWithin f n { b with object, offset := b.offset + off }
        | none => decomposeWithin f n { b with object, known := false }
      | _ => return b
    | _ => return b

/-- Casts and address computations that feed on themselves are left after one round. -/
def decompose (f : Func) (v : Value) : Checked Base :=
  decomposeWithin f (f.instrs.size + 1) { object := v }

inductive Origin
  | unknown
  | alloca (id : Int)
  | global
  | arg
  | null
  | string
  deriving DecidableEq, Repr

def origin (f : Func) : Value → Checked Origin
  | .global _ => return .global
  | .arg _ => return .arg
  | .null => return .null
  | .str _ => return .string
  | .instr id => return if (← f.instr id).op = .alloca then .alloca id else .unknown
  | _ => return .unknown

def Origin.isDistinct : Origin → Bool
  | .alloca _ | .global | .null => true
  | _ => false

def tagsCompatible (a b : Bytes) : Bool :=
  let loose := [Bytes.ofString "char", Bytes.ofString "any"]
  a = b || loose.contains a || loose.contains b || (b ++ [46]).isPrefixOf a ||
    (a ++ [46]).isPrefixOf b

/-- Type tags or scopes rule out an overlap. A tag covers those that extend it behind a point. -/
def metaApart (a b : AccessMeta) : Bool :=
  (a.tbaa ≠ [] && b.tbaa ≠ [] && !tagsCompatible a.tbaa b.tbaa) ||
    (a.scope ≠ [] && b.noAlias.contains a.scope) || (b.scope ≠ [] && a.noAlias.contains b.scope)

def stretchesMeet (a : Int64) (sizeA : UInt64) (b : Int64) (sizeB : UInt64) : Bool :=
  if sizeA = 0 || sizeB = 0 then true
  else if b < a then a < b + sizeB.toInt64
  else b < a + sizeA.toInt64

def derives : Op → Bool
  | .gep | .bitcast | .phi | .select => true
  | _ => false

def leaks (i : Instr) (p : Int) : Bool :=
  match i.op with
  | .load | .icmp => false
  | .store => i.operands.head? = some (.instr p)
  | op => !derives op

def escapedAllocas (f : Func) : Checked (List Int) := do
  let users ← f.userMap
  let usersOf (p : Nat) : List Nat := (users.getD p []).map Int.toNat
  let instrAt (u : Nat) : Instr := f.instrs.getD u { op := .invalid }
  let carriers (p : Nat) : List Nat := (usersOf p).filter fun u => derives (instrAt u).op
  let escapes (root : Nat) : Bool :=
    (Digraph.visit carriers f.instrs.size {} root).seen.any fun p =>
      (usersOf p).any fun u => leaks (instrAt u) p
  let roots := (List.range f.instrs.size).filter fun r =>
    !(instrAt r).isErased && (instrAt r).op = .alloca
  return (roots.filter escapes).map Int.ofNat

/-- Everything that overlap questions about a function need. -/
structure Model where
  scope : Option Symbols
  func : Func
  escaped : List Int

def Model.of (scope : Option Symbols) (f : Func) : Checked Model :=
  return ⟨scope, f, ← escapedAllocas f⟩

namespace Model

variable (m : Model)

def isImmutable (addr : Value) : Checked Bool := do
  let b ← decompose m.func addr
  match ← origin m.func b.object with
  | .global => return (← Func.global? m.scope b.object).any (·.isConst)
  | .string => return true
  | _ => return false

def isPrivateFrom (alloca : Int) (other : Value) (start : Origin) : Checked Bool := do
  if start = .arg || start = .string then return true
  if m.escaped.contains alloca then return false
  match other with
  | .instr id =>
    let op := (← m.func.instr id).op
    return !(op = .phi || op = .select)
  | _ => return true

def overlap (a b : Location) : Checked Overlap := do
  if metaApart a.access b.access then return .none
  let ba ← decompose m.func a.ptr
  let bb ← decompose m.func b.ptr
  if ba.object.sameAs bb.object then
    if !ba.known || !bb.known then return .maybe
    if ba.offset = bb.offset && a.size = b.size && a.size ≠ 0 then return .exact
    return if stretchesMeet ba.offset a.size bb.offset b.size then .maybe else .none
  let oa ← origin m.func ba.object
  let ob ← origin m.func bb.object
  if oa.isDistinct && ob.isDistinct then return .none
  let apart (o : Origin) (other : Value) (start : Origin) : Checked Bool :=
    match o with
    | .alloca id => m.isPrivateFrom id other start
    | _ => return false
  if ← apart oa bb.object ob then return .none
  if ← apart ob ba.object oa then return .none
  return .maybe

def locationOf (i : Instr) : Location :=
  ⟨i.address?.getD (.int none 0), i.accessSize, i.access⟩

def touches (i : Instr) (loc : Location) : Checked Bool :=
  return (← m.overlap (locationOf i) loc) ≠ .none

def callEffect (i : Instr) (loc : Location) : Checked Effect := do
  let decl := if i.callee = "" then none else m.scope.bind (·.decl? i.callee)
  if decl.any (·.readNone) then return {}
  let b ← decompose m.func loc.ptr
  match ← origin m.func b.object with
  | .alloca id => if !m.escaped.contains id then return {}
  | _ => pure ()
  return if decl.any (·.readOnly) then { reads := true } else .both

/-- What an instruction may do to a place. -/
def effect (i : Instr) (loc : Location) : Checked Effect := do
  match i.op with
  | .load => return if ← m.touches i loc then { reads := true } else {}
  | .store => return if ← m.touches i loc then { writes := true } else {}
  | .atomicrmw | .cmpxchg =>
    if i.ordering.rank > MemOrder.monotonic.rank then return .both
    return if ← m.touches i loc then .both else {}
  | .fence => return .both
  | .call => m.callEffect i loc
  | _ => return {}

def writtenIn (loc : Location) : List Nat → Checked Bool
  | [] => return false
  | b :: rest => do
    let blk ← m.func.block b
    let rec go : List Int → Checked Bool
      | [] => return false
      | id :: more => do
        if (← m.effect (← m.func.instr id) loc).writes then return true
        go more
    if ← go blk.instrs then return true
    writtenIn loc rest

end Model

end RegPressure.Memory
