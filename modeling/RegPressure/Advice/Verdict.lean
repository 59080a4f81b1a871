import RegPressure.Memory.Alias

namespace RegPressure

/-- What the verdict asks about memory: whether an address points to storage that is never
written, and whether some blocks may write to a place. -/
structure AliasOracle where
  isImmutable : Value → Checked Bool
  writtenIn : Memory.Location → List Nat → Checked Bool

def Memory.Model.oracle (m : Memory.Model) : AliasOracle := ⟨m.isImmutable, m.writtenIn⟩

def AliasOracle.always (immutable written : Bool) : AliasOracle :=
  ⟨fun _ => .ok immutable, fun _ _ => .ok written⟩

inductive Reason
  | pure | immutableLoad | invariantLoad | unmodifiedLoad
  | mayBeModified | orderedAccess | sideEffect | call | mayTrap | pinned
  deriving DecidableEq, Repr, Inhabited

namespace Reason

def all : List Reason :=
  [.pure, .immutableLoad, .invariantLoad, .unmodifiedLoad, .mayBeModified, .orderedAccess,
   .sideEffect, .call, .mayTrap, .pinned]

def name : Reason → String
  | .pure => "pure"
  | .immutableLoad => "immutable-load"
  | .invariantLoad => "invariant-load"
  | .unmodifiedLoad => "unmodified-load"
  | .mayBeModified => "may-be-modified"
  | .orderedAccess => "ordered-access"
  | .sideEffect => "side-effect"
  | .call => "call"
  | .mayTrap => "may-trap"
  | .pinned => "pinned"

def numberText (n : Nat) : String := ((all[n]?).map name).getD "unknown"

def isMovable : Reason → Bool
  | .pure | .immutableLoad | .invariantLoad | .unmodifiedLoad => true
  | _ => false

end Reason

def AliasOracle.modified (o : AliasOracle) (loc : Memory.Location) (region : List Nat) :
    Checked Bool :=
  if region = [] then return false else o.writtenIn loc region

def loadVerdict (o : AliasOracle) (region : List Nat) (i : Instr) : Checked Reason := do
  if !i.isUnordered then return .orderedAccess
  let addr ← element i.operands 0
  if ← o.isImmutable addr then return .immutableLoad
  if i.access.invariant then return .invariantLoad
  if ← o.modified ⟨addr, i.ty.storeSize.getD 0, i.access⟩ region then return .mayBeModified
  return .unmodifiedLoad

/-- Why an instruction may or may not move over the blocks of `region`, its operands aside. -/
def verdict (o : AliasOracle) (region : List Nat) (i : Instr) : Checked Reason :=
  if i.checked then return .mayTrap
  else match i.op with
    | .load => loadVerdict o region i
    | .store => return if i.isUnordered then .sideEffect else .orderedAccess
    | .atomicrmw | .cmpxchg | .fence => return .orderedAccess
    | .call => return .call
    | op => return if op.isPure then .pure else .pinned

end RegPressure
