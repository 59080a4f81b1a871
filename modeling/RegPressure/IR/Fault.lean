namespace RegPressure

/-- A broken promise about the graph of one function. -/
inductive Breach
  | noBlock (id : Int)
  | noInstr (id : Int)
  | noArgument (i : Int)
  | insertPosition (pos : Int) (block : String)
  | erased (id : Int)
  | misplaced (id : Int) (block : String)
  | danglingUse (user : String) (id : Int)
  | erasedUse (user : String) (id : Int)
  | resizeNonInteger (value : String)
  | resize (value : String)
  | other (text : String)
  deriving DecidableEq, Repr

def Breach.message : Breach → String
  | .noBlock id => "invalid block id " ++ toString id
  | .noInstr id => "invalid instruction id " ++ toString id
  | .noArgument i => "invalid argument index " ++ toString i
  | .insertPosition pos b => "insert position " ++ toString pos ++ " out of range in " ++ b
  | .erased id => "instruction " ++ toString id ++ " was erased"
  | .misplaced id b => "instruction " ++ toString id ++ " not found in " ++ b
  | .danglingUse u id => u ++ " uses unknown instruction " ++ toString id
  | .erasedUse u id => u ++ " uses erased instruction " ++ toString id
  | .resizeNonInteger v => "cannot resize non-integer value " ++ v
  | .resize v => "cannot resize value " ++ v
  | .other text => text

inductive Fault
  /-- The graph of the named function is not what an operation was promised. -/
  | breach (func : String) (cause : Breach)
  /-- A list was asked for an element that it does not have. -/
  | index (i : Int) (len : Nat)
  /-- Something that is not there was asked for its parts. -/
  | absent
  /-- A computation did not end. -/
  | endless
  /-- A text was to be repeated less than zero times. -/
  | negativeCount
  /-- A text was to be longer than any can be. -/
  | tooLong
  /-- A value of one type was to be kept where another type belongs. -/
  | misfit (given wanted : String)
  /-- The last item of an empty list was asked for. -/
  | noLastItem
  /-- A value of a kind that has no parts was asked for one. -/
  | noParts (kind : String)
  | other (text : String)
  deriving DecidableEq, Repr

def Fault.message : Fault → String
  | .breach f c => "ir: " ++ f ++ ": " ++ c.message
  | .index i n =>
    if i < 0 then "runtime error: index out of range [" ++ toString i ++ "]"
    else "runtime error: index out of range [" ++ toString i ++ "] with length " ++ toString n
  | .absent => "runtime error: invalid memory address or nil pointer dereference"
  | .endless => "stack overflow"
  | .negativeCount => "strings: negative Repeat count"
  | .tooLong => "runtime error: makeslice: len out of range"
  | .misfit given wanted =>
    "reflect.Set: value of type " ++ given ++ " is not assignable to type " ++ wanted
  | .noLastItem => "reflect: slice index out of range"
  | .noParts kind => "unhandled part: " ++ kind
  | .other text => text

abbrev Checked := Except Fault

/-- Element `i` of a list. -/
def element {α : Type} (xs : List α) (i : Int) : Checked α :=
  match if i < 0 then none else xs[i.toNat]? with
  | some x => .ok x
  | none => .error (.index i xs.length)

def cell {α : Type} (xs : Array α) (i : Int) : Checked α :=
  match if i < 0 then none else xs[i.toNat]? with
  | some x => .ok x
  | none => .error (.index i xs.size)

end RegPressure
