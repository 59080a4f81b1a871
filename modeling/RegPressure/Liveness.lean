import RegPressure.Graph.Digraph

namespace RegPressure

/-- The blocks that a value is live at the start of, and those it is live at the end of. -/
structure LiveSpan where
  value : Int
  home : Int
  starts : List Nat
  ends : List Nat
  deriving DecidableEq, Repr, Inhabited

inductive LiveKind
  | atStart
  | atEnd
  | through
  deriving DecidableEq, Repr, Inhabited

def LiveKind.name : LiveKind → String
  | .atStart => "IN"
  | .atEnd => "OUT"
  | .through => "THRU"

namespace LiveSpan

def startsIn (s : LiveSpan) (b : Nat) : Bool := s.starts.contains b

def endsIn (s : LiveSpan) (b : Nat) : Bool := s.ends.contains b

def kind? (s : LiveSpan) (b : Nat) : Option LiveKind :=
  match s.startsIn b, s.endsIn b with
  | true, false => some .atStart
  | false, true => some .atEnd
  | true, true => some .through
  | false, false => none

def phiBlocks (f : Func) (id : Int) (phi : Instr) : Checked (List Nat) :=
  (phi.operands.zipIdx.filter fun (v, _) => v = .instr id).mapM fun (_, n) => do
    f.graph.node (← element phi.targets n)

def wanted (f : Func) (id : Int) (home : Int) : (users : List Int) →
    Checked (List Nat × List Nat)
  | [] => return ([], [])
  | u :: us => do
    let user ← f.instr u
    if user.op = .phi then
      let ends ← phiBlocks f id user
      let (starts, more) ← wanted f id home us
      return (starts, ends ++ more)
    let here ← (user.home.filter (· ≠ home)).toList.mapM f.graph.node
    let (starts, more) ← wanted f id home us
    return (here ++ starts, more)

/-- A value is live at the start of the blocks that lead to a use of it without passing its
definition, and at the end of those from which a phi takes it or a block is entered where it is
live. -/
def compute (f : Func) (id : Int) (home : Int) (users : List Int) : Checked LiveSpan := do
  let (starts, ends) ← wanted f id home users
  let g := f.graph
  let outside := fun (b : Nat) => (b : Int) ≠ home
  let starts := g.reach (fun b => (g.pred b).filter outside) ((ends ++ starts).filter outside)
  return ⟨id, home, starts, ends ++ starts.flatMap g.pred⟩

end LiveSpan

/-- The spans of all values of a function, in ascending order of the values. -/
def Func.liveSpans (f : Func) : Checked (List LiveSpan) := do
  let users ← f.userMap
  let values := (← f.placed).filter fun (_, i) => i.hasResult
  let spans ← values.mapM fun (id, i) => do
    LiveSpan.compute f id (i.home.getD (-1)) (← cell users id)
  return spans.mergeSort fun s t => s.value ≤ t.value

namespace LiveSpan

/-- A value is live at the start of a block. -/
def liveIn (spans : List LiveSpan) (b : Nat) (v : Int) : Bool :=
  spans.any fun s => s.value = v && s.startsIn b

/-- A value is live at the end of a block. -/
def liveOut (spans : List LiveSpan) (b : Nat) (v : Int) : Bool :=
  spans.any fun s => s.value = v && s.endsIn b

def entries (spans : List LiveSpan) (b : Nat) : List (LiveSpan × LiveKind) :=
  [LiveKind.atStart, .atEnd, .through].flatMap fun k =>
    (spans.filter fun s => s.kind? b = some k).map (·, k)

def pressure (spans : List LiveSpan) (b : Nat) : Nat :=
  max (spans.countP (·.startsIn b)) (spans.countP (·.endsIn b))

def entryText (f : Func) (s : LiveSpan) (k : LiveKind) : Checked String := do
  let kind := String.ofList (k.name.toList.rightpad 4 ' ')
  let value ← f.instrName s.value
  if k = .atEnd then return " " ++ kind ++ " " ++ value ++ "\n"
  return " " ++ kind ++ " " ++ value ++ " from " ++ (← f.blockName s.home) ++ "\n"

/-- The pressure of each block and what causes it. -/
def text (f : Func) (spans : List LiveSpan) : Checked String := do
  let blocks ← (List.range f.blocks.size).mapM fun b => do
    let lines ← (entries spans b).mapM fun (s, k) => entryText f s k
    return "\n\nBasic Block: " ++ f.blockLabel b ++ " (pressure " ++
      toString (pressure spans b) ++ ")\n" ++ String.join lines
  return String.join blocks

end LiveSpan

end RegPressure
