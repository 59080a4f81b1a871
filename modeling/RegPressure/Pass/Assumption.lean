import RegPressure.ValueRange.Analysis

namespace RegPressure

/-- A closed interval of signed words. -/
structure Bounds where
  min : Int64
  max : Int64
  deriving DecidableEq, Repr, Inhabited

/-- The bounds of what functions give, by name. -/
structure BoundsTable where
  rows : List (String × Bounds) := []
  deriving DecidableEq, Repr, Inhabited

namespace BoundsTable

def find? (t : BoundsTable) (name : String) : Option Bounds := t.rows.lookup name

def insert (t : BoundsTable) (name : String) (b : Bounds) : BoundsTable :=
  ⟨(name, b) :: t.rows.filter (·.1 ≠ name)⟩

def extend (t : BoundsTable) (rows : List (String × Bounds)) : BoundsTable :=
  rows.foldl (fun t row => t.insert row.1 row.2) t

def names (t : BoundsTable) : List String := (t.rows.map (·.1)).mergeSort (· ≤ ·)

def specialRegisters : BoundsTable :=
  let register (name : String) (min max : Int64) : String × Bounds :=
    ("llvm.nvvm.read.ptx.sreg." ++ name, ⟨min, max⟩)
  ⟨[register "tid.x" 0 1023, register "tid.y" 0 1023, register "tid.z" 0 63,
    register "ntid.x" 1 1023, register "ntid.y" 1 1023, register "ntid.z" 1 63,
    register "ctaid.x" 0 2147483645, register "ctaid.y" 0 65534, register "ctaid.z" 0 65534,
    register "nctaid.x" 1 2147483646, register "nctaid.y" 1 65535, register "nctaid.z" 1 65535,
    register "warpsize" 16 64]⟩

end BoundsTable

namespace Assumption

/-- The bounds of a direct call with an integer result. -/
def boundsOf? (t : BoundsTable) (i : Instr) : Option Bounds :=
  if i.op = .call && i.callee ≠ "" && i.ty.isInt then t.find? i.callee else none

def comparison (f : Func) (id : Int) (call : Instr) (pred : String) (bound : Int64) : Instr :=
  { op := .icmp, ty := .i1, name := f.uniqueName "assume_tmp", pred
    operands := [.instr id, .int (some call.ty) bound], pos := call.pos }

def statement (call : Instr) (condition : Int) : Instr :=
  { op := .call, ty := .void, callee := ValueRange.assumeCallee, operands := [.instr condition]
    pos := call.pos }

def state (f : Func) (id : Int) (call : Instr) (b : Bounds) : Checked Func := do
  let (f, least) ← f.insertAfter id (comparison f id call "sge" b.min)
  let (f, most) ← f.insertAfter least (comparison f id call "sle" b.max)
  let (f, first) ← f.insertAfter most (statement call least)
  return (← f.insertAfter first (statement call most)).1

end Assumption

/-- States the bounds of all calls that the table knows, and says whether there are any. -/
def Func.assumeBounds (t : BoundsTable) (f : Func) : Checked (Func × Bool) := do
  let calls := (← f.placed).filterMap fun (id, i) =>
    (Assumption.boundsOf? t i).map fun b => (id, i, b)
  let g ← calls.foldlM (fun f (id, i, b) => Assumption.state f id i b) f
  return (g, !calls.isEmpty)

def Symbols.declareAssume (s : Symbols) : Symbols :=
  if (s.decl? ValueRange.assumeCallee).isSome then s
  else { s with decls := s.decls ++
    [{ name := ValueRange.assumeCallee, params := [some .i1], ret := some .void }] }

def Module.assumeBounds (t : BoundsTable) (m : Module) : Checked (Module × Bool) := do
  let funcs ← m.funcs.mapM (·.assumeBounds t)
  let any := funcs.any (·.2)
  return ({ m with symbols := if any then m.symbols.declareAssume else m.symbols
                   funcs := funcs.map (·.1) }, any)

end RegPressure
