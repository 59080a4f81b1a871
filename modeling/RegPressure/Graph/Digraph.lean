import RegPressure.IR.Func

namespace RegPressure

/-- A graph on the nodes below `succs.size`, with its edges listed from both ends. -/
structure Digraph where
  succs : Array (List Nat)
  preds : Array (List Nat)
  deriving DecidableEq, Repr, Inhabited

namespace Digraph

def size (g : Digraph) : Nat := g.succs.size

def nodes (g : Digraph) : List Nat := List.range g.size

def succ (g : Digraph) (b : Nat) : List Nat := g.succs.getD b []

def pred (g : Digraph) (b : Nat) : List Nat := g.preds.getD b []

def reverse (g : Digraph) : Digraph := ⟨g.preds, g.succs⟩

def nodeBelow (size : Nat) (b : Int) : Checked Nat :=
  if 0 ≤ b && b < size then .ok b.toNat else .error (.index b size)

def node (g : Digraph) (b : Int) : Checked Nat := nodeBelow g.size b

def ofSuccs (succs : Array (List Int)) : Checked Digraph := do
  let succs ← succs.mapM (·.mapM (nodeBelow succs.size))
  let preds := succs.toList.zipIdx.foldl
    (fun preds (ss, b) => ss.foldl (fun preds s => preds.modify s (· ++ [b])) preds)
    (Array.replicate succs.size [])
  return ⟨succs, preds⟩

/-- The nodes met so far, and those that are done, the last one first. -/
structure Search where
  seen : List Nat := []
  done : List Nat := []

def visit (next : Nat → List Nat) : (depth : Nat) → Search → Nat → Search
  | 0, s, _ => s
  | depth + 1, s, b =>
    if s.seen.contains b then s
    else
      let s := (next b).foldl (visit next depth) { s with seen := b :: s.seen }
      { s with done := b :: s.done }

/-- The nodes that a search from `root` meets; every node comes before those it leads to, unless
they close a cycle. -/
def reversePostorder (g : Digraph) (root : Nat) : List Nat :=
  (visit g.succ g.size {} root).done

def reach (g : Digraph) (next : Nat → List Nat) (starts : List Nat) : List Nat :=
  (starts.foldl (visit next g.size) {}).seen

end Digraph

/-- The control flow graph. -/
def Func.graph (f : Func) : Digraph :=
  { succs := f.blocks.map (·.succs.map Int.toNat), preds := f.blocks.map (·.preds.map Int.toNat) }

end RegPressure
