import RegPressure.Graph.Digraph

namespace RegPressure

/-- A tree of immediate dominators. The root is its own parent, and a node that the root does not
reach has none. `order` lists the nodes of the tree, each behind its parent; `pre` and `post` tell
when a walk around the tree comes to a node and when it leaves it. -/
structure DomTree where
  root : Nat
  idom : Array (Option Nat)
  order : List Nat
  kids : Array (List Nat)
  pre : Array Nat
  post : Array Nat
  deriving DecidableEq, Repr, Inhabited

namespace DomTree

abbrev Parents := Array (Option Nat)

def parent (idom : Parents) (b : Nat) : Option Nat := idom.getD b none

/-- The nearest common ancestor of two nodes. The one that comes later in the order moves up, so
the places of both in the order bound the steps. -/
def intersect (idom : Parents) (rank : Nat → Nat) : (steps : Nat) → (a b : Nat) → Nat
  | 0, a, _ => a
  | n + 1, a, b =>
    if a = b then a
    else if rank b < rank a then intersect idom rank n ((parent idom a).getD a) b
    else intersect idom rank n a ((parent idom b).getD b)

/-- The common ancestor of those predecessors that are in the tree already. -/
def candidate (idom : Parents) (rank : Nat → Nat) (preds : List Nat) : Option Nat :=
  preds.foldl
    (fun best p =>
      if (parent idom p).isNone then best
      else match best with
        | none => some p
        | some q => some (intersect idom rank (rank p + rank q + 1) p q))
    none

def improve (g : Digraph) (rank : Nat → Nat) (s : Parents × Bool) (b : Nat) : Parents × Bool :=
  match candidate s.1 rank (g.pred b) with
  | none => s
  | some d => if parent s.1 b = some d then s else (s.1.setIfInBounds b (some d), true)

/-- One pass over the nodes in their order: the parent of each becomes the nearest common ancestor
of its predecessors in the tree so far. -/
def pass (g : Digraph) (rank : Nat → Nat) (order : List Nat) (idom : Parents) : Parents × Bool :=
  order.foldl (improve g rank) (idom, false)

def settle (g : Digraph) (rank : Nat → Nat) (order : List Nat) : (passes : Nat) → Parents → Parents
  | 0, idom => idom
  | n + 1, idom =>
    match pass g rank order idom with
    | (idom, true) => settle g rank order n idom
    | (idom, false) => idom

def adopt (idom : Parents) (lists : Array (List Nat)) (b : Nat) : Array (List Nat) :=
  match parent idom b with
  | some d => lists.setIfInBounds d (lists.getD d [] ++ [b])
  | none => lists

def childLists (idom : Parents) (nodes : List Nat) : Array (List Nat) :=
  nodes.foldl (adopt idom) (Array.replicate idom.size [])

/-- The numbers given so far on a walk around a tree, and how many nodes it has come to and left. -/
structure Numbering where
  pre : Array Nat
  post : Array Nat
  entered : Nat := 0
  left : Nat := 0

def Numbering.enter (s : Numbering) (b : Nat) : Numbering :=
  { s with pre := s.pre.setIfInBounds b s.entered, entered := s.entered + 1 }

def Numbering.leave (s : Numbering) (b : Nat) : Numbering :=
  { s with post := s.post.setIfInBounds b s.left, left := s.left + 1 }

/-- Numbers a node and all below it, which is at most `depth` nodes deep. -/
def number (kids : Nat → List Nat) : (depth : Nat) → Numbering → Nat → Numbering
  | 0, s, _ => s
  | depth + 1, s, b => ((kids b).foldl (number kids depth) (s.enter b)).leave b

/-- The dominator tree of the nodes that `root` reaches. -/
def compute (g : Digraph) (root : Nat) : DomTree :=
  let order := g.reversePostorder root
  let start := (Array.replicate g.size none).setIfInBounds root (some root)
  let idom := settle g (order.idxOf ·) order.tail (g.size * g.size + 1) start
  let kids := childLists idom order.tail
  let unnumbered := Array.replicate g.size 0
  let numbers := number (kids.getD · []) g.size ⟨unnumbered, unnumbered, 0, 0⟩ root
  { root, idom, order, kids, pre := numbers.pre, post := numbers.post }

def isReachable (t : DomTree) (b : Nat) : Bool := (parent t.idom b).isSome

def idom? (t : DomTree) (b : Nat) : Option Nat := if b = t.root then none else parent t.idom b

def children (t : DomTree) (b : Nat) : List Nat := t.kids.getD b []

/-- Every way from the root to `b` passes `a`. A node that the root does not reach neither
dominates nor is dominated. -/
def dominates (t : DomTree) (a b : Nat) : Bool :=
  t.isReachable a && t.isReachable b && t.pre.getD a 0 ≤ t.pre.getD b 0 &&
    t.post.getD b 0 ≤ t.post.getD a 0

def strictlyDominates (t : DomTree) (a b : Nat) : Bool := a ≠ b && t.dominates a b

end DomTree

namespace Digraph

def exits (g : Digraph) : List Nat :=
  let ends := g.nodes.filter fun b => g.succ b = []
  let canEnd := g.reach g.pred ends
  g.nodes.filter fun b => g.succ b = [] || !canEnd.contains b

def withExit (g : Digraph) : Digraph :=
  let exits := g.exits
  { succs := g.preds.push exits
    preds := (g.succs.mapIdx fun b ss => if exits.contains b then ss ++ [g.size] else ss).push [] }

def dominators (g : Digraph) (entry : Nat) : DomTree := .compute g entry

/-- The tree hangs from an added exit, whose number is the size of the graph. -/
def postDominators (g : Digraph) : DomTree := .compute g.withExit g.size

end Digraph

/-- Dominance and postdominance of the blocks of a function. -/
structure DomInfo where
  dom : DomTree
  pdom : DomTree
  deriving DecidableEq, Repr, Inhabited

namespace DomInfo

def ofGraph (g : Digraph) (entry : Int) : Checked DomInfo := do
  return ⟨g.dominators (← g.node entry), g.postDominators⟩

def compute (f : Func) : Checked DomInfo := ofGraph f.graph (f.entry.getD (-1))

/-- Instruction `a` runs before every run of `b`: their blocks decide, or their places in one
block. -/
def instrDominates (d : DomInfo) (f : Func) (a b : Int) : Checked Bool := do
  let ia ← f.instr a
  let ib ← f.instr b
  match ia.home, ib.home with
  | some x, some y =>
    if x ≠ y then return 0 ≤ x && 0 ≤ y && d.dom.strictlyDominates x.toNat y.toNat
    return (← f.indexOf a) < (← f.indexOf b)
  | _, _ => return false

end DomInfo

end RegPressure
