import RegPressure.Graph.Dominance

namespace RegPressure

/-- The nodes on some way from `a` to `b`, both ends left out: met from `a` without entering `b`,
and met backwards from `b` without entering `a`. -/
def Digraph.between (g : Digraph) (a b : Nat) : List Nat :=
  let forward := g.reach (fun x => (g.succ x).filter (· ≠ b)) [a]
  let backward := g.reach (fun x => (g.pred x).filter (· ≠ a)) [b]
  g.nodes.filter fun x => x ≠ a && x ≠ b && forward.contains x && backward.contains x

/-- What chain building asks about a graph. -/
structure DomOracle where
  dominates : Nat → Nat → Bool
  postDominates : Nat → Nat → Bool

def DomInfo.oracle (d : DomInfo) : DomOracle := ⟨d.dom.dominates, d.pdom.dominates⟩

/-- A chain. `between` has one entry for each pair of neighbours. -/
structure Chain where
  blocks : List Nat
  between : List (List Nat) := []
  deriving DecidableEq, Repr, Inhabited

namespace Chain

def isTrivial (c : Chain) : Bool := c.blocks.length ≤ 1

/-- Neighbours in the chain and what lies between them. -/
def links (c : Chain) : List ((Nat × Nat) × List Nat) :=
  (c.blocks.zip c.blocks.tail).zip c.between

def last (c : Chain) : Nat := c.blocks.getLastD 0

def push (g : Digraph) (c : Chain) (b : Nat) : Chain :=
  { blocks := c.blocks ++ [b], between := c.between ++ [g.between c.last b] }

/-- Blocks that have their place, and those set aside to start chains of their own. -/
structure Claims where
  claimed : List Nat
  roots : List Nat := []

def claimSuccs (g : Digraph) (d : DomOracle) (tail : Nat) (k : Claims) : Claims × Option Nat :=
  (g.succ tail).foldl
    (fun (k, next) s =>
      if k.claimed.contains s then (k, next)
      else
        let k := { k with claimed := s :: k.claimed }
        if next.isNone && d.dominates tail s && d.postDominates s tail then (k, some s)
        else ({ k with roots := k.roots ++ [s] }, next))
    (k, none)

def grow (g : Digraph) (d : DomOracle) : (steps : Nat) → Chain → Claims → Chain × Claims
  | 0, c, k => (c, k)
  | n + 1, c, k =>
    match claimSuccs g d c.last k with
    | (k, some b) => grow g d n (c.push g b) k
    | (k, none) => (c, k)

def buildFrom (g : Digraph) (d : DomOracle) :
    (steps : Nat) → (roots : List Nat) → (claimed : List Nat) → List Chain
  | 0, _, _ => []
  | _, [], _ => []
  | n + 1, b :: rest, claimed =>
    let (c, k) := grow g d g.size { blocks := [b] } { claimed }
    c :: buildFrom g d n (k.roots ++ rest) k.claimed

/-- The chains of the blocks that `root` reaches; none if it is no block. -/
def build (g : Digraph) (d : DomOracle) (root : Int) : List Chain :=
  if 0 ≤ root && root < g.size then buildFrom g d g.size [root.toNat] [root.toNat] else []

end Chain

end RegPressure
