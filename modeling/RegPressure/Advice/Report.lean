import RegPressure.Advice.Verdict
import RegPressure.Graph.Chain

namespace RegPressure

structure Candidate where
  instr : Int
  reason : Reason
  /-- The scan that admitted it, counted from one. -/
  round : Nat
  deriving DecidableEq, Repr, Inhabited

namespace Collect

def operandsAvailable (f : Func) (d : DomOracle) (dst : Nat) (admitted : List Candidate)
    (user : Int) : List Value → Checked Bool
  | [] => return true
  | .instr id :: rest => do
    if admitted.any (·.instr = id) then operandsAvailable f d dst admitted user rest
    else
      match (← f.instr id).home with
      | none => throw (.breach f.name (.erasedUse (f.instrLabel user) id))
      | some b =>
        if b = dst || (0 ≤ b && d.dominates b.toNat dst) then
          operandsAvailable f d dst admitted user rest
        else return false
  | _ :: rest => operandsAvailable f d dst admitted user rest

def scan (f : Func) (d : DomOracle) (dst round : Nat) :
    List (Int × Reason) → List Candidate → Checked (List Candidate)
  | [], admitted => return admitted
  | (id, reason) :: rest, admitted => do
    let i ← f.instr id
    if !reason.isMovable || admitted.any (·.instr = id) then scan f d dst round rest admitted
    else if ← operandsAvailable f d dst admitted id i.operands then
      scan f d dst round rest (admitted ++ [⟨id, reason, round⟩])
    else scan f d dst round rest admitted

def scans (f : Func) (d : DomOracle) (dst : Nat) (verdicts : List (Int × Reason)) :
    (steps round : Nat) → List Candidate → Checked (List Candidate)
  | 0, _, admitted => return admitted
  | n + 1, round, admitted => do
    let more ← scan f d dst round verdicts admitted
    if more.length = admitted.length then return admitted
    scans f d dst verdicts n (round + 1) more

def inOrder (found : List Candidate) (ids : List Int) : List Candidate :=
  ids.filterMap fun id => found.find? (·.instr = id)

end Collect

/-- The verdict on each of some instructions. -/
def verdictsOn (f : Func) (o : AliasOracle) (region : List Nat) (ids : List Int) :
    Checked (List (Int × Reason)) :=
  ids.mapM fun id => return (id, ← verdict o region (← f.instr id))

def verdicts (f : Func) (o : AliasOracle) (region : List Nat) (src : Nat) :
    Checked (List (Int × Reason)) := do
  verdictsOn f o region (← f.block src).instrs

/-- The instructions that may move from `src` to `dst`, in program order. Each scan goes through the
instructions of `src` in the order given. -/
def collectAlong (f : Func) (d : DomOracle) (o : AliasOracle) (region : List Nat) (src dst : Nat)
    (order : List Int) : Checked (List Candidate) := do
  let vs ← verdictsOn f o region order
  let found ← Collect.scans f d dst vs (vs.length + 1) 1 []
  return Collect.inOrder found (← f.block src).instrs

/-- The instructions of a block that may move to an earlier one: those that may move by themselves
and whose operands are at hand there, or move as well. -/
def collect (f : Func) (d : DomOracle) (o : AliasOracle) (region : List Nat) (src dst : Nat) :
    Checked (List Candidate) := do
  collectAlong f d o region src dst (← f.block src).instrs

/-! ### Advice for a function -/

structure Record where
  src : Nat
  dst : Nat
  between : List Nat
  candidates : List Candidate
  deriving DecidableEq, Repr, Inhabited

/-- The chains of more than one block, and what may move along them. -/
structure Report where
  chains : List Chain := []
  records : List Record := []
  deriving DecidableEq, Repr, Inhabited

namespace Report

def isAdvised (r : Report) : Bool := !r.records.isEmpty

def candidateCount (r : Report) : Nat := r.records.foldl (fun n x => n + x.candidates.length) 0

def chainOf? (r : Report) (b : Nat) : Option Nat := r.chains.findIdx? (·.blocks.contains b)

end Report

/-- The records of one chain, from its last link to its first; a link without candidates has
none. -/
def Chain.records (f : Func) (d : DomOracle) (o : AliasOracle) (c : Chain) :
    Checked (List Record) := do
  let rs ← c.links.reverse.mapM fun ((dst, src), between) => do
    return Record.mk src dst between (← collect f d o between src dst)
  return rs.filter (!·.candidates.isEmpty)

/-- The advice that dominance and memory oracles lead to. -/
def analyze (f : Func) (g : Digraph) (d : DomOracle) (o : AliasOracle) : Checked Report := do
  if g.size = 0 then return {}
  let chains := (Chain.build g d (f.entry.getD (-1))).filter (!·.isTrivial)
  return { chains, records := (← chains.mapM (·.records f d o)).flatten }

/-- The advice for a function by its own dominance and memory model. -/
def advise (scope : Option Symbols) (f : Func) : Checked Report := do
  let info ← DomInfo.compute f
  let model ← Memory.Model.of scope f
  analyze f f.graph info.oracle model.oracle

end RegPressure
