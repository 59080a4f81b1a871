import RegPressure.IR.WellFormed
import RegPressure.Pass.Basic

namespace RegPressure

/-- The workers, where their number is given, and the jobs done so far. -/
structure Pool where
  workers : Option Nat := none
  executed : Nat := 0
  failed : Nat := 0
  deriving DecidableEq, Repr, Inhabited

namespace Pool

def maxWorkers : Nat := 256

def ofWorkers (n : Int) : Pool :=
  { workers := if n ≤ 0 then none else some (min n.toNat maxWorkers) }

/-- The numbers of `n` jobs. -/
def jobs (n : Int) : Checked (List Nat) :=
  if n < 0 then throw .tooLong else return List.range n.toNat

/-- Runs a job for each item. -/
def run {α β ε : Type} (p : Pool) (items : List α) (job : α → β × Option ε) :
    Pool × List β × List ε :=
  let results := items.map job
  let errors := results.filterMap (·.2)
  ({ p with executed := p.executed + items.length, failed := p.failed + errors.length },
    results.map (·.1), errors)

end Pool

/-- A finding, the pass that made it, and the function it is about. -/
structure Output extends Finding where
  pass : String
  func : String := ""
  index : Option Nat := none
  deriving DecidableEq, Repr, Inhabited

structure PassStats where
  passes : Nat := 0
  changes : Nat := 0
  perPass : List (String × Nat) := []
  deriving DecidableEq, Repr, Inhabited

namespace PassStats

def text (lang : Lang) (s : PassStats) : String :=
  Message.passStats.text lang [.number s.passes, .number s.changes]

/-- Counts the changes of one pass. -/
def count (s : PassStats) (name : String) (n : Nat) : PassStats :=
  if n = 0 then s
  else
    { s with
      changes := s.changes + n
      perPass := (name, (s.perPass.lookup name).getD 0 + n) :: s.perPass.filter (·.1 ≠ name) }

end PassStats

/-- Passes, the workers that run them, and what both have done so far. -/
structure Pipeline where
  passes : List Pass
  pool : Pool := {}
  verifyEach : Bool := true
  stats : PassStats := {}

/-- What a run found, and the errors that ended it. -/
structure RunResult where
  outputs : List Output := []
  changed : Bool := false
  errors : List String := []
  deriving DecidableEq, Repr, Inhabited

def RunResult.isAdvised (r : RunResult) : Bool :=
  r.outputs.any fun o => o.report.any (·.isAdvised)

/-- The one-line form of the errors. -/
def RunResult.message (r : RunResult) : String := "; ".intercalate r.errors

namespace Pipeline

variable (lang : Lang)

def errorText (pass target : String) (isFunc : Bool) : PassError → String
  | .fault f => Message.passFailed.text lang [.text pass, .text target, .text f.message]
  | .reported text => if isFunc then target ++ ": " ++ text else text

/-- What one pass did: the module after it, its outputs and its errors. -/
structure Step where
  pool : Pool
  module : Module
  outputs : List Output := []
  errors : List String := []

def output (p : Pass) (n : Nat) (g : Func) (out : Outcome) : Output :=
  { out.finding with pass := p.name, func := g.name, index := some n }

def funcError (p : Pass) (g : Func) (out : Outcome) : Option String :=
  out.error.map (errorText lang p.name g.name true)

def runFunc (p : Pass) (scope : Option Symbols) (run : Option Symbols → Func → Func × Outcome) :
    Func × Nat → (Func × Output) × Option String := fun (f, n) =>
  let (g, out) := run scope f
  ((g, output p n g out), funcError lang p g out)

def runPass (pool : Pool) (p : Pass) (m : Module) : Step :=
  match p.work with
  | .onFunc run =>
    let (pool, results, errors) := pool.run m.funcs.zipIdx (runFunc lang p (some m.symbols) run)
    ⟨pool, { m with funcs := results.map (·.1) }, results.map (·.2), errors⟩
  | .onModule run =>
    let (m', out) := run m
    ⟨pool, m', [{ out.finding with pass := p.name }],
      (out.error.map (errorText lang p.name m'.name false)).toList⟩
  | .nothing =>
    ⟨pool, m, [],
      ["pass " ++ p.name ++ " implements neither FunctionPass nor ModulePass"]⟩

def verifyAfter (p : Pass) (m : Module) : List String :=
  match m.verify with
  | .ok [] => []
  | .ok ms => ["module invalid after pass " ++ p.name ++ ": " ++ "; ".intercalate ms]
  | .error f => [f.message]

/-- Passes in order on one module. The first error ends a run, and what was found until then is
kept; `cancelled` is asked before each pass. -/
def runAll (verifyEach : Bool) :
    (cancelled : Nat → Bool) → (passes : List Pass) → Pool → PassStats → Module → RunResult →
    (Pool × PassStats) × Module × RunResult
  | _, [], pool, stats, m, r => ((pool, stats), m, r)
  | cancelled, p :: ps, pool, stats, m, r =>
    if cancelled 0 then ((pool, stats), m, { r with errors := ["context canceled"] })
    else
      let step := runPass lang pool p m
      let changes := step.outputs.countP (·.changed)
      let stats := { stats with passes := stats.passes + 1 }.count p.name changes
      let errors :=
        if !step.errors.isEmpty then step.errors
        else if verifyEach && changes > 0 then verifyAfter p step.module
        else []
      let r : RunResult :=
        { outputs := r.outputs ++ step.outputs, changed := r.changed || changes > 0, errors }
      if errors.isEmpty then
        runAll verifyEach (fun n => cancelled (n + 1)) ps step.pool stats step.module r
      else ((step.pool, stats), step.module, r)

def run (cancelled : Nat → Bool) (p : Pipeline) (m : Module) : Pipeline × Module × RunResult :=
  let ((pool, stats), m, r) := runAll lang p.verifyEach cancelled p.passes p.pool p.stats m {}
  ({ p with pool, stats }, m, r)

end Pipeline

end RegPressure
