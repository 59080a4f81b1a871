import RegPressure.Advice.Report
import RegPressure.Liveness
import RegPressure.Locale.Message
import RegPressure.Pass.Assumption
import RegPressure.Pass.Narrow
import RegPressure.Pass.Rename
import RegPressure.ValueRange.Analysis

namespace RegPressure

/-- What a pass has to say about a function or a module. -/
structure Finding where
  changed : Bool := false
  report : Option Report := none
  text : String := ""
  deriving DecidableEq, Repr, Inhabited

inductive PassError
  | fault (f : Fault)
  | reported (text : String)
  deriving DecidableEq, Repr

/-- How a pass ended. A fault leaves no finding. -/
structure Outcome where
  finding : Finding := {}
  error : Option PassError := none
  deriving DecidableEq, Repr

def Outcome.ofChecked : Checked Finding → Outcome
  | .ok finding => { finding }
  | .error f => { error := some (.fault f) }

inductive Pass.Work
  | onFunc (run : Option Symbols → Func → Func × Outcome)
  | onModule (run : Module → Module × Outcome)
  | nothing

structure Pass where
  name : String
  work : Pass.Work

/-- What the passes can be told. -/
structure PassSettings where
  ranges : List (String × Bounds) := []
  widths : List Int := Narrow.defaultWidths
  deriving DecidableEq, Repr, Inhabited

namespace Pass

def ofQuery (name : String) (query : Option Symbols → Func → Checked Finding) : Pass :=
  ⟨name, .onFunc fun scope f => (f, .ofChecked (query scope f))⟩

def ofChange (name : String) (change : Module → Checked (Module × Finding)) : Pass :=
  ⟨name, .onModule fun m =>
    match change m with
    | .ok (m, finding) => (m, { finding })
    | .error f => (m, { error := some (.fault f) })⟩

def advice : Pass := ofQuery "minreg" fun scope f => do
  return { report := some (← advise scope f) }

def liveValues : Pass := ofQuery "plive" fun _ f => do
  return { text := ← LiveSpan.text f (← f.liveSpans) }

/-- The least widths of integer values. -/
def leastWidths : Pass := ofQuery "pwidth" fun scope f => do
  return { text := ← ValueRange.widthText scope f }

def cleanNames : Pass := ofChange "xlcleanup" fun m => do
  let (m, renames) ← m.clean
  let text := String.join (renames.map fun r => r.text ++ "\n")
  return (m, { changed := !renames.isEmpty, text })

/-- Assumptions on special registers. -/
def assumeBounds (s : PassSettings) : Pass := ofChange "nvassume" fun m => do
  let (m, changed) ← m.assumeBounds (BoundsTable.specialRegisters.extend s.ranges)
  return (m, { changed })

def narrowWidths (s : PassSettings) : Pass :=
  ⟨"redwidth", .onFunc fun scope f =>
    let (f, r) := (narrow scope s.widths).apply f
    (f, .ofChecked (return { changed := ← r }))⟩

def all (s : PassSettings) : List Pass :=
  [advice, assumeBounds s, liveValues, leastWidths, narrowWidths s, cleanNames]

def names : List String := (all {}).map (·.name)

def ofName? (s : PassSettings) (name : String) : Option Pass := (all s).find? (·.name = name)

def unknown (lang : Lang) (name : String) : String := Message.unknownPass.text lang [.text name]

def ofNames (lang : Lang) (s : PassSettings) (names : List String) :
    Except (List String) (List Pass) :=
  match names.filter fun n => (ofName? s n).isNone with
  | [] => .ok (names.filterMap (ofName? s))
  | bad => .error (bad.map (unknown lang))

end Pass

end RegPressure
