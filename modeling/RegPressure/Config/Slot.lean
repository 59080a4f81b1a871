import RegPressure.Config.Basic

namespace RegPressure.Config

inductive Section
  | analysis | report | log | viz | assume | narrow
  deriving DecidableEq, Repr, Inhabited

def Section.all : List Section := [.analysis, .report, .log, .viz, .assume, .narrow]

def Section.name : Section → String
  | .analysis => "analysis"
  | .report => "report"
  | .log => "log"
  | .viz => "viz"
  | .assume => "assume"
  | .narrow => "narrow"

def Section.ofName? (s : String) : Option Section := Section.all.find? (·.name = s)

def Section.typeName : Section → String
  | .analysis => "config.AnalysisConfig"
  | .report => "config.ReportConfig"
  | .log => "config.LogConfig"
  | .viz => "config.VizConfig"
  | .assume => "config.AssumeConfig"
  | .narrow => "config.NarrowConfig"

inductive Scalar
  | text | number | wide | switch
  deriving DecidableEq, Repr, Inhabited

def Scalar.typeName : Scalar → String
  | .text => "string"
  | .number => "int"
  | .wide => "int64"
  | .switch => "bool"

/-- The settings, by their names in the file. -/
inductive Field
  | passes | workers | format | output | lang | logLevel | logFile | showGraphs | viewer | graphDir
  | ranges | widths
  deriving DecidableEq, Repr, Inhabited

def Field.ofName? : Section → String → Option Field
  | .analysis, "passes" => some .passes
  | .analysis, "workers" => some .workers
  | .report, "format" => some .format
  | .report, "output" => some .output
  | .report, "lang" => some .lang
  | .log, "level" => some .logLevel
  | .log, "file" => some .logFile
  | .viz, "enabled" => some .showGraphs
  | .viz, "viewer" => some .viewer
  | .viz, "dir" => some .graphDir
  | .assume, "range" => some .ranges
  | .narrow, "widths" => some .widths
  | _, _ => none

def Field.scalar? : Field → Option Scalar
  | .ranges => none
  | .workers | .widths => some .number
  | .showGraphs => some .switch
  | _ => some .text

def Field.length? (c : Config) : Field → Option Nat
  | .passes => some c.passes.length
  | .widths => some c.widths.length
  | .ranges => some c.ranges.length
  | _ => none

def Field.extend? (c : Config) (fresh : Bool) : Field → Option Config
  | .passes => some { c with passes := (if fresh then [] else c.passes) ++ [""] }
  | .widths => some { c with widths := (if fresh then [] else c.widths) ++ [0] }
  | .ranges => some { c with ranges := (if fresh then [] else c.ranges) ++ [{}] }
  | _ => none

inductive RangePart
  | name | min | max
  deriving DecidableEq, Repr, Inhabited

def RangePart.ofName? : String → Option RangePart
  | "name" => some .name
  | "min" => some .min
  | "max" => some .max
  | _ => none

def RangePart.scalar : RangePart → Scalar
  | .name => .text
  | _ => .wide

def rangeTypeName : String := "config.AssumeRange"

/-- A place in the settings. -/
inductive Slot
  | root
  | within (sec : Section)
  | field (f : Field)
  /-- The last item of a list. -/
  | item (f : Field)
  /-- A part of the last range. -/
  | rangePart (p : RangePart)
  deriving DecidableEq, Repr, Inhabited

namespace Slot

def child? (name : String) : Slot → Option Slot
  | .root => (Section.ofName? name).map .within
  | .within sec => (Field.ofName? sec name).map .field
  | .item .ranges => (RangePart.ofName? name).map .rangePart
  | _ => none

def scalar? : Slot → Option Scalar
  | .root | .within _ => none
  | .field f | .item f => f.scalar?
  | .rangePart p => some p.scalar

def last? (c : Config) : Slot → Option Slot
  | .field f =>
    match f.length? c with
    | some 0 => none
    | some _ => some (.item f)
    | none => some (.field f)
  | s => some s

end Slot

end RegPressure.Config
