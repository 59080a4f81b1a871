import RegPressure.Diagnostic.Basic
import RegPressure.IR.Fault
import RegPressure.Locale.Message
import RegPressure.Number.Word
import RegPressure.Text.Bytes

namespace RegPressure

inductive Color
  | plain
  | red | green | yellow | blue | magenta | cyan | white
  | boldRed | boldGreen | boldYellow | boldBlue | boldCyan
  deriving DecidableEq, Repr, Inhabited

namespace Color

def all : List Color :=
  [.plain, .red, .green, .yellow, .blue, .magenta, .cyan, .white, .boldRed, .boldGreen,
   .boldYellow, .boldBlue, .boldCyan]

def ofNumber? (n : Int) : Option Color := if n < 0 then none else all[n.toNat]?

def parameters : Color → String
  | .plain => "0"
  | .red => "31"
  | .green => "32"
  | .yellow => "33"
  | .blue => "34"
  | .magenta => "35"
  | .cyan => "36"
  | .white => "37"
  | .boldRed => "1;31"
  | .boldGreen => "1;32"
  | .boldYellow => "1;33"
  | .boldBlue => "1;34"
  | .boldCyan => "1;36"

def sequence (c : Color) : String := "\x1b[" ++ c.parameters ++ "m"

def paint (c : Color) (s : String) : String := c.sequence ++ s ++ plain.sequence

end Color

structure Style where
  colors : Bool := true
  showSource : Bool := true
  showHints : Bool := true
  maxContext : Int := 2
  tabWidth : Int := 4
  deriving DecidableEq, Repr, Inhabited

abbrev Source := List String

def Source.ofText (s : String) : Source := s.splitOn "\n"

namespace Style

variable (s : Style)

def paint (c : Color) (text : String) : String := if s.colors then c.paint text else text

def severityColor : Severity → Color
  | .error => .red
  | .warning => .yellow
  | .note => .cyan
  | .help => .green
  | .unknown => .white

def textLimit : Int := 281474976710656

/-- A negative count has no meaning. -/
def replicate (n : Int) (c : Char) : Checked String :=
  if n < 0 then throw .negativeCount
  else if n > textLimit then throw .tooLong
  else return String.ofList (List.replicate n.toNat c)

def expandTabs (line : String) : Checked String := do
  return line.replace "\t" (← replicate s.tabWidth ' ')

def screenColumn (line : String) (column : Int) : Int :=
  let before := (Bytes.ofString line).take (column - 1).toNat
  before.foldl (fun n b => n + if b = 9 then s.tabWidth else 1) 1

def padLeft (width : Nat) (text : String) : String := String.ofList (text.toList.leftpad width ' ')

def lineText (width : Nat) (n : Int) (line : String) : Checked String := do
  return s.paint .blue (padLeft width (toString n)) ++ s.paint .blue " |" ++ " " ++
    (← s.expandTabs line) ++ "\n"

def margin (width : Nat) (line : String) (column : Int) : Checked String :=
  replicate (width + 3 + s.screenColumn line column - 1) ' '

def labelText (source : Source) (width : Nat) (skip : Int) (l : Label) : Checked String := do
  if l.line = skip || l.line ≤ 0 || l.line > source.length then return ""
  let line ← element source (l.line - 1)
  let head ← s.lineText width l.line line
  if l.message = "" then return head
  let margin ← s.margin width line l.column
  let mark ← replicate l.length '^'
  return head ++ margin ++
    s.paint (if l.primary then .red else .yellow) (mark ++ " " ++ l.message) ++ "\n"

def contextText (source : Source) (d : Diagnostic) : Checked String := do
  let last := min (Word.wrap (d.line + s.maxContext)) source.length
  let width := (toString last).length
  let line ← element source (d.line - 1)
  let head ← s.lineText width d.line line
  let margin ← s.margin width line d.column
  let stop := if d.endColumn = 0 then d.column + 1 else d.endColumn
  let mark ← replicate (max (Word.wrap (stop - d.column)) 1) '^'
  let labels ← d.labels.mapM (s.labelText source width d.line)
  return s.paint .blue (String.ofList (List.replicate width ' ') ++ " |") ++ "\n" ++ head ++
    margin ++ s.paint .red mark ++ "\n" ++ String.join labels

def render (source : Source) (d : Diagnostic) : Checked String := do
  let color := severityColor d.severity
  let place := d.file ++ ":" ++ toString d.line ++ ":" ++ toString d.column
  let remark (kind text : String) := s.paint .cyan (" = " ++ kind ++ ":") ++ " " ++ text ++ "\n"
  let context ←
    if s.showSource && 0 < d.line && d.line ≤ source.length then s.contextText source d
    else pure ""
  return s.paint color d.severity.name ++ s.paint color ("[" ++ d.code ++ "]") ++ ": " ++
    d.message ++ "\n" ++ " " ++ s.paint .cyan "-->" ++ " " ++ s.paint .cyan place ++ "\n" ++
    context ++
    String.join (if s.showHints then d.hints.map (remark "help") else []) ++
    String.join (d.notes.map (remark "note"))

variable (sources : String → Source)

def renderAll (ds : List Diagnostic) : Checked String := do
  if ds.isEmpty then return ""
  let texts ← ds.mapM fun d => s.render (sources d.file) d
  let count :=
    if ds.length = 1 then "error: found 1 error"
    else "error: found " ++ toString ds.length ++ " errors"
  return "\n".intercalate texts ++ "\n" ++ s.paint .red count ++ "\n"

def withHints (d : Diagnostic) : Diagnostic :=
  if d.hints.isEmpty then { d with hints := hintsFor d.code } else d

def diagnosticsOf (fs : List Failure) : List Diagnostic :=
  fs.filterMap fun
    | .diagnostic d => some d
    | .plain _ => none

/-- Failures of both kinds: the plain ones come first. -/
def report (fs : List Failure) : Checked String := do
  let plain := fs.filterMap fun
    | .plain text => some (s.paint .red "error" ++ ": " ++ text ++ "\n")
    | .diagnostic _ => none
  return String.join plain ++ (← s.renderAll sources ((diagnosticsOf fs).map withHints))

def asWarning (d : Diagnostic) : Diagnostic := { withHints d with severity := .warning }

def warn (d : Diagnostic) : Checked String := s.render (sources d.file) (asWarning d)

def isSkip : Failure → Bool
  | .diagnostic d => d.code = ErrorCode.unsupported.id
  | .plain _ => false

def reportSkipped (lang : Lang) (fs : List Failure) : Checked (String × List Failure) := do
  let skipped := diagnosticsOf (fs.filter isSkip)
  let texts ← skipped.mapM (s.warn sources)
  let count :=
    if skipped.isEmpty then ""
    else Message.funcsSkipped.text lang [.number skipped.length] ++ "\n"
  return (String.join texts ++ count, fs.filter (!isSkip ·))

end Style

end RegPressure
