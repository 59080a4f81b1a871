import RegPressure.Advice.Report
import RegPressure.Asm.Printer
import RegPressure.Locale.Message
import RegPressure.Text.Json
import RegPressure.Text.Path

namespace RegPressure

structure Advised where
  func : Func
  report : Report
  deriving DecidableEq, Repr, Inhabited

namespace Advised

def blockName (a : Advised) (b : Nat) : Checked String := a.func.blockName b

def blockNames (a : Advised) (bs : List Nat) : Checked (List String) := bs.mapM a.blockName

variable (lang : Lang) (scope : Option Symbols)

def throughText (a : Advised) (bs : List Nat) : Checked String :=
  return Message.through.text lang [.text (" ".intercalate (← a.blockNames bs))]

def chainText (a : Advised) (c : Chain) : Checked String := do
  let head := Message.chainHeader.text lang [.number c.blocks.length] ++ "\n"
  let lines ← c.blocks.mapIdxM fun n b => do
    let through ←
      if n = 0 then pure ""
      else pure ("  " ++ (← a.throughText lang (← element c.between (n - 1 : Nat))) ++ "\n")
    return through ++ "- " ++ (← a.blockName b) ++ "\n"
  return head ++ String.join lines

def recordText (a : Advised) (r : Record) : Checked String := do
  let head := Message.candidatesHeader.text lang
    [.text (← a.blockName r.src), .text (← a.blockName r.dst)]
  let lines ← r.candidates.mapM fun c => do
    return "  " ++ (← Printer.instrAt scope a.func c.instr) ++ "\n"
  return head ++ "\n" ++ (← a.throughText lang r.between) ++ "\n" ++ String.join lines

def funcText (a : Advised) : Checked String := do
  return Message.funcHeader.text lang [.text ("@" ++ a.func.name)] ++ "\n" ++
    String.join (← a.report.chains.mapM (a.chainText lang)) ++
    String.join (← a.report.records.mapM (a.recordText lang scope))

/-- Each function with its chains and candidates, and a summary. -/
def text (as : List Advised) : Checked String := do
  let body := String.join (← as.mapM (·.funcText lang scope))
  let total (count : Report → Nat) : Nat := as.foldl (fun n a => n + count a.report) 0
  let records := total (·.records.length)
  let summary :=
    if records = 0 then Message.noAdvice.text lang
    else Message.summary.text lang
      [.number (total (·.chains.length)), .number records, .number (total (·.candidateCount))]
  return body ++ summary ++ "\n"

end Advised

end RegPressure

/-! ### Documents -/

namespace RegPressure.Advised

open JsonValue (array object)

variable (lang : Lang) (scope : Option Symbols)

private def strings (ss : List String) : JsonValue := array (ss.map .string)

def candidateJson (a : Advised) (c : Candidate) : Checked JsonValue := do
  let i ← a.func.instr c.instr
  let place (key : String) (n : Int) : List (String × JsonValue) :=
    if n = 0 then [] else [(key, .number n)]
  return object <| [("instr", .string (← Printer.instrAt scope a.func c.instr)),
    ("reason", .string c.reason.name), ("round", .number c.round)] ++
    place "line" i.pos.line ++ place "column" i.pos.column

def recordJson (a : Advised) (r : Record) : Checked JsonValue := do
  return object [("src", .string (← a.blockName r.src)), ("dst", .string (← a.blockName r.dst)),
    ("between", strings (← a.blockNames r.between)),
    ("candidates", array (← r.candidates.mapM (a.candidateJson scope)))]

def chainJson (a : Advised) (c : Chain) : Checked JsonValue := do
  return object [("blocks", strings (← a.blockNames c.blocks)),
    ("between", array ((← c.between.mapM a.blockNames).map strings))]

def funcJson (a : Advised) : Checked JsonValue := do
  return object [("name", .string a.func.name),
    ("chains", array (← a.report.chains.mapM a.chainJson)),
    ("records", array (← a.report.records.mapM (a.recordJson scope)))]

def json (file : String) (as : List Advised) : Checked String := do
  let doc := object [("file", .string file), ("advised", .bool (as.any (·.report.isAdvised))),
    ("funcs", array (← as.mapM (·.funcJson scope)))]
  return doc.indented "" ++ "\n"

def rangeJson (a : Advised) (id : Int) (i : Instr) : Checked JsonValue := do
  let width := (← Printer.instrAt scope a.func id).utf8ByteSize
  let line := max 0 (i.pos.line - 1)
  let column := max 0 (i.pos.column - 1)
  let place (column : Int) :=
    object [("line", .number line), ("character", .number column)]
  return object [("start", place column), ("end", place (column + width))]

def hint (uri : String) (a : Advised) (r : Record) (c : Candidate) : Checked JsonValue := do
  let i ← a.func.instr c.instr
  let message := Message.diagCandidate.text lang
    [.text (← a.func.instrName c.instr), .text (← a.blockName r.src), .text (← a.blockName r.dst)]
  let related ←
    match ← a.func.terminator r.dst with
    | none => pure []
    | some t =>
      let range ← a.rangeJson scope t (← a.func.instr t)
      pure [("relatedInformation", array [object [
        ("location", object [("uri", .string uri), ("range", range)]),
        ("message", .string (Message.diagReason.text lang [.text c.reason.name]))]])]
  return object <| [("range", ← a.rangeJson scope c.instr i), ("severity", .number 4),
    ("code", .string c.reason.name), ("source", .string "minreg"), ("message", .string message)] ++
    related

def hints (cwd file : String) (a : Advised) : Checked (List JsonValue) := do
  let file := if a.func.file ≠ "" then a.func.file else file
  let uri := Path.fileUri (Path.absolute cwd file)
  return (← a.report.records.mapM fun r => r.candidates.mapM (a.hint lang scope uri r)).flatten

def notification (cwd file : String) (as : List Advised) : Checked String := do
  let params := object [("uri", .string (Path.fileUri (Path.absolute cwd file))),
    ("diagnostics", array (← as.mapM (·.hints lang scope cwd file)).flatten)]
  let body := (object [("jsonrpc", .string "2.0"),
    ("method", .string "textDocument/publishDiagnostics"), ("params", params)]).compact
  return "Content-Length: " ++ toString body.utf8ByteSize ++ "\r\n\r\n" ++ body

inductive Format
  | text | json | lsp
  deriving DecidableEq, Repr, Inhabited

/-- The format of a name; no name means text. -/
def Format.ofName? : String → Option Format
  | "text" | "" => some .text
  | "json" => some .json
  | "lsp" => some .lsp
  | _ => none

def Format.unknown (name : String) : String := "unknown report format " ++ Text.quote name

def render (cwd file : String) (as : List Advised) : Format → Checked String
  | .text => text lang scope as
  | .json => json scope file as
  | .lsp => notification lang scope cwd file as

end RegPressure.Advised
