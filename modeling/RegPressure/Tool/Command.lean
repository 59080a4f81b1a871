import RegPressure.Pass.Pipeline
import RegPressure.Report.Document
import RegPressure.Tool.GraphViewer
import RegPressure.Tool.Session

namespace RegPressure.Session

open ToolM

variable {m : Type → Type} [Monad m] [FileSystem m]

def pipeline (s : Session) (workers : Int) (names : List String) : ToolM m Pipeline :=
  match Pass.ofNames s.lang s.config.settings names with
  | .ok passes => pure { passes, pool := .ofWorkers workers }
  | .error problems => throw (.failed (problems.map .plain))

def workers (s : Session) : Int := s.config.workers.toInt

namespace Input

/-- Runs a pipeline on an input, which becomes what the passes make of it. -/
def run (s : Session) (p : Pipeline) (i : Input) : Pipeline × Input × RunResult :=
  let (p, module, r) := p.run s.lang (fun _ => false) i.module
  (p, { i with module }, r)

/-- The functions with advice on them, as they are now. -/
def advised (i : Input) (r : RunResult) : List Advised :=
  r.outputs.filterMap fun o =>
    match o.report, o.index.bind (i.module.funcs[·]?) with
    | some report, some func => some ⟨func, report⟩
    | _, _ => none

def scope (i : Input) : Option Symbols := some i.module.symbols

def fileOf (i : Input) (a : Advised) : String :=
  if a.func.file ≠ "" then a.func.file else i.file

end Input

def failuresOf (r : RunResult) : List Failure := r.errors.map .plain

def require (failures : List Failure) : ToolM m Unit := do
  if !failures.isEmpty then throw (.failed failures)

def writing : Advised.Format → String
  | .lsp => "write notification: write data to conn: "
  | _ => ""

def writeReports (s : Session) (sink : Sink) (format : String) (i : Input) (r : RunResult) :
    ToolM m Unit := do
  let advised := i.advised r
  for file in (advised.map i.fileOf).eraseDups do
    match Advised.Format.ofName? format with
    | none => fail (Advised.Format.unknown format)
    | some f =>
      let here := advised.filter fun a => i.fileOf a = file
      let cwd ← files FileSystem.workDir
      sink.writeFor (writing f) (← checked (Advised.render s.lang i.scope cwd file here f))

def showReport (s : Session) (dir : String) (viewer : GraphViewer) (i : Input) (a : Advised) :
    ToolM m Unit := do
  let graph ← checked (Dot.graph i.scope a.func (some a.report))
  if dir ≠ "" then
    match ← files (GraphViewer.writeFile dir a.func.name graph) with
    | .error e => fail e
    | .ok path => warn (Message.wroteFile.text s.lang [.text path] ++ "\n")
  if a.report.isAdvised then
    if let (_, some e) ← files (viewer.display a.func.name graph) then
      warn (Message.viewerFailed.text s.lang [.text e] ++ "\n")

def viewer (s : Session) (enabled : Bool) : GraphViewer :=
  { enabled, command := s.config.viewer, dir := s.config.graphDir }

def goFlag (s : Session) : Flag := ⟨"go", .switch false, s.help.optGo⟩

def outputFlag (s : Session) (default : String) : Flag := ⟨"o", .text default, s.help.optOutput⟩

def formatFlag (s : Session) : Flag := ⟨"format", .text s.config.format, s.help.optFormat⟩

def workersFlag (s : Session) : Flag := ⟨"workers", .number s.workers, s.help.optWorkers⟩

def funcFlag (s : Session) : Flag := ⟨"func", .text "", s.help.optFunc⟩

def eachInput {α : Type} (step : Pipeline → Input → ToolM m (Pipeline × α)) :
    Pipeline → List Input → ToolM m (Pipeline × List α)
  | p, [] => return (p, [])
  | p, i :: is => do
    let (p, a) ← step p i
    let (p, rest) ← eachInput step p is
    return (p, a :: rest)

def advise (s : Session) (args : List String) : ToolM m Unit := do
  let (fs, paths) ← s.flags "advise" [s.goFlag, s.formatFlag, s.outputFlag s.config.output,
    ⟨"dot", .text "", s.help.optDotDir⟩, ⟨"view", .switch s.config.showGraphs, s.help.optView⟩,
    s.workersFlag] args
  let ins ← s.inputs paths
  let p ← s.pipeline (Flag.number fs "workers") ["minreg"]
  let viewer := s.viewer (Flag.isOn fs "view")
  let found ← s.withSink (Flag.text fs "o") fun sink => do
    let (_, found) ← eachInput (fun p i => do
      let (p, i, r) := i.run s p
      require (failuresOf r)
      s.writeReports sink (Flag.text fs "format") i r
      (i.advised r).forM (s.showReport (Flag.text fs "dot") viewer i)
      return (p, r.isAdvised)) p ins
    return found.any id
  say ("advised=" ++ (if found then "true" else "false") ++ "\n")

def printFindings (s : Session) (command pass : String) (args : List String) : ToolM m Unit := do
  let (fs, paths) ← s.flags command [s.goFlag, s.outputFlag "", s.funcFlag] args
  let ins ← s.inputs paths
  let p ← s.pipeline s.workers [pass]
  let only := Flag.text fs "func"
  s.withSink (Flag.text fs "o") fun sink => do
    let _ ← eachInput (fun p i => do
      let (p, _, r) := i.run s p
      require (failuresOf r)
      for o in r.outputs do
        if only = "" || o.func = only then
          let head := Message.funcHeader.text s.lang [.text ("@" ++ o.func)]
          let _ ← sink.put (head ++ "\n" ++ o.text ++ "\n")
      return (p, ())) p ins

def transform (s : Session) (command pass : String) (args : List String) : ToolM m Unit := do
  let (fs, paths) ← s.flags command [s.goFlag, s.outputFlag ""] args
  let ins ← s.inputs paths
  let p ← s.pipeline s.workers [pass]
  s.withSink (Flag.text fs "o") fun sink => do
    let (p, _) ← eachInput (fun p i => do
      let (p, i, r) := i.run s p
      require (failuresOf r)
      warn (String.join (r.outputs.map (·.text)))
      sink.write (← checked (Printer.module i.module))
      return (p, ())) p ins
    warn (p.stats.text s.lang ++ "\n")

def runPipeline (s : Session) (args : List String) : ToolM m Unit := do
  let (fs, paths) ← s.flags "run" [s.goFlag,
    ⟨"passes", .text (",".intercalate s.config.passes), s.help.optPasses⟩, s.formatFlag,
    s.outputFlag s.config.output, ⟨"emit", .text "", s.help.optEmit⟩, s.workersFlag] args
  let ins ← s.inputs paths
  let p ← s.pipeline (Flag.number fs "workers") (Text.items (Flag.text fs "passes"))
  let (p, ins) ← s.withSink (Flag.text fs "o") fun sink => do
    eachInput (fun p i => do
      let (p, i, r) := i.run s p
      for o in r.outputs do
        if o.text ≠ "" then
          let _ ← sink.put ("; " ++ o.pass ++ " " ++ o.func ++ "\n" ++ o.text ++ "\n")
      let unwritten ← tryCatch (do s.writeReports sink (Flag.text fs "format") i r; return [])
        fun
          | .failed failures => pure failures
          | stop => throw stop
      require (failuresOf r ++ unwritten)
      (i.advised r).forM (s.showReport "" (s.viewer s.config.showGraphs) i)
      return (p, i)) p ins
  let target := Flag.text fs "emit"
  if target ≠ "" then
    s.withSink target fun sink => do
      for i in ins do
        sink.write (← checked (Printer.module i.module))
  warn (p.stats.text s.lang ++ "\n")

def drawGraphs (s : Session) (args : List String) : ToolM m Unit := do
  let (fs, paths) ← s.flags "dot"
    [s.goFlag, s.funcFlag, ⟨"dir", .text "", s.help.optDotDir⟩] args
  let ins ← s.inputs paths
  let p ← s.pipeline s.workers ["minreg"]
  let only := Flag.text fs "func"
  let dir := Flag.text fs "dir"
  let _ ← eachInput (fun p i => do
    let (p, i, r) := i.run s p
    require (failuresOf r)
    for a in i.advised r do
      if only = "" || a.func.name = only then
        if dir = "" then say (← checked (Dot.graph i.scope a.func (some a.report)))
        else s.showReport dir {} i a
    return (p, ())) p ins

def verify (s : Session) (args : List String) : ToolM m Unit := do
  let (_, paths) ← s.flags "verify" [s.goFlag] args
  let (ins, unread) ← s.loadAll paths
  let bad ← ins.mapM fun i => do
    match ← checked i.module.verify with
    | [] =>
      say (Message.verifyOk.text s.lang [.text i.file, .number i.module.funcs.length] ++ "\n")
      return []
    | problems => return [Failure.plain (i.file ++ ": " ++ "; ".intercalate problems)]
  require (unread ++ bad.flatten)

def createConfig (s : Session) (args : List String) : ToolM m Unit := do
  let (fs, _) ← s.flags "init" [⟨"dir", .text "", s.help.optDir⟩,
    ⟨"force", .switch false, s.help.optForce⟩, ⟨"passes", .text "", s.help.optPasses⟩] args
  let given := Flag.text fs "dir"
  let dir ← if given = "" then files FileSystem.workDir else pure given
  let path := Path.join dir Config.fileName
  if (← files (FileSystem.kind? path)).isSome && !Flag.isOn fs "force" then
    fail (Message.configExists.text s.lang [.text Config.fileName])
  let config := Config.forDir dir
  let passes := Flag.text fs "passes"
  let config := if passes = "" then config else { config with passes := Text.items passes }
  if let some problem := config.problem? then fail problem.message
  match ← files (FileSystem.writeFile path config.text) with
  | .error e => fail ("failed to write config file: " ++ e.text)
  | .ok () => say (Message.configCreated.text s.lang [.text path] ++ "\n")

def dispatch (s : Session) (args : List String) : ToolM m UInt32 := do
  match args with
  | [] => say s.help.overview; return 0
  | command :: rest =>
    match command with
    | "advise" => s.advise rest; return 0
    | "plive" => s.printFindings command "plive" rest; return 0
    | "pwidth" => s.printFindings command "pwidth" rest; return 0
    | "cleanup" => s.transform command "xlcleanup" rest; return 0
    | "assume" => s.transform command "nvassume" rest; return 0
    | "redwidth" => s.transform command "redwidth" rest; return 0
    | "run" => s.runPipeline rest; return 0
    | "dot" => s.drawGraphs rest; return 0
    | "verify" => s.verify rest; return 0
    | "init" => s.createConfig rest; return 0
    | "version" | "-v" | "--version" =>
      say ("minreg version " ++ HelpText.toolVersion ++ "\n")
      return 0
    | "help" | "-h" | "--help" => say s.help.overview; return 0
    | _ =>
      warn (Message.unknownCommand.text s.lang [.text command] ++ "\n\n" ++ s.help.overview)
      return 1

def failureText (failures : List Failure) : m (Checked String) := do
  let names := ((Style.diagnosticsOf failures).map (·.file)).eraseDups
  let sources ← names.mapM fun name => do
    match ← FileSystem.readFile name with
    | .ok bytes => return (name, Source.ofText bytes.toText)
    | .error _ => return (name, [])
  let style : Style := { colors := false }
  return style.report (fun name => (sources.lookup name).getD []) failures

def runTool (args : List String) (env : Environment) : m (Checked (UInt32 × Printed)) := do
  let (options, args) := GlobalOptions.extract {} args
  let act : ToolM m UInt32 := do (← start options env).dispatch args
  let (result, printed) ← act.run.run {}
  match result with
  | .ok code => return .ok (code, printed)
  | .error .usage => return .ok (2, printed)
  | .error (.crashed f) => return .error f
  | .error (.failed failures) =>
    return (← failureText failures).map fun text =>
      (1, { printed with err := printed.err ++ text })

end RegPressure.Session
