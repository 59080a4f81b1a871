import RegPressure.Asm.Parser
import RegPressure.Config.Load
import RegPressure.Diagnostic.Render
import RegPressure.Tool.FileSystem
import RegPressure.Tool.Flag
import RegPressure.Tool.Help
import RegPressure.Tool.Logging

namespace RegPressure

/-- What is printed to the two output streams, and how many octets have gone to the file that is
open for output. -/
structure Printed where
  out : String := ""
  err : String := ""
  offset : Nat := 0
  deriving DecidableEq, Repr, Inhabited

inductive Stop
  /-- The options were wrong, and that has been said. -/
  | usage
  | failed (failures : List Failure)
  /-- The program came to an end that nobody foresaw. -/
  | crashed (f : Fault)
  deriving DecidableEq, Repr

structure Session where
  lang : Lang := .english
  config : Config := {}
  deriving DecidableEq, Repr, Inhabited

structure GlobalOptions where
  lang : String := ""
  configPath : String := ""
  verbose : Bool := false
  deriving DecidableEq, Repr, Inhabited

namespace GlobalOptions

def extract (o : GlobalOptions) : List String → GlobalOptions × List String
  | [] => (o, [])
  | arg :: rest =>
    if !arg.startsWith "-" then (o, arg :: rest)
    else
      let body := arg.toList.dropWhile (· = '-')
      let name := String.ofList (body.takeWhile (· ≠ '='))
      let given := (body.dropWhile (· ≠ '=')).tail
      let keep (r : GlobalOptions × List String) : GlobalOptions × List String :=
        (r.1, arg :: r.2)
      let set (value : String) : GlobalOptions :=
        if name = "lang" then { o with lang := value } else { o with configPath := value }
      if name = "verbose" then extract { o with verbose := true } rest
      else if name ≠ "lang" && name ≠ "config" then keep (extract o rest)
      else if body.contains '=' then extract (set (String.ofList given)) rest
      else
        match rest with
        | [] => (o, [arg])
        | value :: rest => extract (set value) rest

end GlobalOptions

abbrev Environment := String → String

/-- The language that the environment suggests: the first variable that is set decides. -/
def Environment.lang (env : Environment) : Lang :=
  let set := (["LC_ALL", "LC_MESSAGES", "LANGUAGE", "LANG"].map env).find? (· ≠ "")
  match set.map Text.lower with
  | some s => if s.startsWith "zh" || (s.splitOn "chinese").length > 1 then .chinese else .english
  | none => .english

abbrev ToolM (m : Type → Type) := ExceptT Stop (StateT Printed m)

namespace ToolM

variable {m : Type → Type} [Monad m] [FileSystem m]

def files {α : Type} (act : m α) : ToolM m α := liftM (liftM act : StateT Printed m α)

def say (text : String) : ToolM m Unit := modify fun p => { p with out := p.out ++ text }

def warn (text : String) : ToolM m Unit := modify fun p => { p with err := p.err ++ text }

def fail {α : Type} (text : String) : ToolM m α := throw (.failed [.plain text])

/-- A fault outside of the passes ends the program. -/
def checked {α : Type} : Checked α → ToolM m α
  | .ok a => pure a
  | .error f => throw (.crashed f)

end ToolM

def findConfigAbove {m : Type → Type} [Monad m] [FileSystem m] (dir : String) :
    (depth : Nat) → m (Option String)
  | 0 => return none
  | depth + 1 => do
    let path := Path.join dir Config.fileName
    if (← FileSystem.kind? path).isSome then return some path
    let up := Path.dir dir
    if up = dir then return none
    findConfigAbove up depth

def findConfig {m : Type → Type} [Monad m] [FileSystem m] (start : String) : m (Option String) := do
  match ← FileSystem.kind? start with
  | none => return none
  | some kind =>
    let dir := if kind = .directory then start else Path.dir start
    let dir := Path.absolute (← FileSystem.workDir) dir
    findConfigAbove dir (dir.length + 1)

namespace Session

open ToolM

variable {m : Type → Type} [Monad m] [FileSystem m]

def loadConfig (path : String) : ToolM m Config := do
  match ← files (FileSystem.readFile path) with
  | .error e => fail (Config.LoadError.unreadable e.text).message
  | .ok bytes =>
    match Config.load path bytes.toText with
    | .ok c => return c
    | .error (.crashed f) => throw (.crashed f)
    | .error e => fail e.message

def openLog (file : String) : ToolM m Unit := do
  if (← files (FileSystem.openFile false file)) matches .ok () then
    let problem ← match LogTarget.ofName file with
      | .error e => pure (some e)
      | .ok .stream => pure none
      | .ok (.file path) =>
        match ← files (FileSystem.openFile false path) with
        | .error e => pure (some e.text)
        | .ok () => pure none
    if let some text := problem then
      fail ("couldn't open sink " ++ Text.quote file ++ ": " ++ text)

/-- Settles settings, language and logging. An option for the language goes before the settings,
and those before the environment. -/
def start (o : GlobalOptions) (env : Environment) : ToolM m Session := do
  let path? ←
    if o.configPath ≠ "" then pure (some o.configPath)
    else files do findConfig (← FileSystem.workDir)
  let config ← match path? with
    | some path => loadConfig path
    | none => pure {}
  let wish := if o.lang = "" && path?.isSome then config.lang else o.lang
  let lang := if wish ≠ "" then Lang.ofSetting (Text.lower wish) else env.lang
  match LogLevel.choose config.logLevel (o.verbose || LogLevel.wantsDebug (env "MINREG_DEBUG")) with
  | .error text => fail text
  | .ok level =>
    if level.isSome && config.logFile ≠ "" then openLog config.logFile
    return { lang, config }

def help (s : Session) : HelpText := HelpText.of s.lang

/-- Reads the options of a command; a problem is explained together with the options. -/
def flags (s : Session) (command : String) (fs : List Flag) (args : List String) :
    ToolM m (List Flag × List String) := do
  match Flag.parse fs args with
  | .ok r => return r
  | .error problem =>
    warn ((problem.message.map (· ++ "\n")).getD "")
    warn (s.help.usage ++ " minreg " ++ command ++ " [options] <input>...\n\n" ++ Flag.helpAll fs)
    throw .usage

structure Input where
  file : String
  module : Module

def loadInput (path : String) : ToolM m (Except (List Failure) Input) := do
  match ← files (FileSystem.readFile path) with
  | .error e => return .error [.plain ("read " ++ path ++ ": " ++ e.text)]
  | .ok bytes =>
    let p ← checked (parse path bytes)
    if p.errors.isEmpty then return .ok ⟨path, p.module⟩
    return .error ((p.diagnostics path).map .diagnostic)

def loadAll (s : Session) (paths : List String) : ToolM m (List Input × List Failure) := do
  if paths.isEmpty then return ([], [.plain (Message.noInput.text s.lang)])
  let rs ← paths.mapM loadInput
  return (rs.filterMap fun
      | .ok i => some i
      | .error _ => none,
    rs.flatMap fun
      | .ok _ => []
      | .error fs => fs)

def inputs (s : Session) (paths : List String) : ToolM m (List Input) := do
  let (ins, failures) ← s.loadAll paths
  if failures.isEmpty then return ins else throw (.failed failures)

inductive Sink
  | standard
  | file (path : String)
  deriving DecidableEq, Repr

def openSink (path : String) : ToolM m Sink := do
  if path = "" || path = "-" then return .standard
  let dir := Path.dir path
  if dir ≠ "." then
    if let .error e ← files (FileSystem.makeDirs dir) then
      fail ("create " ++ dir ++ ": " ++ e.text)
  match ← files (FileSystem.openFile true path) with
  | .error e => fail e.text
  | .ok () =>
    modify fun p => { p with offset := 0 }
    return .file path

def Sink.put (text : String) : Sink → ToolM m (Option FileError)
  | .standard => do
    say text
    return none
  | .file path => do
    if text = "" then return none
    let content := Bytes.ofString text
    match ← files (FileSystem.writeAt path (← get).offset content) with
    | .error e => return some e
    | .ok () =>
      modify fun p => { p with offset := p.offset + content.length }
      return none

def Sink.writeFor (sink : Sink) (during text : String) : ToolM m Unit := do
  if let some e ← sink.put text then fail (during ++ e.text)

def Sink.write (sink : Sink) (text : String) : ToolM m Unit := sink.writeFor "" text

def closeSink (s : Session) : Sink → ToolM m Unit
  | .standard => return
  | .file path => warn (Message.wroteFile.text s.lang [.text path] ++ "\n")

def withSink {α : Type} (s : Session) (path : String) (body : Sink → ToolM m α) : ToolM m α := do
  let sink ← openSink path
  let result ← tryCatch (Except.ok <$> body sink) fun stop => pure (Except.error stop)
  s.closeSink sink
  match result with
  | .ok a => return a
  | .error stop => throw stop

end Session

end RegPressure
