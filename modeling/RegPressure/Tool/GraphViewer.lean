import RegPressure.Report.Dot
import RegPressure.Tool.FileSystem

namespace RegPressure

structure GraphViewer where
  enabled : Bool := false
  /-- The program to start; it gets the path of the file. -/
  command : String := ""
  /-- Where the files go; by default among the temporary files. -/
  dir : String := ""
  deriving DecidableEq, Repr, Inhabited

namespace GraphViewer

def tempDir : String := "/tmp"

def fileName (name : String) : String :=
  name.map fun c => if "/\\:*?\"<>| ".toList.contains c then '_' else c

variable {m : Type → Type} [Monad m] [FileSystem m]

def writeFile (dir name graph : String) : m (Except String String) := do
  let dir := if dir = "" then tempDir else dir
  match ← FileSystem.makeDirs dir with
  | .error e => return .error ("create " ++ dir ++ ": " ++ e.text)
  | .ok () =>
    let path := Path.join dir (fileName name ++ ".dot")
    match ← FileSystem.writeFile path graph with
    | .error e => return .error e.text
    | .ok () => return .ok path

def display (v : GraphViewer) (name graph : String) : m (String × Option String) := do
  if !v.enabled then return ("", none)
  match ← writeFile v.dir name graph with
  | .error e => return ("", some e)
  | .ok path =>
    if v.command = "" then return (path, none)
    match ← FileSystem.launch v.command path with
    | .error e => return (path, some ("start " ++ v.command ++ ": " ++ e))
    | .ok () => return (path, none)

end GraphViewer

end RegPressure
