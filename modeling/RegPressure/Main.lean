import RegPressure.Tool.Command

namespace RegPressure

private def fileProblem : IO.Error → FileProblem
  | .noFileOrDirectory .. => .notFound
  | e => .other e.toString

private def attempt {α : Type} (action path : String) (act : IO α) : IO (Except FileError α) := do
  try
    return .ok (← act)
  catch e =>
    return .error ⟨action, path, fileProblem e⟩

private def kindOf? (path : String) : IO (Option FileKind) := do
  match ← attempt "open" path (IO.FS.Handle.mk path .read) with
  | .error _ => return none
  | .ok h =>
    match ← attempt "read" path (h.read 1) with
    | .ok _ => return some .file
    | .error _ => return some .directory

instance : FileSystem IO where
  workDir := do return toString (← IO.currentDir)
  kind? := kindOf?
  readFile path := do
    if (← kindOf? path) = some .directory then return .error ⟨"read", path, .isDirectory⟩
    attempt "open" path do return (← IO.FS.readBinFile path).data.toList
  openFile fresh path := attempt "open" path do
    if fresh then IO.FS.writeFile path ""
    else
      let _ ← IO.FS.Handle.mk path .append
  writeAt path offset content := attempt "write" path do
    let old := (← IO.FS.readBinFile path).data.toList
    IO.FS.writeBinFile path ⟨(Bytes.overwrite old offset content).toArray⟩
  makeDirs path := attempt "mkdir" path (IO.FS.createDirAll path)
  launch program _ := do
    return .error ("exec: " ++ Text.quote program ++ ": executable file not found in $PATH")

end RegPressure

open RegPressure in
def main (args : List String) : IO UInt32 := do
  let names := ["LC_ALL", "LC_MESSAGES", "LANGUAGE", "LANG", "MINREG_DEBUG"]
  let values ← names.mapM fun name => do return (name, (← IO.getEnv name).getD "")
  let env : Environment := fun name => (values.lookup name).getD ""
  match ← Session.runTool args env with
  | .ok (code, printed) =>
    (← IO.getStdout).putStr printed.out
    (← IO.getStderr).putStr printed.err
    return code
  | .error f =>
    (← IO.getStderr).putStr (f.message ++ "\n")
    return 2
