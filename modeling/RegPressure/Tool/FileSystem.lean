import RegPressure.Text.Path

namespace RegPressure

inductive FileProblem
  | notFound
  | isDirectory
  | notDirectory
  | alreadyThere
  | nameTooLong
  /-- The path has a character that no path can have. -/
  | invalid
  | notAllowed
  | noSpace
  | other (text : String)
  deriving DecidableEq, Repr, Inhabited

def FileProblem.text : FileProblem → String
  | .notFound => "no such file or directory"
  | .isDirectory => "is a directory"
  | .notDirectory => "not a directory"
  | .alreadyThere => "file exists"
  | .nameTooLong => "file name too long"
  | .invalid => "invalid argument"
  | .notAllowed => "permission denied"
  | .noSpace => "no space left on device"
  | .other text => text

structure FileError where
  action : String
  path : String
  problem : FileProblem
  deriving DecidableEq, Repr, Inhabited

def FileError.text (e : FileError) : String := e.action ++ " " ++ e.path ++ ": " ++ e.problem.text

inductive FileKind
  | file
  | directory
  deriving DecidableEq, Repr, Inhabited

class FileSystem (m : Type → Type) where
  workDir : m String
  kind? : String → m (Option FileKind)
  readFile : String → m (Except FileError Bytes)
  /-- Opens a file for writing. It is created if it is missing, and emptied if `fresh`. -/
  openFile : (fresh : Bool) → String → m (Except FileError Unit)
  /-- Writes to an open file from an offset on. -/
  writeAt : String → Nat → Bytes → m (Except FileError Unit)
  /-- Creates a directory and those above it, as far as they are missing. -/
  makeDirs : String → m (Except FileError Unit)
  /-- Starts a program on a file and does not wait for it. -/
  launch : String → String → m (Except String Unit)

def FileSystem.writeFile {m : Type → Type} [Monad m] [FileSystem m] (path text : String) :
    m (Except FileError Unit) := do
  match ← openFile true path with
  | .error e => return .error e
  | .ok () => writeAt path 0 (Bytes.ofString text)

def Bytes.overwrite (old : Bytes) (offset : Nat) (new : Bytes) : Bytes :=
  old.take offset ++ List.replicate (offset - old.length) 0 ++ new ++
    old.drop (offset + new.length)

/-- Files and directories by absolute path, and the programs that can be started. A device is a
file that holds nothing and keeps nothing; it may even refuse what is written to it. -/
structure Disk where
  workDir : String := "/"
  files : List (String × Bytes) := []
  dirs : List String := []
  devices : List (String × Option FileProblem) := []
  programs : List String := []
  deriving DecidableEq, Repr, Inhabited

namespace Disk

def file? (d : Disk) (path : String) : Option Bytes := d.files.lookup path

def device? (d : Disk) (path : String) : Option (Option FileProblem) := d.devices.lookup path

def isBelow (path below : String) : Bool := path = "/" || below.startsWith (path ++ "/")

def isDir (d : Disk) (path : String) : Bool :=
  path = "/" || path = d.workDir || d.dirs.contains path || isBelow path d.workDir ||
    d.dirs.any (isBelow path) || d.files.any fun f => isBelow path f.1

def kindAt (d : Disk) (path : String) : Option FileKind :=
  if (d.file? path).isSome || (d.device? path).isSome then some .file
  else if d.isDir path then some .directory
  else none

def pathLimit : Nat := 4095

def nameLimit : Nat := 255

def isDots (name : String) : Bool := name = "." || name = ".."

/-- Where a component leads from a directory, and what is there. -/
def step (d : Disk) (dir name : String) : Except FileProblem (String × Option FileKind) :=
  if name = "." then .ok (dir, some .directory)
  else if name = ".." then .ok (Path.dir dir, some .directory)
  else if name.utf8ByteSize > nameLimit then .error .nameTooLong
  else
    let here := Path.join dir name
    .ok (here, d.kindAt here)

/-- Follows components, each of which must be a directory. -/
def enter (d : Disk) (dir : String) : List String → Except FileProblem String
  | [] => .ok dir
  | name :: rest => do
    match ← d.step dir name with
    | (here, some .directory) => d.enter here rest
    | (_, some .file) => .error .notDirectory
    | (_, none) => .error .notFound

/-- A path taken apart: the directory that holds its last component, that component, and whether
a slash follows it. The root has none: it is the dot in itself. -/
structure Place where
  dir : String
  name : String
  slash : Bool
  deriving DecidableEq, Repr, Inhabited

def place (d : Disk) (path : String) : Except FileProblem Place := do
  if path.toList.contains '\x00' then throw .invalid
  if path.utf8ByteSize > pathLimit then throw .nameTooLong
  if path = "" then throw .notFound
  let parts := (path.splitOn "/").filter (· ≠ "")
  let start := if Path.isAbsolute path then "/" else d.workDir
  return ⟨← d.enter start parts.dropLast, parts.getLast?.getD ".", path.endsWith "/"⟩

def locate (d : Disk) (path : String) : Except FileProblem (String × FileKind) := do
  let p ← d.place path
  match ← d.step p.dir p.name with
  | (_, none) => throw .notFound
  | (here, some .directory) => return (here, .directory)
  | (here, some .file) => if p.slash then throw .notDirectory else return (here, .file)

def find (d : Disk) (path : String) : Except FileProblem FileKind := (·.2) <$> d.locate path

def read (d : Disk) (path : String) : Except FileError Bytes :=
  match d.locate path with
  | .ok (here, .file) => .ok ((d.file? here).getD [])
  | .ok (_, .directory) => .error ⟨"read", path, .isDirectory⟩
  | .error e => .error ⟨"open", path, e⟩

def put (d : Disk) (path : String) (content : Bytes) : Disk :=
  { d with files := (path, content) :: d.files.filter (·.1 ≠ path) }

/-- Where a file is that is to be written, and whether it is there yet. -/
def target (d : Disk) (path : String) : Except FileProblem (String × Bool) := do
  let p ← d.place path
  if p.slash && !isDots p.name then throw .isDirectory
  match ← d.step p.dir p.name with
  | (_, some .directory) => throw .isDirectory
  | (here, kind) => return (here, kind.isSome)

def openFile (d : Disk) (fresh : Bool) (path : String) : Except FileError Disk :=
  match d.target path with
  | .error e => .error ⟨"open", path, e⟩
  | .ok (here, isThere) =>
    if (d.device? here).isSome || (isThere && !fresh) then .ok d else .ok (d.put here [])

def writeAt (d : Disk) (path : String) (offset : Nat) (content : Bytes) :
    Except FileError Disk :=
  match d.target path with
  | .error e => .error ⟨"write", path, e⟩
  | .ok (here, _) =>
    match d.device? here with
    | some none => .ok d
    | some (some problem) => .error ⟨"write", path, problem⟩
    | none => .ok (d.put here (((d.file? here).getD []).overwrite offset content))

def makeDir (d : Disk) (path : String) : Except FileProblem Disk := do
  let p ← d.place path
  match ← d.step p.dir p.name with
  | (_, some _) => throw .alreadyThere
  | (here, none) => return { d with dirs := here :: d.dirs }

def parent? (path : String) : Option String :=
  let cs := (path.toList.reverse.dropWhile (· = '/')).dropWhile (· ≠ '/')
  match cs with
  | _ :: c :: cs => some (String.ofList (c :: cs).reverse)
  | _ => none

def makeDirsWithin (d : Disk) (path : String) : (depth : Nat) → Except FileError Unit × Disk
  | 0 => (.error ⟨"mkdir", path, .notFound⟩, d)
  | depth + 1 =>
    match d.find path with
    | .ok .directory => (.ok (), d)
    | .ok .file => (.error ⟨"mkdir", path, .notDirectory⟩, d)
    | .error _ =>
      let above := match parent? path with
        | some up => makeDirsWithin d up depth
        | none => (.ok (), d)
      match above with
      | (.error e, d) => (.error e, d)
      | (.ok (), d) =>
        match d.makeDir path with
        | .ok d => (.ok (), d)
        | .error e =>
          if d.find path matches .ok .directory then (.ok (), d)
          else (.error ⟨"mkdir", path, e⟩, d)

def makeDirs (d : Disk) (path : String) : Except FileError Unit × Disk :=
  d.makeDirsWithin path (path.length + 1)

def launch (d : Disk) (program : String) : Except String Unit :=
  if d.programs.contains program then .ok ()
  else if Path.base program = program then
    .error ("exec: " ++ Text.quote program ++ ": " ++
      if program = "/" then FileProblem.isDirectory.text else "executable file not found in $PATH")
  else
    let problem := match d.find program with
      | .ok _ => .notAllowed
      | .error e => e
    .error (FileError.text ⟨"fork/exec", program, problem⟩)

def ofFiles (workDir : String) (files : List (String × String)) : Disk where
  workDir
  files := files.map fun (path, text) => (Path.join workDir path, Bytes.ofString text)
  dirs := ["/bin", "/boot", "/dev", "/etc", "/home", "/lib", "/media", "/mnt", "/opt", "/proc",
    "/root", "/run", "/sbin", "/srv", "/sys", "/tmp", "/usr/bin", "/usr/lib", "/usr/local/bin",
    "/usr/sbin", "/usr/share", "/var/lib", "/var/log", "/var/tmp"]
  devices := [("/dev/null", none), ("/dev/full", some .noSpace)]
  programs := ["", "/bin/", "/usr/bin/"].flatMap fun dir =>
    ["true", "false", "echo", "cat", "ls", "sh"].map (dir ++ ·)

def changes (before after : Disk) : List (String × Bytes) :=
  (after.files.filter fun f => isBelow after.workDir f.1 && before.file? f.1 ≠ some f.2).map
    fun (path, content) => (String.ofList (path.toList.drop (after.workDir.length + 1)), content)

private def keep (d : Disk) : Except FileError Disk → Except FileError Unit × Disk
  | .ok d => (.ok (), d)
  | .error e => (.error e, d)

instance : FileSystem (StateM Disk) where
  workDir := do return (← get).workDir
  kind? path := do return ((← get).find path).toOption
  readFile path := do return (← get).read path
  openFile fresh path := modifyGet fun d => d.keep (d.openFile fresh path)
  writeAt path offset content := modifyGet fun d => d.keep (d.writeAt path offset content)
  makeDirs path := modifyGet fun d => d.makeDirs path
  launch program _ := do return (← get).launch program

end Disk

end RegPressure
