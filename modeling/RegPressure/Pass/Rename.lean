import RegPressure.IR.Func

namespace RegPressure

/-- A change of name, of a global where `func` is empty. -/
structure Rename where
  func : String := ""
  old : String
  new : String
  deriving DecidableEq, Repr, Inhabited

namespace Rename

def text (r : Rename) : String :=
  if r.func = "" then "Global rename: " ++ r.old ++ " -> " ++ r.new
  else "Rename in " ++ r.func ++ ": %" ++ r.old ++ " -> %" ++ r.new

def strip (name : String) : String := String.ofList (name.toList.filter (· ≠ '$'))

def free (taken : List String) (name : String) : String :=
  if name ≠ "" && !taken.contains name then name
  else firstFree taken ((if name = "" then "v" else name) ++ ".") 1

/-- New names for a list of names, given the names that are taken. A name that was changed is free
again. -/
def clean (isBad : String → Bool) : (taken names : List String) → List String
  | _, [] => []
  | taken, n :: ns =>
    if isBad n then
      let new := free taken (strip n)
      new :: clean isBad (new :: taken.filter (· ≠ n)) ns
    else n :: clean isBad taken ns

def changes (isBad : String → Bool) (func : String) (old new : List String) : List Rename :=
  ((old.zip new).filter fun p => isBad p.1).map fun p => ⟨func, p.1, p.2⟩

def badGlobal (name : String) : Bool := name.startsWith "$"

def badInstr (name : String) : Bool := name.toList.contains '$'

end Rename

def Symbols.clean (s : Symbols) : Symbols × List Rename :=
  let old := s.globals.map (·.name)
  let new := Rename.clean Rename.badGlobal old old
  ({ s with globals := (s.globals.zip new).map fun (g, name) => { g with name } },
    Rename.changes Rename.badGlobal "" old new)

def Func.clean (f : Func) : Checked (Func × List Rename) := do
  let placed ← f.placed
  let old := placed.map (·.2.name)
  let taken := f.params.map (·.name) ++ old.filter (· ≠ "")
  let new := Rename.clean Rename.badInstr taken old
  let g := (placed.zip new).foldl (fun f ((id, _), name) => f.setInstr id ({ · with name })) f
  return (g, Rename.changes Rename.badInstr f.name old new)

/-- Cleans all names of a module. -/
def Module.clean (m : Module) : Checked (Module × List Rename) := do
  let (symbols, renames) := m.symbols.clean
  let funcs ← m.funcs.mapM Func.clean
  return ({ m with symbols, funcs := funcs.map (·.1) }, renames ++ funcs.flatMap (·.2))

end RegPressure
