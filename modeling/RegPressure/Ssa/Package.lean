import RegPressure.Diagnostic.Basic
import RegPressure.IR.WellFormed
import RegPressure.Ssa.Instruction

namespace RegPressure.Ssa

inductive Refusal
  | undefinedValue (name : String)
  | malformed (defects : List String)
  deriving DecidableEq, Repr

def Refusal.message (procedure : String) : Refusal → String
  | .undefinedValue name => procedure ++ ": value " ++ name ++ " is never defined"
  | .malformed defects =>
    procedure ++ " does not lower to a well-formed function: " ++ "; ".intercalate defects

namespace Procedure

def diagnostic (p : Procedure) (r : Refusal) : Diagnostic :=
  { code := ErrorCode.unsupported.id, message := r.message p.fullName, file := p.file
    line := p.pos.line, column := p.pos.column }

/-- The draft of all steps; the parameters are recorded first. -/
def draft (p : Procedure) (globals : List Global) (callees : List Decl) : Draft :=
  let args := (List.range p.params.length).map fun (i : Nat) => some (Value.arg i)
  ((Lowering.blocks p.blocks 0).run
    { types := (p.values.map (·.ty)).toArray, ret := p.results.lower
      values := args.toArray, globals, callees }).2

/-- The function without its body. -/
def head (p : Procedure) : Func :=
  { name := Symbol.legal p.name, ret := p.results.lower, file := p.file
    params := p.params.map fun x => ⟨Symbol.legal x.name, some x.ty.lower⟩ }

/-- The function that a finished draft makes. It belongs to no module yet, so it is refused if it
uses a global symbol. -/
def finish (p : Procedure) (d : Draft) : Checked (Except Refusal Func) := do
  match ← d.fill d.fixups d.body with
  | .error n => return .error (.undefinedValue ((p.values[n]?.map (·.name)).getD ""))
  | .ok body =>
    let (f, edges) := (Draft.build body p.blocks.length p.head).rebuildEdges
    edges
    match ← f.verify none with
    | [] => return .ok f
    | defects => return .error (.malformed defects)

end Procedure

structure Lowered where
  globals : List Global := []
  callees : List Decl := []
  funcs : List Func := []
  errors : List Diagnostic := []
  deriving Repr, Inhabited

def Lowered.add (m : Lowered) (p : Procedure) : Checked Lowered := do
  let d := p.draft m.globals m.callees
  let m := { m with globals := d.globals, callees := d.callees }
  match ← p.finish d with
  | .ok f => return { m with funcs := m.funcs ++ [f] }
  | .error r => return { m with errors := m.errors ++ [p.diagnostic r] }

/-- The module of a package, and the procedures that were left out. Callees that the module does not
define are declared, in the order of their first use. -/
def Package.lower (p : Package) : Checked (Module × List Diagnostic) := do
  let m ← p.procedures.foldlM Lowered.add {}
  let decls := m.callees.filter fun d => !m.funcs.any (·.name = d.name)
  return ({ name := p.path, symbols := ⟨m.globals, decls⟩, funcs := m.funcs }, m.errors)

end RegPressure.Ssa
