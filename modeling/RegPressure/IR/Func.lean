import RegPressure.IR.Fault
import RegPressure.IR.Instr

namespace RegPressure

structure Param where
  name : String
  ty : Option Ty
  deriving DecidableEq, Repr, Inhabited

structure Block where
  name : String := ""
  instrs : List Int := []
  succs : List Int := []
  preds : List Int := []
  deriving DecidableEq, Repr, Inhabited

structure Global where
  name : String
  ty : Option Ty
  isConst : Bool := false
  deriving DecidableEq, Repr, Inhabited

/-- An external function: what it takes and gives, and whether it touches memory. -/
structure Decl where
  name : String
  params : List (Option Ty) := []
  ret : Option Ty := some .void
  readNone : Bool := false
  readOnly : Bool := false
  deriving DecidableEq, Repr, Inhabited

/-- The names that the functions of a module share. -/
structure Symbols where
  globals : List Global := []
  decls : List Decl := []
  deriving DecidableEq, Repr, Inhabited

/-- A function owns its blocks and instructions and addresses them by number. An erased instruction
leaves its block and keeps its number, and no number is used again. -/
structure Func where
  name : String
  params : List Param := []
  ret : Ty := .void
  blocks : Array Block := #[]
  instrs : Array Instr := #[]
  entry : Option Int := none
  file : String := ""
  deriving DecidableEq, Repr, Inhabited

def idText (id : Option Int) : String := toString (id.getD (-1))

def Symbols.globalIndex? (s : Symbols) (name : String) : Option Nat :=
  s.globals.findIdx? (·.name = name)

def Symbols.decl? (s : Symbols) (name : String) : Option Decl :=
  s.decls.find? (·.name = name)

def firstFree (taken : List String) (stem : String) (n : Nat) : String :=
  let name := stem ++ toString n
  if name ∈ taken then firstFree (taken.erase name) stem (n + 1) else name
termination_by taken.length
decreasing_by
  rename_i h
  rw [List.length_erase_of_mem h]
  exact Nat.sub_one_lt_of_lt (List.length_pos_of_mem h)

namespace Func

def block? (f : Func) (b : Int) : Option Block := if b < 0 then none else f.blocks[b.toNat]?

def instr? (f : Func) (id : Int) : Option Instr := if id < 0 then none else f.instrs[id.toNat]?

def block (f : Func) (b : Int) : Checked Block :=
  match f.block? b with
  | some blk => .ok blk
  | none => .error (.breach f.name (.noBlock b))

def instr (f : Func) (id : Int) : Checked Instr :=
  match f.instr? id with
  | some i => .ok i
  | none => .error (.breach f.name (.noInstr id))

def blockIds (f : Func) : List Int := (List.range f.blocks.size).map Int.ofNat

def instrIds (f : Func) : List Int := (List.range f.instrs.size).map Int.ofNat

/-- The instruction exists and has not been erased. -/
def isLive (f : Func) (id : Int) : Bool :=
  match f.instr? id with
  | some i => !i.isErased
  | none => false

def blockByName? (f : Func) (name : String) : Option Int :=
  (f.blocks.findIdx? (·.name = name)).map Int.ofNat

def succs (f : Func) (b : Int) : Checked (List Int) := return (← f.block b).succs

def preds (f : Func) (b : Int) : Checked (List Int) := return (← f.block b).preds

def blockLabel (f : Func) (b : Int) : String :=
  match f.block? b with
  | some blk => if blk.name ≠ "" then blk.name else "bb" ++ toString b
  | none => "bb" ++ toString b

def blockName (f : Func) (b : Int) : Checked String := do
  let _ ← f.block b
  return f.blockLabel b

def instrLabel (f : Func) (id : Int) : String :=
  match f.instr? id with
  | some i => if i.name ≠ "" then "%" ++ i.name else "%" ++ toString id
  | none => "%" ++ toString id

def instrName (f : Func) (id : Int) : Checked String := do
  let _ ← f.instr id
  return f.instrLabel id

/-- The last instruction of a block, if it is a terminator. -/
def terminator (f : Func) (b : Int) : Checked (Option Int) := do
  match (← f.block b).instrs.getLast? with
  | none => return none
  | some id => return if (← f.instr id).op.isTerminator then some id else none

def firstNonPhi (f : Func) (b : Int) : Checked Nat := do
  let rec go : List Int → Nat → Checked Nat
    | [], n => .ok n
    | id :: rest, n => do
      if (← cell f.instrs id).op ≠ .phi then return n
      go rest (n + 1)
  go (← f.block b).instrs 0

def indexOf (f : Func) (id : Int) : Checked Nat := do
  let i ← f.instr id
  match i.home with
  | none => .error (.breach f.name (.erased id))
  | some b =>
    match (← f.block b).instrs.idxOf? id with
    | some n => return n
    | none => .error (.breach f.name (.misplaced id (f.blockLabel b)))

def addBlock (f : Func) (name : String) : Func × Int :=
  let id : Int := f.blocks.size
  ({ f with blocks := f.blocks.push { name }, entry := f.entry <|> some id }, id)

def setBlock (f : Func) (b : Int) (change : Block → Block) : Func :=
  if b < 0 then f else { f with blocks := f.blocks.modify b.toNat change }

def setInstr (f : Func) (id : Int) (change : Instr → Instr) : Func :=
  if id < 0 then f else { f with instrs := f.instrs.modify id.toNat change }

/-- Puts a new instruction at a position of a block. -/
def insertAt (f : Func) (b pos : Int) (i : Instr) : Checked (Func × Int) := do
  let blk ← f.block b
  if pos < 0 || pos > blk.instrs.length then
    throw (.breach f.name (.insertPosition pos (f.blockLabel b)))
  let id : Int := f.instrs.size
  let f := { f with instrs := f.instrs.push { i with home := some b } }
  return (f.setBlock b fun blk => { blk with instrs := blk.instrs.insertIdx pos.toNat id }, id)

def append (f : Func) (b : Int) (i : Instr) : Checked (Func × Int) := do
  f.insertAt b (← f.block b).instrs.length i

def insertBefore (f : Func) (pos : Int) (i : Instr) : Checked (Func × Int) := do
  let home := (← f.instr pos).home
  let n ← f.indexOf pos
  f.insertAt (home.getD (-1)) n i

def insertAfter (f : Func) (pos : Int) (i : Instr) : Checked (Func × Int) := do
  let home := (← f.instr pos).home
  let n ← f.indexOf pos
  f.insertAt (home.getD (-1)) (n + 1) i

/-- Takes an instruction out of its block. Its uses, if any, are left dangling. -/
def erase (f : Func) (id : Int) : Checked Func := do
  let n ← f.indexOf id
  let home := (← f.instr id).home.getD (-1)
  let f := f.setBlock home fun blk => { blk with instrs := blk.instrs.eraseIdx n }
  return f.setInstr id fun i => { i with home := none }

/-- Every use of `old` in an instruction that is not erased becomes `v`. -/
def replaceAllUses (f : Func) (old : Int) (v : Value) : Func :=
  { f with
    instrs := f.instrs.map fun i =>
      if i.isErased then i
      else { i with operands := i.operands.map fun o => if o = .instr old then v else o } }

def usesOf (i : Instr) (id : Int) : Bool := !i.isErased && i.operands.any (· = .instr id)

/-- The instructions that use `id`, in ascending order. -/
def users (f : Func) (id : Int) : List Int :=
  f.instrIds.filter fun u => (f.instr? u).any (usesOf · id)

def addUser (user : Int) (us : List Int) : List Int :=
  if us.getLast? = some user then us else us ++ [user]

/-- The users of every instruction at once. -/
def userMap (f : Func) : Checked (Array (List Int)) := do
  let step (acc : Array (List Int)) (user : Int) : Value → Checked (Array (List Int))
    | .instr d =>
      if f.isLive d then .ok (acc.modify d.toNat (addUser user))
      else .error (.breach f.name (.danglingUse (f.instrLabel user) d))
    | _ => .ok acc
  f.instrIds.foldlM (fun acc user =>
      match f.instr? user with
      | some i => if i.isErased then .ok acc else i.operands.foldlM (step · user) acc
      | none => .ok acc)
    (Array.replicate f.instrs.size [])

def typeOf (f : Func) : Value → Checked (Option Ty)
  | .instr id => return some (← f.instr id).ty
  | .arg i =>
    if i < f.params.length then return (← element f.params i).ty
    else .error (.breach f.name (.noArgument i))
  | .global _ => .ok (some .ptr)
  | v => .ok v.constTy

def usedNames (f : Func) : List String :=
  f.params.map (·.name) ++
    ((f.instrs.toList.filter fun i => !i.isErased && i.name ≠ "").map (·.name))

def uniqueName (f : Func) (base : String) : String :=
  if base ∈ f.usedNames then firstFree f.usedNames base 1 else base

def hasSucc (b : Block) (s : Int) : Bool := b.succs.contains s

def hasPred (b : Block) (p : Int) : Bool := b.preds.contains p

/-- The text of an operand. A global is named only where the function belongs to a module. -/
def valueName (scope : Option Symbols) (f : Func) : Value → Checked String
  | .instr id => f.instrName id
  | .arg i =>
    if i < f.params.length then do
      let p ← element f.params i
      return if p.name ≠ "" then "%" ++ p.name else "%arg" ++ toString i
    else return "%arg" ++ toString i
  | .global i =>
    match scope with
    | some s =>
      if i < s.globals.length then do return "@" ++ (← element s.globals i).name
      else return "@g" ++ toString i
    | none => return "@g" ++ toString i
  | v => .ok v.constText

def global? (scope : Option Symbols) : Value → Checked (Option Global)
  | .global i =>
    match scope with
    | some s => if i < s.globals.length then some <$> element s.globals i else .ok none
    | none => .ok none
  | _ => .ok none

/-- The instructions in block order, with their numbers. -/
def placed (f : Func) : Checked (List (Int × Instr)) :=
  f.blocks.toList.flatMap (·.instrs) |>.mapM fun id => return (id, ← cell f.instrs id)

def addEdge (f : Func) (b t : Int) : Func × Checked Unit :=
  let f := f.setBlock b fun blk => { blk with succs := blk.succs ++ [t] }
  match f.block t with
  | .ok _ => (f.setBlock t fun blk => { blk with preds := blk.preds ++ [b] }, .ok ())
  | .error e => (f, .error e)

def addEdges (b : Int) : List Int → Func → Func × Checked Unit
  | [], f => (f, .ok ())
  | t :: ts, f =>
    match f.addEdge b t with
    | (f, .ok ()) => addEdges b ts f
    | failed => failed

def fillEdges : List Int → Func → Func × Checked Unit
  | [], f => (f, .ok ())
  | b :: bs, f =>
    match f.terminator b with
    | .error e => (f, .error e)
    | .ok none => fillEdges bs f
    | .ok (some id) =>
      match addEdges b ((f.instr? id).map (·.targets) |>.getD []) f with
      | (f, .ok ()) => fillEdges bs f
      | failed => failed

/-- Reads all edges off the terminators, in block order. A target that is no block stops the work
there, and the edges found so far stay. -/
def rebuildEdges (f : Func) : Func × Checked Unit :=
  let cleared := { f with blocks := f.blocks.map fun b => { b with succs := [], preds := [] } }
  fillEdges f.blockIds cleared

end Func

/-- A compilation unit. -/
structure Module where
  name : String := ""
  symbols : Symbols := {}
  funcs : List Func := []
  deriving DecidableEq, Repr, Inhabited

def Module.func? (m : Module) (name : String) : Option Func := m.funcs.find? (·.name = name)

/-! ### Edits. What an edit did before a fault stays done. -/

abbrev Edit := EStateM Fault Func

namespace Edit

variable {α : Type}

def ask (query : Func → Checked α) : Edit α := fun f =>
  match query f with
  | .ok a => .ok a f
  | .error e => .error e f

/-- Changes the function, unless the change faults. -/
def change (op : Func → Checked (Func × α)) : Edit α := fun f =>
  match op f with
  | .ok (f, a) => .ok a f
  | .error e => .error e f

def insertAt (b pos : Int) (i : Instr) : Edit Int := change (·.insertAt b pos i)

def insertBefore (pos : Int) (i : Instr) : Edit Int := change (·.insertBefore pos i)

def insertAfter (pos : Int) (i : Instr) : Edit Int := change (·.insertAfter pos i)

def erase (id : Int) : Edit Unit := change fun f => return (← f.erase id, ())

/-- The function after an edit, and how the edit ended. -/
def apply (e : Edit α) (f : Func) : Func × Checked α :=
  match e.run f with
  | .ok a f => (f, .ok a)
  | .error e f => (f, .error e)

end Edit

end RegPressure
