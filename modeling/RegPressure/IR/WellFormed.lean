import RegPressure.IR.Func

namespace RegPressure

inductive Defect
  | noBlocks
  | badEntry (entry : Option Int)
  | entryHasPreds (entry : Int)
  | emptyBlock (b : Int)
  | unknownInstr (b id : Int)
  | repeated (id : Int)
  | wrongHome (id : Int) (home : Option Int) (b : Int)
  | latePhi (id b : Int)
  | unterminated (b : Int)
  | earlyTerminator (id b : Int)
  | unknownOperand (user id : Int)
  | unknownArgument (user i : Int)
  | unknownGlobal (user i : Int)
  | unknownTarget (user b : Int)
  | phiArity (id : Int) (values blocks : Nat)
  | unknownSucc (b s : Int)
  | missingPred (b s : Int)
  | unknownPred (b p : Int)
  | missingSucc (p b : Int)
  | phiNotPred (id b : Int)
  deriving DecidableEq, Repr

namespace Defect

def describe (f : Func) : Defect → String
  | .noBlocks => "function has no blocks"
  | .badEntry e => "invalid entry block " ++ idText e
  | .entryHasPreds e => "entry block " ++ f.blockLabel e ++ " has predecessors"
  | .emptyBlock b => "block " ++ f.blockLabel b ++ " is empty"
  | .unknownInstr b id =>
    "block " ++ f.blockLabel b ++ " references unknown instruction " ++ toString id
  | .repeated id => "instruction " ++ f.instrLabel id ++ " appears twice"
  | .wrongHome id home b =>
    "instruction " ++ f.instrLabel id ++ " records block " ++ idText home ++ " but lives in " ++
      f.blockLabel b
  | .latePhi id b => "phi " ++ f.instrLabel id ++ " is not at the start of " ++ f.blockLabel b
  | .unterminated b => "block " ++ f.blockLabel b ++ " does not end with a terminator"
  | .earlyTerminator id b =>
    "terminator " ++ f.instrLabel id ++ " in the middle of " ++ f.blockLabel b
  | .unknownOperand u id => f.instrLabel u ++ " uses unknown instruction " ++ toString id
  | .unknownArgument u i => f.instrLabel u ++ " uses unknown argument " ++ toString i
  | .unknownGlobal u i => f.instrLabel u ++ " uses unknown global " ++ toString i
  | .unknownTarget u b => f.instrLabel u ++ " targets unknown block " ++ toString b
  | .phiArity id n m =>
    "phi " ++ f.instrLabel id ++ " has " ++ toString n ++ " values for " ++ toString m ++ " blocks"
  | .unknownSucc b s => f.blockLabel b ++ " has unknown successor " ++ toString s
  | .missingPred b s =>
    "edge " ++ f.blockLabel b ++ " -> " ++ f.blockLabel s ++ " missing from predecessor list"
  | .unknownPred b p => f.blockLabel b ++ " has unknown predecessor " ++ toString p
  | .missingSucc p b =>
    "edge " ++ f.blockLabel p ++ " -> " ++ f.blockLabel b ++ " missing from successor list"
  | .phiNotPred id b =>
    "phi " ++ f.instrLabel id ++ " names " ++ f.blockLabel b ++ " which is not a predecessor"

def message (f : Func) (d : Defect) : String := f.name ++ ": " ++ d.describe f

end Defect

namespace Func

def operandDefects (scope : Option Symbols) (f : Func) (id : Int) : Value → Checked (List Defect)
  | .instr d => return if f.isLive d then [] else [.unknownOperand id d]
  | .arg i => return if i ≥ f.params.length then [.unknownArgument id i] else []
  | v@(.global i) =>
    return if (← global? scope v).isNone then [.unknownGlobal id i] else []
  | _ => return []

def referenceDefects (scope : Option Symbols) (f : Func) (id : Int) (i : Instr) :
    Checked (List Defect) := do
  let ops ← i.operands.mapM (f.operandDefects scope id)
  let targets := i.targets.filter fun t => (f.block? t).isNone
  let arity :=
    if i.op = .phi && i.targets.length ≠ i.operands.length then
      [.phiArity id i.operands.length i.targets.length]
    else []
  return ops.flatten ++ targets.map (.unknownTarget id) ++ arity

/-- What is wrong with the edges at a block and with the incoming blocks of its phis. -/
def edgeDefects (f : Func) (b : Int) (blk : Block) : Checked (List Defect) := do
  let out := blk.succs.filterMap fun s =>
    match f.block? s with
    | none => some (.unknownSucc b s)
    | some t => if hasPred t b then none else some (.missingPred b s)
  let into := blk.preds.filterMap fun p =>
    match f.block? p with
    | none => some (.unknownPred b p)
    | some t => if hasSucc t b then none else some (.missingSucc p b)
  let phis ← blk.instrs.mapM fun id =>
    match f.instr? id with
    | some i =>
      if i.op = .phi then
        (i.targets.filter fun t => !hasPred blk t).mapM fun t => do
          let _ ← f.block t
          return Defect.phiNotPred id t
      else return []
    | none => return []
  return out ++ into ++ phis.flatten

def bodyDefects (scope : Option Symbols) (f : Func) (b : Int) :
    (rest seen : List Int) → (phis : Bool) → Checked (List Defect)
  | [], _, _ => return []
  | id :: rest, seen, phis => do
    match f.instr? id with
    | none => return .unknownInstr b id :: (← bodyDefects scope f b rest seen phis)
    | some i =>
      let twice := if seen.contains id then [.repeated id] else []
      let home := if i.home ≠ some b then [.wrongHome id i.home b] else []
      let isPhi := i.op = .phi
      let late := if isPhi && !phis then [.latePhi id b] else []
      let ending :=
        match i.op.isTerminator, rest.isEmpty with
        | false, true => [.unterminated b]
        | true, false => [.earlyTerminator id b]
        | _, _ => []
      let refs ← f.referenceDefects scope id i
      let more ← bodyDefects scope f b rest (id :: seen) (phis && isPhi)
      return twice ++ home ++ late ++ ending ++ refs ++ more

def blockDefects (scope : Option Symbols) (f : Func) (seen : List Int) (b : Int) (blk : Block) :
    Checked (List Defect) :=
  if blk.instrs = [] then return [.emptyBlock b]
  else return (← f.bodyDefects scope b blk.instrs seen true) ++ (← f.edgeDefects b blk)

def allBlockDefects (scope : Option Symbols) (f : Func) :
    List Block → (b : Int) → (seen : List Int) → Checked (List Defect)
  | [], _, _ => return []
  | blk :: rest, b, seen => do
    let here ← f.blockDefects scope seen b blk
    return here ++ (← allBlockDefects scope f rest (b + 1) (blk.instrs ++ seen))

def defects (scope : Option Symbols) (f : Func) : Checked (List Defect) := do
  if f.blocks.isEmpty then return [.noBlocks]
  match f.entry.bind f.block? with
  | none => return [.badEntry f.entry]
  | some blk =>
    let entry := if blk.preds = [] then [] else [.entryHasPreds (f.entry.getD (-1))]
    return entry ++ (← f.allBlockDefects scope f.blocks.toList 0 [])

/-- The wording of every broken rule. -/
def verify (scope : Option Symbols) (f : Func) : Checked (List String) :=
  return (← f.defects scope).map (Defect.message f)

end Func

def Module.verify (m : Module) : Checked (List String) :=
  return (← m.funcs.mapM (Func.verify (some m.symbols))).flatten

end RegPressure
