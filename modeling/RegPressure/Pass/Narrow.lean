import RegPressure.IR.Func
import RegPressure.ValueRange.Analysis

namespace RegPressure

namespace Narrow

open ValueRange

def defaultWidths : List Int := [16, 32]

def operandsFit (k : Context) (width : Int) (id : Int) (i : Instr) (unsigned : Bool) :
    RangeM Bool :=
  i.operands.allM fun v => do
    let r ← rangeAt k v (some id)
    return r.fitsIn width && (!unsigned || r.isNonneg)

/-- The low bits of the result of an instruction depend on nothing but the low bits of its
operands, or the operands are small as well. -/
def isLocal (k : Context) (width : Int) (id : Int) (i : Instr) : RangeM Bool := do
  match i.op with
  | .select | .phi | .add | .sub | .mul | .and | .or | .xor => return true
  | .shl =>
    match (← element i.operands 1).intConst? with
    | some c => return 0 ≤ c.toInt && c.toInt < width
    | none => return false
  | .sdiv | .srem | .ashr => operandsFit k width id i false
  | .udiv | .urem | .lshr => operandsFit k width id i true
  | _ => return false

/-- A value can be had at a width, seen from an instruction. A comparison can if its operands can;
`depth` bounds the comparisons of comparisons. -/
def canNarrow (k : Context) (width : Int) : (depth : Nat) → Value → (site : Int) → RangeM Bool
  | 0, _, _ => throw .endless
  | depth + 1, v, site => do
    match v with
    | .instr id =>
      let i ← k.func.instr id
      if i.op = .icmp then i.operands.allM fun v => canNarrow k width depth v id
      else if !i.ty.isInt || (i.ty.bits : Int) ≤ width then return false
      else if (← rangeAt k v (some site)).fitsIn width then isLocal k width id i
      else return false
    | _ => return false

/-- The first instruction that can be narrowed, with the first width that it can be narrowed to. -/
def candidate? (k : Context) (widths : List Int) : RangeM (Option (Int × Int)) := do
  let places := k.func.blocks.toList.flatMap fun b =>
    b.instrs.flatMap fun id => widths.map fun w => (id, w)
  let rec go : List (Int × Int) → RangeM (Option (Int × Int))
    | [] => return none
    | (id, w) :: rest => do
      let _ ← k.func.instr id
      if ← canNarrow k w (k.func.instrs.size + 1) (.instr id) id then return some (id, w)
      go rest
  go places

def lowBits (c : Int64) (bits : Nat) : Int64 :=
  if bits ≥ 64 then c else Int64.ofInt (c.toInt.bmod (Nat.pow 2 bits))

/-- A truncation or a sign extension stands for its source. -/
def source (f : Func) (v : Value) (bits : Nat) (target : Ty) : Checked (Value × Nat) := do
  match v with
  | .instr id =>
    let cast ← f.instr id
    if !cast.op.isCast then return (v, bits)
    let src ← element cast.operands 0
    match ← f.typeOf src with
    | some (.int sb) =>
      if sb = target.bits || cast.op = .sext || cast.op = .trunc then return (src, sb)
      else return (v, bits)
    | _ => return (v, bits)
  | _ => return (v, bits)

variable (scope : Option Symbols)

def refuse {α : Type} (v : Value) (cause : String → Breach) : Edit α := do
  let f ← get
  throw (.breach f.name (cause (← Edit.ask (·.valueName scope v))))

/-- The value `v` at the width of the integer type `target`. A cast goes right behind the
definition, or behind the phis of its block. -/
def resize (v : Value) (target : Ty) : Edit Value := do
  match ← Edit.ask (·.typeOf v) with
  | some (.int bits) =>
    if bits = target.bits then return v
    let (v, bits) ← Edit.ask (source · v bits target)
    if bits = target.bits then return v
    if let some c := v.intConst? then return .int (some target) (lowBits c target.bits)
    let cast : Instr :=
      { op := if bits > target.bits then .trunc else .sext, ty := target, operands := [v] }
    match v with
    | .instr id =>
      let i ← Edit.ask (·.instr id)
      let cast := { cast with pos := i.pos }
      if i.op = .phi then
        let b := i.home.getD (-1)
        return .instr (← Edit.insertAt b (← Edit.ask (·.firstNonPhi b)) cast)
      return .instr (← Edit.insertAfter id cast)
    | .arg _ =>
      let b := (← get).entry.getD (-1)
      return .instr (← Edit.insertAt b (← Edit.ask (·.firstNonPhi b)) cast)
    | _ => refuse scope v .resize
  | _ => refuse scope v .resizeNonInteger

def narrowOperands (i : Instr) (target : Ty) : Edit (List Value) := do
  let operand (n : Nat) : Edit Value := Edit.ask fun _ => element i.operands n
  match i.op with
  | .icmp => return [← resize scope (← operand 0) target, ← resize scope (← operand 1) target]
  | .select =>
    return [← operand 0, ← resize scope (← operand 1) target, ← resize scope (← operand 2) target]
  | _ => i.operands.mapM fun v => resize scope v target

/-- Puts the narrow form of an instruction in its place. It keeps the name. -/
def convert (id : Int) (width : Int) : Edit Unit := do
  let i ← Edit.ask (·.instr id)
  let target := Ty.int width.toNat
  let operands ← narrowOperands scope i target
  let ty := if i.op = .icmp then .i1 else target
  let new ← Edit.insertBefore id
    { op := i.op, ty, operands, pred := i.pred, targets := i.targets, pos := i.pos }
  let wide ← resize scope (.instr new) i.ty
  modify (·.replaceAllUses id wide)
  Edit.erase id
  modify (·.setInstr new ({ · with name := i.name }))

/-- Converts one instruction after the other, at most `steps` times, and says whether there was
any. -/
def convertAll (dom : DomInfo) (widths : List Int) : (steps : Nat) → Edit Bool
  | 0 => throw .endless
  | steps + 1 => do
    let next ← Edit.ask fun f => do
      let k ← Context.of f (some dom)
      (candidate? k widths).run' (Memo.empty f)
    match next with
    | none => return false
    | some (id, w) =>
      convert scope id w
      let _ ← convertAll dom widths steps
      return true

def isResize : Op → Bool
  | .trunc | .sext | .zext => true
  | _ => false

/-- Erases casts without users until there are none, in at most `rounds` rounds. -/
def eraseDeadCasts : (rounds : Nat) → Edit Unit
  | 0 => throw .endless
  | rounds + 1 => do
    let f ← get
    let users ← Edit.ask (·.userMap)
    let dead := f.instrIds.filter fun id =>
      (f.instr? id).any (fun i => !i.isErased && isResize i.op) && users.getD id.toNat [] = []
    if dead.isEmpty then return
    dead.forM Edit.erase
    eraseDeadCasts rounds

end Narrow

open Narrow in
/-- Narrows all that can be narrowed to one of the widths, and says whether that is anything. Every
operation gets narrower each time and a comparison gets a cast, after which it stays, so the number of
steps is bounded. Only a comparison of comparisons gets none at one bit, and may be done so for ever. -/
def narrow (scope : Option Symbols) (widths : List Int) : Edit Bool := do
  let widths := if widths.isEmpty then defaultWidths else widths
  let dom ← Edit.ask DomInfo.compute
  let changed ← convertAll scope dom widths ((← get).instrs.size * (widths.length + 1) + 1)
  if changed then eraseDeadCasts ((← get).instrs.size + 1)
  return changed

end RegPressure
