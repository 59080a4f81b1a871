import RegPressure.Asm.Printer
import RegPressure.Graph.Dominance
import RegPressure.ValueRange.Interval

namespace RegPressure.ValueRange

def assumeCallee : String := "llvm.assume"

/-- From instruction `site` on, `value` lies in `range`. -/
structure Fact where
  site : Int
  value : Value
  range : Interval
  deriving DecidableEq, Repr

/-- A comparison of a value with a constant, the value on the left. -/
structure Comparison where
  value : Value
  const : Int64
  pred : String

def swapPred : String → String
  | "slt" => "sgt"
  | "sle" => "sge"
  | "sgt" => "slt"
  | "sge" => "sle"
  | "ult" => "ugt"
  | "ule" => "uge"
  | "ugt" => "ult"
  | "uge" => "ule"
  | p => p

def comparison? (cmp : Instr) : Checked (Option Comparison) := do
  let l ← element cmp.operands 0
  let r ← element cmp.operands 1
  match l.isConst, r.isConst with
  | false, true => return r.intConst?.map (⟨l, ·, cmp.pred⟩)
  | true, false => return l.intConst?.map (⟨r, ·, swapPred cmp.pred⟩)
  | _, _ => return none

def factRange? (pred : String) (c : Int64) (bits : Nat) : Option Interval :=
  let all := Interval.full bits
  let c := c.toInt
  let bounds : Option (Int × Int) :=
    match pred with
    | "eq" => some (c, c)
    | "sge" => some (c, all.hi)
    | "sgt" => if c = Word.maxSigned then none else some (c + 1, all.hi)
    | "sle" => some (all.lo, c)
    | "slt" => if c = Word.minSigned then none else some (all.lo, c - 1)
    | "ule" => if c < 0 then none else some (0, c)
    | "ult" => if c ≤ 0 then none else some (0, c - 1)
    | _ => none
  match bounds with
  | some (lo, hi) =>
    let r := Interval.clamp bits lo hi
    if r.isFull then none else some r
  | none => none

def factOf? (f : Func) (id : Int) (i : Instr) : Checked (Option Fact) := do
  if i.op ≠ .call || i.callee ≠ assumeCallee then return none
  match i.operands with
  | [.instr c] =>
    let cmp ← f.instr c
    if cmp.op ≠ .icmp then return none
    match ← comparison? cmp with
    | none => return none
    | some k =>
      match ← f.typeOf k.value with
      | some (.int bits) =>
        if bits > Interval.maxBits then return none
        return (factRange? k.pred k.const bits).map (⟨id, k.value, ·⟩)
      | _ => return none
  | _ => return none

def factsOf (f : Func) : Checked (List Fact) := do
  return (← (← f.placed).mapM fun (id, i) => factOf? f id i).filterMap fun x => x

/-- What the analysis knows of a function beforehand. Without dominance no assumption counts. -/
structure Context where
  func : Func
  dom : Option DomInfo
  facts : List Fact

def Context.of (f : Func) (dom : Option DomInfo) : Checked Context := do
  return ⟨f, dom, ← if dom.isSome then factsOf f else pure []⟩

/-- Intervals worked out so far, and the instructions being worked on. -/
structure Memo where
  known : Array (Option Interval) := #[]
  busy : List Int := []
  deriving DecidableEq, Repr

def Memo.get? (m : Memo) (id : Int) : Option Interval := m.known.getD id.toNat none

def Memo.set (m : Memo) (id : Int) (r : Interval) : Memo :=
  { m with known := m.known.setIfInBounds id.toNat (some r) }

def Memo.empty (f : Func) : Memo := { known := Array.replicate f.instrs.size none }

abbrev RangeM := StateT Memo Checked

/-- Narrows an interval by the assumptions on a value that hold at an instruction. -/
def narrowBy (k : Context) (v : Value) (site : Option Int) (r : Interval) : Checked Interval :=
  match site with
  | none => return r
  | some site =>
    k.facts.foldlM (fun r fact => do
      if !fact.value.sameAs v || fact.range.bits ≠ r.bits then return r
      match k.dom with
      | none => return r
      | some d =>
        if ← d.instrDominates k.func fact.site site then return (r.intersect? fact.range).getD r
        else return r) r

/-- The transfer function of an operation on two operands. -/
def binary? : Op → Option (Interval → Interval → Interval)
  | .add => some .add
  | .sub => some .sub
  | .mul => some .mul
  | .sdiv => some .sdiv
  | .udiv => some .udiv
  | .srem => some .srem
  | .urem => some .urem
  | .and => some .and
  | .or | .xor => some .or
  | .shl => some .shl
  | .ashr => some .ashr
  | .lshr => some .lshr
  | _ => none

def resize? : Op → Option (Interval → Int → Interval)
  | .trunc => some .trunc
  | .sext => some .sext
  | .zext => some .zext
  | _ => none

section Value

variable (k : Context)

/-- The interval of a value at an instruction, by way of the intervals of instructions. -/
def rangeBy (instr : (id : Int) → (bits : Nat) → RangeM Interval) (v : Value) (site : Option Int) :
    RangeM Interval := do
  match ← k.func.typeOf v with
  | some (.int bits) =>
    let r ←
      match v with
      | .int _ c => pure (if bits = 1 && c ≠ 0 then .const 1 (-1) else .const bits c)
      | .instr id => instr id bits
      | _ => pure (.full bits)
    narrowBy k v site r
  | _ => return .full 64

variable (range : Value → (site : Option Int) → RangeM Interval)

def phiRange (i : Instr) (bits : Nat) :
    (rest : List Value) → (n : Nat) → (sofar : Option Interval) → RangeM Interval
  | [], _, sofar => return sofar.getD (.full bits)
  | v :: rest, n, sofar => do
    let site ← k.func.terminator (← element i.targets n)
    let r ← range v site
    if r.isFull then return .full bits
    phiRange i bits rest (n + 1) (some ((sofar.map (·.union r)).getD r))

/-- Works an instruction out from its operands, seen from the instruction itself. -/
def instrValue (id : Int) (i : Instr) (bits : Nat) : RangeM Interval := do
  if bits > Interval.maxBits || !i.ty.isInt then return .full bits
  let operand (n : Nat) : RangeM Interval := do
    range (← element i.operands n) (some id)
  match binary? i.op with
  | some f => return f (← operand 0) (← operand 1)
  | none =>
    match resize? i.op with
    | some f => return f (← operand 0) bits
    | none =>
      match i.op with
      | .select => return (← operand 1).union (← operand 2)
      | .phi => phiRange k range i bits i.operands 0 none
      | _ => return .full bits

/-- The interval of an instruction's result. `depth` bounds the instructions in progress. -/
def instrRange : (depth : Nat) → (id : Int) → (bits : Nat) → RangeM Interval
  | depth, id, bits => do
    match (← get).get? id with
    | some r => return r
    | none =>
      if (← get).busy.contains id then return .full bits
      match depth with
      | 0 => return .full bits
      | depth + 1 =>
        modify fun m => { m with busy := id :: m.busy }
        let r ← instrValue k (rangeBy k (instrRange depth)) id (← k.func.instr id) bits
        modify fun m => { m with busy := m.busy.erase id }
        modify (·.set id r)
        return r

end Value

/-- The interval of a value at an instruction, or anywhere. -/
def rangeAt (k : Context) (v : Value) (site : Option Int) : RangeM Interval :=
  rangeBy k (instrRange k k.func.instrs.size) v site

def rangeOf (k : Context) (id : Int) : RangeM Interval := rangeAt k (.instr id) (some id)

/-! ### The least width of every integer value -/

structure Width where
  instr : Int
  range : Interval
  deriving DecidableEq, Repr

def Width.min (w : Width) : Int := w.range.minWidth

/-- The integer instructions in program order. -/
def widths (f : Func) : Checked (List Width) := do
  let k ← Context.of f (some (← DomInfo.compute f))
  let ints := (← f.placed).filter fun (_, i) => i.ty.isInt
  let go : RangeM (List Width) := ints.mapM fun (id, _) => return ⟨id, ← rangeOf k id⟩
  go.run' (Memo.empty f)

def widthText (scope : Option Symbols) (f : Func) : Checked String := do
  let ws ← widths f
  let lines ← f.blockIds.mapM fun b => do
    let here := ws.filter fun w => ((f.instr? w.instr).bind (·.home)) = some b
    let texts ← here.mapM fun w => do
      return "i" ++ toString w.min ++ "\t" ++ w.range.text ++ "\t= " ++
        (← Printer.instrAt scope f w.instr) ++ "\n"
    return "In " ++ f.blockLabel b ++ "\n" ++ String.join texts
  return String.join lines

end RegPressure.ValueRange
