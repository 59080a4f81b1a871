import RegPressure.Ssa.Lowering

namespace RegPressure.Ssa.Lowering

def index32 (n : Int) : Value := .int (some .i32) (.ofInt n)

def pack (site : Site) (ret : Ty) : List Operand → (i : Nat) → (agg : Value) → Lowering Value
  | [], _, agg => return agg
  | x :: xs, i, agg => do
    let id ← add site { op := .insertvalue, ty := ret, operands := [agg] } [x]
    append id (index32 i)
    pack site ret xs (i + 1) (.instr id)

def returnStep (site : Site) : List Operand → Lowering Nat
  | [] => add site { op := .ret } []
  | [x] => add site { op := .ret } [x]
  | xs => do
    let ret := (← get).ret
    let agg ← pack site ret xs 0 (.undef (some ret))
    add site { op := .ret, operands := [agg] } []

def compareStep (site : Site) (r : Relation) (ret : Ty) (x y : Operand) : Lowering Nat := do
  let t ← typeOf x
  if !t.isScalar then callOut site "binop" ret [x, y]
  else if t.isFloat then add site { op := .fcmp, ty := .i1, pred := r.floatPred } [x, y]
  else if t.isInteger || r.isEquality then
    add site { op := .icmp, ty := .i1, pred := r.wordPred t.isUnsigned } [x, y]
  else callOut site "binop" .i1 [x, y]

def shiftStep (site : Site) (op : Op) (ty : Ty) (x y : Operand) : Lowering Nat := do
  match y with
  | .const _ l => addWith site { op, ty } x l.shiftAmount
  | _ =>
    let width := (← typeOf y).lower.bits
    if width = ty.bits then add site { op, ty } [x, y]
    else
      let cast := if ty.bits < width then .trunc else .zext
      let amount ← add site { op := cast, ty } [y]
      let id ← add site { op, ty } [x]
      append id (.instr amount)
      return id

def clearStep (site : Site) (ty : Ty) (x y : Operand) : Lowering Nat := do
  let mask ← addWith site { op := .xor, ty } y (-1)
  let id ← add site { op := .and, ty } [x]
  append id (.instr mask)
  return id

def arithStep (site : Site) (a : Arith) (ty : Ty) (x y : Operand) : Lowering Nat := do
  let t ← typeOf x
  if t.isInteger || (t.isBoolean && a.isLogical) then
    match a.wordOp? t.isUnsigned with
    | none => clearStep site ty x y
    | some op =>
      if a.isShift then shiftStep site op ty x y
      else add site { op, ty, checked := a.mayTrap } [x, y]
  else
    match if t.isFloat then a.floatOp? else none with
    | some op => add site { op, ty } [x, y]
    | none => callOut site "binop" ty [x, y]

def unaryStep (site : Site) (op : Option UnaryOp) (result : SourceTy) (x : Operand) :
    Lowering Nat := do
  let ty := result.lower
  let t ← typeOf x
  match op with
  | some .deref =>
    let access := { tbaa := Bytes.ofString result.accessTag }
    add site { op := .load, ty, elem := some ty, checked := true, access } [x]
  | some .neg =>
    if t.isFloat then add site { op := .fneg, ty } [x]
    else if t.isInteger then add site { op := .sub, ty, operands := [.int (some ty) 0] } [x]
    else callOut site "unop" ty [x]
  | some .complement =>
    if ty.isInt then addWith site { op := .xor, ty } x (-1) else callOut site "unop" ty [x]
  | some .not =>
    if ty.isInt then addWith site { op := .xor, ty } x 1 else callOut site "unop" ty [x]
  | some .receive => callOut site "recv" ty [x]
  | none => callOut site "unop" ty [x]

def indexStep (site : Site) (result : SourceTy) (x index : Operand) : Lowering Nat := do
  let t ← typeOf x
  let address (elem : Ty) : Instr := { op := .gep, ty := .ptr, elem := some elem, checked := true }
  match t.underlying with
  | .pointer array =>
    let id ← add site (address array.lower) [x]
    append id (.int (some .i64) 0)
    appendIndex id index
    return id
  | _ =>
    let id ← add site (address result.pointee.lower) [x]
    appendIndex id index
    return id

def callStep (site : Site) (ret : Ty) (callee : Callee) (args : List Operand) : Lowering Nat := do
  match callee with
  | .builtin name => callOut site name ret args
  | .method receiver name => callOut site ("invoke." ++ Symbol.legal name) ret (receiver :: args)
  | .static name =>
    let params ← args.mapM fun x => return some (← typeOf x).lower
    let callee := Symbol.legal name
    useCallee ⟨callee, params, some ret, false, false⟩
    add site { op := .call, ty := ret, callee } args
  | .dynamic target => add site { op := .call, ty := ret } (target :: args)

def stepAt (b : BasicBlock) (site : Site) (result : SourceTy) (a : Action) :
    Lowering (Option Nat) := do
  let ty := result.lower
  match a with
  | .remark => return none
  | .jump =>
    discard <| add { site with pos := {} } { op := .br, targets := b.succs.take 1 } []
    return none
  | .branch cond =>
    discard <| add site { op := .condbr, targets := b.succs.take 2 } [cond]
    return none
  | .ret results =>
    discard <| returnStep site results
    return none
  | .panic x =>
    discard <| callOut site "panic" .void [x]
    discard <| add { site with pos := {} } { op := .unreachable } []
    return none
  | .store val addr =>
    let t ← typeOf val
    let access := { tbaa := Bytes.ofString t.accessTag }
    discard <| add site { op := .store, elem := some t.lower, checked := true, access }
      [val, addr]
    return none
  | .phi edges => some <$> add site { op := .phi, ty, targets := b.preds } edges
  | .binary (some (.compare r)) x y => some <$> compareStep site r ty x y
  | .binary (some (.arith op)) x y => some <$> arithStep site op ty x y
  | .binary none x y => some <$> callOut site "binop" ty [x, y]
  | .unary op x => some <$> unaryStep site op result x
  | .alloc heap =>
    if heap then some <$> callOut site "new" .ptr []
    else some <$> add site { op := .alloca, ty := .ptr, elem := some result.pointee.lower } []
  | .fieldAddr x field =>
    let elem := some (← typeOf x).pointee.lower
    let id ← add site { op := .gep, ty := .ptr, elem, checked := true } [x]
    append id (index32 0)
    append id (index32 field)
    return some id
  | .indexAddr x index => some <$> indexStep site result x index
  | .call callee args =>
    let id ← callStep site ty callee args
    return if ty.isVoid then none else some id
  | .convert x =>
    match conversion? (← typeOf x) result with
    | some op => some <$> add site { op, ty } [x]
    | none => some <$> callOut site "convert" ty [x]
  | .changeType x => some <$> add site { op := .bitcast, ty } [x]
  | .extract x field =>
    let id ← add site { op := .extractvalue, ty } [x]
    append id (index32 field)
    return some id
  | .special kind args => some <$> callOut site kind.toLower ty args

/-- Drafts a step and records its result, if it has one. -/
def step (b : BasicBlock) (block : Int) (s : Step) : Lowering Unit := do
  let id ← stepAt b ⟨block, s.pos⟩ s.ty s.action
  match s.result with
  | some r => define r.name id
  | none => return ()

def blocks : List BasicBlock → (n : Int) → Lowering Unit
  | [], _ => return ()
  | b :: bs, n => do
    b.steps.forM (step b n)
    blocks bs (n + 1)

end RegPressure.Ssa.Lowering
