import Mathlib.Data.List.Induction
import RegPressure.Proofs.Ssa.Drafts
import RegPressure.Ssa.Package

namespace RegPressure.Ssa

open Lowering (index32)

def sourceRow (op : Op) (xs : List Operand) : Row := ⟨op, xs.map .source⟩

def packRows : List Operand → (i : Nat) → (agg : Value) → (n : Nat) → List Row
  | [], _, _, _ => []
  | x :: xs, i, agg, n =>
    ⟨.insertvalue, [.fixed agg, .source x, .fixed (index32 i)]⟩ ::
      packRows xs (i + 1) (.instr n) (n + 1)

def returnRows (ret : Ty) (n : Nat) : List Operand → List Row
  | [] => [sourceRow .ret []]
  | [x] => [sourceRow .ret [x]]
  | xs =>
    packRows xs 0 (.undef (some ret)) n ++ [⟨.ret, [.fixed (.instr ((n + xs.length - 1 : Nat)))]⟩]

section

variable (types : Array SourceTy)

def compareRow (r : Relation) (x y : Operand) : Row :=
  let t := x.ty types
  let op :=
    if !t.isScalar then Op.call
    else if t.isFloat then .fcmp
    else if t.isInteger || r.isEquality then .icmp
    else .call
  sourceRow op [x, y]

def shiftRows (op : Op) (ty : Ty) (x y : Operand) (n : Nat) : List Row :=
  match y with
  | .const _ l => [⟨op, [.source x, .fixed (.int (some ty) l.shiftAmount)]⟩]
  | _ =>
    let width := (y.ty types).lower.bits
    if width = ty.bits then [sourceRow op [x, y]]
    else
      [sourceRow (if ty.bits < width then .trunc else .zext) [y],
        ⟨op, [.source x, .fixed (.instr n)]⟩]

def clearRows (ty : Ty) (x y : Operand) (n : Nat) : List Row :=
  [⟨.xor, [.source y, .fixed (.int (some ty) (-1))]⟩, ⟨.and, [.source x, .fixed (.instr n)]⟩]

def arithRows (a : Arith) (ty : Ty) (x y : Operand) (n : Nat) : List Row :=
  let t := x.ty types
  if t.isInteger || (t.isBoolean && a.isLogical) then
    match a.wordOp? t.isUnsigned with
    | none => clearRows ty x y n
    | some op => if a.isShift then shiftRows types op ty x y n else [sourceRow op [x, y]]
  else [sourceRow ((if t.isFloat then a.floatOp? else none).getD .call) [x, y]]

def unaryRow (op : Option UnaryOp) (ty : Ty) (x : Operand) : Row :=
  let t := x.ty types
  let masked (n : Int64) : Row :=
    if ty.isInt then ⟨.xor, [.source x, .fixed (.int (some ty) n)]⟩ else sourceRow .call [x]
  match op with
  | some .deref => sourceRow .load [x]
  | some .neg =>
    if t.isFloat then sourceRow .fneg [x]
    else if t.isInteger then ⟨.sub, [.fixed (.int (some ty) 0), .source x]⟩
    else sourceRow .call [x]
  | some .complement => masked (-1)
  | some .not => masked 1
  | some .receive | none => sourceRow .call [x]

def indexRow (x index : Operand) : Row :=
  match (x.ty types).underlying with
  | .pointer _ => ⟨.gep, [.source x, .fixed (.int (some .i64) 0), .source index]⟩
  | _ => sourceRow .gep [x, index]

end

/-- A receiver or a target comes before the arguments. -/
def Callee.operands : Callee → List Operand → List Operand
  | .builtin _, args | .static _, args => args
  | .method receiver _, args => receiver :: args
  | .dynamic target, args => target :: args

/-- The instructions of a step, from number `n` on. -/
def Step.rows (s : Step) (c : Records) (n : Nat) : List Row :=
  match s.action with
  | .remark => []
  | .jump => [sourceRow .br []]
  | .branch cond => [sourceRow .condbr [cond]]
  | .ret results => returnRows c.ret n results
  | .panic x => [sourceRow .call [x], sourceRow .unreachable []]
  | .store val addr => [sourceRow .store [val, addr]]
  | .phi edges => [sourceRow .phi edges]
  | .binary (some (.compare r)) x y => [compareRow c.types r x y]
  | .binary (some (.arith a)) x y => arithRows c.types a s.ty.lower x y n
  | .binary none x y => [sourceRow .call [x, y]]
  | .unary op x => [unaryRow c.types op s.ty.lower x]
  | .alloc heap => [sourceRow (if heap then .call else .alloca) []]
  | .fieldAddr x field => [⟨.gep, [.source x, .fixed (index32 0), .fixed (index32 field)]⟩]
  | .indexAddr x index => [indexRow c.types x index]
  | .call callee args => [sourceRow .call (callee.operands args)]
  | .convert x => [sourceRow ((conversion? (x.ty c.types) s.ty).getD .call) [x]]
  | .changeType x => [sourceRow .bitcast [x]]
  | .extract x field => [⟨.extractvalue, [.source x, .fixed (index32 field)]⟩]
  | .special _ args => [sourceRow .call args]

def Step.gives (s : Step) : Bool :=
  match s.action with
  | .remark | .jump | .branch _ | .ret _ | .panic _ | .store .. => false
  | .call .. => !s.ty.lower.isVoid
  | _ => true

def Step.definition? (s : Step) (c : Records) (n : Nat) : Option Nat :=
  if s.gives then some (n + (s.rows c n).length - 1) else none

namespace Drafts

variable {c : Records} {rows : List Row}

theorem single (site : Site) (i : Instr) (xs : List Operand) (hi : i.operands = []) :
    Drafts c rows (Lowering.add site i xs) (rows ++ [sourceRow i.op xs]) rows.length := by
  have h : Drafts c rows (Lowering.add site i xs) _ _ := Drafts.add site i xs
  rwa [hi] at h

theorem compareStep (site : Site) (r : Relation) (ret : Ty) (x y : Operand) :
    Drafts c rows (Lowering.compareStep site r ret x y) (rows ++ [compareRow c.types r x y])
      rows.length := by
  refine (Drafts.typeOf x).bind ?_
  unfold compareRow
  dsimp only
  split
  · exact callOut site _ _ [x, y]
  · split
    · exact single site _ [x, y] rfl
    · split
      · exact single site _ [x, y] rfl
      · exact callOut site _ _ [x, y]

theorem addThen {β : Type} {k : Nat → Lowering β} {rows' : List Row} {r : β} (site : Site)
    (i : Instr) (xs : List Operand) (v : Value)
    (hk : Drafts c (rows ++ [⟨i.op, i.operands.map .fixed ++ xs.map .source ++ [.fixed v]⟩])
      (k rows.length) rows' r) :
    Drafts c rows (do let id ← Lowering.add site i xs; Lowering.append id v; k id) rows' r :=
  (Drafts.add site i xs).bind ((append v).bind hk)

theorem pack (site : Site) (ret : Ty) (x : Operand) (xs : List Operand) (i : Nat) (agg : Value) :
    Drafts c rows (Lowering.pack site ret (x :: xs) i agg)
      (rows ++ packRows (x :: xs) i agg rows.length)
      (.instr ((rows.length + xs.length : Nat))) := by
  induction xs generalizing x rows i agg with
  | nil => exact addThen site _ [x] (index32 i) (.pure _)
  | cons y ys ih =>
    refine addThen site _ [x] (index32 i) ?_
    have hrest : Drafts c (rows ++ [⟨.insertvalue, [.fixed agg, .source x, .fixed (index32 i)]⟩])
      _ _ _ := ih y (i + 1) (.instr rows.length)
    rw [List.length_append, List.append_assoc] at hrest
    rw [List.length_cons, Nat.add_comm ys.length, ← Nat.add_assoc]
    exact hrest

theorem reading {β : Type} {k : Draft → Lowering β} {rows' : List Row} {r : β}
    (hk : ∀ d : Draft, d.ret = c.ret → Drafts c rows (k d) rows' r) :
    Drafts c rows (get >>= k) rows' r :=
  fun d h => hk d h.ret d h

theorem returnStep (site : Site) (xs : List Operand) :
    ∃ n, Drafts c rows (Lowering.returnStep site xs)
      (rows ++ returnRows c.ret rows.length xs) n := by
  rcases xs with _ | ⟨x, _ | ⟨y, ys⟩⟩
  · exact ⟨_, single site _ [] rfl⟩
  · exact ⟨_, single site _ [x] rfl⟩
  · refine ⟨(rows ++ packRows (x :: y :: ys) 0 (.undef (some c.ret)) rows.length).length,
      reading fun d hret => ?_⟩
    dsimp only
    rw [hret]
    have hrows : returnRows c.ret rows.length (x :: y :: ys) =
        packRows (x :: y :: ys) 0 (.undef (some c.ret)) rows.length ++
          [⟨.ret, [.fixed (.instr ((rows.length + (y :: ys).length : Nat)))]⟩] := rfl
    rw [hrows, ← List.append_assoc]
    exact (pack site c.ret x (y :: ys) 0 _).bind (Drafts.add site _ [])

theorem onResult (site : Site) (first : Row) (op : Op) (ty : Ty) (x : Operand) :
    Drafts c (rows ++ [first])
      (do let id ← Lowering.add site { op, ty } [x]
          Lowering.append id (.instr rows.length)
          return id)
      (rows ++ [first, ⟨op, [.source x, .fixed (.instr rows.length)]⟩]) (rows.length + 1) := by
  have hlength : rows.length + 1 = (rows ++ [first]).length := by simp
  rw [List.append_cons rows first [_], hlength]
  exact addThen site { op, ty } [x] (.instr rows.length) (.pure _)

theorem clearStep (site : Site) (ty : Ty) (x y : Operand) :
    Drafts c rows (Lowering.clearStep site ty x y) (rows ++ clearRows ty x y rows.length)
      (rows.length + 1) :=
  (addWith site _ y _).bind (onResult site _ .and ty x)

theorem shiftStep (site : Site) (op : Op) (ty : Ty) (x y : Operand) :
    Drafts c rows (Lowering.shiftStep site op ty x y)
      (rows ++ shiftRows c.types op ty x y rows.length)
      (rows.length + (shiftRows c.types op ty x y rows.length).length - 1) := by
  unfold Lowering.shiftStep shiftRows
  cases y with
  | const t l => exact addWith site _ x _
  | _ =>
    refine (Drafts.typeOf _).bind ?_
    dsimp only
    split
    · exact single site { op, ty } [x, _] rfl
    · exact (single site { op := _, ty } [_] rfl).bind (onResult site _ op ty x)

theorem arithStep (site : Site) (a : Arith) (ty : Ty) (x y : Operand) :
    Drafts c rows (Lowering.arithStep site a ty x y)
      (rows ++ arithRows c.types a ty x y rows.length)
      (rows.length + (arithRows c.types a ty x y rows.length).length - 1) := by
  refine (Drafts.typeOf x).bind ?_
  unfold arithRows
  dsimp only
  split
  · cases a.wordOp? (x.ty c.types).isUnsigned with
    | none => exact clearStep site ty x y
    | some op =>
      dsimp only
      split
      · exact shiftStep site op ty x y
      · exact single site { op, ty, checked := a.mayTrap } [x, y] rfl
  · cases if (x.ty c.types).isFloat then a.floatOp? else none with
    | some op => exact single site { op, ty } [x, y] rfl
    | none => exact callOut site _ _ [x, y]

theorem masked (site : Site) (name : String) (ty : Ty) (x : Operand) (n : Int64) :
    Drafts c rows
      (if ty.isInt then Lowering.addWith site { op := .xor, ty } x n
       else Lowering.callOut site name ty [x])
      (rows ++ [if ty.isInt then ⟨.xor, [.source x, .fixed (.int (some ty) n)]⟩
        else sourceRow .call [x]]) rows.length := by
  split
  · exact addWith site _ x n
  · exact callOut site _ ty [x]

theorem unaryStep (site : Site) (op : Option UnaryOp) (result : SourceTy) (x : Operand) :
    Drafts c rows (Lowering.unaryStep site op result x)
      (rows ++ [unaryRow c.types op result.lower x]) rows.length := by
  refine (Drafts.typeOf x).bind ?_
  unfold unaryRow
  dsimp only
  split
  · exact single site _ [x] rfl
  · split
    · exact single site _ [x] rfl
    · split
      · exact Drafts.add site _ [x]
      · exact callOut site _ _ [x]
  · exact masked site _ _ x (-1)
  · exact masked site _ _ x 1
  · exact callOut site _ _ [x]
  · exact callOut site _ _ [x]

theorem indexStep (site : Site) (result : SourceTy) (x index : Operand) :
    Drafts c rows (Lowering.indexStep site result x index)
      (rows ++ [indexRow c.types x index]) rows.length := by
  refine (Drafts.typeOf x).bind ?_
  unfold indexRow
  dsimp only
  cases (x.ty c.types).underlying with
  | pointer array => exact addThen site _ [x] _ ((appendIndex index).bind (.pure _))
  | _ => exact (Drafts.add site _ [x]).bind ((appendIndex index).bind (.pure _))

theorem callStep (site : Site) (ret : Ty) (callee : Callee) (args : List Operand) :
    Drafts c rows (Lowering.callStep site ret callee args)
      (rows ++ [sourceRow .call (callee.operands args)]) rows.length := by
  cases callee with
  | builtin name => exact callOut site name ret args
  | method receiver name => exact callOut site _ ret (receiver :: args)
  | static name => exact (typesOf args).bind ((useCallee _).bind (single site _ args rfl))
  | dynamic target => exact single site _ (target :: args) rfl

/-- The result does not matter. -/
theorem void {α β : Type} {x : Lowering α} {k : Lowering β} {rows' rows'' : List Row} {r : α}
    {u : β} (hx : Drafts c rows x rows' r) (hk : Drafts c rows' k rows'' u) :
    Drafts c rows (do discard x; k) rows'' u :=
  fun d h => hk _ (hx d h).2

/-- A step becomes its rows, and if it gives a result, the last row holds it. -/
theorem stepAt (b : BasicBlock) (site : Site) (s : Step) :
    Drafts c rows (Lowering.stepAt b site s.ty s.action) (rows ++ s.rows c rows.length)
      (s.definition? c rows.length) := by
  unfold Step.definition? Step.gives Step.rows Lowering.stepAt
  cases s.action with
  | remark =>
    rw [List.append_nil]
    exact .pure none
  | jump => exact void (single _ _ [] rfl) (.pure none)
  | branch cond => exact void (single _ _ [cond] rfl) (.pure none)
  | ret results =>
    obtain ⟨n, hn⟩ : ∃ n, Drafts c rows _ _ n := returnStep site results
    exact void hn (.pure none)
  | panic x =>
    dsimp only
    rw [List.append_cons]
    exact void (callOut site _ _ [x]) (void (single _ _ [] rfl) (.pure none))
  | store val addr =>
    exact (Drafts.typeOf val).bind (void (single _ _ [val, addr] rfl) (.pure none))
  | phi edges => exact (single _ _ edges rfl).map some
  | binary op x y =>
    rcases op with _ | r | a
    · exact (callOut site _ _ [x, y]).map some
    · exact (compareStep site r _ x y).map some
    · exact (arithStep site a _ x y).map some
  | unary op x => exact (unaryStep site op _ x).map some
  | alloc heap =>
    cases heap with
    | true => exact (callOut site _ _ []).map some
    | false => exact (single site _ [] rfl).map some
  | fieldAddr x field =>
    refine (Drafts.typeOf x).bind (addThen site _ [x] (index32 0) ?_)
    exact (append (index32 field)).bind (.pure _)
  | indexAddr x index => exact (indexStep site _ x index).map some
  | call callee args =>
    refine (callStep site _ callee args).bind ?_
    cases s.ty.lower.isVoid with
    | true => exact .pure none
    | false => exact .pure (some _)
  | convert x =>
    refine (Drafts.typeOf x).bind ?_
    dsimp only
    cases conversion? (x.ty c.types) s.ty with
    | some op => exact (single site { op, ty := s.ty.lower } [x] rfl).map some
    | none => exact (callOut site _ _ [x]).map some
  | changeType x => exact (single _ _ [x] rfl).map some
  | extract x field => exact addThen site _ [x] (index32 field) (.pure _)
  | special kind args => exact (callOut site _ _ args).map some

end Drafts

structure Outline where
  records : Records
  rows : List Row

/-- What a step adds: its rows, and for its value the instruction that defines it, if one does. -/
def Outline.step (o : Outline) (s : Step) : Outline where
  rows := o.rows ++ s.rows o.records o.rows.length
  records :=
    match s.result with
    | some _ =>
      let made := (s.definition? o.records o.rows.length).map fun (k : Nat) => Value.instr k
      { o.records with values := o.records.values.push made }
    | none => o.records

namespace Procedure

/-- The steps of all blocks, in order. -/
def steps (p : Procedure) : List Step := p.blocks.flatMap (·.steps)

/-- The parameters are recorded before all steps. -/
def start (p : Procedure) : Outline where
  rows := []
  records :=
    { types := (p.values.map (·.ty)).toArray, ret := p.results.lower
      values := ((List.range p.params.length).map fun (i : Nat) => some (Value.arg i)).toArray }

/-- All that a procedure becomes, read off its steps. -/
def outline (p : Procedure) : Outline := p.steps.foldl Outline.step p.start

/-- The instruction is the last one of the step whose result has the number. -/
def Defines (p : Procedure) (steps : List Step) (k n : Nat) : Prop :=
  ∃ before s after, steps = before ++ s :: after ∧ s.result.isSome = true ∧ s.gives = true ∧
    n = p.params.length + (before.filterMap (·.result)).length ∧
    k + 1 = ((before ++ [s]).foldl Outline.step p.start).rows.length

end Procedure

/-- The draft is what the outline says. -/
def Draft.Follows (d : Draft) (o : Outline) : Prop := d.Meets o.records o.rows

section

variable {d : Draft} {c : Records} {rows : List Row} {o : Outline}

/-- One value more is recorded, and instructions may get other names. -/
theorem Draft.Meets.record (h : d.Meets c rows) (w : Option Value) {body : Array Instr}
    (hsize : body.size = d.body.size)
    (hbody : ∀ (k : Nat) (i : Instr), d.body[k]? = some i →
      ∃ name, body[k]? = some { i with name }) :
    ({ d with values := d.values.push w, body } : Draft).Meets
      { c with values := c.values.push w } rows where
  types := h.types
  ret := h.ret
  values := congrArg (·.push w) h.values
  size := hsize.trans h.size
  fits := by
    intro k row hrow
    obtain ⟨i, hi, hfits⟩ := h.fits k row hrow
    obtain ⟨name, hname⟩ := hbody k i hi
    have hkept : Draft.Fits { d with values := d.values.push w, body } k row i :=
      hfits.mono (fun x v hv => Operand.recorded?_push hv w) fun _ _ => id
    obtain ⟨hop, hlength, hparts⟩ := hkept
    exact ⟨_, hname, hop, hlength, hparts⟩
  noted := h.noted

theorem Draft.Meets.define (h : d.Meets c rows) (name : String) (id : Option Nat) :
    ((Lowering.define name id).run d).2.Meets
      { c with values := c.values.push (id.map fun (k : Nat) => .instr k) } rows := by
  have hsame : ∀ (k : Nat) (i : Instr), d.body[k]? = some i →
      ∃ name, d.body[k]? = some { i with name } :=
    fun k i hi => ⟨i.name, hi⟩
  cases id with
  | none => exact h.record none rfl hsame
  | some k =>
    by_cases hname : name = ""
    · subst hname
      exact h.record (some (.instr k)) rfl hsame
    · have hrun : ((Lowering.define name (some k)).run d).2 =
          { d with
            values := d.values.push (some (.instr k))
            body := d.body.modify k ({ · with name := Symbol.legal name }) } := by
        simp [Lowering.define, hname]
        rfl
      rw [hrun]
      refine h.record (some (.instr k)) Array.size_modify fun m i hi => ?_
      rw [Array.getElem?_modify, hi]
      split
      · exact ⟨_, rfl⟩
      · exact ⟨i.name, rfl⟩

theorem Draft.Follows.step (h : d.Follows o) (b : BasicBlock) (block : Int) (s : Step) :
    ((Lowering.step b block s).run d).2.Follows (o.step s) := by
  obtain ⟨hid, hd⟩ := Drafts.stepAt b ⟨block, s.pos⟩ s d h
  rw [Lowering.step, Lowering.run_bind, hid]
  unfold Draft.Follows Outline.step
  cases s.result with
  | some r => exact hd.define r.name _
  | none => exact hd

theorem Draft.Follows.steps (h : d.Follows o) (b : BasicBlock) (block : Int) (steps : List Step) :
    ((steps.forM (Lowering.step b block)).run d).2.Follows (steps.foldl Outline.step o) := by
  induction steps generalizing d o with
  | nil => exact h
  | cons s steps ih => exact ih (h.step b block s)

theorem Draft.Follows.blocks (h : d.Follows o) (bs : List BasicBlock) (n : Int) :
    ((Lowering.blocks bs n).run d).2.Follows ((bs.flatMap (·.steps)).foldl Outline.step o) := by
  induction bs generalizing d o n with
  | nil => exact h
  | cons b bs ih =>
    rw [List.flatMap_cons, List.foldl_append]
    exact ih (h.steps b n b.steps) (n + 1)

end

theorem Procedure.draft_follows (p : Procedure) (globals : List Global) (callees : List Decl) :
    (p.draft globals callees).Follows p.outline :=
  Draft.Follows.blocks (o := p.start)
    ⟨rfl, rfl, rfl, rfl, fun _ _ h => by simp [start] at h, fun _ h => by cases h⟩ _ _

theorem arithRows_ne_nil (types : Array SourceTy) (a : Arith) (ty : Ty) (x y : Operand) (n : Nat) :
    arithRows types a ty x y n ≠ [] := by
  have hshift : ∀ op, shiftRows types op ty x y n ≠ [] := by
    intro op
    cases y with
    | const t l => exact List.cons_ne_nil _ _
    | _ => unfold shiftRows; dsimp only; split <;> exact List.cons_ne_nil _ _
  unfold arithRows
  dsimp only
  split
  · cases a.wordOp? (x.ty types).isUnsigned with
    | none => exact List.cons_ne_nil _ _
    | some op =>
      dsimp only
      split
      · exact hshift op
      · exact List.cons_ne_nil _ _
  · exact List.cons_ne_nil _ _

theorem Step.rows_ne_nil {s : Step} (h : s.gives = true) (c : Records) (n : Nat) :
    s.rows c n ≠ [] := by
  unfold Step.gives at h
  unfold Step.rows
  cases ha : s.action with
  | binary op x y =>
    rcases op with _ | r | a
    · exact List.cons_ne_nil _ _
    · exact List.cons_ne_nil _ _
    · exact arithRows_ne_nil _ a _ x y n
  | _ => first | exact List.cons_ne_nil _ _ | simp [ha] at h

namespace Procedure

variable {p : Procedure} {steps : List Step}

theorem Defines.append {k n : Nat} (h : p.Defines steps k n) (s : Step) :
    p.Defines (steps ++ [s]) k n := by
  obtain ⟨before, t, after, rfl, hrest⟩ := h
  exact ⟨before, t, after ++ [s], by simp, hrest⟩

theorem size_values (p : Procedure) (steps : List Step) :
    (steps.foldl Outline.step p.start).records.values.size =
      p.params.length + (steps.filterMap (·.result)).length := by
  induction steps using List.reverseRecOn with
  | nil => simp [start]
  | append_singleton steps s ih =>
    rw [List.foldl_append, List.filterMap_append, List.length_append, ← Nat.add_assoc, ← ih]
    simp only [List.foldl_cons, List.foldl_nil, Outline.step]
    cases hs : s.result <;> simp [hs]

theorem arg_or_defined (p : Procedure) (steps : List Step) {n : Nat} {v : Value}
    (h : (steps.foldl Outline.step p.start).records.values[n]? = some (some v)) :
    (n < p.params.length ∧ v = .arg n) ∨ ∃ k : Nat, v = .instr k ∧ p.Defines steps k n := by
  -- A recorded value comes from the last step or from those before it.
  induction steps using List.reverseRecOn with
  | nil =>
    simp only [start, List.foldl_nil, List.getElem?_toArray, List.getElem?_map,
      Option.map_eq_some_iff, Option.some.injEq] at h
    obtain ⟨i, hi, rfl⟩ := h
    obtain ⟨hlt, rfl⟩ := List.getElem?_eq_some_iff.mp hi
    rw [List.length_range] at hlt
    exact .inl ⟨hlt, by rw [List.getElem_range]⟩
  | append_singleton steps s ih =>
    have hsize := p.size_values steps
    have hrows : ((steps ++ [s]).foldl Outline.step p.start).rows =
        (steps.foldl Outline.step p.start).rows ++
          s.rows (steps.foldl Outline.step p.start).records
            (steps.foldl Outline.step p.start).rows.length := by
      rw [List.foldl_append, List.foldl_cons, List.foldl_nil, Outline.step]
    rw [List.foldl_append, List.foldl_cons, List.foldl_nil] at h
    generalize steps.foldl Outline.step p.start = o at h ih hsize hrows
    have hold : o.records.values[n]? = some (some v) →
        (n < p.params.length ∧ v = .arg n) ∨
          ∃ k : Nat, v = .instr k ∧ p.Defines (steps ++ [s]) k n := by
      intro hn
      exact (ih hn).imp_right fun ⟨k, hv, hk⟩ => ⟨k, hv, hk.append s⟩
    cases hs : s.result with
    | none =>
      simp only [Outline.step, hs] at h
      exact hold h
    | some r =>
      simp only [Outline.step, hs, Array.getElem?_push] at h
      split at h
      · next hn =>
        obtain ⟨k, hk, rfl⟩ := Option.map_eq_some_iff.mp (Option.some.inj h)
        obtain ⟨hgives, hk⟩ := Option.ite_none_right_eq_some.mp hk
        have hpos := List.length_pos_of_ne_nil (s.rows_ne_nil hgives o.records o.rows.length)
        refine .inr ⟨k, rfl, steps, s, [], rfl, by simp [hs], hgives, hn.trans hsize, ?_⟩
        rw [hrows, List.length_append, ← Option.some.inj hk]
        omega
      · exact hold h

end Procedure

end RegPressure.Ssa
