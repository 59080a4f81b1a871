import RegPressure.Proofs.Ssa.ForwardReferences

namespace RegPressure.Ssa

def Draft.tys (d : Draft) : List Ty := d.body.toList.map (·.ty)

theorem Draft.tys_modify (d : Draft) (k : Nat) {g : Instr → Instr} (hg : ∀ i, (g i).ty = i.ty) :
    (d.body.modify k g).toList.map (·.ty) = d.tys := by
  refine List.ext_getElem? fun n => ?_
  rw [tys, List.getElem?_map, List.getElem?_map, Array.getElem?_toList, Array.getElem?_modify,
    Array.getElem?_toList]
  split
  · cases d.body[n]? <;> simp [hg]
  · rfl

def AddsTypes {α : Type} (x : Lowering α) (P : Ty → Prop) : Prop :=
  ∀ d, ∃ ts, (x.run d).2.tys = d.tys ++ ts ∧ ∀ t ∈ ts, P t

namespace AddsTypes

variable {α β : Type} {P Q : Ty → Prop}

theorem of_tys_eq {x : Lowering α} (h : ∀ d, (x.run d).2.tys = d.tys) : AddsTypes x P :=
  fun d => ⟨[], by simp [h d], by simp⟩

theorem pure (r : α) : AddsTypes (Pure.pure r) P := of_tys_eq fun _ => rfl

theorem bind {x : Lowering α} {f : α → Lowering β} (hx : AddsTypes x P)
    (hf : ∀ r, AddsTypes (f r) P) : AddsTypes (x >>= f) P := by
  intro d
  obtain ⟨ts, hts, ht⟩ := hx d
  obtain ⟨us, hus, hu⟩ := hf (x.run d).1 (x.run d).2
  refine ⟨ts ++ us, ?_, List.forall_mem_append.mpr ⟨ht, hu⟩⟩
  rw [Lowering.run_bind, hus, hts, List.append_assoc]

theorem map {x : Lowering α} (hx : AddsTypes x P) (f : α → β) : AddsTypes (f <$> x) P := hx

/-- The result does not matter. -/
theorem void {x : Lowering α} {k : Lowering β} (hx : AddsTypes x P) (hk : AddsTypes k P) :
    AddsTypes (do discard x; k) P := hx.bind fun _ => hk

theorem get_bind {k : Draft → Lowering β} (hk : ∀ d, AddsTypes (k d) P) :
    AddsTypes (get >>= k) P := fun d => hk d d

theorem add (site : Site) (i : Instr) (xs : List Operand) (hi : P i.ty) :
    AddsTypes (Lowering.add site i xs) P := by
  intro d
  obtain ⟨vs, late, more, hrun, -⟩ := Lowering.run_operandsOf xs i.operands d
  refine ⟨[i.ty], ?_, by simpa using hi⟩
  rw [Lowering.add, Lowering.run_bind, hrun]
  exact (congrArg (List.map _) Array.toList_push).trans List.map_append

theorem append (id : Nat) (v : Value) : AddsTypes (Lowering.append id v) P :=
  of_tys_eq fun d => d.tys_modify id fun _ => rfl

theorem typeOf (x : Operand) : AddsTypes (Lowering.typeOf x) P :=
  of_tys_eq fun d => by rw [Lowering.run_typeOf]

theorem valueOf (x : Operand) : AddsTypes (Lowering.valueOf x) P := by
  refine of_tys_eq fun d => ?_
  obtain ⟨r, more, hrun, -⟩ := Lowering.run_valueOf x d
  rw [hrun]
  rfl

theorem appendIndex (id : Nat) (x : Operand) : AddsTypes (Lowering.appendIndex id x) P := by
  refine (valueOf x).bind fun r => ?_
  cases r with
  | ok v => exact append id v
  | error n =>
    refine .bind (of_tys_eq fun _ => rfl) fun _ => ?_
    exact .bind (of_tys_eq fun d => by rw [Lowering.run_placeholder]) fun v => append id v

theorem addWith (site : Site) (i : Instr) (x : Operand) (n : Int64) (hi : P i.ty) :
    AddsTypes (Lowering.addWith site i x n) P :=
  (add site i [x] hi).bind fun id => (append id _).bind fun _ => .pure id

theorem useCallee (callee : Decl) : AddsTypes (Lowering.useCallee callee) P := by
  refine of_tys_eq fun d => ?_
  by_cases hknown : d.callees.any (·.name = callee.name)
  · have hrun : ((Lowering.useCallee callee).run d).2 = d := if_pos hknown
    rw [hrun]
  · have hrun : ((Lowering.useCallee callee).run d).2 =
        { d with callees := d.callees ++ [callee] } := if_neg hknown
    rw [hrun]
    rfl

theorem typesOf (xs : List Operand) :
    AddsTypes (xs.mapM fun x => return some (← Lowering.typeOf x).lower) P := by
  induction xs with
  | nil => exact .pure _
  | cons x xs ih =>
    rw [List.mapM_cons]
    exact .bind ((typeOf x).bind fun _ => .pure _) fun _ => ih.bind fun _ => .pure _

theorem callOut (site : Site) (name : String) (ret : Ty) (xs : List Operand) (hret : P ret) :
    AddsTypes (Lowering.callOut site name ret xs) P :=
  (typesOf xs).bind fun _ => (useCallee _).bind fun _ => add site _ xs hret

theorem pack (site : Site) (ret : Ty) (xs : List Operand) (i : Nat) (agg : Value) (hret : P ret) :
    AddsTypes (Lowering.pack site ret xs i agg) P := by
  induction xs generalizing i agg with
  | nil => exact .pure agg
  | cons x xs ih =>
    exact (add site _ [x] hret).bind fun id => (append id _).bind fun _ => ih _ _

theorem returnStep (site : Site) (xs : List Operand) (h : ∀ t, P t) :
    AddsTypes (Lowering.returnStep site xs) P := by
  rcases xs with _ | ⟨x, _ | ⟨y, ys⟩⟩
  · exact add site _ [] (h _)
  · exact add site _ [x] (h _)
  · exact .get_bind fun d => (pack site _ _ 0 _ (h _)).bind fun agg => add site _ [] (h _)

theorem compareStep (site : Site) (r : Relation) (ret : Ty) (x y : Operand) (hret : P ret)
    (hbit : P .i1) : AddsTypes (Lowering.compareStep site r ret x y) P := by
  refine (typeOf x).bind fun t => ?_
  split
  · exact callOut site _ ret _ hret
  · split
    · exact add site _ _ hbit
    · split
      · exact add site _ _ hbit
      · exact callOut site _ _ _ hbit

theorem shiftStep (site : Site) (op : Op) (ty : Ty) (x y : Operand) (hty : P ty) :
    AddsTypes (Lowering.shiftStep site op ty x y) P := by
  unfold Lowering.shiftStep
  cases y with
  | const t l => exact addWith site _ x _ hty
  | _ =>
    refine (typeOf _).bind fun t => ?_
    dsimp only
    split
    · exact add site _ _ hty
    · exact (add site _ _ hty).bind fun amount => (add site _ _ hty).bind fun id =>
        (append id _).bind fun _ => .pure id

theorem arithStep (site : Site) (a : Arith) (ty : Ty) (x y : Operand) (hty : P ty) :
    AddsTypes (Lowering.arithStep site a ty x y) P := by
  refine (typeOf x).bind fun t => ?_
  split
  · cases a.wordOp? t.isUnsigned with
    | none =>
      exact (addWith site _ y _ hty).bind fun mask => (add site _ _ hty).bind fun id =>
        (append id _).bind fun _ => .pure id
    | some op =>
      dsimp only
      split
      · exact shiftStep site op ty x y hty
      · exact add site _ _ hty
  · cases if t.isFloat then a.floatOp? else none with
    | some op => exact add site _ _ hty
    | none => exact callOut site _ _ _ hty

theorem unaryStep (site : Site) (op : Option UnaryOp) (result : SourceTy) (x : Operand)
    (hty : P result.lower) : AddsTypes (Lowering.unaryStep site op result x) P := by
  refine (typeOf x).bind fun t => ?_
  dsimp only
  split
  · exact add site _ _ hty
  · split
    · exact add site _ _ hty
    · split
      · exact add site _ _ hty
      · exact callOut site _ _ _ hty
  · split
    · exact addWith site _ x _ hty
    · exact callOut site _ _ _ hty
  · split
    · exact addWith site _ x _ hty
    · exact callOut site _ _ _ hty
  · exact callOut site _ _ _ hty
  · exact callOut site _ _ _ hty

theorem indexStep (site : Site) (result : SourceTy) (x index : Operand) (hptr : P .ptr) :
    AddsTypes (Lowering.indexStep site result x index) P := by
  refine (typeOf x).bind fun t => ?_
  dsimp only
  split
  · exact (add site _ _ hptr).bind fun id => (append id _).bind fun _ =>
      (appendIndex id index).bind fun _ => .pure id
  · exact (add site _ _ hptr).bind fun id => (appendIndex id index).bind fun _ => .pure id

theorem callStep (site : Site) (ret : Ty) (callee : Callee) (args : List Operand) (hret : P ret) :
    AddsTypes (Lowering.callStep site ret callee args) P := by
  cases callee with
  | builtin name => exact callOut site name ret args hret
  | method receiver name => exact callOut site _ ret _ hret
  | static name =>
    exact (typesOf args).bind fun _ => (useCallee _).bind fun _ => add site _ args hret
  | dynamic target => exact add site _ _ hret

end AddsTypes

/-- What is known of the types of a step in a procedure that was checked: a comparison gives a truth
value, an operation on numbers a value of the type of its first operand, and an address is a pointer. -/
def Step.Typed (types : Array SourceTy) (s : Step) : Prop :=
  match s.action with
  | .binary (some (.compare _)) _ _ => s.ty.lower = .i1
  | .binary (some (.arith _)) x _ => s.ty.lower = (x.ty types).lower
  | .alloc _ | .fieldAddr .. | .indexAddr .. => s.ty.lower = .ptr
  | _ => True

theorem AddsTypes.stepAt {types : Array SourceTy} {s : Step} (hs : s.Typed types) (b : BasicBlock)
    (site : Site) : AddsTypes (Lowering.stepAt b site s.ty s.action)
      fun t => s.gives = true → t = s.ty.lower := by
  unfold Step.gives
  unfold Step.Typed at hs
  unfold Lowering.stepAt
  have hnone : ∀ {t : Ty}, false = true → t = s.ty.lower := fun h => absurd h Bool.false_ne_true
  cases ha : s.action with
  | remark => exact .pure none
  | jump => exact void (add _ _ _ hnone) (.pure none)
  | branch cond => exact void (add _ _ _ hnone) (.pure none)
  | ret results => exact void (returnStep _ _ fun _ => hnone) (.pure none)
  | panic x => exact void (callOut _ _ _ _ hnone) (void (add _ _ _ hnone) (.pure none))
  | store val addr => exact (typeOf val).bind fun _ => void (add _ _ _ hnone) (.pure none)
  | phi edges => exact (add _ _ _ fun _ => rfl).map some
  | binary op x y =>
    rw [ha] at hs
    rcases op with _ | r | a
    · exact (callOut _ _ _ _ fun _ => rfl).map some
    · exact (compareStep _ _ _ _ _ (fun _ => rfl) fun _ => hs.symm).map some
    · exact (arithStep _ _ _ _ _ fun _ => rfl).map some
  | unary op x => exact (unaryStep _ _ _ _ fun _ => rfl).map some
  | alloc heap =>
    rw [ha] at hs
    cases heap with
    | true => exact (callOut _ _ _ _ fun _ => hs.symm).map some
    | false => exact (add _ _ _ fun _ => hs.symm).map some
  | fieldAddr x field =>
    rw [ha] at hs
    exact (typeOf x).bind fun _ => (add _ _ _ fun _ => hs.symm).bind fun id =>
      (append id _).bind fun _ => (append id _).bind fun _ => .pure _
  | indexAddr x index =>
    rw [ha] at hs
    exact (indexStep _ _ _ _ fun _ => hs.symm).map some
  | call callee args =>
    exact (callStep _ _ _ _ fun _ => rfl).bind fun id => .pure _
  | convert x =>
    refine (typeOf x).bind fun t => ?_
    dsimp only
    cases conversion? t s.ty with
    | some op => exact (add _ _ _ fun _ => rfl).map some
    | none => exact (callOut _ _ _ _ fun _ => rfl).map some
  | changeType x => exact (add _ _ _ fun _ => rfl).map some
  | extract x field =>
    exact (add _ _ _ fun _ => rfl).bind fun id => (append id _).bind fun _ => .pure _
  | special kind args => exact (callOut _ _ _ _ fun _ => rfl).map some

theorem AddsTypes.step {types : Array SourceTy} {s : Step} (hs : s.Typed types) (b : BasicBlock)
    (block : Int) :
    AddsTypes (Lowering.step b block s) fun t => s.gives = true → t = s.ty.lower := by
  refine (stepAt hs b _).bind fun id => ?_
  cases s.result with
  | none => exact .pure ()
  | some r =>
    refine of_tys_eq fun d => ?_
    cases id with
    | none => rfl
    | some k =>
      by_cases hname : r.name = ""
      · simp [Lowering.define, hname, Draft.tys]
        rfl
      · simp [Lowering.define, hname]
        exact d.tys_modify k fun _ => rfl

namespace Procedure

def extent (p : Procedure) (steps : List Step) : Nat :=
  (steps.foldl Outline.step p.start).rows.length

/-- The types of the numbered values. -/
def types (p : Procedure) : Array SourceTy := (p.values.map (·.ty)).toArray

def Typed (p : Procedure) : Prop := ∀ s ∈ p.steps, s.Typed p.types

end Procedure

def Draft.TypedBy (d : Draft) (p : Procedure) (steps : List Step) : Prop :=
  ∀ before s after, steps = before ++ s :: after → s.gives = true →
    ∀ k, p.extent before ≤ k → k < p.extent (before ++ [s]) → d.tys[k]? = some s.ty.lower

section

variable {p : Procedure} {d : Draft} {done : List Step}

theorem Draft.Follows.length_tys (h : d.Follows (done.foldl Outline.step p.start)) :
    d.tys.length = p.extent done := by
  rw [Draft.tys, List.length_map, Array.length_toList]
  exact h.size

theorem Draft.TypedBy.step (h : d.TypedBy p done) (hd : d.Follows (done.foldl Outline.step p.start))
    (b : BasicBlock) (block : Int) {s : Step} (hs : s.Typed p.types) :
    ((Lowering.step b block s).run d).2.TypedBy p (done ++ [s]) := by
  obtain ⟨ts, htys, hts⟩ := AddsTypes.step hs b block d
  have hd' : ((Lowering.step b block s).run d).2.Follows
      ((done ++ [s]).foldl Outline.step p.start) := by
    rw [List.foldl_append]
    exact hd.step b block s
  have hlength := hd'.length_tys
  rw [htys, List.length_append, hd.length_tys] at hlength
  intro before t after hsplit hgives k hlow hhigh
  rw [htys]
  rcases List.eq_nil_or_concat after with rfl | ⟨after, u, rfl⟩
  · obtain ⟨rfl, hst⟩ := List.append_inj' hsplit rfl
    cases hst
    rw [List.getElem?_append_right (by rw [hd.length_tys]; exact hlow), hd.length_tys]
    have hk : k - p.extent done < ts.length := by omega
    rw [List.getElem?_eq_getElem hk, hts _ (List.getElem_mem hk) hgives]
  · rw [List.concat_eq_append, ← List.cons_append, ← List.append_assoc] at hsplit
    obtain ⟨rfl, -⟩ := List.append_inj' hsplit rfl
    have hk := h before t after rfl hgives k hlow hhigh
    rw [List.getElem?_append_left (List.getElem?_eq_some_iff.mp hk).1, hk]

theorem Draft.TypedBy.steps (h : d.TypedBy p done) (hd : d.Follows (done.foldl Outline.step p.start))
    (b : BasicBlock) (block : Int) (ss : List Step) (hs : ∀ s ∈ ss, s.Typed p.types) :
    ((ss.forM (Lowering.step b block)).run d).2.TypedBy p (done ++ ss) := by
  induction ss generalizing d done with
  | nil => rwa [List.append_nil]
  | cons s ss ih =>
    rw [List.append_cons]
    refine ih (h.step hd b block (hs s List.mem_cons_self)) ?_
      fun t ht => hs t (List.mem_cons_of_mem s ht)
    rw [List.foldl_append]
    exact hd.step b block s

theorem Draft.TypedBy.blocks (h : d.TypedBy p done)
    (hd : d.Follows (done.foldl Outline.step p.start)) (bs : List BasicBlock) (n : Int)
    (hs : ∀ s ∈ bs.flatMap (·.steps), s.Typed p.types) :
    ((Lowering.blocks bs n).run d).2.TypedBy p (done ++ bs.flatMap (·.steps)) := by
  induction bs generalizing d done n with
  | nil =>
    rw [List.flatMap_nil, List.append_nil]
    exact h
  | cons b bs ih =>
    rw [List.flatMap_cons, List.forall_mem_append] at hs
    rw [List.flatMap_cons, ← List.append_assoc]
    refine ih (h.steps hd b n b.steps hs.1) ?_ (n + 1) hs.2
    rw [List.foldl_append]
    exact hd.steps b n b.steps

theorem Procedure.draft_typedBy (hp : p.Typed) (globals : List Global) (callees : List Decl) :
    (p.draft globals callees).TypedBy p p.steps :=
  have hnone : ∀ d : Draft, d.TypedBy p [] := fun d before s after h => by simp at h
  (hnone _).blocks ⟨rfl, rfl, rfl, rfl, fun _ _ h => by simp [start] at h, fun _ h => by cases h⟩ p.blocks 0 hp

end

namespace Procedure

variable {p : Procedure} {globals : List Global} {callees : List Decl} {f : Func}

theorem finish_tys (h : p.finish (p.draft globals callees) = .ok (.ok f)) {k : Nat} {t : Ty}
    (ht : (p.draft globals callees).tys[k]? = some t) :
    ∃ i, f.instrs[k]? = some i ∧ i.ty = t := by
  have hd := p.draft_follows globals callees
  generalize p.draft globals callees = d at *
  obtain ⟨-, hkept⟩ := Draft.patched_of_fill (fun x hx => hd.within hx) (fill_of_finish h)
  rw [Draft.tys, List.getElem?_map, Option.map_eq_some_iff] at ht
  obtain ⟨i, hi, rfl⟩ := ht
  obtain ⟨ops, hops, -⟩ := hkept k i (by simpa using hi)
  exact ⟨_, hops, rfl⟩

theorem ty_of_finish (hp : p.Typed) (h : p.finish (p.draft globals callees) = .ok (.ok f))
    {before after : List Step} {s : Step} (hsteps : p.steps = before ++ s :: after)
    (hs : s.gives = true) {k : Nat} (hlow : p.extent before ≤ k)
    (hhigh : k < p.extent (before ++ [s])) {i : Instr} (hi : f.instrs[k]? = some i) :
    i.ty = s.ty.lower := by
  obtain ⟨j, hj, hty⟩ :=
    finish_tys h (draft_typedBy hp globals callees before s after hsteps hs k hlow hhigh)
  cases hi.symm.trans hj
  exact hty

theorem params_of_finish (h : p.finish (p.draft globals callees) = .ok (.ok f)) :
    f.params = p.head.params := by
  obtain ⟨r, -, h⟩ := Checked.bind_eq_ok.mp h
  cases r with
  | error n => cases h
  | ok body =>
    obtain ⟨-, -, h⟩ := Checked.bind_eq_ok.mp h
    obtain ⟨defects, -, h⟩ := Checked.bind_eq_ok.mp h
    cases defects with
    | cons defect defects => cases h
    | nil =>
      cases h
      exact Func.params_rebuildEdges _

theorem extent_lt (p : Procedure) (before : List Step) {s : Step} (hs : s.gives = true) :
    p.extent before < p.extent (before ++ [s]) := by
  rw [extent, extent, List.foldl_append, List.foldl_cons, List.foldl_nil, Outline.step,
    List.length_append]
  have := List.length_pos_of_ne_nil (s.rows_ne_nil hs
    (before.foldl Outline.step p.start).records (before.foldl Outline.step p.start).rows.length)
  omega

/-- What stands for a numbered value has the type of the value. -/
theorem typeOf_of_finish (hp : p.Typed) (h : p.finish (p.draft globals callees) = .ok (.ok f))
    {n : Nat} {v : Value} (hv : p.outline.records.values[n]? = some (some v)) :
    f.typeOf v = .ok (some ((Operand.value n).ty p.types).lower) := by
  have hty : ∀ r, p.values[n]? = some r → (Operand.value n).ty p.types = r.ty := by
    intro r hr
    simp [Operand.ty, types, Array.getD_eq_getD_getElem?, hr]
  obtain ⟨hn, rfl⟩ | ⟨k, rfl, before, s, after, hsteps, hresult, hgives, rfl, hk⟩ :=
    p.arg_or_defined p.steps hv
  · have hparam : p.values[n]? = some p.params[n] := by
      rw [values, List.getElem?_append_left hn, List.getElem?_eq_getElem hn]
    have hparams : f.params[n]? = some ⟨Symbol.legal p.params[n].name, some p.params[n].ty.lower⟩ := by
      rw [params_of_finish h, head, List.getElem?_map, List.getElem?_eq_getElem hn]
      rfl
    have hlt : (n : Int) < f.params.length :=
      Int.ofNat_lt.mpr (List.getElem?_eq_some_iff.mp hparams).1
    rw [hty _ hparam, Func.typeOf, if_pos hlt, element_eq_ok.mpr hparams]
    rfl
  · obtain ⟨r, hr⟩ := Option.isSome_iff_exists.mp hresult
    have hvalue : p.values[p.params.length + (before.filterMap (·.result)).length]? = some r := by
      have hresults : p.blocks.flatMap (fun b => b.steps.filterMap (·.result)) =
          p.steps.filterMap (·.result) := by
        rw [steps, List.filterMap_flatMap]
      rw [values, List.getElem?_append_right (Nat.le_add_right ..), Nat.add_sub_cancel_left, hresults,
        hsteps, List.filterMap_append, List.getElem?_append_right (Nat.le_refl _), Nat.sub_self,
        List.filterMap_cons, hr]
      rfl
    have hk' : k + 1 = p.extent (before ++ [s]) := hk
    have hlow := p.extent_lt before hgives
    obtain ⟨i, hi, hity⟩ := finish_tys h
      (draft_typedBy hp globals callees before s after hsteps hgives k (by omega) (by omega))
    have hinstr : f.instr k = .ok i := Func.instr_eq_ok.mpr (by
      rw [Func.instr?, if_neg (by omega)]
      exact hi)
    have hs : s.ty = r.ty := by rw [Step.ty, hr]; rfl
    rw [hty r hvalue, Func.typeOf, hinstr, ← hs, ← hity]
    rfl

end Procedure

end RegPressure.Ssa
