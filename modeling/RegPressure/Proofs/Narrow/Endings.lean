import RegPressure.Proofs.IR.History
import RegPressure.Proofs.Narrow.Steps
import RegPressure.ValueRange.Analysis

namespace RegPressure

variable {α β : Type}

namespace Checked

def Halts (x : Checked α) : Prop := x ≠ .error .endless

variable {x : Checked α} {k : α → Checked β}

theorem halts_ok (a : α) : Halts (.ok a) := by rintro ⟨⟩

theorem halts_pure (a : α) : Halts (pure a : Checked α) := halts_ok a

theorem Halts.bind (hx : Halts x) (hk : ∀ a, x = .ok a → Halts (k a)) : Halts (x >>= k) := by
  intro h
  rcases bind_eq_error.mp h with h | ⟨a, ha, h⟩
  · exact hx h
  · exact hk a ha h

theorem Halts.map (g : α → β) (hx : Halts x) : Halts (g <$> x) :=
  hx.bind fun a _ => halts_pure (g a)

theorem halts_ite {p : Prop} [Decidable p] {y : Checked α} (hx : Halts x) (hy : Halts y) :
    Halts (if p then x else y) := by
  split
  · exact hx
  · exact hy

theorem halts_mapM {k : α → Checked β} {l : List α} (h : ∀ a, Halts (k a)) : Halts (l.mapM k) := by
  induction l with
  | nil => exact halts_pure []
  | cons a l ih =>
    rw [List.mapM_cons]
    exact (h a).bind fun _ _ => ih.bind fun _ _ => halts_pure _

theorem halts_foldlM {k : β → α → Checked β} {l : List α} (h : ∀ b a, Halts (k b a)) (b : β) :
    Halts (l.foldlM k b) := by
  induction l generalizing b with
  | nil => exact halts_pure b
  | cons a l ih =>
    rw [List.foldlM_cons]
    exact (h b a).bind fun c _ => ih c

theorem halts_element (xs : List α) (i : Int) : Halts (element xs i) := by
  unfold element
  split <;> rintro ⟨⟩

theorem halts_cell (xs : Array α) (i : Int) : Halts (cell xs i) := by
  unfold cell
  split <;> rintro ⟨⟩

end Checked

namespace Func

open Checked

variable {f : Func}

theorem halts_of_blames {x : Checked α} (h : ∀ e, x = .error e → Call.Blames f e) : Halts x := by
  intro he
  obtain ⟨cause, hcause⟩ := h _ he
  cases hcause

theorem halts_block (b : Int) : Halts (f.block b) := halts_of_blames fun _ => Call.blames_of_block

theorem halts_instr (id : Int) : Halts (f.instr id) := halts_of_blames fun _ => Call.blames_of_instr

theorem halts_indexOf (id : Int) : Halts (f.indexOf id) :=
  halts_of_blames fun _ => Call.blames_of_indexOf

theorem halts_insertAt (b pos : Int) (i : Instr) : Halts (f.insertAt b pos i) :=
  halts_of_blames fun _ => Call.blames_of_insertAt

theorem halts_insertBefore (pos : Int) (i : Instr) : Halts (f.insertBefore pos i) :=
  halts_of_blames fun _ => Call.blames_of_beside

theorem halts_insertAfter (pos : Int) (i : Instr) : Halts (f.insertAfter pos i) :=
  halts_of_blames fun _ => Call.blames_of_beside

theorem halts_erase (id : Int) : Halts (f.erase id) :=
  (halts_indexOf id).bind fun _ _ => (halts_instr id).bind fun _ _ => halts_pure _

theorem halts_typeOf (v : Value) : Halts (f.typeOf v) := by
  cases v with
  | instr id => exact (halts_instr id).bind fun _ _ => halts_pure _
  | arg n => exact halts_ite ((halts_element _ _).bind fun _ _ => halts_pure _) (by rintro ⟨⟩)
  | _ => exact halts_ok _

theorem halts_terminator (b : Int) : Halts (f.terminator b) := by
  refine (halts_block b).bind fun blk _ => ?_
  split
  · exact halts_pure _
  · exact (halts_instr _).bind fun _ _ => halts_pure _

theorem halts_firstNonPhi (b : Int) : Halts (f.firstNonPhi b) := by
  refine (halts_block b).bind fun blk _ => ?_
  generalize blk.instrs = ids
  generalize 0 = n
  induction ids generalizing n with
  | nil => exact halts_ok n
  | cons id ids ih => exact (halts_cell _ _).bind fun _ _ => halts_ite (halts_pure n) (ih (n + 1))

theorem halts_valueName (scope : Option Symbols) (v : Value) : Halts (f.valueName scope v) := by
  unfold valueName
  split
  · exact (halts_instr _).bind fun _ _ => halts_pure _
  · split
    · exact (halts_element _ _).bind fun _ _ => halts_pure _
    · exact halts_pure _
  · split
    · split
      · exact (halts_element _ _).bind fun _ _ => halts_pure _
      · exact halts_pure _
    · exact halts_pure _
  · exact halts_ok _

theorem halts_placed : Halts f.placed :=
  halts_mapM fun _ => (halts_cell _ _).bind fun _ _ => halts_pure _

theorem halts_instrDominates (d : DomInfo) (a b : Int) : Halts (d.instrDominates f a b) := by
  refine (halts_instr a).bind fun _ _ => (halts_instr b).bind fun _ _ => ?_
  split
  · exact halts_ite (halts_pure _) <|
      (halts_indexOf a).bind fun _ _ => (halts_indexOf b).bind fun _ _ => halts_pure _
  · exact halts_pure _

end Func

namespace ValueRange

section Facts

open Checked Func

theorem halts_comparison? (cmp : Instr) : Halts (comparison? cmp) := by
  refine (halts_element _ _).bind fun _ _ => (halts_element _ _).bind fun _ _ => ?_
  split <;> exact halts_pure _

theorem halts_factOf? (f : Func) (id : Int) (i : Instr) : Halts (factOf? f id i) := by
  refine halts_ite (halts_pure _) ?_
  split
  · refine (halts_instr _).bind fun cmp _ => halts_ite (halts_pure _) ?_
    refine (halts_comparison? cmp).bind fun k _ => ?_
    split
    · exact halts_pure _
    · refine (halts_typeOf _).bind fun _ _ => ?_
      split
      · exact halts_ite (halts_pure _) (halts_pure _)
      · exact halts_pure _
  · exact halts_pure _

theorem Context.halts_of (f : Func) (dom : Option DomInfo) : Halts (Context.of f dom) := by
  have hfacts : Halts (factsOf f) :=
    halts_placed.bind fun _ _ =>
      (halts_mapM fun x : Int × Instr => halts_factOf? f x.1 x.2).bind fun _ _ => halts_pure _
  unfold Context.of
  split
  · exact hfacts.bind fun _ _ => halts_pure _
  · exact halts_pure _

theorem halts_narrowBy (k : Context) (v : Value) (site : Option Int) (r : Interval) :
    Halts (narrowBy k v site r) := by
  unfold narrowBy
  split
  · exact halts_pure r
  · refine halts_foldlM (fun r fact => halts_ite (halts_pure _) ?_) r
    split
    · exact halts_pure _
    · exact (halts_instrDominates _ _ _).bind fun _ _ => halts_ite (halts_pure _) (halts_pure _)

end Facts

namespace RangeM

def Halts (r : RangeM α) : Prop := ∀ m, Checked.Halts (r.run m)

variable {r : RangeM α} {k : α → RangeM β}

theorem halts_pure (a : α) : Halts (pure a : RangeM α) := fun _ => Checked.halts_pure _

theorem halts_lift {x : Checked α} (hx : Checked.Halts x) : Halts (liftM x : RangeM α) := fun _ =>
  hx.bind fun _ _ => Checked.halts_pure _

theorem Halts.bind (hr : Halts r) (hk : ∀ a, Halts (k a)) : Halts (r >>= k) := fun m =>
  (hr m).bind fun p _ => hk p.1 p.2

theorem halts_lift_bind {x : Checked α} (hx : Checked.Halts x) (hk : ∀ a, x = .ok a → Halts (k a)) :
    Halts (liftM x >>= k) := by
  cases x with
  | error e =>
    intro m h
    cases h
    exact hx rfl
  | ok a => exact hk a rfl

theorem halts_ite {p : Prop} [Decidable p] {x y : RangeM α} (hx : Halts x) (hy : Halts y) :
    Halts (if p then x else y) := fun m => by
  split
  · exact hx m
  · exact hy m

theorem halts_allM {g : α → RangeM Bool} {l : List α} (h : ∀ a ∈ l, Halts (g a)) :
    Halts (l.allM g) := by
  induction l with
  | nil => exact halts_pure true
  | cons a l ih =>
    refine (h a (List.mem_cons_self ..)).bind fun b => ?_
    cases b with
    | true => exact ih fun x hx => h x (List.mem_cons_of_mem _ hx)
    | false => exact halts_pure false

end RangeM

open RangeM

variable {k : Context}

theorem halts_rangeBy {instr : Int → Nat → RangeM Interval} (h : ∀ id bits, Halts (instr id bits))
    (v : Value) (site : Option Int) : Halts (rangeBy k instr v site) := by
  have hnarrow (r : Interval) : Halts (liftM (narrowBy k v site r) : RangeM Interval) :=
    halts_lift (halts_narrowBy k v site r)
  refine (halts_lift (Func.halts_typeOf v)).bind fun ty => ?_
  split
  · cases v with
    | instr id => exact (h id _).bind hnarrow
    | _ => exact (halts_pure _).bind hnarrow
  · exact halts_pure _

theorem halts_phiRange {range : Value → Option Int → RangeM Interval}
    (h : ∀ v site, Halts (range v site)) (i : Instr) (bits : Nat) (vs : List Value) (n : Nat)
    (sofar : Option Interval) : Halts (phiRange k range i bits vs n sofar) := by
  induction vs generalizing n sofar with
  | nil => exact halts_pure _
  | cons v vs ih =>
    refine (halts_lift (Checked.halts_element _ _)).bind fun t =>
      (halts_lift (Func.halts_terminator t)).bind fun site => (h v site).bind fun r => ?_
    exact halts_ite (halts_pure _) (ih _ _)

theorem halts_instrValue {range : Value → Option Int → RangeM Interval}
    (h : ∀ v site, Halts (range v site)) (id : Int) (i : Instr) (bits : Nat) :
    Halts (instrValue k range id i bits) := by
  have hoperand (n : Nat) : Halts (do range (← element i.operands n) (some id)) :=
    (halts_lift (Checked.halts_element _ _)).bind fun v => h v _
  refine halts_ite (halts_pure _) ?_
  split
  · exact (hoperand 0).bind fun _ => (hoperand 1).bind fun _ => halts_pure _
  split
  · exact (hoperand 0).bind fun _ => halts_pure _
  split
  · exact (hoperand 1).bind fun _ => (hoperand 2).bind fun _ => halts_pure _
  · exact halts_phiRange h i bits _ 0 none
  · exact halts_pure _

theorem halts_instrRange (depth : Nat) (id : Int) (bits : Nat) : Halts (instrRange k depth id bits) := by
  have hget : Halts (get : RangeM Memo) := fun _ => Checked.halts_ok _
  have hmodify (g : Memo → Memo) : Halts (modify g : RangeM PUnit) := fun _ => Checked.halts_ok _
  induction depth generalizing id bits with
  | zero =>
    unfold instrRange
    refine hget.bind fun m => ?_
    split
    · exact halts_pure _
    · exact hget.bind fun m => halts_ite (halts_pure _) (halts_pure _)
  | succ depth ih =>
    unfold instrRange
    refine hget.bind fun m => ?_
    split
    · exact halts_pure _
    · refine hget.bind fun m => halts_ite (halts_pure _) ((hmodify _).bind fun _ => ?_)
      refine (halts_lift (Func.halts_instr id)).bind fun i => ?_
      exact (halts_instrValue (halts_rangeBy ih) id i bits).bind fun r =>
        (hmodify _).bind fun _ => (hmodify _).bind fun _ => halts_pure r

theorem halts_rangeAt (v : Value) (site : Option Int) : Halts (rangeAt k v site) :=
  halts_rangeBy (halts_instrRange _) v site

end ValueRange

namespace Edit

def Halts (f : Func) (e : Edit α) : Prop := ∀ g, e.run f ≠ .error .endless g

variable {f : Func} {e : Edit α} {k : α → Edit β}

theorem halts_pure (a : α) : Halts f (pure a : Edit α) := by rintro g ⟨⟩

theorem halts_get : Halts f (get : Edit Func) := by rintro g ⟨⟩

theorem halts_modify (change : Func → Func) : Halts f (modify change : Edit PUnit) := by rintro g ⟨⟩

theorem halts_throw {x : Fault} (h : x ≠ .endless) : Halts f (throw x : Edit α) := by
  intro g he
  cases he
  exact h rfl

theorem Halts.bind (he : Halts f e) (hk : ∀ a g, e.run f = .ok a g → Halts g (k a)) :
    Halts f (e >>= k) := by
  intro g h
  simp only [EStateM.run, Bind.bind, EStateM.bind] at h
  cases hrun : e f with
  | error x g' =>
    rw [hrun] at h
    cases h
    exact he _ hrun
  | ok a g' =>
    rw [hrun] at h
    exact hk a g' hrun g h

theorem halts_ask {query : Func → Checked α} (h : Checked.Halts (query f)) : Halts f (ask query) := by
  intro g he
  simp only [EStateM.run, ask] at he
  split at he
  · cases he
  · next x hx =>
    cases he
    exact h hx

theorem halts_change {op : Func → Checked (Func × α)} (h : Checked.Halts (op f)) :
    Halts f (change op) := by
  intro g he
  exact h (Call.change_eq_error.mp he).1

theorem halts_mapM {k : α → Edit β} {l : List α} (h : ∀ f a, Halts f (k a)) : Halts f (l.mapM k) := by
  induction l generalizing f with
  | nil => exact halts_pure []
  | cons a l ih =>
    rw [List.mapM_cons]
    exact (h f a).bind fun _ _ _ => ih.bind fun _ _ _ => halts_pure _

theorem halts_erase (id : Int) : Halts f (erase id) :=
  halts_change ((f.halts_erase id).bind fun _ _ => Checked.halts_pure _)

end Edit

namespace Narrow

open ValueRange

variable {k : Context} {scope : Option Symbols} {f : Func} {w id : Int} {i : Instr}

section Questions

open RangeM

theorem halts_operandsFit (unsigned : Bool) : Halts (operandsFit k w id i unsigned) :=
  halts_allM fun v _ => (halts_rangeAt v _).bind fun _ => halts_pure _

theorem halts_isLocal : Halts (isLocal k w id i) := by
  unfold isLocal
  split
  case h_9 =>
    refine (halts_lift (Checked.halts_element _ _)).bind fun v => ?_
    split <;> exact halts_pure _
  all_goals first | exact halts_pure _ | exact halts_operandsFit _

end Questions

section Edits

open Edit

theorem halts_source (f : Func) (v : Value) (bits : Nat) (target : Ty) :
    Checked.Halts (source f v bits target) := by
  unfold source
  split
  · refine (Func.halts_instr _).bind fun cast _ => Checked.halts_ite (Checked.halts_pure _) ?_
    refine (Checked.halts_element _ _).bind fun src _ => (Func.halts_typeOf src).bind fun ty _ => ?_
    split
    · exact Checked.halts_ite (Checked.halts_pure _) (Checked.halts_pure _)
    · exact Checked.halts_pure _
  · exact Checked.halts_pure _

theorem halts_refuse (v : Value) (cause : String → Breach) :
    Halts f (refuse scope v cause : Edit α) :=
  halts_get.bind fun _ _ _ => (halts_ask (Func.halts_valueName scope v)).bind fun _ _ _ =>
    halts_throw (by rintro ⟨⟩)

theorem halts_resize (v : Value) (target : Ty) : Halts f (resize scope v target) := by
  have hinsert (g : Func) (b : Int) (pos : Nat) (cast : Instr) :
      Halts g (do return Value.instr (← Edit.insertAt b pos cast)) :=
    (halts_change (Func.halts_insertAt _ _ _)).bind fun _ _ _ => halts_pure _
  unfold resize
  refine (halts_ask (Func.halts_typeOf v)).bind fun t _ _ => ?_
  split
  · split
    · exact halts_pure _
    refine (halts_ask (halts_source _ v _ target)).bind fun y _ _ => ?_
    obtain ⟨y, m⟩ := y
    dsimp only
    split
    · exact halts_pure _
    split
    · exact halts_pure _
    split
    · refine (halts_ask (Func.halts_instr _)).bind fun i _ _ => ?_
      split
      · exact (halts_ask (Func.halts_firstNonPhi _)).bind fun _ _ _ => hinsert _ _ _ _
      · exact (halts_change (Func.halts_insertAfter _ _)).bind fun _ _ _ => halts_pure _
    · exact halts_get.bind fun _ _ _ => (halts_ask (Func.halts_firstNonPhi _)).bind fun _ _ _ =>
        hinsert _ _ _ _
    · exact halts_refuse _ _
  · exact halts_refuse _ _

theorem halts_narrowOperands (i : Instr) (target : Ty) :
    Halts f (narrowOperands scope i target) := by
  have hoperand (g : Func) (n : Nat) : Halts g (Edit.ask fun _ => element i.operands n) :=
    halts_ask (Checked.halts_element _ _)
  unfold narrowOperands
  dsimp only
  split
  · exact (hoperand _ 0).bind fun _ _ _ => (halts_resize _ _).bind fun _ _ _ =>
      (hoperand _ 1).bind fun _ _ _ => (halts_resize _ _).bind fun _ _ _ => halts_pure _
  · exact (hoperand _ 0).bind fun _ _ _ => (hoperand _ 1).bind fun _ _ _ =>
      (halts_resize _ _).bind fun _ _ _ => (hoperand _ 2).bind fun _ _ _ =>
        (halts_resize _ _).bind fun _ _ _ => halts_pure _
  · exact halts_mapM fun _ _ => halts_resize _ _

theorem halts_convert (id width : Int) : Halts f (convert scope id width) := by
  refine (halts_ask (Func.halts_instr id)).bind fun i _ _ => ?_
  refine (halts_narrowOperands i _).bind fun ops _ _ => ?_
  refine (halts_change (Func.halts_insertBefore _ _)).bind fun u _ _ => ?_
  refine (halts_resize _ _).bind fun wide _ _ => (halts_modify _).bind fun _ _ _ => ?_
  exact (halts_erase id).bind fun _ _ _ => halts_modify _

end Edits

end Narrow

end RegPressure
