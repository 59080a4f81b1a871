import RegPressure.Proofs.Faultless.Base
import RegPressure.ValueRange.Analysis

namespace RegPressure.ValueRange

open Checked

variable {α β : Type} {s : Symbols} {scope : Option Symbols} {f : Func} {v : Value} {id : Int}
  {i : Instr} {k : Context}

/-- The computation does not fault, whatever is remembered. -/
def RangeM.Answers (r : RangeM α) : Prop := ∀ m, Checked.Answers (r.run m)

namespace RangeM

theorem answers_pure (a : α) : Answers (pure a : RangeM α) := fun m => Checked.answers_pure (a, m)

theorem answers_lift {x : Checked α} (hx : Checked.Answers x) : Answers (liftM x : RangeM α) :=
  fun _ => hx.bind_pure

theorem answers_get : Answers (get : RangeM Memo) := fun m => ⟨(m, m), rfl⟩

theorem answers_modify (g : Memo → Memo) : Answers (modify g : RangeM PUnit) := fun m =>
  ⟨(.unit, g m), rfl⟩

theorem Answers.bind {r : RangeM α} {k : α → RangeM β} (hr : Answers r) (hk : ∀ a, Answers (k a)) :
    Answers (r >>= k) := fun m => (hr m).bind fun p _ => hk p.1 p.2

theorem answers_lift_bind {x : Checked α} {a : α} {k : α → RangeM β} (hx : x = .ok a)
    (hk : Answers (k a)) : Answers (liftM x >>= k) := by
  subst hx
  exact fun m => hk m

theorem Answers.bind_pure {r : RangeM α} {k : α → β} (hr : Answers r) :
    Answers (do return k (← r)) := hr.bind fun _ => answers_pure _

theorem answers_ite {p : Prop} [Decidable p] {x y : RangeM α} (hx : Answers x) (hy : Answers y) :
    Answers (if p then x else y) := by
  split
  · exact hx
  · exact hy

theorem answers_mapM {g : α → RangeM β} {l : List α} (h : ∀ a ∈ l, Answers (g a)) :
    Answers (l.mapM g) := by
  induction l with
  | nil => exact answers_pure _
  | cons a l ih =>
    rw [List.mapM_cons]
    exact (h a (List.mem_cons_self ..)).bind fun _ =>
      (ih fun x hx => h x (List.mem_cons_of_mem _ hx)).bind_pure

end RangeM

theorem length_of_binary? {ret : Ty} {g : Interval → Interval → Interval} (hc : i.Complete ret)
    (hb : binary? i.op = some g) : i.operands.length = 2 := by
  unfold Instr.Complete at hc
  cases hop : i.op <;> rw [hop] at hc hb <;> first | exact hc.1 | cases hb

theorem length_of_resize? {ret : Ty} {g : Interval → Int → Interval} (hc : i.Complete ret)
    (hr : resize? i.op = some g) : i.operands.length = 1 := by
  unfold Instr.Complete at hc
  cases hop : i.op <;> rw [hop] at hc hr <;> first | exact hc.1 | cases hr

/-! ### Assumptions -/

section Facts

variable (h : f.Sturdy scope)

include h

theorem answers_comparison? (hi : f.instr? id = some i) (hlive : i.isErased = false)
    (hop : i.op = .icmp) :
    ∃ c, comparison? i = .ok c ∧ ∀ x, c = some x → f.Present x.value := by
  obtain ⟨ret, hc⟩ := h.complete id i hi hlive
  simp only [Instr.Complete, hop] at hc
  obtain ⟨l, hl, -, hlp⟩ := h.exists_operand hi hlive (n := 0) (by omega)
  obtain ⟨r, hr, -, hrp⟩ := h.exists_operand hi hlive (n := 1) (by omega)
  have hl : element i.operands 0 = .ok l := hl
  have hr : element i.operands 1 = .ok r := hr
  simp only [comparison?, hl, hr, ok_bind]
  split
  · refine ⟨_, rfl, fun x hx => ?_⟩
    obtain ⟨n, -, rfl⟩ := Option.map_eq_some_iff.mp hx
    exact hlp
  · refine ⟨_, rfl, fun x hx => ?_⟩
    obtain ⟨n, -, rfl⟩ := Option.map_eq_some_iff.mp hx
    exact hrp
  · exact ⟨none, rfl, fun x hx => by cases hx⟩

theorem answers_factOf? (hi : f.instr? id = some i) (hlive : i.isErased = false) :
    ∃ o, factOf? f id i = .ok o ∧ ∀ x, o = some x → x.site = id := by
  have hnone : ∃ o : Option Fact, (pure none : Checked (Option Fact)) = .ok o ∧
      ∀ x, o = some x → x.site = id := ⟨none, rfl, fun x hx => by cases hx⟩
  unfold factOf?
  split
  · exact hnone
  · split
    · next c hops =>
      have hc := (h.present id i hi hlive (.instr c) (by simp [hops])).live c rfl
      obtain ⟨cmp, hcmp, hclive⟩ := Func.isLive_iff.mp hc
      rw [Func.instr_eq_ok.mpr hcmp, ok_bind]
      split
      · exact hnone
      · next hop =>
        obtain ⟨o, ho, hpresent⟩ := answers_comparison? h hcmp hclive (not_not.mp hop)
        rw [ho, ok_bind]
        cases o with
        | none => exact hnone
        | some x =>
          obtain ⟨ty, hty⟩ := (hpresent x rfl).typed
          simp only [hty, ok_bind]
          split
          · split
            · exact hnone
            · refine ⟨_, rfl, fun y hy => ?_⟩
              obtain ⟨r, -, rfl⟩ := Option.map_eq_some_iff.mp hy
              rfl
          · exact hnone
    · exact hnone

theorem answers_factsOf :
    ∃ facts, factsOf f = .ok facts ∧ ∀ x ∈ facts, ∃ b, f.Stands b x.site := by
  obtain ⟨l, hl, hplaced⟩ := h.wellFormed.exists_placed
  have hlive : ∀ x ∈ l, x.2.isErased = false := by
    intro x hx
    obtain ⟨hi, b, hb⟩ := hplaced x hx
    simp [Instr.isErased, h.wellFormed.home_eq hb hi]
  obtain ⟨os, hos⟩ := answers_mapM (f := fun x : Int × Instr => factOf? f x.1 x.2) (l := l)
    fun x hx => (answers_factOf? h (hplaced x hx).1 (hlive x hx)).imp fun _ ho => ho.1
  refine ⟨os.filterMap fun x => x, ?_, fun x hx => ?_⟩
  · unfold factsOf
    rw [hl, ok_bind, hos]
    rfl
  · obtain ⟨o, ho, rfl⟩ := List.mem_filterMap.mp hx
    obtain ⟨y, hy, hfact⟩ := Checked.mem_of_mapM hos ho
    obtain ⟨o', ho', hsite⟩ := answers_factOf? h (hplaced y hy).1 (hlive y hy)
    cases ho'.symm.trans hfact
    rw [hsite x rfl]
    exact (hplaced y hy).2

end Facts

/-- A context about a sturdy function, with assumptions that its instructions make. -/
structure Context.Sturdy (scope : Option Symbols) (k : Context) : Prop where
  func : k.func.Sturdy scope
  facts : ∀ x ∈ k.facts, ∃ b, k.func.Stands b x.site

theorem Context.Sturdy.exists_of (o : Option DomInfo) (h : f.Sturdy scope) :
    ∃ k, Context.of f o = .ok k ∧ k.func = f ∧ k.Sturdy scope := by
  cases o with
  | none => exact ⟨⟨f, none, []⟩, rfl, rfl, h, nofun⟩
  | some d =>
    obtain ⟨facts, hfacts, hsites⟩ := answers_factsOf h
    refine ⟨⟨f, some d, facts⟩, ?_, rfl, h, hsites⟩
    simp only [Context.of, Option.isSome_some, if_true, hfacts]
    rfl

namespace Context.Sturdy

variable (h : k.Sturdy scope)

include h

theorem answers_narrowBy {site : Option Int} (hsite : ∀ t, site = some t → ∃ b, k.func.Stands b t)
    (v : Value) (r : Interval) : Checked.Answers (narrowBy k v site r) := by
  unfold narrowBy
  split
  · exact Checked.answers_pure r
  · next site =>
    obtain ⟨c, hc⟩ := hsite site rfl
    refine exists_foldlM (fun r x hx => ?_) r
    refine answers_ite (fun _ => Checked.answers_pure r) fun _ => ?_
    split
    · exact Checked.answers_pure r
    · next d _ =>
      obtain ⟨b, hb⟩ := h.facts x hx
      exact (h.func.wellFormed.answers_instrDominates d hb hc).bind fun _ _ =>
        answers_ite (fun _ => Checked.answers_pure _) fun _ => Checked.answers_pure _

theorem answers_rangeBy {instr : Int → Nat → RangeM Interval}
    (hinstr : ∀ id i bits, k.func.instr? id = some i → i.isErased = false →
      (instr id bits).Answers)
    (hv : k.func.Present v) {site : Option Int}
    (hsite : ∀ t, site = some t → ∃ b, k.func.Stands b t) :
    (rangeBy k instr v site).Answers := by
  refine (RangeM.answers_lift hv.typed).bind fun ty => ?_
  split
  · next bits =>
    have hnarrow (r : Interval) : RangeM.Answers (liftM (narrowBy k v site r)) :=
      RangeM.answers_lift (h.answers_narrowBy hsite v r)
    cases v with
    | instr id =>
      obtain ⟨i, hi, hlive⟩ := Func.isLive_iff.mp (hv.live id rfl)
      exact (hinstr id i bits hi hlive).bind hnarrow
    | _ => exact (RangeM.answers_pure _).bind hnarrow
  · exact RangeM.answers_pure _

theorem exists_incoming (hi : k.func.instr? id = some i) (hlive : i.isErased = false) {n : Nat}
    (hn : n < i.targets.length) : ∃ t site, element i.targets n = .ok t ∧
      k.func.terminator t = .ok site ∧ ∀ u, site = some u → ∃ b, k.func.Stands b u := by
  obtain ⟨t, blk, ht, hblk⟩ := h.func.exists_target hi hlive hn
  obtain ⟨site, hsite⟩ := h.func.wellFormed.answers_terminator hblk
  refine ⟨t, site, ht, hsite, ?_⟩
  rintro u rfl
  exact ⟨t, Func.stands_of_terminator hsite⟩

variable {range : Value → Option Int → RangeM Interval}
  (hrange : ∀ v site, k.func.Present v →
    (∀ t, site = some t → ∃ b, k.func.Stands b t) → (range v site).Answers)
  (hi : k.func.instr? id = some i) (hlive : i.isErased = false)

include hrange hi hlive

theorem answers_phiRange (bits : Nat) (vs : List Value) (hvs : ∀ v ∈ vs, v ∈ i.operands) {n : Nat}
    (hn : n + vs.length ≤ i.targets.length) (sofar : Option Interval) :
    (phiRange k range i bits vs n sofar).Answers := by
  induction vs generalizing n sofar with
  | nil => exact RangeM.answers_pure _
  | cons v vs ih =>
    rw [List.length_cons] at hn
    obtain ⟨t, site, ht, hsite, hstands⟩ := h.exists_incoming hi hlive (n := n) (by omega)
    refine RangeM.answers_lift_bind ht (RangeM.answers_lift_bind hsite ?_)
    have hpresent := h.func.present id i hi hlive v (hvs v (List.mem_cons_self ..))
    refine (hrange v site hpresent hstands).bind fun r => ?_
    exact RangeM.answers_ite (RangeM.answers_pure _)
      (ih (fun v hv => hvs v (List.mem_cons_of_mem _ hv)) (by omega) _)

theorem answers_instrValue (bits : Nat) : (instrValue k range id i bits).Answers := by
  obtain ⟨ret, hc⟩ := h.func.complete id i hi hlive
  have hop {n : Nat} (hn : n < i.operands.length) :
      RangeM.Answers (do range (← element i.operands n) (some id)) := by
    obtain ⟨v, hv, -, hpresent⟩ := h.func.exists_operand hi hlive hn
    refine RangeM.answers_lift_bind hv (hrange v (some id) hpresent ?_)
    rintro t ⟨⟩
    exact h.func.stands id i hi hlive
  refine RangeM.answers_ite (RangeM.answers_pure _) ?_
  split
  · next hb =>
    have hn := length_of_binary? hc hb
    exact (hop (by omega)).bind fun _ => (hop (by omega)).bind_pure
  · split
    · next hr =>
      have hn := length_of_resize? hc hr
      exact (hop (by omega)).bind_pure
    · split
      · next ho =>
        simp only [Instr.Complete, ho] at hc
        exact (hop (by omega)).bind fun _ => (hop (by omega)).bind_pure
      · next ho =>
        simp only [Instr.Complete, ho] at hc
        exact h.answers_phiRange hrange hi hlive bits i.operands (fun _ hv => hv) (by omega) none
      · exact RangeM.answers_pure _

omit hrange in
theorem answers_instrRange (depth bits : Nat) : (instrRange k depth id bits).Answers := by
  induction depth generalizing id i bits with
  | zero =>
    unfold instrRange
    refine RangeM.answers_get.bind fun m => ?_
    split
    · exact RangeM.answers_pure _
    · exact RangeM.answers_get.bind fun m =>
        RangeM.answers_ite (RangeM.answers_pure _) (RangeM.answers_pure _)
  | succ depth ih =>
    unfold instrRange
    refine RangeM.answers_get.bind fun m => ?_
    split
    · exact RangeM.answers_pure _
    · refine RangeM.answers_get.bind fun m => RangeM.answers_ite (RangeM.answers_pure _) ?_
      refine (RangeM.answers_modify _).bind fun _ => ?_
      refine RangeM.answers_lift_bind (Func.instr_eq_ok.mpr hi) ?_
      have hrange : ∀ v site, k.func.Present v → (∀ t, site = some t → ∃ b, k.func.Stands b t) →
          (rangeBy k (instrRange k depth) v site).Answers := fun v site hv hsite =>
        h.answers_rangeBy (fun id i bits hi hlive => ih hi hlive bits) hv hsite
      refine (h.answers_instrValue hrange hi hlive bits).bind fun r => ?_
      exact (RangeM.answers_modify _).bind fun _ => (RangeM.answers_modify _).bind fun _ =>
        RangeM.answers_pure r

omit hrange hi hlive in
theorem answers_rangeAt (hv : k.func.Present v) {site : Option Int}
    (hsite : ∀ t, site = some t → ∃ b, k.func.Stands b t) : (rangeAt k v site).Answers :=
  h.answers_rangeBy (fun _ _ bits hi hlive => h.answers_instrRange hi hlive _ bits) hv hsite

end Context.Sturdy

theorem answers_widths (h : f.Solid s) : Checked.Answers (widths f) := by
  obtain ⟨l, hl, hplaced⟩ := h.wellFormed.exists_placed
  obtain ⟨d, hdom⟩ : ∃ d, DomInfo.compute f = .ok d := ⟨_, h.wellFormed.compute_eq⟩
  obtain ⟨k, hcontext, rfl, hk⟩ := Context.Sturdy.exists_of (some d) h.sturdy
  simp only [widths, hdom, hcontext, hl, ok_bind]
  refine ((RangeM.answers_mapM fun x hx => ?_) _).map _
  obtain ⟨hi, hstands⟩ := hplaced x (List.mem_of_mem_filter hx)
  have hrange : (rangeOf k x.1).Answers :=
    hk.answers_rangeAt (h.present (v := .instr x.1) ⟨x.2, hi⟩) fun t ht => by
      cases ht
      exact hstands
  exact hrange.bind_pure

end RegPressure.ValueRange
