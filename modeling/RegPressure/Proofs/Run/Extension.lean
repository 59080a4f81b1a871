import RegPressure.Proofs.IR.Placing
import RegPressure.Proofs.Run.Step
import RegPressure.Proofs.Run.Values

namespace RegPressure

variable {scope : Option Symbols} {g f : Func} {u : Int} {d : DomInfo} {W : World}

namespace Func

/-- Types of operands may be looked at in another function, under other operands. -/
theorem Typed.map {i : Instr} (σ : Value → Value)
    (hσ : ∀ v ∈ i.operands, ∀ t, g.HasTy v t → f.HasTy (σ v) t) (h : g.Typed i) :
    f.Typed { i with operands := i.operands.map σ } := by
  unfold Typed at h ⊢
  dsimp only
  split at h
  · next hop =>
    rw [if_pos hop]
    obtain ⟨a, b, hab, ha, hb⟩ := h
    exact ⟨σ a, σ b, by simp [hab], hσ a (by simp [hab]) _ ha, hσ b (by simp [hab]) _ hb⟩
  · next hop =>
    rw [if_neg hop]
    split at h
    · obtain ⟨a, t, hops, ha, hwidth⟩ := h
      exact ⟨σ a, t, by simp [hops], hσ a (by simp [hops]) _ ha, hwidth⟩
    · obtain ⟨a, t, hops, ha, hwidth⟩ := h
      exact ⟨σ a, t, by simp [hops], hσ a (by simp [hops]) _ ha, hwidth⟩
    · obtain ⟨a, t, hops, ha, hwidth⟩ := h
      exact ⟨σ a, t, by simp [hops], hσ a (by simp [hops]) _ ha, hwidth⟩
    · obtain ⟨hty, hpred, a, b, t, hops, ha, hb⟩ := h
      exact ⟨hty, hpred, σ a, σ b, t, by simp [hops], hσ a (by simp [hops]) _ ha,
        hσ b (by simp [hops]) _ hb⟩
    · obtain ⟨c, a, b, hops, hc, ha, hb⟩ := h
      exact ⟨σ c, σ a, σ b, by simp [hops], hσ c (by simp [hops]) _ hc, hσ a (by simp [hops]) _ ha,
        hσ b (by simp [hops]) _ hb⟩
    · intro v hv
      obtain ⟨w, hw, rfl⟩ := List.mem_map.mp hv
      exact hσ w hw _ (h w hw)
    · intro hcast
      obtain ⟨a, t, hops, ha, hwidth⟩ := h hcast
      exact ⟨σ a, t, by simp [hops], hσ a (by simp [hops]) _ ha, hwidth⟩

theorem Typed.mono {i : Instr} (hσ : ∀ v ∈ i.operands, ∀ t, g.HasTy v t → f.HasTy v t)
    (h : g.Typed i) : f.Typed i := by
  have := h.map id hσ
  rwa [List.map_id] at this

namespace Adds

theorem hasTy (h : g.Adds u f) {v : Value} (hv : v ≠ .instr u) {t : Ty} :
    g.HasTy v t ↔ f.HasTy v t := by
  cases v with
  | instr id =>
    have hid : id ≠ u := by
      rintro rfl
      exact hv rfl
    simp only [HasTy, h.computes hid, h.instr id hid]
  | arg n => simp only [HasTy, h.params]
  | _ => exact Iff.rfl

theorem ne_of_notMem {i : Instr} (hi : Value.instr u ∉ i.operands) {v : Value} (hv : v ∈ i.operands) :
    v ≠ .instr u := by
  rintro rfl
  exact hi hv

theorem widthOf (h : g.Adds u f) {i : Instr} (hi : Value.instr u ∉ i.operands) :
    g.widthOf i = f.widthOf i := by
  unfold Func.widthOf
  cases hops : i.operands with
  | nil => rfl
  | cons v vs =>
    simp only [List.head?_cons, Option.map_some]
    rw [h.typeOf (ne_of_notMem hi (by simp [hops]))]

theorem wellTyped_without (h : g.Adds u f) (hunused : f.Unused u) (hf : f.WellTyped) : g.WellTyped := by
  refine ⟨?_, fun b id i hb hi => ?_, fun b id i hb hi v hv => ?_⟩
  · rw [h.params]
    exact hf.param
  · obtain ⟨hfb, hid⟩ := h.stands.mp hb
    rw [h.instr id hid] at hi
    have hnot := hunused b id i hfb hid hi
    obtain ⟨hvalid, htyped⟩ := hf.instr b id i hfb hi
    exact ⟨hvalid, htyped.mono fun v hv t => (h.hasTy (ne_of_notMem hnot hv)).mpr⟩
  · obtain ⟨hfb, hid⟩ := h.stands.mp hb
    rw [h.instr id hid] at hi
    have hnot := hunused b id i hfb hid hi
    obtain ⟨t, ht⟩ := hf.operand b id i hfb hi v hv
    exact ⟨t, (h.hasTy (ne_of_notMem hnot hv)).mpr ht⟩

theorem proper_without (h : g.Adds u f) (hf : f.Proper scope d)
    (hterm : (f.opOf u).isTerminator = false) (hunused : f.Unused u) : g.Proper scope d := by
  have hg := h.wellFormed_without hf.wf hterm hunused
  exact ⟨h.hasDominance_of hg hf.toHasDominance, h.inSsaForm_without hg hf.wf hunused hf.ssa,
    h.wellTyped_without hunused hf.typed⟩

end Adds

namespace Inserts

variable {b : Int} {l r : List Int} {i : Instr}

theorem wellTyped (h : g.Inserts u f b l r i) (hg : g.WellFormed scope) (hgt : g.WellTyped)
    (hvalid : i.ty.Valid) (htyped : f.Typed i) (hoperands : ∀ v ∈ i.operands, ∃ t, f.HasTy v t) :
    f.WellTyped := by
  refine ⟨?_, fun c id j hc hj => ?_, fun c id j hc hj v hv => ?_⟩
  · rw [← h.params]
    exact hgt.param
  · by_cases hid : id = u
    · subst hid
      rw [h.instr_eq] at hj
      cases hj
      exact ⟨hvalid, htyped⟩
    · have hnot := h.unused hg c id j hc hid hj
      rw [← h.instr id hid] at hj
      obtain ⟨hv, ht⟩ := hgt.instr c id j (h.stands.mpr ⟨hc, hid⟩) hj
      exact ⟨hv, ht.mono fun v hv t => (h.hasTy (Adds.ne_of_notMem hnot hv)).mp⟩
  · by_cases hid : id = u
    · subst hid
      rw [h.instr_eq] at hj
      cases hj
      exact hoperands v hv
    · have hnot := h.unused hg c id j hc hid hj
      rw [← h.instr id hid] at hj
      obtain ⟨t, ht⟩ := hgt.operand c id j (h.stands.mpr ⟨hc, hid⟩) hj v hv
      exact ⟨t, (h.hasTy (Adds.ne_of_notMem hnot hv)).mp ht⟩

theorem hasDominance (h : g.Inserts u f b l r i) (hg : g.HasDominance scope d)
    (hf : f.WellFormed scope) : f.HasDominance scope d := by
  refine ⟨hf, ?_⟩
  rw [hf.compute_eq, ← h.graph, ← h.entryNode, ← hg.wf.compute_eq]
  exact hg.computed

theorem proper (h : g.Inserts u f b l r i) (hg : g.Proper scope d) (hf : f.WellFormed scope)
    (hssa : f.InSsaForm d fun b => d.dom.isReachable b = true) (hvalid : i.ty.Valid) (htyped : f.Typed i)
    (hoperands : ∀ v ∈ i.operands, ∃ t, f.HasTy v t) : f.Proper scope d :=
  ⟨h.hasDominance hg.toHasDominance hf, hssa, h.wellTyped hg.wf hg.typed hvalid htyped hoperands⟩

end Inserts

/-- What has an integer type is there. -/
theorem WellFormed.resolves_of_hasTy (h : f.WellFormed scope) {v : Value} {n : Nat}
    (hv : f.HasTy v (.int n)) : f.Resolves scope v := by
  cases v with
  | instr id =>
    obtain ⟨⟨⟨b, hb⟩, -⟩, -⟩ := hv
    exact h.resolves_of_stands hb
  | arg n =>
    obtain ⟨hn, p, hp, _⟩ := hv
    have := (List.getElem?_eq_some_iff.mp hp).1
    simp only [Resolves]
    omega
  | global n => cases hv
  | int _ _ | float _ _ | null | undef _ | str _ => trivial

end Func

/-- Two states agree but for an instruction that only one function has. -/
structure State.Matches (u : Int) (s t : State) : Prop where
  block : t.block = s.block
  rest : t.rest = s.rest.filter (· ≠ u)
  env : ∀ x, x ≠ u → t.env x = s.env x
  entered : ∀ x, x ≠ u → t.entered x = s.entered x
  source : t.source = s.source
  pick : t.pick = s.pick

namespace Func.Adds

variable (h : g.Adds u f) {s t : State} {i : Instr} {e : Option Event}

include h

theorem result (hm : s.Matches u t) (hi : Value.instr u ∉ i.operands) {x : Int} :
    Result W g t i e x ↔ Result W f s i e x := by
  have henv : ∀ {q}, Value.instr q ∈ i.operands → t.env q = s.env q := fun {q} hq => hm.env q (by
    rintro rfl
    exact hi hq)
  have hreads : ∀ {vals}, List.Forall₂ (Reads W t.env) i.operands vals ↔
      List.Forall₂ (Reads W s.env) i.operands vals := forall₂_reads_congr fun q hq => henv hq
  have hentered : ∀ {n : Nat} {v x}, i.operands[n]? = some v →
      (Reads W t.entered v x ↔ Reads W s.entered v x) := by
    intro n v x hv
    refine reads_congr fun q hq => hm.entered q ?_
    rintro rfl
    exact hi (hq ▸ List.mem_of_getElem? hv)
  constructor
  · intro hr
    cases hr with
    | phi hop hp ht hv hx =>
      rw [hm.pick] at ht hv
      exact .phi hop (hm.source ▸ hp) ht hv ((hentered hv).mp hx)
    | compute hop hvals hgives => exact .compute hop (hreads.mp hvals) (h.widthOf hi ▸ hgives)
    | undefined hgo hvals hundef hx => exact .undefined hgo (hreads.mp hvals) hundef hx
    | effect hop hvals hpermit hx => exact .effect hop (hreads.mp hvals) hpermit hx
  · intro hr
    cases hr with
    | phi hop hp ht hv hx =>
      rw [← hm.pick] at ht hv
      exact .phi hop (hm.source.trans hp) ht hv ((hentered hv).mpr hx)
    | compute hop hvals hgives => exact .compute hop (hreads.mpr hvals) (h.widthOf hi ▸ hgives)
    | undefined hgo hvals hundef hx => exact .undefined hgo (hreads.mpr hvals) hundef hx
    | effect hop hvals hpermit hx => exact .effect hop (hreads.mpr hvals) hpermit hx

/-- A step of the function with the instruction, at another one, is a step of the function without
it. -/
theorem step_without (hu : f.Unused u) (hs : s.Located f) (hm : s.Matches u t) {c : Int}
    {rest : List Int} (hrest : s.rest = c :: rest) (hc : c ≠ u) {s' : State} (hst : Step W f s e s') :
    ∃ t', Step W g t e t' ∧ s'.Matches u t' := by
  have htrest : t.rest = c :: rest.filter (· ≠ u) := by
    rw [hm.rest, hrest, List.filter_cons_of_pos (by simpa using hc)]
  have hnot : ∀ {i}, f.instr? c = some i → Value.instr u ∉ i.operands := fun hi =>
    hu s.block c _ (hs.stands hrest) hc hi
  have hreads : ∀ {i vals}, f.instr? c = some i → (List.Forall₂ (Reads W t.env) i.operands vals ↔
      List.Forall₂ (Reads W s.env) i.operands vals) := by
    intro i vals hi
    refine forall₂_reads_congr fun q hq => hm.env q ?_
    rintro rfl
    exact hnot hi hq
  cases hst with
  | on hr hi hx =>
    rw [hrest] at hr
    cases hr
    refine ⟨_, .on htrest (by rw [h.instr c hc, hi]) ((h.result hm (hnot hi)).mpr hx), ?_⟩
    refine ⟨hm.block, rfl, fun y hy => ?_, hm.entered, hm.source, hm.pick⟩
    by_cases hyc : y = c
    · subst hyc
      rw [State.env_after, State.env_after]
    · simp only [State.after, Function.update_of_ne hyc]
      exact hm.env y hy
  | @jump _ _ _ _ tgt pick hr hi hop hvals ht hgo =>
    rw [hrest] at hr
    cases hr
    refine ⟨t.enter g tgt pick, .jump htrest (by rw [h.instr c hc, hi]) hop ((hreads hi).mpr hvals)
      (by rw [hm.block, h.graph]; exact ht) hgo, ?_⟩
    exact ⟨rfl, h.bodyOf tgt, hm.env, hm.env, congrArg some hm.block, rfl⟩
  | ret hr hi hop hvals =>
    rw [hrest] at hr
    cases hr
    refine ⟨_, .ret htrest (by rw [h.instr c hc, hi]) hop ((hreads hi).mpr hvals), ?_⟩
    exact ⟨hm.block, rfl, hm.env, hm.entered, hm.source, hm.pick⟩

theorem step_with (hu : f.Unused u) (hs : s.Located f) (hm : s.Matches u t) {c : Int}
    {rest : List Int} (hrest : s.rest = c :: rest) (hc : c ≠ u) {t' : State} (hst : Step W g t e t') :
    ∃ s', Step W f s e s' ∧ s'.Matches u t' := by
  have htrest : t.rest = c :: rest.filter (· ≠ u) := by
    rw [hm.rest, hrest, List.filter_cons_of_pos (by simpa using hc)]
  have hnot : ∀ {i}, f.instr? c = some i → Value.instr u ∉ i.operands := fun hi =>
    hu s.block c _ (hs.stands hrest) hc hi
  have hreads : ∀ {i vals}, f.instr? c = some i → (List.Forall₂ (Reads W t.env) i.operands vals ↔
      List.Forall₂ (Reads W s.env) i.operands vals) := by
    intro i vals hi
    refine forall₂_reads_congr fun q hq => hm.env q ?_
    rintro rfl
    exact hnot hi hq
  cases hst with
  | on hr hi hx =>
    rw [htrest] at hr
    cases hr
    rw [h.instr c hc] at hi
    refine ⟨_, .on hrest hi ((h.result hm (hnot hi)).mp hx), ?_⟩
    refine ⟨hm.block, rfl, fun y hy => ?_, hm.entered, hm.source, hm.pick⟩
    by_cases hyc : y = c
    · subst hyc
      rw [State.env_after, State.env_after]
    · simp only [State.after, Function.update_of_ne hyc]
      exact hm.env y hy
  | @jump _ _ _ _ tgt pick hr hi hop hvals ht hgo =>
    rw [htrest] at hr
    cases hr
    rw [h.instr c hc] at hi
    refine ⟨s.enter f tgt pick, .jump hrest hi hop ((hreads hi).mp hvals)
      (by rw [← hm.block, ← h.graph]; exact ht) hgo, ?_⟩
    exact ⟨rfl, h.bodyOf tgt, hm.env, hm.env, congrArg some hm.block, rfl⟩
  | ret hr hi hop hvals =>
    rw [htrest] at hr
    cases hr
    rw [h.instr c hc] at hi
    refine ⟨_, .ret hrest hi hop ((hreads hi).mp hvals), ?_⟩
    exact ⟨hm.block, rfl, hm.env, hm.entered, hm.source, hm.pick⟩

omit h in
theorem matches_after (hm : s.Matches u t) {rest : List Int} (hrest : s.rest = u :: rest) (x : Int) :
    (s.after rest u x).Matches u t := by
  refine ⟨hm.block, ?_, fun y hy => ?_, hm.entered, hm.source, hm.pick⟩
  · rw [hm.rest, hrest, List.filter_cons_of_neg (by simp)]
    rfl
  · simp only [State.after, Function.update_of_ne hy]
    exact hm.env y hy

/-- Every run of the function with the instruction is one of the function without it. -/
theorem runs_without (hu : f.Unused u) (hop : (f.opOf u).isPure = true ∨ f.opOf u = .phi)
    {seen : List Event} (hs : Runs W f seen s) : ∃ t, Runs W g seen t ∧ s.Matches u t := by
  induction hs with
  | @start s hi =>
    refine ⟨{ s with rest := g.bodyOf g.entryNode }, .start ⟨?_, rfl, hi.source⟩, ?_⟩
    · rw [h.entryNode]
      exact hi.block
    · refine ⟨rfl, ?_, fun _ _ => rfl, fun _ _ => rfl, rfl, rfl⟩
      rw [hi.rest, h.entryNode]
      exact h.bodyOf _
  | @step seen s s' e hruns hst ih =>
    obtain ⟨t, ht, hm⟩ := ih
    obtain ⟨c, rest, hrest, _⟩ := hst.moves
    by_cases hc : c = u
    · subst hc
      cases hst with
      | on hr hi hx =>
        rw [hrest] at hr
        cases hr
        have he : e = none := by
          rw [Func.opOf_eq hi] at hop
          rcases hop with hop | hop
          · exact ((result_iff hop).mp hx).1
          · exact ((result_phi hop).mp hx).1
        subst he
        -- Running the added instruction shows nothing, and the other function stays where it is.
        exact ⟨t, by simpa using ht, matches_after hm hrest _⟩
      | jump hr hi hterm =>
        rw [hrest] at hr
        cases hr
        rw [Func.opOf_eq hi] at hop
        rcases hop with hop | hop
        · rw [Op.not_isTerminator_of_isPure hop] at hterm
          cases hterm
        · rw [hop] at hterm
          cases hterm
      | ret hr hi hret =>
        rw [hrest] at hr
        cases hr
        rw [Func.opOf_eq hi, hret] at hop
        rcases hop with hop | hop <;> cases hop
    · obtain ⟨t', ht', hm'⟩ := h.step_without hu (Reached.located ⟨seen, hruns⟩) hm hrest hc hst
      exact ⟨t', ht.step ht', hm'⟩

omit h in
/-- If the instruction comes first, it runs now, and both functions are at the same instruction. -/
theorem catch_up (hf : f.WellFormed scope) (hi : f.instr? u = some i) (hm : s.Matches u t)
    (hgo : ∀ rest, s.rest = u :: rest → ∃ x, Result W f s i none x) {c : Int} {trest : List Int}
    (htrest : t.rest = c :: trest) {seen : List Event} (hs : Runs W f seen s) :
    ∃ s', Runs W f seen s' ∧ s'.Matches u t ∧ ∃ rest, s'.rest = c :: rest ∧ c ≠ u := by
  have hloc := Reached.located ⟨seen, hs⟩
  have hnodup : s.rest.Nodup := (hf.bodyOf_nodup s.block).sublist hloc.suffix.sublist
  rw [hm.rest] at htrest
  cases hrest : s.rest with
  | nil => simp [hrest] at htrest
  | cons y rest =>
    by_cases hy : y = u
    · subst hy
      obtain ⟨x, hx⟩ := hgo rest hrest
      rw [hrest] at htrest hnodup
      rw [List.filter_cons_of_neg (by simp),
        Func.filter_ne_of_notMem (List.nodup_cons.mp hnodup).1] at htrest
      refine ⟨s.after rest y x, by simpa using hs.step (.on hrest hi hx), matches_after hm hrest x,
        trest, htrest, ?_⟩
      rintro rfl
      exact (List.nodup_cons.mp hnodup).1 (by simp [htrest])
    · rw [hrest, List.filter_cons_of_pos (by simpa using hy)] at htrest
      cases htrest
      exact ⟨s, hs, hm, rest, hrest, hy⟩

/-- Every run of the function without the instruction is one of the function with it, if the
instruction can run whenever the run of the other function goes on. -/
theorem runs_with (hf : f.WellFormed scope) (hu : f.Unused u) (hi : f.instr? u = some i)
    (hgo : ∀ s t rest, Reached W f s → Reached W g t → s.Matches u t → s.rest = u :: rest →
      (∃ e t', Step W g t e t') → ∃ x, Result W f s i none x)
    {seen : List Event} (ht : Runs W g seen t) : ∃ s, Runs W f seen s ∧ s.Matches u t := by
  induction ht with
  | @start t hi =>
    refine ⟨{ t with rest := f.bodyOf f.entryNode }, .start ⟨?_, rfl, hi.source⟩, ?_⟩
    · rw [← h.entryNode]
      exact hi.block
    · refine ⟨rfl, ?_, fun _ _ => rfl, fun _ _ => rfl, rfl, rfl⟩
      rw [hi.rest, h.entryNode]
      exact h.bodyOf _
  | @step seen t t' e hruns hst ih =>
    obtain ⟨s, hs, hm⟩ := ih
    obtain ⟨c, trest, htrest, _⟩ := hst.moves
    obtain ⟨s₁, hs₁, hm₁, rest, hrest, hc⟩ := catch_up hf hi hm
      (fun rest hrest => hgo s t rest ⟨seen, hs⟩ ⟨seen, hruns⟩ hm hrest ⟨e, t', hst⟩) htrest hs
    obtain ⟨s', hst', hm'⟩ := h.step_with hu (Reached.located ⟨seen, hs₁⟩) hm₁ hrest hc hst
    exact ⟨s', hs₁.step hst', hm'⟩

end Func.Adds

end RegPressure
