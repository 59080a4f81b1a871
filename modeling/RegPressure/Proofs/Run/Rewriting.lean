import RegPressure.Proofs.Run.Extension

namespace RegPressure

variable {scope : Option Symbols} {f f' : Func} {σ : Value → Value} {d : DomInfo} {W : World}

namespace Func

/-- The function `f'` is `f` with every operand `v` turned into `σ v`, and maybe other names. -/
structure Rewrites (f : Func) (σ : Value → Value) (f' : Func) : Prop where
  name : f'.name = f.name
  entry : f'.entry = f.entry
  params : f'.params = f.params
  blocks : f'.blocks = f.blocks
  instr : ∀ id, (f'.instr? id).map (fun i => (i.shape, i.home)) =
    (f.instr? id).map fun i => (i.shape, i.home)
  operands : ∀ b id i i', f.Stands b id → f.instr? id = some i → f'.instr? id = some i' →
    i'.operands = i.operands.map σ

namespace Rewrites

variable (h : f.Rewrites σ f')

include h

theorem block? (b : Int) : f'.block? b = f.block? b := by
  unfold Func.block?
  rw [h.blocks]

theorem graph : f'.graph = f.graph := by
  unfold Func.graph
  rw [h.blocks]

theorem stands {b id : Int} : f'.Stands b id ↔ f.Stands b id := by
  unfold Stands
  rw [h.block?]

theorem bodyOf (b : Int) : f'.bodyOf b = f.bodyOf b := by
  unfold Func.bodyOf
  rw [h.block?]

theorem exists_instr {id : Int} {i : Instr} (hi : f.instr? id = some i) :
    ∃ i', f'.instr? id = some i' ∧ i'.shape = i.shape ∧ i'.home = i.home := by
  have := h.instr id
  rw [hi] at this
  obtain ⟨i', hi', he⟩ := Option.map_eq_some_iff.mp this
  exact ⟨i', hi', (Prod.mk.inj he).1, (Prod.mk.inj he).2⟩

theorem exists_instr' {id : Int} {i' : Instr} (hi : f'.instr? id = some i') :
    ∃ i, f.instr? id = some i ∧ i'.shape = i.shape ∧ i'.home = i.home := by
  have := h.instr id
  rw [hi] at this
  obtain ⟨i, hi, he⟩ := Option.map_eq_some_iff.mp this.symm
  exact ⟨i, hi, (Prod.mk.inj he).1.symm, (Prod.mk.inj he).2.symm⟩

theorem opOf (id : Int) : f'.opOf id = f.opOf id := by
  have := h.instr id
  unfold Func.opOf
  cases hi : f.instr? id with
  | none =>
    rw [hi, Option.map_none, Option.map_eq_none_iff] at this
    rw [this]
  | some i =>
    obtain ⟨i', hi', hshape, _⟩ := h.exists_instr hi
    rw [hi']
    exact Instr.op_of_shape hshape

theorem computes {id : Int} : f'.Computes id ↔ f.Computes id := by
  unfold Computes
  rw [h.opOf]
  simp only [h.stands]

theorem hasTy {v : Value} {t : Ty} : f'.HasTy v t ↔ f.HasTy v t := by
  cases v with
  | instr id =>
    simp only [HasTy, h.computes]
    refine and_congr_right fun _ => ⟨?_, ?_⟩
    · rintro ⟨i', hi', rfl⟩
      obtain ⟨i, hi, hshape, _⟩ := h.exists_instr' hi'
      exact ⟨i, hi, (Instr.ty_of_shape hshape).symm⟩
    · rintro ⟨i, hi, rfl⟩
      obtain ⟨i', hi', hshape, _⟩ := h.exists_instr hi
      exact ⟨i', hi', Instr.ty_of_shape hshape⟩
  | arg n => simp only [HasTy, h.params]
  | _ => exact Iff.rfl

theorem isLive (id : Int) : f'.isLive id = f.isLive id := by
  have := h.instr id
  unfold Func.isLive
  cases hi : f.instr? id with
  | none =>
    rw [hi, Option.map_none, Option.map_eq_none_iff] at this
    rw [this]
  | some i =>
    obtain ⟨i', hi', _, hhome⟩ := h.exists_instr hi
    simp only [hi', Instr.isErased, hhome]

theorem resolves {v : Value} : f'.Resolves scope v ↔ f.Resolves scope v := by
  cases v with
  | instr id => simp only [Resolves, h.isLive]
  | arg n => simp only [Resolves, h.params]
  | _ => exact Iff.rfl

theorem wellFormed (hf : f.WellFormed scope)
    (hσ : ∀ b id i v, f.Stands b id → f.instr? id = some i → v ∈ i.operands → f.Resolves scope (σ v)) :
    f'.WellFormed scope := by
  refine ⟨?_, fun b blk hblk => ?_⟩
  · rw [h.entry]
    simp only [h.block?]
    exact hf.entry
  · rw [h.block?] at hblk
    have hsound := hf.block b blk hblk
    refine ⟨hsound.ne_nil, ⟨hsound.body.nodup, fun id hid => ?_, ?_, ?_⟩, ⟨?_, ?_, ?_⟩⟩
    · obtain ⟨i, hi, hhome, hrefs⟩ := hsound.body.member id hid
      obtain ⟨i', hi', hshape, hhome'⟩ := h.exists_instr hi
      have hops := h.operands b id i i' ⟨blk, hblk, hid⟩ hi hi'
      refine ⟨i', hi', hhome'.trans hhome, ?_, ?_, ?_⟩
      · intro v hv
        rw [hops] at hv
        obtain ⟨w, hw, rfl⟩ := List.mem_map.mp hv
        exact h.resolves.mpr (hσ b id i w ⟨blk, hblk, hid⟩ hi hw)
      · rw [Instr.targets_of_shape hshape]
        simp only [h.block?]
        exact hrefs.targets
      · intro hop
        rw [Instr.targets_of_shape hshape, hops, List.length_map]
        exact hrefs.arity ((Instr.op_of_shape hshape).symm.trans hop)
    · simp only [h.opOf]
      exact hsound.body.phis_first
    · simp only [h.opOf]
      exact hsound.body.ends
    · simp only [h.block?]
      exact hsound.edges.succs
    · simp only [h.block?]
      exact hsound.edges.preds
    · intro id hid i' hi' hop
      obtain ⟨i, hi, hshape, _⟩ := h.exists_instr' hi'
      rw [Instr.targets_of_shape hshape]
      exact hsound.edges.incoming id hid i hi ((Instr.op_of_shape hshape).symm.trans hop)

theorem entryNode : f'.entryNode = f.entryNode := by
  unfold Func.entryNode
  rw [h.entry]

theorem hasDominance (hf : f.HasDominance scope d) (hwf : f'.WellFormed scope) :
    f'.HasDominance scope d := by
  refine ⟨hwf, ?_⟩
  rw [hwf.compute_eq, h.graph, h.entryNode, ← hf.wf.compute_eq]
  exact hf.computed

theorem precedes (hf : f.WellFormed scope) (hwf : f'.WellFormed scope) {a c x y : Int}
    (ha : f.Stands x a) (hc : f.Stands y c) : f'.Precedes d a c ↔ f.Precedes d a c := by
  obtain ⟨x, rfl, _⟩ := ha.nat
  obtain ⟨y, rfl, _⟩ := hc.nat
  have ha' := h.stands.mpr ha
  obtain ⟨blk, hblk, hmem⟩ := hc
  rw [hf.precedes_iff ha hblk hmem, hwf.precedes_iff ha' (by rw [h.block?, hblk]) hmem]

theorem inSsaForm {counts : Nat → Prop} (hf : f.WellFormed scope) (hwf : f'.WellFormed scope)
    (huses : ∀ (b : Nat) id i v w, d.dom.isReachable b = true → f.Stands b id → f.instr? id = some i →
      i.op ≠ .phi → v ∈ i.operands → σ v = .instr w → f.Computes w ∧ f.Precedes d w id)
    (hincoming : ∀ (b : Int) id i (n : Nat) v w (p : Nat) t, f.Stands b id → f.instr? id = some i →
      i.op = .phi → i.operands[n]? = some v → σ v = .instr w → i.targets[n]? = some (p : Int) →
        counts p → f.terminator p = .ok (some t) → f.Computes w ∧ f.Precedes d w t) :
    f'.InSsaForm d counts where
  uses := by
    intro b id i' w hreach hb hi' hop hw
    have hb := h.stands.mp hb
    obtain ⟨i, hi, hshape, _⟩ := h.exists_instr' hi'
    rw [h.operands b id i i' hb hi hi'] at hw
    obtain ⟨v, hv, he⟩ := List.mem_map.mp hw
    have hop' : i.op ≠ .phi := fun e => hop ((Instr.op_of_shape hshape).trans e)
    obtain ⟨hc, hprec⟩ := huses b id i v w hreach hb hi hop' hv he
    obtain ⟨y, hy⟩ := hc.1
    exact ⟨h.computes.mpr hc, (h.precedes hf hwf hy hb).mpr hprec⟩
  incoming := by
    intro b id i' n w p t hb hi' hop hw ht hcounts hterm
    have hb := h.stands.mp hb
    obtain ⟨i, hi, hshape, _⟩ := h.exists_instr' hi'
    rw [h.operands b id i i' hb hi hi', List.getElem?_map] at hw
    obtain ⟨v, hv, he⟩ := Option.map_eq_some_iff.mp hw
    rw [Instr.targets_of_shape hshape] at ht
    obtain ⟨htb, htop⟩ := hwf.terminator_iff.mp hterm
    have htb := h.stands.mp htb
    rw [h.opOf] at htop
    obtain ⟨hc, hprec⟩ := hincoming b id i n v w p t hb hi
      ((Instr.op_of_shape hshape).symm.trans hop) hv he ht hcounts (hf.terminator_iff.mpr ⟨htb, htop⟩)
    obtain ⟨y, hy⟩ := hc.1
    exact ⟨h.computes.mpr hc, (h.precedes hf hwf hy htb).mpr hprec⟩

theorem wellTyped (hf : f.WellTyped)
    (hσ : ∀ b id i v t, f.Stands b id → f.instr? id = some i → v ∈ i.operands → f.HasTy v t →
      f.HasTy (σ v) t) : f'.WellTyped := by
  refine ⟨by rw [h.params]; exact hf.param, fun b id i' hb hi' => ?_, fun b id i' hb hi' v' hv' => ?_⟩
  · have hb := h.stands.mp hb
    obtain ⟨i, hi, hshape, _⟩ := h.exists_instr' hi'
    obtain ⟨hvalid, htyped⟩ := hf.instr b id i hb hi
    have hmap := htyped.map (f := f') σ fun v hv t ht => h.hasTy.mpr (hσ b id i v t hb hi hv ht)
    rw [← h.operands b id i i' hb hi hi'] at hmap
    refine ⟨Instr.ty_of_shape hshape ▸ hvalid, ?_⟩
    unfold Typed at hmap ⊢
    rw [Instr.op_of_shape hshape, Instr.ty_of_shape hshape, Instr.pred_of_shape hshape]
    exact hmap
  · have hb := h.stands.mp hb
    obtain ⟨i, hi, _, _⟩ := h.exists_instr' hi'
    rw [h.operands b id i i' hb hi hi'] at hv'
    obtain ⟨v, hv, rfl⟩ := List.mem_map.mp hv'
    obtain ⟨t, ht⟩ := hf.operand b id i hb hi v hv
    exact ⟨t, h.hasTy.mpr (hσ b id i v t hb hi hv ht)⟩

theorem proper (hf : f.Proper scope d)
    (hres : ∀ b id i v, f.Stands b id → f.instr? id = some i → v ∈ i.operands → f.Resolves scope (σ v))
    (hσ : ∀ b id i v t, f.Stands b id → f.instr? id = some i → v ∈ i.operands → f.HasTy v t →
      f.HasTy (σ v) t)
    (huses : ∀ (b : Nat) id i v w, d.dom.isReachable b = true → f.Stands b id → f.instr? id = some i →
      i.op ≠ .phi → v ∈ i.operands → σ v = .instr w → f.Computes w ∧ f.Precedes d w id)
    (hincoming : ∀ (b : Int) id i (n : Nat) v w (p : Nat) t, f.Stands b id → f.instr? id = some i →
      i.op = .phi → i.operands[n]? = some v → σ v = .instr w → i.targets[n]? = some (p : Int) →
        d.dom.isReachable p = true → f.terminator p = .ok (some t) → f.Computes w ∧ f.Precedes d w t) :
    f'.Proper scope d := by
  have hwf := h.wellFormed hf.wf hres
  exact ⟨h.hasDominance hf.toHasDominance hwf, h.inSsaForm hf.wf hwf huses hincoming,
    h.wellTyped hf.typed hσ⟩

theorem typeOf (v : Value) : f'.typeOf v = f.typeOf v := by
  cases v with
  | instr id =>
    have := h.instr id
    simp only [Func.typeOf, Func.instr]
    cases hi : f.instr? id with
    | none =>
      rw [hi, Option.map_none, Option.map_eq_none_iff] at this
      rw [this, h.name]
    | some i =>
      obtain ⟨i', hi', hshape, _⟩ := h.exists_instr hi
      rw [hi']
      simp [Instr.ty_of_shape hshape]
  | arg n => simp only [Func.typeOf, h.params, h.name]
  | _ => rfl

end Rewrites

theorem rewrites_replaceAllUses (h : f.WellFormed scope) (old : Int) (v : Value) :
    f.Rewrites (fun o => if o = .instr old then v else o) (f.replaceAllUses old v) where
  name := rfl
  entry := rfl
  params := rfl
  blocks := rfl
  instr id := by
    rw [instr?_replaceAllUses, Option.map_map]
    cases f.instr? id with
    | none => rfl
    | some i =>
      simp only [Option.map_some, Function.comp_apply]
      split <;> rfl
  operands b id i i' hb hi hi' := by
    rw [instr?_replaceAllUses, hi, Option.map_some, Instr.isErased, h.home_eq hb hi] at hi'
    cases hi'
    rfl

theorem rewrites_rename (id : Int) (name : String) :
    f.Rewrites (fun v => v) (f.setInstr id ({ · with name })) where
  name := name_setInstr
  entry := entry_setInstr
  params := params_setInstr
  blocks := blocks_setInstr
  instr x := by
    rw [instr?_setInstr]
    split
    · cases f.instr? x <;> rfl
    · rfl
  operands b x i i' _ hi hi' := by
    rw [instr?_setInstr, hi] at hi'
    rw [List.map_id']
    split at hi' <;> (cases hi'; rfl)

end Func

theorem Gives.of_shape {i i' : Instr} (hs : i'.shape = i.shape) {w : Option Nat} {vals : List Int}
    {x : Int} (h : Gives W w i vals x) : Gives W w i' vals x := by
  have hop := Instr.op_of_shape hs
  have hty := Instr.ty_of_shape hs
  cases h with
  | arith ho ht hr => exact .arith (hop ▸ ho) (hty ▸ ht) (hop ▸ hr)
  | trunc ho ht => exact .trunc (hop.trans ho) (hty.trans ht)
  | sext ho ht hw => exact .sext (hop.trans ho) (hty.trans ht) hw
  | zext ho ht hw => exact .zext (hop.trans ho) (hty.trans ht) hw
  | icmp ho hw =>
    rw [← Instr.pred_of_shape hs]
    exact .icmp (hop.trans ho) hw
  | select ho => exact .select (hop.trans ho)
  | other ho ht hx =>
    refine .other ?_ (hty ▸ ht) (hs ▸ hx)
    unfold Interpreted at ho ⊢
    rw [hop, hty]
    exact ho

theorem forall₂_reads_map {env : Env} {vs : List Value} {vals : List Int}
    (h : ∀ v ∈ vs, ∀ x, Reads W env (σ v) x ↔ Reads W env v x) :
    List.Forall₂ (Reads W env) (vs.map σ) vals ↔ List.Forall₂ (Reads W env) vs vals := by
  induction vs generalizing vals with
  | nil => simp
  | cons v vs ih =>
    simp only [List.map_cons, List.forall₂_cons_left_iff]
    refine exists_congr fun x => exists_congr fun xs => ?_
    rw [h v (List.mem_cons_self ..) x, ih fun w hw => h w (List.mem_cons_of_mem _ hw)]

/-- The operands of an instruction read the same before and after they are rewritten. -/
structure SameReads (W : World) (σ : Value → Value) (s : State) (i : Instr) : Prop where
  now : i.op ≠ .phi → ∀ v ∈ i.operands, ∀ x, Reads W s.env (σ v) x ↔ Reads W s.env v x
  entered : i.op = .phi → ∀ (p : Nat) v, s.source = some p →
    i.targets[s.pick i.targets]? = some (p : Int) → i.operands[s.pick i.targets]? = some v →
      ∀ x, Reads W s.entered (σ v) x ↔ Reads W s.entered v x

section Simulation

variable {s : State} {i i' : Instr} {e : Option Event} (hops : i'.operands = i.operands.map σ)
  (hreads : SameReads W σ s i)

include hops hreads

theorem SameReads.operands (hop : i.op ≠ .phi) {vals : List Int} :
    List.Forall₂ (Reads W s.env) i'.operands vals ↔ List.Forall₂ (Reads W s.env) i.operands vals := by
  rw [hops]
  exact forall₂_reads_map (hreads.now hop)

theorem SameReads.result (hshape : i'.shape = i.shape) (hwidth : f'.widthOf i' = f.widthOf i) {x : Int} :
    Result W f' s i' e x ↔ Result W f s i e x := by
  have hop := Instr.op_of_shape hshape
  have hty := Instr.ty_of_shape hshape
  have htargets := Instr.targets_of_shape hshape
  have hundef : ∀ {vals}, Undefined i' vals ↔ Undefined i vals := by
    intro vals
    unfold Undefined
    rw [hop, hty]
  have hpermit : ∀ {vals}, Permitted i' vals ↔ Permitted i vals := by
    intro vals
    unfold Permitted
    rw [hop, Instr.callee_of_shape hshape]
  by_cases hphi : i.op = .phi
  · rw [result_phi hphi, result_phi (hop.trans hphi), htargets, hops, List.getElem?_map]
    refine and_congr_right fun _ => exists_congr fun p => ?_
    constructor
    · rintro ⟨_, hp, ht, hσv, hx⟩
      obtain ⟨v, hv, rfl⟩ := Option.map_eq_some_iff.mp hσv
      exact ⟨v, hp, ht, hv, (hreads.entered hphi p v hp ht hv x).mp hx⟩
    · rintro ⟨v, hp, ht, hv, hx⟩
      exact ⟨σ v, hp, ht, by rw [hv]; rfl, (hreads.entered hphi p v hp ht hv x).mpr hx⟩
  · have hvals : ∀ {vals}, List.Forall₂ (Reads W s.env) i'.operands vals ↔
        List.Forall₂ (Reads W s.env) i.operands vals := hreads.operands hops hphi
    constructor
    · intro hr
      cases hr with
      | phi ho => exact absurd (hop.symm.trans ho) hphi
      | compute ho hv hg => exact .compute (hop ▸ ho) (hvals.mp hv) (hwidth ▸ hg.of_shape hshape.symm)
      | undefined hgo hv hu hx => exact .undefined hgo (hvals.mp hv) (hundef.mp hu) (hty ▸ hx)
      | effect ho hv hp hx =>
        rw [hshape]
        exact .effect (hop ▸ ho) (hvals.mp hv) (hpermit.mp hp) (hty ▸ hx)
    · intro hr
      cases hr with
      | phi ho => exact absurd ho hphi
      | compute ho hv hg => exact .compute (hop ▸ ho) (hvals.mpr hv) (hwidth ▸ hg.of_shape hshape)
      | undefined hgo hv hu hx => exact .undefined hgo (hvals.mpr hv) (hundef.mpr hu) (hty ▸ hx)
      | effect ho hv hp hx =>
        rw [← hshape]
        exact .effect (hop ▸ ho) (hvals.mpr hv) (hpermit.mpr hp) (hty ▸ hx)

end Simulation

namespace Func.Rewrites

variable (h : f.Rewrites σ f')

include h

theorem widthOf (hf : f.WellTyped)
    (hσ : ∀ b id i v t, f.Stands b id → f.instr? id = some i → v ∈ i.operands → f.HasTy v t →
      f.HasTy (σ v) t) {b id : Int} {i i' : Instr} (hb : f.Stands b id) (hi : f.instr? id = some i)
    (hi' : f'.instr? id = some i') : f'.widthOf i' = f.widthOf i := by
  unfold Func.widthOf
  rw [h.operands b id i i' hb hi hi']
  cases hops : i.operands with
  | nil => rfl
  | cons v vs =>
    have hv : v ∈ i.operands := by simp [hops]
    obtain ⟨t, ht⟩ := hf.operand b id i hb hi v hv
    simp only [List.map_cons, List.head?_cons, Option.map_some]
    rw [h.typeOf, ht.typeOf, (hσ b id i v t hb hi hv ht).typeOf]

variable (hwidth : ∀ b id i i', f.Stands b id → f.instr? id = some i → f'.instr? id = some i' →
  f'.widthOf i' = f.widthOf i)

include hwidth

theorem step {s t : State} {e : Option Event} (hs : s.Located f)
    (hreads : ∀ c rest i, s.rest = c :: rest → f.instr? c = some i → SameReads W σ s i) :
    Step W f' s e t ↔ Step W f s e t := by
  have henter : ∀ {b pick}, s.enter f' b pick = s.enter f b pick := by
    intro b pick
    simp only [State.enter, h.bodyOf]
  have hterm : ∀ {op : Op}, op.isTerminator = true → op ≠ .phi := by
    rintro _ hop rfl
    cases hop
  constructor
  · intro hst
    cases hst with
    | @on id rest i' e x hrest hi' hx =>
      obtain ⟨i, hi, hshape, _⟩ := h.exists_instr' hi'
      have hb := hs.stands hrest
      have hops := h.operands s.block id i i' hb hi hi'
      exact .on hrest hi (((hreads id rest i hrest hi).result hops hshape
        (hwidth s.block id i i' hb hi hi')).mp hx)
    | @jump id rest i' vals b pick hrest hi' hop hvals hb hgo =>
      obtain ⟨i, hi, hshape, _⟩ := h.exists_instr' hi'
      have hops := h.operands s.block id i i' (hs.stands hrest) hi hi'
      rw [Instr.op_of_shape hshape] at hop
      rw [henter, hshape]
      exact .jump hrest hi hop (((hreads id rest i hrest hi).operands hops (hterm hop)).mp hvals)
        (h.graph ▸ hb) (hshape ▸ hgo)
    | @ret id rest i' vals hrest hi' hop hvals =>
      obtain ⟨i, hi, hshape, _⟩ := h.exists_instr' hi'
      have hops := h.operands s.block id i i' (hs.stands hrest) hi hi'
      rw [Instr.op_of_shape hshape] at hop
      rw [hshape]
      exact .ret hrest hi hop
        (((hreads id rest i hrest hi).operands hops (by rw [hop]; decide)).mp hvals)
  · intro hst
    cases hst with
    | @on id rest i e x hrest hi hx =>
      obtain ⟨i', hi', hshape, _⟩ := h.exists_instr hi
      have hb := hs.stands hrest
      have hops := h.operands s.block id i i' hb hi hi'
      exact .on hrest hi' (((hreads id rest i hrest hi).result hops hshape
        (hwidth s.block id i i' hb hi hi')).mpr hx)
    | @jump id rest i vals b pick hrest hi hop hvals hb hgo =>
      obtain ⟨i', hi', hshape, _⟩ := h.exists_instr hi
      have hops := h.operands s.block id i i' (hs.stands hrest) hi hi'
      rw [← henter, ← hshape]
      exact .jump hrest hi' (by rw [Instr.op_of_shape hshape, hop])
        (((hreads id rest i hrest hi).operands hops (hterm hop)).mpr hvals)
        (h.graph ▸ hb) (hshape ▸ hgo)
    | @ret id rest i vals hrest hi hop hvals =>
      obtain ⟨i', hi', hshape, _⟩ := h.exists_instr hi
      have hops := h.operands s.block id i i' (hs.stands hrest) hi hi'
      rw [← hshape]
      exact .ret hrest hi' (by rw [Instr.op_of_shape hshape, hop])
        (((hreads id rest i hrest hi).operands hops (by rw [hop]; decide)).mpr hvals)

theorem runs_iff (hreads : ∀ s c rest i, Reached W f s → s.rest = c :: rest → f.instr? c = some i →
      SameReads W σ s i) {seen : List Event} {s : State} : Runs W f' seen s ↔ Runs W f seen s := by
  have hinitial : ∀ {s : State}, s.Initial f' ↔ s.Initial f := by
    intro s
    constructor
    · rintro ⟨h1, h2, h3⟩
      rw [h.entryNode] at h1 h2
      exact ⟨h1, h.bodyOf _ ▸ h2, h3⟩
    · rintro ⟨h1, h2, h3⟩
      rw [← h.entryNode] at h1 h2
      exact ⟨h1, h.bodyOf _ ▸ h2, h3⟩
  constructor
  · intro hs
    induction hs with
    | start hi => exact .start (hinitial.mp hi)
    | step _ hst ih =>
      have hreached : Reached W f _ := ⟨_, ih⟩
      exact ih.step ((h.step hwidth hreached.located fun c rest i => hreads _ c rest i hreached).mp hst)
  · intro hs
    induction hs with
    | start hi => exact .start (hinitial.mpr hi)
    | step hs hst ih =>
      have hreached : Reached W f _ := ⟨_, hs⟩
      exact ih.step ((h.step hwidth hreached.located fun c rest i => hreads _ c rest i hreached).mpr hst)

end Func.Rewrites

end RegPressure
