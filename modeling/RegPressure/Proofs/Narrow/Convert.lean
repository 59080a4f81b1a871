import RegPressure.Proofs.Narrow.Replace

namespace RegPressure.Narrow

variable {scope : Option Symbols} {f f' g k : Func} {d : DomInfo} {W : World} {w n : Nat} {b id u : Int}
  {i : Instr} {ops : List Value} {wide : Value}

def Resizable (g : Func) (w : Nat) (v : Value) : Prop :=
  ∃ n, g.HasTy v (.int n) ∧ (w < n ∧ w < 64 ∨ ∃ q, v = .instr q ∧ (g.opOf q).isCast = false)

theorem Resizable.enlarges {v : Value} (h : Resizable g w v) (hgk : g.Enlarges d k) : Resizable k w v := by
  obtain ⟨n, hn, hcase⟩ := h
  refine ⟨n, hgk.hasTy hn, hcase.imp_right ?_⟩
  rintro ⟨q, rfl, hq⟩
  obtain ⟨⟨⟨y, hy⟩, _⟩, _⟩ := hn
  exact ⟨q, rfl, by rw [hgk.opOf hy, hq]⟩

theorem ExtendsNoTrueBit.addsCasts (h : ExtendsNoTrueBit g) (hgk : AddsCasts d g k) : ExtendsNoTrueBit k := by
  intro y c j hc hj hop m hm
  rcases hgk.casts hc hj with hc | hcast
  · exact h y c j hc (hgk.instr hc ▸ hj) hop m hm
  · cases hcast.operands _ hm

theorem NarrowOf.restrict {v v' : Value} (h : NarrowOf d g k w v v') (hfg : f.Enlarges d g) :
    NarrowOf d f k w v v' :=
  ⟨h.resized, h.hasTy, fun hc hreach hphi havail => h.available (hfg.stands hc) hreach
    (by rwa [hfg.opOf hc]) (hfg.available hc havail)⟩

structure ResizesAll (scope : Option Symbols) (d : DomInfo) (g : Func) (w : Nat) (vs vs' : List Value)
    (g' : Func) : Prop where
  proper : g'.Proper scope d
  adds : AddsCasts d g g'
  narrow : List.Forall₂ (NarrowOf d g g' w) vs vs'

theorem resize_all (hw : (Ty.int w).Valid) {vs vs' : List Value} (hg : g.Proper scope d)
    (hbit : ExtendsNoTrueBit g) (hvs : ∀ v ∈ vs, Resizable g w v)
    (he : (vs.mapM fun v => resize scope v (.int w)).run g = .ok vs' k) :
    ResizesAll scope d g w vs vs' k := by
  induction vs generalizing g vs' with
  | nil =>
    rw [List.mapM_nil, Edit.pure_eq_ok] at he
    obtain ⟨rfl, rfl⟩ := he
    exact ⟨hg, .refl g, .nil⟩
  | cons v vs ih =>
    simp only [List.mapM_cons, Edit.bind_eq_ok, Edit.pure_eq_ok] at he
    obtain ⟨v', g', hv', vs', _, hvs', rfl, rfl⟩ := he
    obtain ⟨n, hn, hcase⟩ := hvs v (List.mem_cons_self ..)
    have hone := resize_spec hg hbit hn hw hcase hv'
    have hrest := ih hone.proper (hbit.addsCasts hone.adds)
      (fun v hv => (hvs v (List.mem_cons_of_mem _ hv)).enlarges hone.adds.toEnlarges) hvs'
    refine ⟨hrest.proper, hone.adds.trans hrest.adds, .cons ?_ (hrest.narrow.imp fun _ _ h => ?_)⟩
    · exact hone.narrow.enlarges hone.adds.toEnlarges hrest.adds.toEnlarges hn
    · exact h.restrict hone.adds.toEnlarges

/-- The operands of an instruction that may be done at width `w` can be resized, its condition
apart. -/
theorem Narrows.resizable (h : Narrows g id i w) (hw : w < 64) (htyped : g.Typed i)
    {v : Value} (hv : v ∈ i.operands) (hselect : i.op = .select → v ∈ i.operands.tail) :
    Resizable g w v := by
  cases h with
  | @arith n hop hty hlt =>
    obtain ⟨a, c, hac, ha, hc⟩ := (Func.typed_arith hop).mp htyped
    rw [hty] at ha hc
    rw [hac] at hv
    simp only [List.mem_cons, List.not_mem_nil, or_false] at hv
    rcases hv with rfl | rfl
    · exact ⟨n, ha, .inl ⟨hlt, hw⟩⟩
    · exact ⟨n, hc, .inl ⟨hlt, hw⟩⟩
  | @move n hop hty hlt =>
    rcases hop with hop | hop
    · have hv := hselect hop
      obtain ⟨c, a, e, hops, _, ha, he⟩ := (Func.typed_select hop).mp htyped
      rw [hty] at ha he
      rw [hops] at hv
      simp only [List.tail_cons, List.mem_cons, List.not_mem_nil, or_false] at hv
      rcases hv with rfl | rfl
      · exact ⟨n, ha, .inl ⟨hlt, hw⟩⟩
      · exact ⟨n, he, .inl ⟨hlt, hw⟩⟩
    · exact ⟨n, hty ▸ (Func.typed_phi hop).mp htyped v hv, .inl ⟨hlt, hw⟩⟩
  | @icmp n a c hop hops ha hc hcast =>
    have hcase := (hcast v hv).imp_left fun hlt => And.intro hlt hw
    rw [hops] at hv
    simp only [List.mem_cons, List.not_mem_nil, or_false] at hv
    rcases hv with rfl | rfl
    · exact ⟨n, ha, hcase⟩
    · exact ⟨n, hc, hcase⟩

theorem narrowOperands_spec (hf : f.Proper scope d) (hbit : ExtendsNoTrueBit f) (hw : (Ty.int w).Valid)
    (hw64 : w < 64) (hn : Narrows f id i w) (htyped : f.Typed i)
    (he : (narrowOperands scope i (.int w)).run f = .ok ops g) :
    g.Proper scope d ∧ AddsCasts d f g ∧ NarrowOperands (NarrowOf d f g w) i ops := by
  have hall : i.op ≠ .select → (i.operands.mapM fun v => resize scope v (.int w)).run f = .ok ops g →
      g.Proper scope d ∧ AddsCasts d f g ∧ NarrowOperands (NarrowOf d f g w) i ops := by
    intro hop he
    have h := resize_all hw hf hbit
      (fun v hv => hn.resizable hw64 htyped hv fun hselect => absurd hselect hop) he
    exact ⟨h.proper, h.adds, .all hop h.narrow⟩
  unfold narrowOperands at he
  dsimp only at he
  split at he
  · next hop =>
    refine hall (by rw [hop]; decide) ?_
    obtain ⟨_, _, a, c, t, hac, _⟩ := (Func.typed_icmp hop).mp htyped
    simp only [hac, Edit.bind_eq_ok, Edit.ask_eq_ok, Edit.pure_eq_ok] at he
    obtain ⟨_, _, ⟨ha, rfl⟩, a', _, ha', _, _, ⟨hc, rfl⟩, c', _, hc', rfl, rfl⟩ := he
    cases ha
    cases hc
    simp only [hac, List.mapM_cons, List.mapM_nil, Edit.bind_eq_ok, Edit.pure_eq_ok]
    exact ⟨a', _, ha', _, _, ⟨c', _, hc', [], _, ⟨rfl, rfl⟩, rfl, rfl⟩, rfl, rfl⟩
  · next hop =>
    have hresize := fun v hv => hn.resizable (v := v) hw64 htyped hv
    obtain ⟨c, a, e, hops, _⟩ := (Func.typed_select hop).mp htyped
    simp only [hops, Edit.bind_eq_ok, Edit.ask_eq_ok, Edit.pure_eq_ok] at he
    obtain ⟨_, _, ⟨hc, rfl⟩, _, _, ⟨ha, rfl⟩, a', _, ha', _, _, ⟨he, rfl⟩, e', g', he', rfl, rfl⟩ := he
    cases hc
    cases ha
    cases he
    have hpair : ([a, e].mapM fun v => resize scope v (.int w)).run f = .ok [a', e'] g' := by
      simp only [List.mapM_cons, List.mapM_nil, Edit.bind_eq_ok, Edit.pure_eq_ok]
      exact ⟨a', _, ha', _, _, ⟨e', _, he', [], _, ⟨rfl, rfl⟩, rfl, rfl⟩, rfl, rfl⟩
    have h := resize_all hw hf hbit (fun v hv => hresize v ?_ fun _ => ?_) hpair
    · obtain ⟨_, _, ha, hrest, heq⟩ := List.forall₂_cons_left_iff.mp h.narrow
      cases heq
      obtain ⟨_, _, he, _, heq⟩ := List.forall₂_cons_left_iff.mp hrest
      cases heq
      exact ⟨h.proper, h.adds, .select hop hops rfl ha he⟩
    · rw [hops]
      exact List.mem_cons_of_mem _ hv
    · rw [hops]
      exact hv
  · next hop hselect => exact hall hselect he

def ShiftsSmall (g : Func) (c : Int) (op : Op) (w : Nat) : Prop :=
  ∀ W : World, W.Fits g → W.Definite → ∀ x y z, Meets W g c [x, y] (some z) →
    (Ty.int w).Holds x ∧ (Ty.int w).Holds y ∧ (op = .lshr → 0 ≤ x)

def ShiftBelow (g : Func) (c : Int) (op : Op) (w : Int) : Prop :=
  ShiftsSmall g c op w.toNat → ∀ W : World, W.Fits g → W.Definite → ∀ x y z,
    Meets W g c [x, y] (some z) → y < w

def ShiftsBelow (widths : List Int) (g : Func) : Prop :=
  ∀ b c i, g.Stands b c → g.instr? c = some i → i.op = .ashr ∨ i.op = .lshr → ∀ w ∈ widths,
    ShiftBelow g c i.op w

def constShifts (widths : List Int) (g : Func) : Bool :=
  g.instrs.all fun i => i.op != .ashr && i.op != .lshr || match i.operands with
    | [_, .int t c] => widths.all fun w => constValue t c < w
    | _ => false

theorem shiftsBelow_of_holds {widths : List Int} (h : constShifts widths g = true) : ShiftsBelow widths g := by
  intro b id i _ hi hop w hw _ W _ _ x y z hm
  simp only [constShifts, Array.all_eq_true', Bool.or_eq_true, Bool.and_eq_true, bne_iff_ne] at h
  have hconst := (h i (Func.mem_of_instr? hi)).resolve_left fun hne => hop.elim hne.1 hne.2
  obtain ⟨s, rest, j, _, _, hj, hvals, _⟩ := hm
  rw [hi] at hj
  cases hj
  have hvals := hvals (by rcases hop with hop | hop <;> (rw [hop]; decide))
  split at hconst
  · next hops =>
    rw [hops] at hvals
    simp only [List.forall₂_cons, List.forall₂_nil_right_iff, and_true] at hvals
    simpa [show y = _ from hvals.2] using List.all_eq_true.mp hconst w hw
  · cases hconst

theorem ShiftBelow.of_agrees {c : Int} {op : Op} {w : Int} (h : ShiftBelow g c op w)
    (hparams : k.params = g.params) (hgk : Agrees g k c) : ShiftBelow k c op w := by
  intro hsmall W hW hD x y z hm
  refine h (fun W hW hD x y z hm => ?_) W (hW.of_params hparams.symm) hD x y z
    (hgk.back W (hW.of_params hparams.symm) hD _ _ hm)
  exact hsmall W (hW.of_params hparams) hD x y z (hgk.forth W hW hD _ _ hm)

theorem Ready.shiftBelow {w' : Int} (hr : Ready scope d f g b id i w ops) {l r : List Int}
    (hins : g.Inserts u k b l (id :: r) (formAt i w ops b)) (hop : i.op = .ashr ∨ i.op = .lshr)
    (h : ShiftBelow g id i.op w') : ShiftBelow k u i.op w' := by
  have hparams : k.params = g.params := (hr.enlarges_insert hins).alike.params
  have harith := Op.isArith_of_rightShift hop
  have hlow : ∀ W : World, W.Fits g → W.Definite → ∀ x y z, Meets W g id [x, y] (some z) →
      low w x = x ∧ low w y = y := by
    intro W hW hD x y z hm
    have hlocal : (Ty.int w).Holds x ∧ (Ty.int w).Holds y := by
      cases hr.narrows with
      | arith _ _ _ hall =>
        have hlocal := (hall W hW hD x y _ hm).1
        rcases hop with hop | hop <;> (rw [hop] at hlocal; exact ⟨hlocal.1, hlocal.2.1⟩)
      | move hmove => rcases hmove with hmove | hmove <;> simp [hmove] at hop
      | icmp hicmp => simp [hicmp] at hop
    exact ⟨low_of_holds hr.width.1 hlocal.1, low_of_holds hr.width.1 hlocal.2⟩
  intro hsmall W hW hD x' y' z hm
  have hW := hW.of_params hparams.symm
  obtain ⟨x, y, hwide, _, rfl⟩ := hr.meets_insert hins hW hD harith hm
  rw [(hlow W hW hD x y z hwide).2]
  refine h (fun W hW hD x y z hm => ?_) W hW hD x y z hwide
  have hform := hr.meets_form hins hW hD harith hm
  rw [(hlow W hW hD x y z hm).1, (hlow W hW hD x y z hm).2] at hform
  exact hsmall W (hW.of_params hparams) hD x y z hform

structure Narrowable (scope : Option Symbols) (d : DomInfo) (widths : List Int) (g : Func) : Prop where
  proper : g.Proper scope d
  bits : ExtendsNoTrueBit g
  shifts : ShiftsBelow widths g

namespace Narrowable

variable {widths : List Int} (h : Narrowable scope d widths g)

include h

theorem addsCasts (hgk : AddsCasts d g k) (hk : k.Proper scope d) : Narrowable scope d widths k := by
  refine ⟨hk, h.bits.addsCasts hgk, fun y c j hc hj hop w hw => ?_⟩
  rcases hgk.casts hc hj with hc | hcast
  · exact (h.shifts y c j hc (hgk.instr hc ▸ hj) hop w hw).of_agrees hgk.alike.params (hgk.agrees hc)
  · rcases hcast.op with he | he <;> simp [he] at hop

theorem of_agrees (hk : k.Proper scope d) (hparams : k.params = g.params)
    (hold : ∀ {y c : Int} {j : Instr}, k.Stands y c → k.instr? c = some j →
      g.Stands y c ∧ ∃ j₀, g.instr? c = some j₀ ∧ j.op = j₀.op ∧
        ∀ t m, Value.int t m ∈ j.operands → Value.int t m ∈ j₀.operands)
    (hagrees : ∀ {y c : Int}, k.Stands y c → Agrees g k c) : Narrowable scope d widths k := by
  refine ⟨hk, fun y c j hc hj hop m hm => ?_, fun y c j hc hj hop w hw => ?_⟩
  · obtain ⟨hc, j₀, hj₀, he, hops⟩ := hold hc hj
    exact h.bits y c j₀ hc hj₀ (he ▸ hop) m (hops _ _ hm)
  · have hagrees := hagrees hc
    obtain ⟨hc, j₀, hj₀, he, _⟩ := hold hc hj
    rw [he] at hop ⊢
    exact (h.shifts y c j₀ hc hj₀ hop w hw).of_agrees hparams hagrees

theorem insert (hr : Ready scope d f g b id i w ops) {l r : List Int}
    (hins : g.Inserts u k b l (id :: r) (formAt i w ops b)) : Narrowable scope d widths k := by
  have hgk : g.Enlarges d k := hr.enlarges_insert hins
  refine ⟨hr.proper_insert hins, fun y c j hc hj hop m hm => ?_, fun y c j hc hj hop w' hw' => ?_⟩
  · by_cases hcu : c = u
    · subst hcu
      rw [hins.instr_eq] at hj
      cases hj
      have := hr.narrows.not_cast
      rw [show i.op = .sext from hop] at this
      cases this
    · exact h.bits y c j (hins.stands.mpr ⟨hc, hcu⟩) (by rw [hins.instr c hcu, hj]) hop m hm
  · by_cases hcu : c = u
    · subst hcu
      rw [hins.instr_eq] at hj
      cases hj
      have hop : i.op = .ashr ∨ i.op = .lshr := hop
      exact hr.shiftBelow hins hop (h.shifts b id i hr.stands_right hr.instr_right hop w' hw')
    · have hc := hins.stands.mpr ⟨hc, hcu⟩
      exact (h.shifts y c j hc (by rw [hins.instr c hcu, hj]) hop w' hw').of_agrees hgk.alike.params
        (hgk.agrees hc)

end Narrowable

theorem convert_cases {width : Int} (he : (convert scope id width).run f = .ok () f') :
    ∃ i ops g₁ g₂ u wide g₃ g₄, f.instr? id = some i ∧
      (narrowOperands scope i (.int width.toNat)).run f = .ok ops g₁ ∧
      g₁.insertBefore id (form i width.toNat ops) = .ok (g₂, u) ∧
      (resize scope (.instr u) i.ty).run g₂ = .ok wide g₃ ∧
      (g₃.replaceAllUses id wide).erase id = .ok g₄ ∧ f' = g₄.setInstr u ({ · with name := i.name }) := by
  simp only [convert, Edit.bind_eq_ok, Edit.ask_eq_ok, Func.instr_eq_ok, Edit.insertBefore,
    Edit.change_eq_ok, Edit.modify_eq_ok, Edit.erase_eq_ok] at he
  obtain ⟨i, _, ⟨hi, rfl⟩, ops, g₁, hops, u, g₂, hu, wide, g₃, hwide, _, _, rfl, _, g₄, hg₄, hf'⟩ := he
  exact ⟨i, ops, g₁, g₂, u, wide, g₃, g₄, hi, hops, hu, hwide, hg₄, hf'.symm⟩

theorem Extended.narrowable_replaced {widths : List Int} (h : Extended scope d f k g b id i w n ops u wide)
    (hg : Narrowable scope d widths g) (hrw : g.Rewrites (replaced id wide) f') :
    Narrowable scope d widths f' := by
  refine hg.of_agrees (h.proper_replaced hrw) hrw.params (fun {y c j'} hc hj' => ?_)
    fun _ => (h.alike_replaced hrw).2 _
  have hc := hrw.stands.mp hc
  obtain ⟨j, hj, hshape, _⟩ := hrw.exists_instr' hj'
  refine ⟨hc, j, hj, Instr.op_of_shape hshape, fun t m hmem => ?_⟩
  rw [hrw.operands y c j j' hc hj hj'] at hmem
  obtain ⟨v, hv, he⟩ := List.mem_map.mp hmem
  unfold replaced at he
  split at he
  · rcases h.wide_cases with hu | ⟨q, _, hq, _⟩
    · rw [hu] at he
      cases he
    · rw [hq] at he
      cases he
  · exact he ▸ hv

/-- An instruction that nothing uses and that can always run goes. -/
theorem Narrowable.erase {widths : List Int} (h : Narrowable scope d widths f) (he : f.erase u = .ok g)
    (hunused : f.Unused u) (hop : (f.opOf u).isPure = true ∨ f.opOf u = .phi)
    (hgo : ∀ i, f.instr? u = some i → ∀ W : World, W.Fits f → W.Definite → ∀ s rest, Reached W f s →
      s.rest = u :: rest → ∃ x, Result W f s i none x) : Narrowable scope d widths g ∧ Alike f g := by
  obtain ⟨hadds, y, hy⟩ := Func.adds_of_erase h.proper.wf he
  obtain ⟨j, hj, _⟩ := h.proper.wf.home_of_stands hy
  obtain ⟨halike, hagrees⟩ := hadds.alike_with hunused h.proper.wf hop hj (hgo j hj)
  have hterm : (f.opOf u).isTerminator = false := by
    rcases hop with hop | hop
    · exact Op.not_isTerminator_of_isPure hop
    · rw [hop]
      rfl
  refine ⟨h.of_agrees (hadds.proper_without h.proper hterm hunused) hadds.params (fun {y c j} hc hj => ?_)
    (fun hc => hagrees _ (hadds.stands.mp hc).2), halike⟩
  obtain ⟨hc, hcu⟩ := hadds.stands.mp hc
  exact ⟨hc, j, by rw [← hadds.instr c hcu, hj], rfl, fun _ _ => id⟩

theorem Narrowable.rename {widths : List Int} (h : Narrowable scope d widths f) (u : Int) (name : String) :
    Narrowable scope d widths (f.setInstr u ({ · with name })) ∧
      Alike f (f.setInstr u ({ · with name })) := by
  have hrw := f.rewrites_rename u name
  have hσ : ∀ b id i v t, f.Stands b id → f.instr? id = some i → v ∈ i.operands → f.HasTy v t →
      f.HasTy v t := fun _ _ _ _ _ _ _ _ => id
  have hreads : ∀ W : World, W.Fits f → W.Definite → ∀ s c rest i, Reached W f s → s.rest = c :: rest →
      f.instr? c = some i → SameReads W (fun v => v) s i :=
    fun _ _ _ _ _ _ _ _ _ _ => ⟨fun _ _ _ _ => Iff.rfl, fun _ _ _ _ _ _ _ => Iff.rfl⟩
  have hproper : Func.Proper scope (f.setInstr u ({ · with name })) d := by
    refine hrw.proper h.proper (fun y c j v hc hj hv => ?_) hσ
      (fun y c j v q hreach hc hj hphi hv he => h.proper.ssa.uses y c j q hreach hc hj hphi (he ▸ hv))
      fun y c j m v q p t hc hj hphi hv he => h.proper.ssa.incoming y c j m q p t hc hj hphi (he ▸ hv)
    exact (h.proper.wf.references hc hj).operands v hv
  refine ⟨h.of_agrees hproper hrw.params (fun {y c j'} hc hj' => ?_)
    fun _ => hrw.agrees h.proper.typed hσ hreads _, hrw.alike h.proper.typed hσ hreads⟩
  have hc := hrw.stands.mp hc
  obtain ⟨j, hj, hshape, _⟩ := hrw.exists_instr' hj'
  refine ⟨hc, j, hj, Instr.op_of_shape hshape, fun t m hmem => ?_⟩
  rwa [hrw.operands y c j j' hc hj hj', List.map_id'] at hmem

theorem convert_spec {widths : List Int} {width : Int} (h : Narrowable scope d widths f)
    (hw : (Ty.int width.toNat).Valid) (hw64 : width.toNat < 64) (hb : f.Stands b id)
    (hn : ∀ i, f.instr? id = some i → Narrows f id i width.toNat)
    (he : (convert scope id width).run f = .ok () f') : Narrowable scope d widths f' ∧ Alike f f' := by
  obtain ⟨i, ops, g₁, g₂, u, wide, g₃, g₄, hi, hops, hu, hwide, hg₄, rfl⟩ := convert_cases he
  have hn := hn i hi
  have htyped := (h.proper.typed.instr b id i hb hi).2
  -- The operands at the narrow width.
  obtain ⟨hg₁, hadds₁, hnarrow⟩ := narrowOperands_spec h.proper h.bits hw hw64 hn htyped hops
  have hready : Ready scope d f g₁ b id i width.toNat ops :=
    ⟨h.proper, hg₁, hadds₁.toEnlarges, hb, hi, hw, hn.enlarges hadds₁.toEnlarges hb, hnarrow⟩
  have h₁ := h.addsCasts hadds₁ hg₁
  -- The narrow form.
  obtain ⟨b', l, r, hins⟩ := Func.inserts_of_insertBefore hg₁.wf hu
    (by rw [Func.opOf_eq hready.instr_right]; exact Iff.rfl) hn.not_terminator
  obtain rfl : b' = b := by
    refine hg₁.wf.stands_unique (Func.stands_iff.mpr ?_) hready.stands_right
    rw [hins.body_without]
    simp
  have htwin := hready.twin hins
  have h₂ := h₁.insert hready hins
  -- Its result at the width of the instruction.
  obtain ⟨n, hty⟩ : ∃ n, i.ty = .int n := by
    cases hn with
    | arith _ hty => exact ⟨_, hty⟩
    | move _ hty => exact ⟨_, hty⟩
    | icmp hop => exact ⟨1, ((Func.typed_icmp hop).mp htyped).1⟩
  rw [hty] at hwide
  obtain ⟨m, _, hm⟩ := hready.form_ty hty
  have hresizes : ResizesTo scope d g₂ n (.instr u) wide g₃ := by
    refine resize_spec h₂.proper h₂.bits ⟨htwin.computes_twin, _, htwin.instr_twin, hm⟩ ?_
      (.inr ⟨u, rfl, ?_⟩) hwide
    · exact hty ▸ (h.proper.typed.instr b' id i hb hi).1
    · rw [htwin.opOf_twin, hn.not_cast]
  have hext : Extended scope d f g₂ g₃ b' id i width.toNat n ops u wide := ⟨htwin, hty, hresizes⟩
  have h₃ := h₂.addsCasts hresizes.adds hresizes.proper
  -- Uses of the instruction, and the instruction itself.
  have hrw : g₃.Rewrites (replaced id wide) (g₃.replaceAllUses id wide) :=
    Func.rewrites_replaceAllUses h₃.proper.wf id wide
  have hreplaced := hext.narrowable_replaced h₃ hrw
  obtain ⟨h₄, halike₄⟩ := hreplaced.erase hg₄ (hext.unused_replaced hrw)
    (by rw [hrw.opOf, Func.opOf_eq hext.twin.instr_right]; exact hn.op)
    fun i' hi' W hW hD s rest hs hrest => hext.exists_result_replaced hrw hi' hW hD hs hrest
  obtain ⟨h₅, halike₅⟩ := h₄.rename u i.name
  have halike₃ : Alike f g₃ :=
    (hadds₁.alike.trans (hready.enlarges_insert hins).alike).trans hresizes.adds.alike
  exact ⟨h₅, ((halike₃.trans (hext.alike_replaced hrw).1).trans halike₄).trans halike₅⟩

end RegPressure.Narrow
