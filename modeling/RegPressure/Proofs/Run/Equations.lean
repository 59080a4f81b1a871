import RegPressure.Proofs.Run.Rewriting

namespace RegPressure

variable {scope : Option Symbols} {g f : Func} {u : Int} {d : DomInfo} {W : World}

structure World.Definite (W : World) : Prop where
  undef : ∀ t, ∃ x, ∀ y, W.undef t y ↔ y = x
  casts : ∀ width i vals, i.op.isCast = true → ∃ x, i.ty.Holds x ∧ W.other width i vals x
  stops : ¬ W.resumes

def World.quiet (x : Int) : World where
  args _ := x
  const _ := 0
  other _ _ _ y := y = 0
  goes _ _ _ := True
  undef _ y := y = 0
  resumes := False

theorem Ty.holds_zero (t : Ty) : t.Holds 0 := by
  cases t with
  | int n => exact ⟨by simp, Int.pow_pos (by decide)⟩
  | void => rfl
  | _ => trivial

theorem World.quiet_definite (x : Int) : (quiet x).Definite :=
  ⟨fun _ => ⟨0, fun _ => Iff.rfl⟩, fun _ i _ _ => ⟨0, i.ty.holds_zero, rfl⟩, id⟩

namespace World.Definite

variable (hW : W.Definite) {env : Env} {v : Value}

include hW

theorem reads_unique {x y : Int} (hx : Reads W env v x) (hy : Reads W env v y) : x = y := by
  cases v with
  | undef t =>
    obtain ⟨t, rfl, hx⟩ := hx
    obtain ⟨_, ⟨⟩, hy⟩ := hy
    obtain ⟨z, hz⟩ := hW.undef t
    rw [(hz x).mp hx, (hz y).mp hy]
  | instr _ | arg _ | int _ _ | float _ _ | null | str _ | global _ => exact hx.trans hy.symm

theorem forall₂_reads_unique {vs : List Value} {xs ys : List Int}
    (hx : List.Forall₂ (Reads W env) vs xs) (hy : List.Forall₂ (Reads W env) vs ys) : xs = ys := by
  induction hx generalizing ys with
  | nil =>
    cases hy
    rfl
  | cons hx _ ih =>
    cases hy with
    | cons hy hys => rw [hW.reads_unique hx hy, ih hys]

theorem exists_reads {t : Ty} (hv : f.HasTy v t) : ∃ x, Reads W env v x := by
  cases v with
  | undef ty =>
    obtain ⟨x, hx⟩ := hW.undef t
    exact ⟨x, t, hv.1, (hx x).mpr rfl⟩
  | instr _ | arg _ | int _ _ | float _ _ | null | str _ | global _ => exact ⟨_, rfl⟩

/-- A cast can always run. -/
theorem exists_result (hf : f.WellTyped) {b : Int} (hb : f.Stands b u) {i : Instr}
    (hi : f.instr? u = some i) (hop : i.op = .trunc ∨ i.op = .sext ∨ i.op = .zext) (s : State) :
    ∃ x, Result W f s i none x := by
  have htyped := (hf.instr b u i hb hi).2
  have hpure : i.op.isPure = true := by rcases hop with hop | hop | hop <;> (rw [hop]; rfl)
  have hcast : i.op.isCast = true := by rcases hop with hop | hop | hop <;> (rw [hop]; rfl)
  obtain ⟨a, t, hops, ha⟩ : ∃ a t, i.operands = [a] ∧ f.HasTy a t := by
    rcases hop with hop | hop
    · obtain ⟨a, t, hops, ha, _⟩ := (Func.typed_trunc hop).mp htyped
      exact ⟨a, t, hops, ha⟩
    · obtain ⟨a, t, hops, ha, _⟩ := (Func.typed_extend hop).mp htyped
      exact ⟨a, t, hops, ha⟩
  obtain ⟨x, hx⟩ : ∃ x, Reads W s.env a x := hW.exists_reads ha
  have hvals : List.Forall₂ (Reads W s.env) i.operands [x] := by
    rw [hops]
    exact .cons hx .nil
  -- On integers the cast says what it gives, on anything else the world does.
  by_cases hint : ∃ n, i.ty = .int n
  · obtain ⟨n, hn⟩ := hint
    rcases hop with hop | hop | hop
    · exact ⟨_, .compute hpure hvals (.trunc hop hn)⟩
    · obtain ⟨a', t', hops', ha', hwidth⟩ := (Func.typed_extend (.inl hop)).mp htyped
      obtain ⟨m, rfl, _⟩ := hwidth n hn
      exact ⟨_, .compute hpure hvals (.sext hop hn (Func.widthOf_eq hops' ha'))⟩
    · obtain ⟨a', t', hops', ha', hwidth⟩ := (Func.typed_extend (.inr hop)).mp htyped
      obtain ⟨m, rfl, _⟩ := hwidth n hn
      exact ⟨_, .compute hpure hvals (.zext hop hn (Func.widthOf_eq hops' ha'))⟩
  · have hother : Interpreted (f.widthOf i) i = false := by
      have hnot : i.ty.isInt = false := by
        cases ht : i.ty with
        | int n => exact absurd ⟨n, ht⟩ hint
        | _ => rfl
      rcases hop with hop | hop | hop <;> simp [Interpreted, hop, hnot]
    obtain ⟨y, hy, hgives⟩ := hW.casts (f.widthOf i) i.shape [x] hcast
    exact ⟨y, .compute hpure hvals (.other hother hy hgives)⟩

end World.Definite

def Computed (W : World) (f : Func) (d : DomInfo) (p : Int) (env : Env) : Prop :=
  ∀ (b : Nat) i, f.Stands b p → d.dom.isReachable b = true → f.instr? p = some i →
    i.op.isPure = true → ∃ vals, List.Forall₂ (Reads W env) i.operands vals ∧
      Gives W (f.widthOf i) i vals (env p)

theorem Op.ne_phi_of_isPure {op : Op} (h : op.isPure = true) : op ≠ .phi := by
  rintro rfl
  cases h

theorem Op.ne_phi_of_isTerminator {op : Op} (h : op.isTerminator = true) : op ≠ .phi := by
  rintro rfl
  cases h

theorem settled_computed (hssa : f.InSsaForm d fun b => d.dom.isReachable b = true) :
    Settled f d (Computed W f d) := by
  intro p env env' _ hagree hQ b i hb hreach hi hop
  obtain ⟨vals, hvals, hgives⟩ := hQ b i hb hreach hi hop
  refine ⟨vals, (forall₂_reads_congr fun q hq => ?_).mp hvals, hagree p (.inl rfl) ▸ hgives⟩
  obtain ⟨hc, hprec⟩ := hssa.uses b p i q hreach hb hi (Op.ne_phi_of_isPure hop) hq
  exact hagree q (.inr ⟨hc.1, hprec⟩)

theorem Reached.computed (h : f.HasDominance scope d)
    (hssa : f.InSsaForm d fun b => d.dom.isReachable b = true) (hW : W.Definite) {s : State}
    (hs : Reached W f s) : s.Knows f d (Computed W f d) := by
  refine hs.knows h (settled_computed hssa) ?_
  intro s e t c rest hs _ hrest hc hst b i hb hreach hi hop
  obtain ⟨_, vals, hvals, hgives | ⟨hgo, _⟩⟩ := (result_iff hop).mp (hst.result hrest hc hi)
  · refine ⟨vals, (forall₂_reads_congr fun q hq => ?_).mp hvals, hgives⟩
    obtain ⟨hcomp, hprec⟩ := hssa.uses b c i q hreach hb hi (Op.ne_phi_of_isPure hop) hq
    obtain ⟨y, hy⟩ := hcomp.1
    refine (hst.env_eq hrest ?_).symm
    rintro rfl
    exact h.not_precedes_self hy hprec
  · exact absurd hgo hW.stops

def Taken (W : World) (s : State) (i : Instr) (x : Int) : Prop :=
  ∃ (p : Nat) (v : Value), s.source = some p ∧ i.targets[s.pick i.targets]? = some (p : Int) ∧
    i.operands[s.pick i.targets]? = some v ∧ Reads W s.entered v x

theorem Reached.taken {s : State} (hs : Reached W f s) {p : Int} {i : Instr}
    (hp : f.Stands s.block p) (hrest : p ∉ s.rest) (hi : f.instr? p = some i) (hop : i.op = .phi)
    (hopen : s.rest ≠ []) : Taken W s i (s.env p) := by
  obtain ⟨seen, hs⟩ := hs
  induction hs with
  | start hinit =>
    rw [hinit.block, Func.stands_iff, ← hinit.rest] at hp
    exact absurd hp hrest
  | @step seen s t e hruns hst ih =>
    have hloc := Reached.located ⟨seen, hruns⟩
    obtain ⟨c, rest, hsrest, hmoves⟩ := hst.moves
    cases hmoves with
    | on hc hblock htrest hentered hsource hpick =>
      rw [hblock] at hp
      have htaken : Taken W s i (t.env p) := by
        by_cases hpc : p = c
        · subst hpc
          exact ((result_phi hop).mp (hst.result hsrest hc hi)).2
        · rw [hst.env_eq hsrest hpc]
          refine ih hp ?_ (by simp [hsrest])
          rw [hsrest]
          simp [hpc, htrest ▸ hrest]
      obtain ⟨q, v, hq, ht, hv, hx⟩ := htaken
      refine ⟨q, v, hsource.trans hq, ?_, ?_, hentered ▸ hx⟩
      · rw [hpick]
        exact ht
      · rw [hpick]
        exact hv
    | crosses _ _ ht =>
      subst ht
      exact absurd (Func.stands_iff.mp hp) hrest
    | ends _ ht =>
      subst ht
      exact absurd rfl hopen

end RegPressure
