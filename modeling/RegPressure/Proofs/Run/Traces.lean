import RegPressure.Proofs.Run.Equations

namespace RegPressure

variable {scope : Option Symbols} {f f' f'' g : Func} {u c : Int} {d : DomInfo} {W : World}
  {vals : List Int} {r : Option Int}

theorem World.Fits.of_params (hW : W.Fits f) (h : f'.params = f.params) : W.Fits f' :=
  ⟨h ▸ hW.args, hW.undef⟩

structure Alike (f f' : Func) : Prop where
  params : f'.params = f.params
  runs : ∀ W : World, W.Fits f → W.Definite → ∀ seen,
    (∃ s, Runs W f' seen s) ↔ ∃ s, Runs W f seen s

theorem Alike.refl (f : Func) : Alike f f := ⟨rfl, fun _ _ _ _ => Iff.rfl⟩

theorem Alike.trans (h : Alike f f') (h' : Alike f' f'') : Alike f f'' where
  params := h'.params.trans h.params
  runs W hW hD seen := (h'.runs W (hW.of_params h.params) hD seen).trans (h.runs W hW hD seen)

/-- A run comes to instruction `c`, its operands are `vals` there unless it is a phi, and it can
give `r`, if that is a value. -/
def Meets (W : World) (f : Func) (c : Int) (vals : List Int) (r : Option Int) : Prop :=
  ∃ s rest i, Reached W f s ∧ s.rest = c :: rest ∧ f.instr? c = some i ∧
    (i.op ≠ .phi → List.Forall₂ (Reads W s.env) i.operands vals) ∧
      ∀ x, r = some x → ∃ e, Result W f s i e x

structure Agrees (f f' : Func) (c : Int) : Prop where
  back : ∀ W : World, W.Fits f → W.Definite → ∀ vals r, Meets W f' c vals r → Meets W f c vals r
  forth : ∀ W : World, W.Fits f → W.Definite → ∀ vals x, Meets W f c vals (some x) →
    Meets W f' c vals (some x)

theorem Agrees.refl (f : Func) (c : Int) : Agrees f f c :=
  ⟨fun _ _ _ _ _ hm => hm, fun _ _ _ _ _ hm => hm⟩

theorem Agrees.trans (hf : f'.params = f.params) (h : Agrees f f' c) (h' : Agrees f' f'' c) :
    Agrees f f'' c where
  back W hW hD vals r hm := h.back W hW hD vals r (h'.back W (hW.of_params hf) hD vals r hm)
  forth W hW hD vals x hm := h'.forth W (hW.of_params hf) hD vals x (h.forth W hW hD vals x hm)

namespace Func.Adds

variable (h : g.Adds u f) (hu : f.Unused u)

include h hu

theorem meets_without (hop : (f.opOf u).isPure = true ∨ f.opOf u = .phi) (hc : c ≠ u)
    (hm : Meets W f c vals r) : Meets W g c vals r := by
  obtain ⟨s, rest, i, ⟨seen, hs⟩, hrest, hi, hvals, hr⟩ := hm
  obtain ⟨t, ht, hmatch⟩ := h.runs_without hu hop hs
  have hnot := hu s.block c i (Reached.located ⟨seen, hs⟩ |>.stands hrest) hc hi
  refine ⟨t, rest.filter (· ≠ u), i, ⟨seen, ht⟩, ?_, by rw [h.instr c hc, hi], fun hphi => ?_, ?_⟩
  · rw [hmatch.rest, hrest, List.filter_cons_of_pos (by simpa using hc)]
  · refine (forall₂_reads_congr fun q hq => hmatch.env q ?_).mpr (hvals hphi)
    rintro rfl
    exact hnot hq
  · intro x hx
    obtain ⟨e, he⟩ := hr x hx
    exact ⟨e, (h.result hmatch hnot).mpr he⟩

theorem meets_at {s t : State} {seen : List Event} (hs : Runs W f seen s) (hmatch : s.Matches u t)
    {rest : List Int} (hrest : s.rest = c :: rest) (hc : c ≠ u) {j : Instr} (hj : g.instr? c = some j)
    (hvals : j.op ≠ .phi → List.Forall₂ (Reads W t.env) j.operands vals)
    (hr : ∀ x, r = some x → ∃ e, Result W g t j e x) : Meets W f c vals r := by
  rw [h.instr c hc] at hj
  have hnot := hu s.block c j (Reached.located ⟨seen, hs⟩ |>.stands hrest) hc hj
  refine ⟨s, rest, j, ⟨seen, hs⟩, hrest, hj, fun hphi => ?_, ?_⟩
  · refine (forall₂_reads_congr fun q hq => hmatch.env q ?_).mp (hvals hphi)
    rintro rfl
    exact hnot hq
  · intro x hx
    obtain ⟨e, he⟩ := hr x hx
    exact ⟨e, (h.result hmatch hnot).mp he⟩

theorem meets_with (hf : f.WellFormed scope) {i : Instr} (hi : f.instr? u = some i)
    (hgo : ∀ s rest, Reached W f s → s.rest = u :: rest → ∃ x, Result W f s i none x)
    (hm : Meets W g c vals r) : Meets W f c vals r := by
  obtain ⟨t, trest, j, ⟨seen, ht⟩, htrest, hj, hvals, hr⟩ := hm
  obtain ⟨s, hs, hmatch⟩ := h.runs_with hf hu hi (fun s _ rest hs _ _ hrest _ => hgo s rest hs hrest) ht
  obtain ⟨s, hs, hmatch, rest, hrest, hc⟩ := catch_up hf hi hmatch
    (fun rest hrest => hgo s rest ⟨seen, hs⟩ hrest) htrest hs
  exact h.meets_at hu hs hmatch hrest hc hj hvals hr

theorem meets_with_result (hf : f.WellFormed scope) {i : Instr} (hi : f.instr? u = some i)
    (hgo : ∀ s t rest, Reached W f s → Reached W g t → s.Matches u t → s.rest = u :: rest →
      (∃ e t', Step W g t e t') → ∃ x, Result W f s i none x) {x : Int}
    (hm : Meets W g c vals (some x)) : Meets W f c vals (some x) := by
  obtain ⟨t, trest, j, ⟨seen, ht⟩, htrest, hj, hvals, hr⟩ := hm
  obtain ⟨e, he⟩ := hr x rfl
  obtain ⟨s, hs, hmatch⟩ := h.runs_with hf hu hi hgo ht
  obtain ⟨s, hs, hmatch, rest, hrest, hc⟩ := catch_up hf hi hmatch
    (fun rest hrest => hgo s t rest ⟨seen, hs⟩ ⟨seen, ht⟩ hmatch hrest ⟨e, _, .on htrest hj he⟩) htrest hs
  exact h.meets_at hu hs hmatch hrest hc hj hvals hr

theorem agrees_without (hf : f.WellFormed scope) (hop : (f.opOf u).isPure = true ∨ f.opOf u = .phi)
    {i : Instr} (hi : f.instr? u = some i)
    (hgo : ∀ W : World, W.Fits g → W.Definite → ∀ s t rest, Reached W f s → Reached W g t →
      s.Matches u t → s.rest = u :: rest → (∃ e t', Step W g t e t') → ∃ x, Result W f s i none x)
    (hc : c ≠ u) : Agrees g f c :=
  ⟨fun _ _ _ _ _ hm => h.meets_without hu hop hc hm,
    fun W hW hD _ _ hm => h.meets_with_result hu hf hi (hgo W hW hD) hm⟩

theorem alike_without (hf : f.WellFormed scope) (hop : (f.opOf u).isPure = true ∨ f.opOf u = .phi)
    {i : Instr} (hi : f.instr? u = some i)
    (hgo : ∀ W : World, W.Fits g → W.Definite → ∀ s t rest, Reached W f s → Reached W g t →
      s.Matches u t → s.rest = u :: rest → (∃ e t', Step W g t e t') → ∃ x, Result W f s i none x) :
    Alike g f := by
  refine ⟨h.params.symm, fun W hW hD seen => ⟨?_, ?_⟩⟩
  · rintro ⟨s, hs⟩
    obtain ⟨t, ht, _⟩ := h.runs_without hu hop hs
    exact ⟨t, ht⟩
  · rintro ⟨t, ht⟩
    obtain ⟨s, hs, _⟩ := h.runs_with hf hu hi (hgo W hW hD) ht
    exact ⟨s, hs⟩

theorem alike_with (hf : f.WellFormed scope) (hop : (f.opOf u).isPure = true ∨ f.opOf u = .phi)
    {i : Instr} (hi : f.instr? u = some i)
    (hgo : ∀ W : World, W.Fits f → W.Definite → ∀ s rest, Reached W f s → s.rest = u :: rest →
      ∃ x, Result W f s i none x) : Alike f g ∧ ∀ c, c ≠ u → Agrees f g c := by
  have hback : Alike g f := h.alike_without hu hf hop hi fun W hW hD s _ rest hs _ _ hrest _ =>
    hgo W (hW.of_params h.params.symm) hD s rest hs hrest
  refine ⟨⟨h.params, fun W hW hD seen => ?_⟩, fun c hc => ⟨fun W hW hD vals r hm => ?_, fun W _ _ _ _ hm => ?_⟩⟩
  · exact (hback.runs W (hW.of_params h.params) hD seen).symm
  · exact h.meets_with hu hf hi (hgo W hW hD) hm
  · exact h.meets_without hu hop hc hm

end Func.Adds

namespace Func

/-- The function `g'` is `g` with more instructions, and the same can be seen of both. -/
structure Enlarges (d : DomInfo) (g g' : Func) : Prop where
  stands : ∀ {b id : Int}, g.Stands b id → g'.Stands b id
  instr : ∀ {b id : Int}, g.Stands b id → g'.instr? id = g.instr? id
  precedes : ∀ {a c x y : Int}, g.Stands x a → g.Stands y c → g.Precedes d a c → g'.Precedes d a c
  alike : Alike g g'
  agrees : ∀ {b c : Int}, g.Stands b c → Agrees g g' c

namespace Enlarges

theorem refl (g : Func) : Enlarges d g g :=
  ⟨id, fun _ => rfl, fun _ _ => id, .refl g, fun _ => .refl g _⟩

theorem trans {k : Func} (h : Enlarges d f f') (h' : Enlarges d f' k) : Enlarges d f k where
  stands hb := h'.stands (h.stands hb)
  instr hb := (h'.instr (h.stands hb)).trans (h.instr hb)
  precedes ha hc hac := h'.precedes (h.stands ha) (h.stands hc) (h.precedes ha hc hac)
  alike := h.alike.trans h'.alike
  agrees hb := (h.agrees hb).trans h.alike.params (h'.agrees (h.stands hb))

variable (h : Enlarges d f f')

include h

theorem opOf {b id : Int} (hb : f.Stands b id) : f'.opOf id = f.opOf id := by
  unfold Func.opOf
  rw [h.instr hb]

theorem computes {id : Int} (hc : f.Computes id) : f'.Computes id := by
  obtain ⟨⟨b, hb⟩, hop⟩ := hc
  exact ⟨⟨b, h.stands hb⟩, by rw [h.opOf hb, hop]⟩

theorem hasTy {v : Value} {t : Ty} (hv : f.HasTy v t) : f'.HasTy v t := by
  cases v with
  | instr id =>
    obtain ⟨hc, i, hi, ht⟩ := hv
    obtain ⟨b, hb⟩ := hc.1
    exact ⟨h.computes hc, i, by rw [h.instr hb, hi], ht⟩
  | arg n =>
    unfold Func.HasTy
    rw [h.alike.params]
    exact hv
  | _ => exact hv

theorem available {v : Value} {b c : Int} (hc : f.Stands b c) (hv : f.Available d v c) :
    f'.Available d v c := by
  intro p hp
  obtain ⟨hcomp, hprec⟩ := hv p hp
  obtain ⟨y, hy⟩ := hcomp.1
  exact ⟨h.computes hcomp, h.precedes hy hc hprec⟩

theorem instr_of_hasTy {q : Int} {t : Ty} (hq : f.HasTy (.instr q) t) : f'.instr? q = f.instr? q := by
  obtain ⟨⟨⟨b, hb⟩, _⟩, _⟩ := hq
  exact h.instr hb

/-- Blocks end as they did. -/
theorem terminator (hf : f.WellFormed scope) (hf' : f'.WellFormed scope) {p t : Int} {blk : Block}
    (hblk : f.block? p = some blk) (ht : f'.Stands p t) (hterm : (f'.opOf t).isTerminator = true) :
    f.terminator p = .ok (some t) := by
  obtain ⟨t₀, ht₀⟩ := hf.exists_terminator hblk
  obtain ⟨hstands, hop⟩ := hf.terminator_iff.mp ht₀
  have hsame := hf'.terminator_eq (h.stands hstands) (by rw [h.opOf hstands, hop])
  rw [hf'.terminator_eq ht hterm] at hsame
  cases hsame
  exact ht₀

end Enlarges

/-- An instruction that nothing uses may be added if it can run whenever the run goes on without
it. -/
theorem Inserts.enlarges {b : Int} {l r : List Int} {i : Instr} (h : g.Inserts u f b l r i)
    (hg : g.WellFormed scope) (hf : f.WellFormed scope) (hop : i.op.isPure = true ∨ i.op = .phi)
    (hgo : ∀ W : World, W.Fits g → W.Definite → ∀ s t rest, Reached W f s → Reached W g t →
      s.Matches u t → s.rest = u :: rest → (∃ e t', Step W g t e t') → ∃ x, Result W f s i none x) :
    Enlarges d g f := by
  have hunused := h.unused hg
  rw [← h.opOf_self] at hop
  exact ⟨fun hb => (h.stands.mp hb).1, fun hb => (h.instr _ (h.stands.mp hb).2).symm,
    fun ha hc => (h.precedes hg hf ha hc).mp, h.alike_without hunused hf hop h.instr_eq hgo,
    fun hb => h.agrees_without hunused hf hop h.instr_eq hgo (h.stands.mp hb).2⟩

end Func

namespace Func.Rewrites

variable {σ : Value → Value} (h : f.Rewrites σ f') (hf : f.WellTyped)
  (hσ : ∀ b id i v t, f.Stands b id → f.instr? id = some i → v ∈ i.operands → f.HasTy v t →
    f.HasTy (σ v) t)
  (hreads : ∀ W : World, W.Fits f → W.Definite → ∀ s c rest i, Reached W f s → s.rest = c :: rest →
    f.instr? c = some i → SameReads W σ s i)

include h hf hσ hreads

theorem alike : Alike f f' where
  params := h.params
  runs W hW hD _ := exists_congr fun _ =>
    h.runs_iff (fun _ _ _ _ hb hi hi' => h.widthOf hf hσ hb hi hi') (hreads W hW hD)

theorem agrees (c : Int) : Agrees f f' c := by
  have hwidth : ∀ b id i i', f.Stands b id → f.instr? id = some i → f'.instr? id = some i' →
      f'.widthOf i' = f.widthOf i := fun _ _ _ _ hb hi hi' => h.widthOf hf hσ hb hi hi'
  refine ⟨fun W hW hD vals r hm => ?_, fun W hW hD vals x hm => ?_⟩
  · obtain ⟨s, rest, i', ⟨seen, hs⟩, hrest, hi', hvals, hr⟩ := hm
    have hs : Reached W f s := ⟨seen, (h.runs_iff hwidth (hreads W hW hD)).mp hs⟩
    obtain ⟨i, hi, hshape, _⟩ := h.exists_instr' hi'
    have hb := hs.located.stands hrest
    have hops := h.operands s.block c i i' hb hi hi'
    have hsame := hreads W hW hD s c rest i hs hrest hi
    refine ⟨s, rest, i, hs, hrest, hi, fun hphi => ?_, fun x hx => ?_⟩
    · rw [Instr.op_of_shape hshape] at hvals
      exact (hsame.operands hops hphi).mp (hvals hphi)
    · obtain ⟨e, he⟩ := hr x hx
      exact ⟨e, (hsame.result hops hshape (hwidth s.block c i i' hb hi hi')).mp he⟩
  · obtain ⟨s, rest, i, hs, hrest, hi, hvals, hr⟩ := hm
    obtain ⟨i', hi', hshape, _⟩ := h.exists_instr hi
    have hb := hs.located.stands hrest
    have hops := h.operands s.block c i i' hb hi hi'
    have hsame := hreads W hW hD s c rest i hs hrest hi
    obtain ⟨seen, hruns⟩ := hs
    refine ⟨s, rest, i', ⟨seen, (h.runs_iff hwidth (hreads W hW hD)).mpr hruns⟩, hrest, hi', fun hphi => ?_,
      fun x hx => ?_⟩
    · rw [Instr.op_of_shape hshape] at hphi
      exact (hsame.operands hops hphi).mpr (hvals hphi)
    · obtain ⟨e, he⟩ := hr x hx
      exact ⟨e, (hsame.result hops hshape (hwidth s.block c i i' hb hi hi')).mpr he⟩

end Func.Rewrites

end RegPressure
