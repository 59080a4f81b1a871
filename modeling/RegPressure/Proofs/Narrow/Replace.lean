import RegPressure.Proofs.Narrow.Twin

namespace RegPressure.Narrow

variable {scope : Option Symbols} {f g k : Func} {d : DomInfo} {W : World} {w n : Nat} {b id u : Int}
  {i : Instr} {ops : List Value} {wide : Value}

theorem Ready.interpreted (h : Ready scope d f g b id i w ops) :
    i.op = .phi ∨ i.op.isPure = true ∧ Interpreted (g.widthOf i) i = true := by
  refine h.narrows.op.symm.imp_right fun hpure => ⟨hpure, ?_⟩
  cases h.narrows with
  | arith hop hty =>
    unfold Interpreted
    split <;> simp_all [Op.isArith, Ty.isInt]
  | move hop =>
    rcases hop with hop | hop
    · simp [Interpreted, hop]
    · rw [hop] at hpure
      cases hpure
  | icmp hop hops ha =>
    simp [Interpreted, hop, Func.widthOf_eq hops ha]

theorem Ready.form_ty (h : Ready scope d f g b id i w ops) (hty : i.ty = .int n) :
    ∃ m, m ≤ n ∧ (form i w ops).ty = .int m := by
  by_cases hop : i.op = .icmp
  · refine ⟨1, ?_, if_pos hop⟩
    have hbit := ((Func.typed_icmp hop).mp h.typed).1
    rw [hty] at hbit
    cases hbit
    exact Nat.le_refl 1
  · refine ⟨w, ?_, if_neg hop⟩
    cases h.narrows with
    | arith _ hty' hlt | move _ hty' hlt =>
      rw [hty] at hty'
      cases hty'
      exact hlt.le
    | icmp he => exact absurd he hop

namespace Twin

/-- Where the instruction is behind, its narrow form has the same value. -/
theorem knows (h : Twin scope d f g b id i w ops u) (hW : W.Fits g) (hD : W.Definite) {s : State}
    (hs : Reached W g s) : s.Knows g d fun p env => p = id → env u = env p := by
  refine hs.knows h.proper.toHasDominance ?_ ?_
  · rintro p env env' _ hagree hQ rfl
    rw [← hagree u (.inr ⟨⟨b, h.stands_twin⟩, h.before⟩), ← hagree p (.inl rfl)]
    exact hQ rfl
  · rintro s e t c rest hs _ hrest hc hst rfl
    have hvalue := (hst.result hrest hc h.instr_right).unique hD h.interpreted (h.result_at hW hD hs hrest)
    rw [hst.env_eq hrest h.ne, hvalue]

end Twin

def replaced (id : Int) (wide v : Value) : Value := if v = .instr id then wide else v

structure Extended (scope : Option Symbols) (d : DomInfo) (f k g : Func) (b id : Int) (i : Instr)
    (w n : Nat) (ops : List Value) (u : Int) (wide : Value) : Prop where
  before : Twin scope d f k b id i w ops u
  ty : i.ty = .int n
  resizes : ResizesTo scope d k n (.instr u) wide g

namespace Extended

variable (h : Extended scope d f k g b id i w n ops u wide)

include h

theorem twin : Twin scope d f g b id i w ops u :=
  h.before.enlarge h.resizes.adds.toEnlarges h.resizes.proper

theorem wide_cases : wide = .instr u ∨ ∃ c j, wide = .instr c ∧ g.instr? c = some j ∧
    (j.op = .trunc ∨ j.op = .sext) ∧ j.operands = [.instr u] := by
  have hcast : ∀ {q : Int} {j : Instr}, Value.instr u = .instr q → g.instr? q = some j →
      j.op.isCast = false := by
    rintro _ j ⟨⟩ hj
    rw [← Func.opOf_eq hj, h.twin.opOf_twin]
    exact h.before.narrows.not_cast
  cases h.resizes.narrow.resized with
  | direct hcut =>
    generalize hv : Value.instr u = v at hcut
    cases hcut with
    | same => exact .inl rfl
    | const => cases hv
    | trunc hj hop _ hops => exact .inr ⟨_, _, rfl, hj, .inl hop, hv ▸ hops⟩
    | sext hj hop _ hops => exact .inr ⟨_, _, rfl, hj, .inr hop, hv ▸ hops⟩
  | trunc hv hj hop =>
    have := hcast hv hj
    rw [hop] at this
    cases this
  | sext hv hj hop =>
    have := hcast hv hj
    rw [hop] at this
    cases this
  | zext hv hj hop =>
    have := hcast hv hj
    rw [hop] at this
    cases this

theorem wide_ne : wide ≠ .instr id := by
  rintro rfl
  rcases h.wide_cases with he | ⟨c, j, he, hj, hop, _⟩
  · cases he
    exact h.twin.ne rfl
  · cases he
    rw [h.twin.instr_right] at hj
    cases hj
    have := h.before.narrows.not_cast
    rcases hop with hop | hop <;> (rw [hop] at this; cases this)

theorem stands_of_uses {y c : Int} {j : Instr} (hc : g.Stands y c) (hj : g.instr? c = some j)
    (hmem : Value.instr id ∈ j.operands) : k.Stands y c ∧ k.instr? c = some j := by
  have hstands : k.Stands y c := by
    rcases h.resizes.only hc with hstands | he
    · exact hstands
    rcases h.wide_cases with hu | ⟨q, j', hq, hj', _, hops⟩
    · rw [hu] at he
      cases he
      rw [h.twin.proper.wf.stands_unique hc h.twin.stands_twin]
      exact h.before.stands_twin
    · rw [hq] at he
      cases he
      rw [hj] at hj'
      cases hj'
      rw [hops, List.mem_singleton] at hmem
      cases hmem
      exact absurd rfl h.twin.ne
  exact ⟨hstands, by rw [← h.resizes.adds.instr hstands, hj]⟩

theorem available_wide {c : Int} {y : Nat} (hc : k.Stands y c) (hreach : d.dom.isReachable y = true)
    (hphi : k.opOf c ≠ .phi) (hid : k.Available d (.instr id) c) : g.Available d wide c := by
  refine h.resizes.narrow.available hc hreach hphi ?_
  rintro _ ⟨⟩
  exact ⟨h.before.computes_twin, h.before.proper.precedes_trans h.before.stands_twin h.before.stands_right hc
    h.before.before (hid id rfl).2⟩

theorem available_use {c : Int} {y : Nat} {j : Instr} (hc : g.Stands y c)
    (hreach : d.dom.isReachable y = true) (hj : g.instr? c = some j) (hphi : j.op ≠ .phi)
    (hmem : Value.instr id ∈ j.operands) : g.Available d wide c := by
  obtain ⟨hc, hj⟩ := h.stands_of_uses hc hj hmem
  refine h.available_wide hc hreach (by rwa [Func.opOf_eq hj]) ?_
  rintro _ ⟨⟩
  exact h.before.proper.ssa.uses y c j id hreach hc hj hphi hmem

theorem available_incoming {c t : Int} {y : Int} {j : Instr} {m p : Nat} (hc : g.Stands y c)
    (hj : g.instr? c = some j) (hphi : j.op = .phi) (hmem : j.operands[m]? = some (.instr id))
    (ht : j.targets[m]? = some (p : Int)) (hreach : d.dom.isReachable p = true)
    (hterm : g.terminator p = .ok (some t)) : g.Available d wide t := by
  obtain ⟨hc, hj⟩ := h.stands_of_uses hc hj (List.mem_of_getElem? hmem)
  obtain ⟨blk, hblk⟩ :=
    (h.before.proper.wf.references hc hj).targets p (List.mem_of_getElem? ht)
  obtain ⟨hgt, hgop⟩ := h.twin.proper.wf.terminator_iff.mp hterm
  have hends := h.resizes.adds.terminator h.before.proper.wf h.twin.proper.wf hblk hgt hgop
  obtain ⟨hkt, hop⟩ := h.before.proper.wf.terminator_iff.mp hends
  refine h.available_wide hkt hreach (Op.ne_phi_of_isTerminator hop) ?_
  rintro _ ⟨⟩
  exact h.before.proper.ssa.incoming y c j m id p t hc hj hphi hmem ht hreach hends

theorem reads_wide (hW : W.Fits g) (hD : W.Definite) {s : State} (hs : Reached W g s) {c : Int}
    {rest : List Int} (hrest : s.rest = c :: rest) (hid : g.Available d (.instr id) c)
    (hwide : g.Available d wide c) {x : Int} : Reads W s.env wide x ↔ Reads W s.env (.instr id) x := by
  have hg := h.twin.proper
  have hc := hs.located.stands hrest
  obtain ⟨hcomp, hprec⟩ := hid id rfl
  have hvalue := (h.twin.knows hW hD hs).available hg.toHasDominance hs.located hrest hcomp hprec rfl
  have hu : g.Available d (.instr u) c := by
    rintro _ ⟨⟩
    exact ⟨h.twin.computes_twin,
      hg.precedes_trans h.twin.stands_twin h.twin.stands_right hc h.twin.before hprec⟩
  have hn : (Ty.int n).Valid := h.ty ▸ (h.before.left.typed.instr b id i h.before.stands h.before.instr).1
  have hholds : (Ty.int n).Holds (s.env u) := by
    have htwin := available_holds hg hW hs hrest
      (show g.HasTy (.instr u) (form i w ops).ty from ⟨h.twin.computes_twin, _, h.twin.instr_twin, rfl⟩) hu
      (show Reads W s.env (.instr u) (s.env u) from rfl)
    obtain ⟨m, hle, hm⟩ := h.before.form_ty h.ty
    rw [hm] at htwin
    exact Interval.holds_mono hle htwin
  have hread := h.resizes.narrow.resized.reads hg hW hD hs hrest hn.1 hu hwide
    (show Reads W s.env (.instr u) (s.env u) from rfl)
  rw [low_of_holds hn.1 hholds, hvalue] at hread
  exact ⟨fun hx => hD.reads_unique hx hread, fun hx => hx ▸ hread⟩

theorem hasTy_replaced {v : Value} {t : Ty} (hv : g.HasTy v t) : g.HasTy (replaced id wide v) t := by
  unfold replaced
  split
  · next he =>
    subst he
    obtain ⟨_, j, hj, rfl⟩ := hv
    rw [h.twin.instr_right] at hj
    cases hj
    rw [h.ty]
    exact h.resizes.narrow.hasTy
  · exact hv

theorem sameReads (hW : W.Fits g) (hD : W.Definite) {s : State} (hs : Reached W g s) {c : Int}
    {rest : List Int} (hrest : s.rest = c :: rest) {j : Instr} (hj : g.instr? c = some j) :
    SameReads W (replaced id wide) s j := by
  have hg := h.twin.proper
  have hc := hs.located.stands hrest
  refine ⟨fun hphi v hv x => ?_, fun hphi p v hp ht hv x => ?_⟩
  · unfold replaced
    split
    · next he =>
      subst he
      have hreach : d.dom.isReachable s.block = true := hg.isReachable_iff.mpr hs.located.reaches
      refine h.reads_wide hW hD hs hrest ?_ (h.available_use hc hreach hj hphi hv)
      rintro _ ⟨⟩
      exact hg.ssa.uses s.block c j id hreach hc hj hphi hv
    · exact Iff.rfl
  · unfold replaced
    split
    · next he =>
      subst he
      obtain ⟨_, s', t, trest, hs', rfl, htrest, hterm, henv⟩ := hs.jumped hp
      have hends := hg.wf.terminator_eq (hs'.located.stands htrest) hterm
      have hreach : d.dom.isReachable s'.block = true := hg.isReachable_iff.mpr hs'.located.reaches
      rw [← henv]
      refine h.reads_wide hW hD hs' htrest ?_ (h.available_incoming hc hj hphi hv ht hreach hends)
      rintro _ ⟨⟩
      exact hg.ssa.incoming s.block c j _ id s'.block t hc hj hphi hv ht hreach hends
    · exact Iff.rfl

variable {g' : Func} (hrw : g.Rewrites (replaced id wide) g')

include hrw

theorem proper_replaced : g'.Proper scope d := by
  have hg := h.twin.proper
  refine hrw.proper hg (fun c a j v hc hj hv => ?_) (fun c a j v t _ _ _ => h.hasTy_replaced)
    (fun y c j v q hreach hc hj hphi hv he => ?_)
    fun y c j m v q p t hc hj hphi hv he ht hreach hterm => ?_
  · unfold replaced
    split
    · exact hg.wf.resolves_of_hasTy h.resizes.narrow.hasTy
    · exact (hg.wf.references hc hj).operands v hv
  · unfold replaced at he
    split at he
    · next hid =>
      subst hid
      exact h.available_use hc hreach hj hphi hv q he
    · subst he
      exact hg.ssa.uses y c j q hreach hc hj hphi hv
  · unfold replaced at he
    split at he
    · next hid =>
      subst hid
      exact h.available_incoming hc hj hphi hv ht hreach hterm q he
    · subst he
      exact hg.ssa.incoming y c j m q p t hc hj hphi hv ht hreach hterm

theorem alike_replaced : Alike g g' ∧ ∀ c, Agrees g g' c := by
  have hσ : ∀ b id' j v t, g.Stands b id' → g.instr? id' = some j → v ∈ j.operands → g.HasTy v t →
      g.HasTy (replaced id wide v) t := fun _ _ _ _ _ _ _ _ => h.hasTy_replaced
  have hreads : ∀ W : World, W.Fits g → W.Definite → ∀ s c rest j, Reached W g s → s.rest = c :: rest →
      g.instr? c = some j → SameReads W (replaced id wide) s j :=
    fun W hW hD s c rest j hs hrest hj => h.sameReads hW hD hs hrest hj
  exact ⟨hrw.alike h.twin.proper.typed hσ hreads, hrw.agrees h.twin.proper.typed hσ hreads⟩

theorem unused_replaced : g'.Unused id := by
  intro y c j' hc hne hj' hmem
  obtain ⟨j, hj, _, _⟩ := hrw.exists_instr' hj'
  rw [hrw.operands y c j j' (hrw.stands.mp hc) hj hj'] at hmem
  obtain ⟨v, _, he⟩ := List.mem_map.mp hmem
  unfold replaced at he
  split at he
  · exact h.wide_ne he
  · next hv => exact hv he

/-- The instruction can run wherever control comes to it, because its narrow form did. -/
theorem exists_result_replaced {i' : Instr} (hi' : g'.instr? id = some i') (hW : W.Fits g')
    (hD : W.Definite) {s : State} (hs : Reached W g' s) {rest : List Int} (hrest : s.rest = id :: rest) :
    ∃ x, Result W g' s i' none x := by
  have hW := hW.of_params hrw.params.symm
  have hg := h.twin.proper
  have hwidth : ∀ c a j j', g.Stands c a → g.instr? a = some j → g'.instr? a = some j' →
      g'.widthOf j' = g.widthOf j := fun c a j j' hc hj hj' =>
    hrw.widthOf hg.typed (fun _ _ _ _ _ _ _ _ => h.hasTy_replaced) hc hj hj'
  obtain ⟨seen, hs⟩ := hs
  have hs : Reached W g s := ⟨seen, (hrw.runs_iff hwidth fun s c rest j hs hrest hj =>
    h.sameReads hW hD hs hrest hj).mp hs⟩
  have hsame := h.sameReads hW hD hs hrest h.twin.instr_right
  obtain ⟨j, hj, hshape, _⟩ := hrw.exists_instr' hi'
  rw [h.twin.instr_right] at hj
  cases hj
  have hid := h.twin.stands_right
  refine ⟨s.env u, (hsame.result (hrw.operands b id i i' hid h.twin.instr_right hi') hshape
    (hwidth b id i i' hid h.twin.instr_right hi')).mpr (h.twin.result_at hW hD hs hrest)⟩

end Extended

end RegPressure.Narrow
