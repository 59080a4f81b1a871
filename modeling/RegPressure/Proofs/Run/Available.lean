import RegPressure.Proofs.Run.Step
import RegPressure.Proofs.IR.Update

namespace RegPressure

variable {scope : Option Symbols} {f : Func} {d : DomInfo} {W : World}

namespace Func

theorem HasDominance.precedes_trans (h : f.HasDominance scope d) {a b c x y z : Int}
    (ha : f.Stands x a) (hb : f.Stands y b) (hc : f.Stands z c) (hab : f.Precedes d a b)
    (hbc : f.Precedes d b c) : f.Precedes d a c := by
  obtain ⟨x, rfl, _⟩ := ha.nat
  obtain ⟨y, rfl, _⟩ := hb.nat
  obtain ⟨z, rfl, _⟩ := hc.nat
  obtain ⟨cblk, hcblk, hcmem⟩ := hc
  have hbs := hb
  obtain ⟨bblk, hbblk, hbmem⟩ := hb
  have hab := (h.wf.precedes_iff ha hbblk hbmem).mp hab
  have hbc := (h.wf.precedes_iff hbs hcblk hcmem).mp hbc
  refine (h.wf.precedes_iff ha hcblk hcmem).mpr ?_
  rcases hab with ⟨hne, hd⟩ | ⟨rfl, hsub⟩
  · rcases hbc with ⟨_, hd'⟩ | ⟨rfl, _⟩
    · have hd := h.dominates_iff.mp hd
      have hd' := h.dominates_iff.mp hd'
      refine .inl ⟨?_, h.dominates_iff.mpr (hd.trans hd')⟩
      rintro rfl
      exact hne (hd.antisymm hd')
    · exact .inl ⟨hne, hd⟩
  · rcases hbc with hbc | ⟨rfl, hsub'⟩
    · exact .inl hbc
    · rw [hbblk] at hcblk
      cases hcblk
      have hnodup := (h.wf.block _ _ hbblk).body.nodup
      have h1 := (idxOf_lt_idxOf_iff hnodup hbmem).mpr hsub
      have h2 := (idxOf_lt_idxOf_iff hnodup hcmem).mpr hsub'
      exact .inr ⟨rfl, (idxOf_lt_idxOf_iff hnodup hcmem).mp (h1.trans h2)⟩

theorem HasDominance.not_precedes_self (h : f.HasDominance scope d) {a x : Int}
    (ha : f.Stands x a) : ¬ f.Precedes d a a := by
  obtain ⟨x, rfl, _⟩ := ha.nat
  have has := ha
  obtain ⟨blk, hblk, hmem⟩ := ha
  rw [h.wf.precedes_iff has hblk hmem]
  rintro (⟨hne, _⟩ | ⟨_, hsub⟩)
  · exact hne rfl
  · have hnodup := (h.wf.block _ _ hblk).body.nodup
    exact absurd ((idxOf_lt_idxOf_iff hnodup hmem).mpr hsub) (Nat.lt_irrefl _)

end Func

/-- Control is where it can get, and the rest of a block is a rest of it. -/
structure State.Located (f : Func) (s : State) : Prop where
  reaches : Reaches f.graph.succ f.entryNode s.block
  suffix : s.rest <:+ f.bodyOf s.block

theorem Step.located {s t : State} {e : Option Event} (hs : s.Located f) (h : Step W f s e t) :
    t.Located f := by
  cases h with
  | on hrest => exact ⟨hs.reaches, (List.suffix_cons _ _).trans (hrest ▸ hs.suffix)⟩
  | jump _ _ _ _ ht => exact ⟨hs.reaches.step ht, List.suffix_refl _⟩
  | ret => exact ⟨hs.reaches, List.nil_suffix⟩

theorem Reached.located {s : State} (h : Reached W f s) : s.Located f := by
  obtain ⟨seen, h⟩ := h
  induction h with
  | start hi => exact ⟨hi.block ▸ Reaches.refl _ _, by rw [hi.block]; exact hi.rest ▸ List.suffix_refl _⟩
  | step _ hstep ih => exact hstep.located ih

theorem Reached.step {s t : State} {e : Option Event} (h : Reached W f s) (hs : Step W f s e t) :
    Reached W f t := by
  obtain ⟨seen, h⟩ := h
  exact ⟨_, h.step hs⟩

theorem State.Located.stands {s : State} (h : s.Located f) {c : Int} {rest : List Int}
    (hrest : s.rest = c :: rest) : f.Stands s.block c :=
  Func.stands_iff.mpr (h.suffix.subset (by simp [hrest]))

def State.Behind (f : Func) (d : DomInfo) (s : State) (p : Int) : Prop :=
  (f.opOf p).isTerminator = false ∧ ∃ y : Nat, f.Stands y p ∧
    (y ≠ s.block ∧ d.dom.dominates y s.block = true ∨ y = s.block ∧ p ∉ s.rest)

theorem State.Located.behind_iff (h : f.HasDominance scope d) {s : State} (hs : s.Located f)
    {c : Int} {rest : List Int} (hrest : s.rest = c :: rest) {p : Int} :
    s.Behind f d p ↔ f.Computes p ∧ f.Precedes d p c := by
  have hc := hs.stands hrest
  obtain ⟨blk, hblk, hmem⟩ := hc
  have hbody : f.bodyOf s.block = blk.instrs := by simp [Func.bodyOf, hblk]
  have hnodup := (h.wf.block _ _ hblk).body.nodup
  obtain ⟨l, hl⟩ := hs.suffix
  rw [hbody, hrest] at hl
  -- Inside the block, what comes before the current instruction is not in the rest.
  have hsame : f.Stands s.block p → ([p, c].Sublist blk.instrs ↔ p ∉ s.rest) := by
    rintro ⟨blk', hblk', hp⟩
    rw [hblk] at hblk'
    cases hblk'
    rw [hrest]
    rw [← hl] at hp hnodup ⊢
    constructor
    · intro hsub hp'
      have hlt := (idxOf_lt_idxOf_iff hnodup (by simp)).mpr hsub
      have hpl : p ∉ l := fun hpl => List.disjoint_of_nodup_append hnodup hpl hp'
      have hcl : c ∉ l := fun hcl => List.disjoint_of_nodup_append hnodup hcl (by simp)
      rw [List.idxOf_append_of_notMem hpl, List.idxOf_append_of_notMem hcl,
        List.idxOf_cons_self] at hlt
      omega
    · intro hp'
      have hpl := (List.mem_append.mp hp).resolve_right hp'
      exact List.Sublist.append (List.singleton_sublist.mpr hpl)
        (List.Sublist.cons_cons c (List.nil_sublist _))
  constructor
  · rintro ⟨hterm, y, hy, hcase⟩
    refine ⟨⟨⟨y, hy⟩, hterm⟩, (h.wf.precedes_iff hy hblk hmem).mpr (hcase.imp_right ?_)⟩
    rintro ⟨rfl, hp⟩
    exact ⟨rfl, (hsame hy).mpr hp⟩
  · rintro ⟨⟨⟨y, hy⟩, hterm⟩, hprec⟩
    obtain ⟨y, rfl, _⟩ := hy.nat
    refine ⟨hterm, y, hy, ((h.wf.precedes_iff hy hblk hmem).mp hprec).imp_right ?_⟩
    rintro ⟨rfl, hsub⟩
    exact ⟨rfl, (hsame hy).mp hsub⟩

/-- What holds of the values behind a state, and of those behind the jump that led to its block. -/
structure State.Knows (f : Func) (d : DomInfo) (Q : Int → Env → Prop) (s : State) : Prop where
  now : ∀ p, s.Behind f d p → Q p s.env
  entered : ∀ b t, s.source = some b → f.terminator b = .ok (some t) →
    (s.block ∈ f.graph.succ b ∧ Reaches f.graph.succ f.entryNode b) ∧
      ∀ p, f.Computes p → f.Precedes d p t → Q p s.entered

def Settled (f : Func) (d : DomInfo) (Q : Int → Env → Prop) : Prop :=
  ∀ p env env', (∃ b, f.Stands b p) →
    (∀ x, x = p ∨ (∃ b, f.Stands b x) ∧ f.Precedes d x p → env x = env' x) → Q p env → Q p env'

theorem Func.WellFormed.terminator_eq (h : f.WellFormed scope) {b t : Int} (hb : f.Stands b t)
    (ht : (f.opOf t).isTerminator = true) : f.terminator b = .ok (some t) :=
  h.terminator_iff.mpr ⟨hb, ht⟩

theorem Func.WellFormed.exists_terminator (h : f.WellFormed scope) {b : Int} {blk : Block}
    (hblk : f.block? b = some blk) : ∃ t, f.terminator b = .ok (some t) := by
  have hsound := h.block b blk hblk
  obtain ⟨phis, mid, t, hl⟩ := hsound.body.layout hsound.ne_nil
  exact ⟨t, h.terminator_eq ⟨blk, hblk, by simp [hl.eq]⟩ hl.ends⟩

theorem Func.WellFormed.rest_eq_nil (h : f.WellFormed scope) {b c : Int} {rest : List Int}
    (hs : c :: rest <:+ f.bodyOf b) (hc : (f.opOf c).isTerminator = true) : rest = [] := by
  obtain ⟨l, hl⟩ := hs
  obtain ⟨blk, hblk, _⟩ : f.Stands b c := Func.stands_iff.mpr (by simp [← hl])
  have hbody : f.bodyOf b = blk.instrs := by simp [Func.bodyOf, hblk]
  exact ((h.block b blk hblk).body.ends l c rest (hbody ▸ hl.symm)).mp hc

/-- What a step leaves as it was. -/
theorem Step.env_eq {s t : State} {e : Option Event} (h : Step W f s e t) {c : Int}
    {rest : List Int} (hrest : s.rest = c :: rest) {x : Int} (hx : x ≠ c) : t.env x = s.env x := by
  cases h with
  | on hid =>
    rw [hrest] at hid
    cases hid
    exact Function.update_of_ne hx _ _
  | jump => rfl
  | ret => rfl

inductive State.Moves (f : Func) (s : State) (c : Int) (rest : List Int) (t : State) : Prop
  | on : (f.opOf c).isTerminator = false → t.block = s.block → t.rest = rest →
      t.entered = s.entered → t.source = s.source → t.pick = s.pick → Moves f s c rest t
  | crosses {b : Nat} {pick : List Int → Nat} : (f.opOf c).isTerminator = true →
      b ∈ f.graph.succ s.block → t = s.enter f b pick → Moves f s c rest t
  | ends : (f.opOf c).isTerminator = true → t = { s with rest := [] } → Moves f s c rest t

theorem Op.not_isTerminator_of_isPure {op : Op} (h : op.isPure = true) :
    op.isTerminator = false := by
  cases op <;> first | rfl | cases h

theorem Result.not_isTerminator {s : State} {i : Instr} {e : Option Event} {x : Int}
    (h : Result W f s i e x) : i.op.isTerminator = false := by
  cases h with
  | phi hop =>
    rw [hop]
    rfl
  | compute hop => exact Op.not_isTerminator_of_isPure hop
  | undefined _ _ hop => exact Op.not_isTerminator_of_isPure (Op.isPure_of_isArith hop.1)
  | effect hop =>
    simp only [Op.hasEffect, Bool.and_eq_true, Bool.not_eq_true'] at hop
    exact hop.1.2

theorem Step.moves {s t : State} {e : Option Event} (h : Step W f s e t) :
    ∃ c rest, s.rest = c :: rest ∧ s.Moves f c rest t := by
  cases h with
  | on hrest hi hx =>
    exact ⟨_, _, hrest, .on (by rw [Func.opOf_eq hi, hx.not_isTerminator]) rfl rfl rfl rfl rfl⟩
  | jump hrest hi hop _ ht => exact ⟨_, _, hrest, .crosses (by rw [Func.opOf_eq hi, hop]) ht rfl⟩
  | ret hrest hi hop => exact ⟨_, _, hrest, .ends (by rw [Func.opOf_eq hi, hop]; rfl) rfl⟩

/-- Behind an instruction of a block control comes from that. -/
theorem Reached.before {s : State} (hs : Reached W f s) {l : List Int} {c : Int} (hne : s.rest ≠ [])
    (hbody : f.bodyOf s.block = l ++ c :: s.rest) :
    ∃ s₀ e, Reached W f s₀ ∧ s₀.rest = c :: s.rest ∧ Step W f s₀ e s := by
  have hlength : s.rest ≠ f.bodyOf s.block := by
    intro he
    have := congrArg List.length hbody
    rw [← he] at this
    simp only [List.length_append, List.length_cons] at this
    omega
  obtain ⟨seen, hs⟩ := hs
  cases hs with
  | start hi => exact absurd (hi.block ▸ hi.rest) hlength
  | @step seen s₀ _ e hruns hst =>
    obtain ⟨c', rest, hrest, hmoves⟩ := hst.moves
    cases hmoves with
    | on _ hblock hr =>
      obtain ⟨l', hl'⟩ := (Reached.located ⟨seen, hruns⟩).suffix
      rw [hrest, ← hblock, ← hr, hbody, List.append_cons, List.append_cons l] at hl'
      obtain ⟨_, hc⟩ := List.append_inj' (List.append_cancel_right hl') rfl
      cases hc
      exact ⟨s₀, e, ⟨seen, hruns⟩, by rw [hrest, hr], hst⟩
    | crosses _ _ ht =>
      subst ht
      exact absurd rfl hlength
    | ends _ ht =>
      subst ht
      exact absurd rfl hne

/-- What an instruction gave is the value that it has from then on. -/
theorem Step.result {s t : State} {e : Option Event} (h : Step W f s e t) {c : Int}
    {rest : List Int} (hrest : s.rest = c :: rest) (hc : (f.opOf c).isTerminator = false) {i : Instr}
    (hi : f.instr? c = some i) : Result W f s i e (t.env c) := by
  cases h with
  | on hid hj hx =>
    rw [hrest] at hid
    cases hid
    rw [hi] at hj
    cases hj
    rwa [State.env_after]
  | jump hid hj hop =>
    rw [hrest] at hid
    cases hid
    rw [Func.opOf_eq hj, hop] at hc
    cases hc
  | ret hid hj hop =>
    rw [hrest] at hid
    cases hid
    rw [Func.opOf_eq hj, hop] at hc
    cases hc

theorem Runs.stuck {id : Int} {rest : List Int} {i : Instr}
    (hbody : f.bodyOf f.entryNode = id :: rest) (hi : f.instr? id = some i)
    (hterm : i.op.isTerminator = false) (hno : ∀ s e x, ¬ Result W f s i e x) {seen : List Event} {s : State}
    (h : Runs W f seen s) : seen = [] ∧ s.rest = id :: rest := by
  induction h with
  | start hs => exact ⟨rfl, hs.rest.trans hbody⟩
  | step _ hst ih => exact absurd (hst.result ih.2 (by rw [Func.opOf_eq hi, hterm]) hi) (hno _ _ _)

theorem State.Located.not_current (h : f.HasDominance scope d) {s : State} (hs : s.Located f)
    {c : Int} {rest : List Int} (hrest : s.rest = c :: rest) {p : Int} (hp : s.Behind f d p) {x : Int}
    (hx : x = p ∨ (∃ b, f.Stands b x) ∧ f.Precedes d x p) : x ≠ c := by
  obtain ⟨⟨⟨y, hy⟩, _⟩, hprec⟩ := (hs.behind_iff h hrest).mp hp
  have hc := hs.stands hrest
  rintro rfl
  rcases hx with rfl | ⟨_, hx⟩
  · exact h.not_precedes_self hc hprec
  · exact h.not_precedes_self hc (h.precedes_trans hc hy hc hx hprec)

theorem State.Initial.knows (h : f.HasDominance scope d) (Q : Int → Env → Prop) {s : State}
    (hi : s.Initial f) : s.Knows f d Q := by
  refine ⟨fun p hp => ?_, fun b t hb => ?_⟩
  · obtain ⟨_, y, hy, ⟨hne, hd⟩ | ⟨rfl, hnot⟩⟩ := hp
    · rw [hi.block] at hne hd
      exact absurd (h.dominates_iff.mp hd).eq_root hne
    · rw [hi.rest, ← hi.block] at hnot
      exact absurd (Func.stands_iff.mp hy) hnot
  · rw [hi.source] at hb
    cases hb

/-- A step carries what is known along, if the property holds of what it works out. -/
theorem State.Knows.step (h : f.HasDominance scope d) {Q : Int → Env → Prop} (hQ : Settled f d Q)
    {s t : State} {e : Option Event} (hs : Reached W f s) (hk : s.Knows f d Q)
    (hst : Step W f s e t) (hone : ∀ c rest, s.rest = c :: rest →
      (f.opOf c).isTerminator = false → Q c t.env) : t.Knows f d Q := by
  have hloc := hs.located
  obtain ⟨c, rest, hrest, hmoves⟩ := hst.moves
  -- What is behind has run already and is not the current instruction, so its value stays.
  have hkeep : ∀ p, s.Behind f d p → Q p t.env := by
    intro p hp
    obtain ⟨y, hy, _⟩ := hp.2
    refine hQ p s.env t.env ⟨y, hy⟩ (fun x hx => ?_) (hk.now p hp)
    exact (hst.env_eq hrest (hloc.not_current h hrest hp hx)).symm
  -- At the terminator nothing else of the block is left to run.
  have hdone : (f.opOf c).isTerminator = true → ∀ p, (f.opOf p).isTerminator = false →
      p ∉ s.rest := by
    intro hc p hp hmem
    have hnil := h.wf.rest_eq_nil (hrest ▸ hloc.suffix) hc
    rw [hrest, hnil, List.mem_singleton] at hmem
    rw [hmem, hc] at hp
    cases hp
  cases hmoves with
  | on hc hblock htrest hentered hsource =>
    refine ⟨fun p hp => ?_, fun b u hb hu => ?_⟩
    · by_cases hpc : p = c
      · subst hpc
        exact hone p rest hrest hc
      · obtain ⟨hterm, y, hy, hcase⟩ := hp
        refine hkeep p ⟨hterm, y, hy, ?_⟩
        rw [hblock, htrest] at hcase
        rw [hrest]
        exact hcase.imp_right fun hin => ⟨hin.1, by simp [hpc, hin.2]⟩
    · rw [hblock, hentered]
      exact hk.entered b u (hsource ▸ hb) hu
  | @crosses b _ hc hb ht =>
    subst ht
    refine ⟨fun p hp => ?_, fun q u hq hu => ?_⟩
    · obtain ⟨hterm, y, hy, ⟨hyb, hd⟩ | ⟨rfl, hnot⟩⟩ := hp
      · -- What dominates the next block dominates this one, unless it is the next block itself.
        have hd' := (h.dominates_iff.mp hd).of_edge hyb hloc.reaches hb
        refine hkeep p ⟨hterm, y, hy, ?_⟩
        by_cases hys : y = s.block
        · exact .inr ⟨hys, hdone hc p hterm⟩
        · exact .inl ⟨hys, h.dominates_iff.mpr hd'⟩
      · exact absurd (Func.stands_iff.mp hy) hnot
    · cases hq
      refine ⟨⟨hb, hloc.reaches⟩, fun p hp hprec => ?_⟩
      have he := h.wf.terminator_eq (hloc.stands hrest) hc
      rw [he] at hu
      cases hu
      exact hk.now p ((hloc.behind_iff h hrest).mpr ⟨hp, hprec⟩)
  | ends hc ht =>
    subst ht
    refine ⟨fun p hp => ?_, hk.entered⟩
    obtain ⟨hterm, y, hy, hcase⟩ := hp
    exact hkeep p ⟨hterm, y, hy, hcase.imp_right fun hin => ⟨hin.1, hdone hc p hterm⟩⟩

/-- A property of results that every step establishes, given what is behind it, holds wherever the
results are available. -/
theorem Reached.knows (h : f.HasDominance scope d) {Q : Int → Env → Prop} (hQ : Settled f d Q)
    (hstep : ∀ s e t c rest, Reached W f s → s.Knows f d Q → s.rest = c :: rest →
      (f.opOf c).isTerminator = false → Step W f s e t → Q c t.env)
    {s : State} (hs : Reached W f s) : s.Knows f d Q := by
  obtain ⟨seen, hs⟩ := hs
  induction hs with
  | start hi => exact hi.knows h Q
  | @step seen s t e hruns hst ih =>
    have hreached : Reached W f s := ⟨seen, hruns⟩
    exact ih.step h hQ hreached hst fun c rest hrest hc =>
      hstep s e t c rest hreached ih hrest hc hst

/-- What is known of an available value. -/
theorem State.Knows.available (h : f.HasDominance scope d) {Q : Int → Env → Prop} {s : State}
    (hk : s.Knows f d Q) (hs : s.Located f) {c : Int} {rest : List Int} (hrest : s.rest = c :: rest)
    {p : Int} (hp : f.Computes p) (hprec : f.Precedes d p c) : Q p s.env :=
  hk.now p ((hs.behind_iff h hrest).mpr ⟨hp, hprec⟩)

end RegPressure
