import RegPressure.Proofs.IR.Update

namespace RegPressure.Func

theorem filter_ne_of_notMem {u : Int} {l : List Int} (h : u ∉ l) : l.filter (· ≠ u) = l := by
  refine List.filter_eq_self.mpr fun x hx => ?_
  simp only [decide_eq_true_eq]
  rintro rfl
  exact h hx

/-- The function `f` is `g` with instruction `u` on top. -/
structure Adds (g : Func) (u : Int) (f : Func) : Prop where
  name : g.name = f.name
  entry : g.entry = f.entry
  params : g.params = f.params
  block : ∀ b, g.block? b =
    (f.block? b).map fun blk => { blk with instrs := blk.instrs.filter (· ≠ u) }
  instr : ∀ id, id ≠ u → g.instr? id = f.instr? id

/-- The operand is computed before the instruction, if it is computed. -/
def Available (f : Func) (d : DomInfo) (v : Value) (c : Int) : Prop :=
  ∀ p, v = .instr p → f.Computes p ∧ f.Precedes d p c

theorem InSsaForm.available {f : Func} {d : DomInfo} {counts : Nat → Prop} (h : f.InSsaForm d counts)
    {b : Nat} {id : Int} {i : Instr} (hreach : d.dom.isReachable b = true) (hb : f.Stands b id)
    (hi : f.instr? id = some i) (hphi : i.op ≠ .phi) {v : Value} (hv : v ∈ i.operands) :
    f.Available d v id := by
  rintro p rfl
  exact h.uses b id i p hreach hb hi hphi hv

def Unused (f : Func) (u : Int) : Prop :=
  ∀ b id i, f.Stands b id → id ≠ u → f.instr? id = some i → Value.instr u ∉ i.operands

theorem pair_sublist_filter {l : List Int} {a c u : Int} (ha : a ≠ u) (hc : c ≠ u) :
    [a, c].Sublist (l.filter (· ≠ u)) ↔ [a, c].Sublist l := by
  constructor
  · exact fun h => h.trans (List.filter_sublist)
  · intro h
    have := h.filter (· ≠ u)
    rwa [List.filter_eq_self.mpr (by simp [ha, hc])] at this

section

variable {l r : List Int} {p c : Int}

theorem pair_sublist_iff_mem_right (h : (l ++ p :: r).Nodup) : [p, c].Sublist (l ++ p :: r) ↔ c ∈ r := by
  have hp : p ∉ l := fun hp => List.disjoint_of_nodup_append h hp (List.mem_cons_self ..)
  constructor
  · intro hs
    obtain ⟨l₁, l₂, he, h₁, h₂⟩ := List.sublist_append_iff.mp hs
    cases l₁ with
    | nil =>
      rw [List.nil_append] at he
      subst he
      have hpr : p ∉ r := (List.nodup_cons.mp (List.nodup_append.mp h).2.1).1
      rcases List.cons_sublist_cons'.mp h₂ with h₂ | ⟨_, h₂⟩
      · exact absurd (h₂.subset (List.mem_cons_self ..)) hpr
      · exact h₂.subset (List.mem_cons_self ..)
    | cons x l₁ =>
      obtain ⟨rfl, _⟩ := List.cons.inj he
      exact absurd (h₁.subset (List.mem_cons_self ..)) hp
  · intro hc
    exact (List.cons_sublist_cons.mpr (List.singleton_sublist.mpr hc)).trans
      (List.sublist_append_right _ _)

theorem pair_sublist_iff_mem_left (h : (l ++ p :: r).Nodup) : [c, p].Sublist (l ++ p :: r) ↔ c ∈ l := by
  constructor
  · intro hs
    have hmem : c ∈ l ++ p :: r := hs.subset (List.mem_cons_self ..)
    obtain ⟨l₁, l₂, he, h₁, h₂⟩ := List.sublist_append_iff.mp hs
    cases l₁ with
    | cons x l₁ =>
      obtain ⟨rfl, _⟩ := List.cons.inj he
      exact h₁.subset (List.mem_cons_self ..)
    | nil =>
      rw [List.nil_append] at he
      subst he
      have hpr : p ∉ r := (List.nodup_cons.mp (List.nodup_append.mp h).2.1).1
      rcases List.cons_sublist_cons'.mp h₂ with h₂ | ⟨_, h₂⟩
      · exact absurd (h₂.subset (by simp)) hpr
      · exact absurd (h₂.subset (by simp)) hpr
  · intro hc
    exact (List.singleton_sublist.mpr hc).append (List.singleton_sublist.mpr (List.mem_cons_self ..))

end

namespace Adds

variable {scope : Option Symbols} {g f : Func} {u : Int} {d : DomInfo}

section

variable (h : g.Adds u f)

include h

theorem bodyOf (b : Int) : g.bodyOf b = (f.bodyOf b).filter (· ≠ u) := by
  unfold Func.bodyOf
  rw [h.block b]
  cases f.block? b <;> rfl

theorem stands {b id : Int} : g.Stands b id ↔ f.Stands b id ∧ id ≠ u := by
  rw [stands_iff, stands_iff, h.bodyOf, List.mem_filter]
  simp

theorem opOf {id : Int} (hid : id ≠ u) : g.opOf id = f.opOf id := by
  unfold Func.opOf
  rw [h.instr id hid]

theorem computes {id : Int} (hid : id ≠ u) : g.Computes id ↔ f.Computes id := by
  unfold Computes
  rw [h.opOf hid]
  refine and_congr_left fun _ => exists_congr fun b => ?_
  simp [h.stands, hid]

theorem typeOf {v : Value} (hv : v ≠ .instr u) : g.typeOf v = f.typeOf v := by
  cases v with
  | instr id =>
    have hid : id ≠ u := by
      rintro rfl
      exact hv rfl
    simp only [Func.typeOf, Func.instr, h.instr id hid, h.name]
  | arg n => simp only [Func.typeOf, h.params, h.name]
  | _ => rfl

theorem graph : g.graph = f.graph := by
  have hblocks : ∀ n : Nat, g.blocks[n]? =
      f.blocks[n]?.map fun blk => { blk with instrs := blk.instrs.filter (· ≠ u) } := by
    intro n
    rw [← block?_ofNat, ← block?_ofNat, h.block]
  simp only [Func.graph, Digraph.mk.injEq]
  constructor
  · refine Array.ext_getElem? fun n => ?_
    simp only [Array.getElem?_map, hblocks]
    cases f.blocks[n]? <;> rfl
  · refine Array.ext_getElem? fun n => ?_
    simp only [Array.getElem?_map, hblocks]
    cases f.blocks[n]? <;> rfl

theorem entryNode : g.entryNode = f.entryNode := by
  unfold Func.entryNode
  rw [h.entry]

theorem isLive {id : Int} (hid : id ≠ u) : g.isLive id = f.isLive id := by
  unfold Func.isLive
  rw [h.instr id hid]

theorem resolves {v : Value} (hv : v ≠ .instr u) : g.Resolves scope v ↔ f.Resolves scope v := by
  cases v with
  | instr id =>
    have hid : id ≠ u := by
      rintro rfl
      exact hv rfl
    simp only [Resolves, h.isLive hid]
  | arg n => simp only [Resolves, h.params]
  | _ => exact Iff.rfl

theorem references {i : Instr} (hi : Value.instr u ∉ i.operands) :
    g.References scope i ↔ f.References scope i := by
  have hoperands : (∀ v ∈ i.operands, g.Resolves scope v) ↔ ∀ v ∈ i.operands, f.Resolves scope v := by
    refine forall₂_congr fun v hv => h.resolves ?_
    rintro rfl
    exact hi hv
  have htargets : (∀ t ∈ i.targets, ∃ blk, g.block? t = some blk) ↔
      ∀ t ∈ i.targets, ∃ blk, f.block? t = some blk := by
    refine forall₂_congr fun t _ => ?_
    rw [h.block]
    cases f.block? t <;> simp
  constructor
  · rintro ⟨h1, h2, h3⟩
    exact ⟨hoperands.mp h1, htargets.mp h2, h3⟩
  · rintro ⟨h1, h2, h3⟩
    exact ⟨hoperands.mpr h1, htargets.mpr h2, h3⟩

theorem edges {b : Int} {blk : Block} (hu : u ∈ blk.instrs → ∀ i, f.instr? u = some i →
      i.op = .phi → ∀ t ∈ i.targets, t ∈ blk.preds) :
    g.EdgesSound b { blk with instrs := blk.instrs.filter (· ≠ u) } ↔ f.EdgesSound b blk := by
  have hsuccs : ∀ s, (∃ t, g.block? s = some t ∧ b ∈ t.preds) ↔ ∃ t, f.block? s = some t ∧ b ∈ t.preds := by
    intro s
    rw [h.block]
    cases f.block? s <;> simp
  have hpreds : ∀ s, (∃ t, g.block? s = some t ∧ b ∈ t.succs) ↔ ∃ t, f.block? s = some t ∧ b ∈ t.succs := by
    intro s
    rw [h.block]
    cases f.block? s <;> simp
  constructor
  · rintro ⟨h1, h2, h3⟩
    refine ⟨fun s hs => (hsuccs s).mp (h1 s hs), fun s hs => (hpreds s).mp (h2 s hs), ?_⟩
    intro id hid i hi hop
    by_cases he : id = u
    · subst he
      exact hu hid i hi hop
    · exact h3 id (by simp [hid, he]) i (by rw [h.instr id he, hi]) hop
  · rintro ⟨h1, h2, h3⟩
    refine ⟨fun s hs => (hsuccs s).mpr (h1 s hs), fun s hs => (hpreds s).mpr (h2 s hs), ?_⟩
    intro id hid i hi hop
    simp only [List.mem_filter, decide_eq_true_eq] at hid
    exact h3 id hid.1 i (by rw [← h.instr id hid.2, hi]) hop

theorem precedes (hg : g.WellFormed scope) (hf : f.WellFormed scope) {a c x y : Int}
    (ha : g.Stands x a) (hc : g.Stands y c) : g.Precedes d a c ↔ f.Precedes d a c := by
  obtain ⟨x, rfl, _⟩ := ha.nat
  obtain ⟨y, rfl, _⟩ := hc.nat
  obtain ⟨hfa, hau⟩ := h.stands.mp ha
  obtain ⟨⟨blk, hblk, hmem⟩, hcu⟩ := h.stands.mp hc
  have hgblk := h.block y
  rw [hblk] at hgblk
  have hgmem : c ∈ blk.instrs.filter (· ≠ u) := by simp [hmem, hcu]
  rw [hg.precedes_iff ha hgblk hgmem, hf.precedes_iff hfa hblk hmem]
  rw [pair_sublist_filter hau hcu]

theorem hasDominance_of (hg : g.WellFormed scope) (hf : f.HasDominance scope d) :
    g.HasDominance scope d := by
  refine ⟨hg, ?_⟩
  rw [hg.compute_eq, h.graph, h.entryNode, ← hf.wf.compute_eq]
  exact hf.computed

/-- Without an instruction that nothing uses and that ends no block, a function stays sound. -/
theorem wellFormed_without (hf : f.WellFormed scope) (hterm : (f.opOf u).isTerminator = false)
    (hunused : f.Unused u) : g.WellFormed scope := by
  refine ⟨?_, fun b gblk hgblk => ?_⟩
  · obtain ⟨e, blk, he, hblk, hpreds⟩ := hf.entry
    refine ⟨e, { blk with instrs := blk.instrs.filter (· ≠ u) }, h.entry.trans he, ?_, hpreds⟩
    rw [h.block, hblk]
    rfl
  · rw [h.block] at hgblk
    obtain ⟨blk, hblk, rfl⟩ := Option.map_eq_some_iff.mp hgblk
    have hsound := hf.block b blk hblk
    obtain ⟨phis, mid, t, hl⟩ := hsound.body.layout hsound.ne_nil
    have htu : t ≠ u := by
      rintro rfl
      rw [hl.ends] at hterm
      cases hterm
    have hlayout : g.Layout (blk.instrs.filter (· ≠ u)) (phis.filter (· ≠ u)) (mid.filter (· ≠ u)) t := by
      refine ⟨by simp [hl.eq, htu], fun x hx => ?_, fun x hx => ?_, ?_⟩
      · simp only [List.mem_filter, decide_eq_true_eq] at hx
        rw [h.opOf hx.2]
        exact hl.phis x hx.1
      · simp only [List.mem_filter, decide_eq_true_eq] at hx
        rw [h.opOf hx.2]
        exact hl.mid x hx.1
      · rw [h.opOf htu]
        exact hl.ends
    refine ⟨by rw [hlayout.eq]; simp, ?_, (h.edges ?_).mpr hsound.edges⟩
    · refine hlayout.bodySound (hsound.body.nodup.filter _) fun id hid => ?_
      simp only [List.mem_filter, decide_eq_true_eq] at hid
      obtain ⟨i, hi, hhome, hrefs⟩ := hsound.body.member id hid.1
      refine ⟨i, by rw [h.instr id hid.2, hi], hhome, (h.references ?_).mpr hrefs⟩
      exact hunused b id i ⟨blk, hblk, hid.1⟩ hid.2 hi
    · intro hmem i hi hop
      exact hsound.edges.incoming u hmem i hi hop

theorem inSsaForm_without {counts : Nat → Prop} (hg : g.WellFormed scope) (hf : f.WellFormed scope)
    (hunused : f.Unused u) (hssa : f.InSsaForm d counts) : g.InSsaForm d counts where
  uses := by
    intro b id i v hreach hb hi hop hv
    obtain ⟨hfb, hid⟩ := h.stands.mp hb
    rw [h.instr id hid] at hi
    have hvu : v ≠ u := by
      rintro rfl
      exact hunused b id i hfb hid hi hv
    obtain ⟨hc, hprec⟩ := hssa.uses b id i v hreach hfb hi hop hv
    have hgc := (h.computes hvu).mpr hc
    obtain ⟨y, hy⟩ := hgc.1
    exact ⟨hgc, (h.precedes hg hf hy hb).mpr hprec⟩
  incoming := by
    intro b id i n v p t hb hi hop hv ht hcounts hterm
    obtain ⟨hfb, hid⟩ := h.stands.mp hb
    rw [h.instr id hid] at hi
    have hvu : v ≠ u := by
      rintro rfl
      exact hunused b id i hfb hid hi (List.mem_of_getElem? hv)
    obtain ⟨hgt, htop⟩ := hg.terminator_iff.mp hterm
    obtain ⟨hft, htu⟩ := h.stands.mp hgt
    rw [h.opOf htu] at htop
    obtain ⟨hc, hprec⟩ := hssa.incoming b id i n v p t hfb hi hop hv ht hcounts
      (hf.terminator_iff.mpr ⟨hft, htop⟩)
    have hgc := (h.computes hvu).mpr hc
    obtain ⟨y, hy⟩ := hgc.1
    exact ⟨hgc, (h.precedes hg hf hy hgt).mpr hprec⟩

end

end Adds

/-- The function `f` is `g` with a new instruction between `l` and `r` in block `b`: among the phis
if it is one, behind them if not, and not at the end. -/
structure Inserts (g : Func) (u : Int) (f : Func) (b : Int) (l r : List Int) (i : Instr) : Prop
    extends g.Adds u f where
  fresh : g.instr? u = none
  instr_eq : f.instr? u = some i
  home : i.home = some b
  body : f.bodyOf b = l ++ u :: r
  once : u ∉ l ++ r
  only : ∀ c, f.Stands c u → c = b
  more : r ≠ []
  phi : i.op = .phi → ∀ x ∈ l, g.opOf x = .phi
  not_phi : i.op ≠ .phi → ∀ x ∈ r, g.opOf x ≠ .phi
  not_terminator : i.op.isTerminator = false

namespace Inserts

variable {scope : Option Symbols} {g f : Func} {u b : Int} {l r : List Int} {i : Instr} {d : DomInfo}
  (h : g.Inserts u f b l r i)

include h

theorem stands_self : f.Stands b u := stands_iff.mpr (by simp [h.body])

theorem computes_self : f.Computes u :=
  ⟨⟨b, h.stands_self⟩, by rw [opOf_eq h.instr_eq, h.not_terminator]⟩

theorem unused (hg : g.WellFormed scope) : f.Unused u := by
  intro c id j hc hid hj hmem
  have hgc := h.stands.mpr ⟨hc, hid⟩
  have hlive := (hg.references hgc ((h.instr id hid).trans hj)).operands _ hmem
  simp [Resolves, Func.isLive, h.fresh] at hlive

theorem body_without : g.bodyOf b = l ++ r := by
  rw [h.bodyOf, h.body, List.filter_append, List.filter_cons_of_neg (by simp),
    filter_ne_of_notMem fun hl => h.once (List.mem_append_left _ hl),
    filter_ne_of_notMem fun hr => h.once (List.mem_append_right _ hr)]

theorem opOf_self : f.opOf u = i.op := opOf_eq h.instr_eq

/-- The instructions around the new one keep their order. -/
theorem phis_first (hg : g.BodySound scope b (l ++ r)) :
    (l ++ u :: r).Pairwise fun x y => f.opOf y = .phi → f.opOf x = .phi := by
  have hsame : ∀ x ∈ l ++ r, g.opOf x = f.opOf x := fun x hx => h.opOf (by
    rintro rfl
    exact h.once hx)
  obtain ⟨hl, hr, hlr⟩ := List.pairwise_append.mp
    (hg.phis_first.imp_of_mem fun hx hy hp => by rwa [hsame _ hx, hsame _ hy] at hp)
  refine List.pairwise_append.mpr ⟨hl, List.pairwise_cons.mpr ⟨fun y hy hphi => ?_, hr⟩, ?_⟩
  · rw [h.opOf_self]
    by_contra hne
    refine h.not_phi hne y hy ?_
    rw [hsame y (List.mem_append_right _ hy), hphi]
  · intro x hx y hy hphi
    rcases List.mem_cons.mp hy with rfl | hy
    · rw [h.opOf_self] at hphi
      rw [← hsame x (List.mem_append_left _ hx)]
      exact h.phi hphi x hx
    · exact hlr x hx y hy hphi

theorem terminator_last (hg : g.BodySound scope b (l ++ r)) (l' : List Int) (x : Int) (r' : List Int)
    (he : l ++ u :: r = l' ++ x :: r') : (f.opOf x).isTerminator = true ↔ r' = [] := by
  rcases List.append_eq_append_iff.mp he with ⟨m, rfl, hm⟩ | ⟨m, rfl, hm⟩
  · cases m with
    | nil =>
      cases hm
      simp [h.opOf_self, h.not_terminator, h.more]
    | cons y m =>
      cases hm
      have hx : x ≠ u := by
        rintro rfl
        exact h.once (by simp)
      rw [← h.opOf hx]
      exact hg.ends (l ++ m) x r' (by simp)
  · cases m with
    | nil =>
      cases hm
      simp [h.opOf_self, h.not_terminator, h.more]
    | cons y m =>
      cases hm
      have hx : x ≠ u := by
        rintro rfl
        exact h.once (by simp)
      rw [← h.opOf hx, hg.ends l' x (m ++ r) (by simp)]
      simp [h.more]

theorem member (hg : g.WellFormed scope) (hrefs : f.References scope i) {c id : Int}
    (hc : f.Stands c id) : ∃ j, f.instr? id = some j ∧ j.home = some c ∧ f.References scope j := by
  by_cases hid : id = u
  · subst hid
    exact ⟨i, h.instr_eq, h.only c hc ▸ h.home, hrefs⟩
  · obtain ⟨j, hj, hhome, hrefs⟩ := hg.home_of_stands (h.stands.mpr ⟨hc, hid⟩)
    rw [h.instr id hid] at hj
    exact ⟨j, hj, hhome, (h.references (h.unused hg c id j hc hid hj)).mp hrefs⟩

theorem bodySound (hg : g.WellFormed scope) (hrefs : f.References scope i) {c : Int} {blk : Block}
    (hblk : f.block? c = some blk) : f.BodySound scope c blk.instrs := by
  have hmember : ∀ id ∈ blk.instrs, _ := fun id hid => h.member hg hrefs ⟨blk, hblk, hid⟩
  have hgblk := h.block c
  rw [hblk, Option.map_some] at hgblk
  have hbody := (hg.block c _ hgblk).body
  by_cases hcb : c = b
  · subst hcb
    have hinstrs : blk.instrs = l ++ u :: r := by rw [← h.body]; simp [Func.bodyOf, hblk]
    have hbody : g.BodySound scope c (l ++ r) := by
      rw [← h.body_without]
      simpa [Func.bodyOf, hgblk] using hbody
    refine ⟨?_, hmember, ?_, ?_⟩
    · rw [hinstrs, List.nodup_middle, List.nodup_cons]
      exact ⟨h.once, hbody.nodup⟩
    · rw [hinstrs]
      exact h.phis_first hbody
    · rw [hinstrs]
      exact h.terminator_last hbody
  · -- The new instruction stands in no other block.
    have hnot : u ∉ blk.instrs := fun hmem => hcb (h.only c ⟨blk, hblk, hmem⟩)
    rw [filter_ne_of_notMem hnot] at hbody
    have hsame : ∀ x ∈ blk.instrs, g.opOf x = f.opOf x := fun x hx => h.opOf (by
      rintro rfl
      exact hnot hx)
    refine ⟨hbody.nodup, hmember, ?_, fun l' x r' he => ?_⟩
    · exact hbody.phis_first.imp_of_mem fun hx hy hp => by rwa [hsame _ hx, hsame _ hy] at hp
    · rw [← hsame x (by simp [he])]
      exact hbody.ends l' x r' he

theorem wellFormed (hg : g.WellFormed scope) (hrefs : f.References scope i)
    (hedges : i.op = .phi → ∀ blk, g.block? b = some blk → ∀ t ∈ i.targets, t ∈ blk.preds) :
    f.WellFormed scope := by
  refine ⟨?_, fun c blk hblk => ⟨?_, h.bodySound hg hrefs hblk, ?_⟩⟩
  · obtain ⟨e, gblk, he, hgblk, hpreds⟩ := hg.entry
    rw [h.block] at hgblk
    obtain ⟨blk, hblk, rfl⟩ := Option.map_eq_some_iff.mp hgblk
    exact ⟨e, blk, h.entry ▸ he, hblk, hpreds⟩
  all_goals
    have hgblk := h.block c
    rw [hblk, Option.map_some] at hgblk
    have hsound := hg.block c _ hgblk
  · intro hnil
    exact hsound.ne_nil (by simp [hnil])
  · refine (h.edges fun hmem j hj hop t ht => ?_).mp hsound.edges
    obtain rfl := h.only c ⟨blk, hblk, hmem⟩
    rw [h.instr_eq] at hj
    cases hj
    exact hedges hop _ hgblk t ht

/-- With an instruction whose operands are computed before it a function stays in SSA form. -/
theorem inSsaForm {counts : Nat → Prop} (hg : g.WellFormed scope) (hf : f.WellFormed scope)
    (hssa : g.InSsaForm d counts)
    (huses : ∀ n : Nat, b = n → d.dom.isReachable n = true → i.op ≠ .phi → ∀ v,
      Value.instr v ∈ i.operands → f.Computes v ∧ f.Precedes d v u)
    (hincoming : i.op = .phi → ∀ (n : Nat) v (p : Nat) t, i.operands[n]? = some (.instr v) →
      i.targets[n]? = some (p : Int) → counts p → f.terminator p = .ok (some t) →
        f.Computes v ∧ f.Precedes d v t) : f.InSsaForm d counts where
  uses := by
    intro c id j v hreach hc hj hop hv
    by_cases hid : id = u
    · subst hid
      rw [h.instr_eq] at hj
      cases hj
      exact huses c (h.only c hc).symm hreach hop v hv
    · have hgc := h.stands.mpr ⟨hc, hid⟩
      -- Nothing but the new instruction can be there in one function and missing in the other, and
      -- it has no uses.
      have hvu : v ≠ u := by
        rintro rfl
        exact h.unused hg c id j hc hid hj hv
      rw [← h.instr id hid] at hj
      obtain ⟨hcomp, hprec⟩ := hssa.uses c id j v hreach hgc hj hop hv
      obtain ⟨y, hy⟩ := hcomp.1
      exact ⟨(h.computes hvu).mp hcomp, (h.precedes hg hf hy hgc).mp hprec⟩
  incoming := by
    intro c id j n v p t hc hj hop hv ht hcounts hterm
    by_cases hid : id = u
    · subst hid
      rw [h.instr_eq] at hj
      cases hj
      exact hincoming hop n v p t hv ht hcounts hterm
    · have hgc := h.stands.mpr ⟨hc, hid⟩
      have hvu : v ≠ u := by
        rintro rfl
        exact h.unused hg c id j hc hid hj (List.mem_of_getElem? hv)
      rw [← h.instr id hid] at hj
      obtain ⟨hft, htop⟩ := hf.terminator_iff.mp hterm
      have htu : t ≠ u := by
        rintro rfl
        rw [h.opOf_self, h.not_terminator] at htop
        cases htop
      have hgt := h.stands.mpr ⟨hft, htu⟩
      obtain ⟨hcomp, hprec⟩ := hssa.incoming c id j n v p t hgc hj hop hv ht hcounts
        (hg.terminator_iff.mpr ⟨hgt, by rw [h.opOf htu, htop]⟩)
      obtain ⟨y, hy⟩ := hcomp.1
      exact ⟨(h.computes hvu).mp hcomp, (h.precedes hg hf hy hgt).mp hprec⟩

section Order

variable {n : Nat} (hn : b = n)

include hn

theorem exists_block : ∃ blk, f.block? n = some blk ∧ blk.instrs = l ++ u :: r := by
  subst hn
  obtain ⟨blk, hblk, _⟩ := h.stands_self
  exact ⟨blk, hblk, by rw [← h.body]; simp [Func.bodyOf, hblk]⟩

variable (hf : f.WellFormed scope)

include hf

theorem self_precedes {x : Int} {y : Nat} (hx : f.Stands y x) :
    f.Precedes d u x ↔ n ≠ y ∧ d.dom.dominates n y = true ∨ n = y ∧ x ∈ r := by
  obtain ⟨blk, hblk, hinstrs⟩ := h.exists_block hn
  obtain ⟨yblk, hyblk, hmem⟩ := hx
  rw [hf.precedes_iff (hn ▸ h.stands_self) hyblk hmem]
  refine or_congr_right (and_congr_right ?_)
  rintro rfl
  rw [hblk] at hyblk
  cases hyblk
  have hnodup := (hf.block _ _ hblk).body.nodup
  rw [hinstrs] at hnodup ⊢
  exact pair_sublist_iff_mem_right hnodup

theorem precedes_self {x : Int} {y : Nat} (hx : f.Stands y x) :
    f.Precedes d x u ↔ y ≠ n ∧ d.dom.dominates y n = true ∨ y = n ∧ x ∈ l := by
  obtain ⟨blk, hblk, hinstrs⟩ := h.exists_block hn
  rw [hf.precedes_iff hx hblk (by simp [hinstrs])]
  refine or_congr_right (and_congr_right ?_)
  rintro rfl
  have hnodup := (hf.block _ _ hblk).body.nodup
  rw [hinstrs] at hnodup ⊢
  exact pair_sublist_iff_mem_left hnodup

end Order

end Inserts

end RegPressure.Func
