import RegPressure.Proofs.Graph.Dominance
import RegPressure.Proofs.IR.Structure

namespace RegPressure

theorem idxOf_lt_idxOf_iff {l : List Int} (hl : l.Nodup) {a b : Int} (hb : b ∈ l) :
    l.idxOf a < l.idxOf b ↔ [a, b].Sublist l := by
  constructor
  · intro h
    have ha : a ∈ l := List.idxOf_lt_length_iff.mp
      (Nat.lt_trans h (List.idxOf_lt_length_iff.mpr hb))
    obtain ⟨s, t, rfl⟩ := List.append_of_mem ha
    have hbs : b ∉ s := by
      intro hbs
      have has : a ∉ s := fun has => List.disjoint_of_nodup_append hl has (List.mem_cons_self ..)
      rw [List.idxOf_append_of_mem hbs, List.idxOf_append_of_notMem has] at h
      have := List.idxOf_lt_length_iff.mpr hbs
      omega
    have hne : b ≠ a := by
      rintro rfl
      omega
    have hbt : b ∈ t := by
      rcases List.mem_append.mp hb with hb | hb
      · exact absurd hb hbs
      · exact (List.mem_cons.mp hb).resolve_left hne
    exact (List.Sublist.cons_cons a (List.singleton_sublist.mpr hbt)).trans
      (List.sublist_append_right _ _)
  · intro h
    obtain ⟨s, t, rfl, ha, hb⟩ := List.cons_sublist_iff.mp h
    have hbt : b ∈ t := List.singleton_sublist.mp hb
    have hbs : b ∉ s := fun hs => List.disjoint_of_nodup_append hl hs hbt
    rw [List.idxOf_append_of_mem ha, List.idxOf_append_of_notMem hbs]
    exact Nat.lt_of_lt_of_le (List.idxOf_lt_length_iff.mpr ha) (Nat.le_add_right _ _)

theorem pair_sublist_of_sublist {l k : List Int} (hl : l.Nodup) (hk : k.Sublist l) {a b : Int}
    (ha : a ∈ k) (hb : b ∈ k) (h : [a, b].Sublist l) : [a, b].Sublist k := by
  have hkn : k.Nodup := hl.sublist hk
  have hlt := (idxOf_lt_idxOf_iff hl (hk.subset hb)).mpr h
  rw [← idxOf_lt_idxOf_iff hkn hb]
  by_contra hle
  rcases Nat.lt_or_eq_of_le (Nat.not_lt.mp hle) with hba | he
  · have hsub := (idxOf_lt_idxOf_iff hkn ha).mp hba
    have := (idxOf_lt_idxOf_iff hl (hk.subset ha)).mpr (hsub.trans hk)
    omega
  · rw [(List.idxOf_inj hb).mp he] at hlt
    omega

namespace Func

variable {scope : Option Symbols} {f : Func}

/-- The instruction stands in block `b`. -/
def Stands (f : Func) (b id : Int) : Prop := ∃ blk, f.block? b = some blk ∧ id ∈ blk.instrs

def bodyOf (f : Func) (b : Int) : List Int := ((f.block? b).map (·.instrs)).getD []

theorem stands_iff {b id : Int} : f.Stands b id ↔ id ∈ f.bodyOf b := by
  unfold Stands bodyOf
  cases f.block? b <;> simp

def Belongs (f : Func) (b id : Int) : Prop := ∃ i, f.instr? id = some i ∧ i.home = some b

theorem Belongs.unique {b c id : Int} (hb : f.Belongs b id) (hc : f.Belongs c id) : b = c := by
  obtain ⟨i, hi, hb⟩ := hb
  obtain ⟨j, hj, hc⟩ := hc
  cases hi.symm.trans hj
  cases hb.symm.trans hc
  rfl

theorem exists_block_of_lt {n : Nat} (hn : n < f.blocks.size) : ∃ blk, f.block? n = some blk :=
  ⟨_, block?_ofNat.trans (Array.getElem?_eq_getElem hn)⟩

/-- What stands in some block is what the blocks list. -/
theorem mem_flatMap_instrs {id : Int} :
    id ∈ f.blocks.toList.flatMap (·.instrs) ↔ ∃ b, f.Stands b id := by
  rw [List.mem_flatMap]
  constructor
  · rintro ⟨blk, hblk, hid⟩
    obtain ⟨n, hn, rfl⟩ := Array.mem_iff_getElem.mp (Array.mem_toList_iff.mp hblk)
    exact ⟨n, _, block?_ofNat.trans (Array.getElem?_eq_getElem hn), hid⟩
  · rintro ⟨b, blk, hblk, hid⟩
    obtain ⟨n, rfl, hn⟩ := block?_eq_some.mp hblk
    exact ⟨blk, Array.mem_toList_iff.mpr (Array.mem_of_getElem? hn), hid⟩

theorem mem_placed {l : List (Int × Instr)} (h : f.placed = .ok l) {x : Int × Instr} (hx : x ∈ l) :
    f.instr? x.1 = some x.2 ∧ ∃ b, f.Stands b x.1 := by
  obtain ⟨id, hid, he⟩ := Checked.mem_of_mapM h hx
  simp only [Checked.bind_eq_ok, Checked.pure_eq_ok, cell_eq_ok] at he
  obtain ⟨i, hi, rfl⟩ := he
  exact ⟨hi, mem_flatMap_instrs.mp hid⟩

theorem mem_placed_of_stands {l : List (Int × Instr)} (h : f.placed = .ok l) {b id : Int} {i : Instr}
    (hs : f.Stands b id) (hi : f.instr? id = some i) : (id, i) ∈ l := by
  obtain ⟨x, hx, he⟩ := Checked.ok_of_mapM h (mem_flatMap_instrs.mpr ⟨b, hs⟩)
  simp only [cell_eq_ok.mpr hi, Checked.ok_bind, Checked.pure_eq_ok] at he
  rwa [he]

theorem WellFormed.bodyOf_nodup (h : f.WellFormed scope) (b : Int) : (f.bodyOf b).Nodup := by
  unfold bodyOf
  cases hb : f.block? b with
  | none => exact List.nodup_nil
  | some blk => exact (h.block b blk hb).body.nodup

theorem WellFormed.home_of_stands (h : f.WellFormed scope) {b id : Int} (hs : f.Stands b id) :
    ∃ i, f.instr? id = some i ∧ i.home = some b ∧ f.References scope i := by
  obtain ⟨blk, hblk, hid⟩ := hs
  exact (h.block b blk hblk).body.member id hid

theorem WellFormed.belongs (h : f.WellFormed scope) {b id : Int} (hs : f.Stands b id) :
    f.Belongs b id := by
  obtain ⟨i, hi, hhome, -⟩ := h.home_of_stands hs
  exact ⟨i, hi, hhome⟩

theorem WellFormed.home_eq (h : f.WellFormed scope) {b id : Int} {i : Instr} (hs : f.Stands b id)
    (hi : f.instr? id = some i) : i.home = some b := by
  obtain ⟨j, hj, hhome, _⟩ := h.home_of_stands hs
  rw [hi] at hj
  cases hj
  exact hhome

theorem WellFormed.references (h : f.WellFormed scope) {b id : Int} {i : Instr}
    (hs : f.Stands b id) (hi : f.instr? id = some i) : f.References scope i := by
  obtain ⟨j, hj, _, hrefs⟩ := h.home_of_stands hs
  rw [hi] at hj
  cases hj
  exact hrefs

theorem WellFormed.resolves_of_stands (h : f.WellFormed scope) {b id : Int} (hs : f.Stands b id) :
    f.Resolves scope (.instr id) := by
  obtain ⟨i, hi, hhome, -⟩ := h.home_of_stands hs
  simp [Resolves, isLive, hi, Instr.isErased, hhome]

theorem WellFormed.stands_unique (h : f.WellFormed scope) {b c id : Int} (hb : f.Stands b id)
    (hc : f.Stands c id) : b = c := by
  obtain ⟨i, hi, hhome, _⟩ := h.home_of_stands hb
  have hhome' := h.home_eq hc hi
  rw [hhome] at hhome'
  cases hhome'
  rfl

theorem Stands.nat {b id : Int} (h : f.Stands b id) : ∃ n : Nat, b = n ∧ n < f.blocks.size := by
  obtain ⟨blk, hblk, _⟩ := h
  obtain ⟨n, rfl, hn⟩ := block?_eq_some.mp hblk
  exact ⟨n, rfl, (Array.getElem?_eq_some_iff.mp hn).1⟩

theorem graph_size : f.graph.size = f.blocks.size := by simp [graph, Digraph.size]

theorem node_eq_ok {b : Int} {n : Nat} :
    f.graph.node b = .ok n ↔ b = n ∧ n < f.blocks.size := by
  simp only [Digraph.node, Digraph.nodeBelow, graph_size, Bool.and_eq_true, decide_eq_true_eq]
  constructor
  · intro h
    split at h
    · cases h
      omega
    · cases h
  · rintro ⟨rfl, hn⟩
    rw [if_pos ⟨by omega, by omega⟩, Int.toNat_natCast]

theorem mem_graph_succ {a b : Nat} :
    b ∈ f.graph.succ a ↔ ∃ blk, f.block? a = some blk ∧ b ∈ blk.succs.map Int.toNat := by
  rw [block?_ofNat]
  simp only [graph, Digraph.succ, Array.getD_eq_getD_getElem?, Array.getElem?_map]
  cases f.blocks[a]? <;> simp

theorem mem_graph_pred {a b : Nat} :
    a ∈ f.graph.pred b ↔ ∃ blk, f.block? b = some blk ∧ a ∈ blk.preds.map Int.toNat := by
  rw [block?_ofNat]
  simp only [graph, Digraph.pred, Array.getD_eq_getD_getElem?, Array.getElem?_map]
  cases f.blocks[b]? <;> simp

theorem WellFormed.mem_succ (h : f.WellFormed scope) {a b : Nat} :
    b ∈ f.graph.succ a ↔ ∃ blk, f.block? a = some blk ∧ (b : Int) ∈ blk.succs := by
  rw [mem_graph_succ]
  refine exists_congr fun blk => and_congr_right fun hblk => ?_
  rw [List.mem_map]
  constructor
  · rintro ⟨s, hs, rfl⟩
    obtain ⟨t, ht, _⟩ := (h.block _ _ hblk).edges.succs s hs
    obtain ⟨n, rfl, _⟩ := block?_eq_some.mp ht
    exact hs
  · exact fun hb => ⟨b, hb, rfl⟩

theorem WellFormed.mem_pred (h : f.WellFormed scope) {a b : Nat} :
    a ∈ f.graph.pred b ↔ ∃ blk, f.block? b = some blk ∧ (a : Int) ∈ blk.preds := by
  rw [mem_graph_pred]
  refine exists_congr fun blk => and_congr_right fun hblk => ?_
  rw [List.mem_map]
  constructor
  · rintro ⟨s, hs, rfl⟩
    obtain ⟨t, ht, _⟩ := (h.block _ _ hblk).edges.preds s hs
    obtain ⟨n, rfl, _⟩ := block?_eq_some.mp ht
    exact hs
  · exact fun hb => ⟨a, hb, rfl⟩

theorem WellFormed.mirrored (h : f.WellFormed scope) : f.graph.Mirrored where
  succ_lt := by
    intro a b hb
    obtain ⟨blk, hblk, hs⟩ := h.mem_succ.mp hb
    obtain ⟨t, ht, _⟩ := (h.block _ _ hblk).edges.succs b hs
    rw [block?_ofNat] at ht
    rw [graph_size]
    exact (Array.getElem?_eq_some_iff.mp ht).1
  mem_pred := by
    intro a b
    rw [h.mem_succ, h.mem_pred]
    constructor
    · rintro ⟨blk, hblk, hp⟩
      obtain ⟨t, ht, hs⟩ := (h.block _ _ hblk).edges.preds a hp
      exact ⟨t, ht, hs⟩
    · rintro ⟨blk, hblk, hs⟩
      obtain ⟨t, ht, hp⟩ := (h.block _ _ hblk).edges.succs b hs
      exact ⟨t, ht, hp⟩

/-- The number of the entry block. -/
def entryNode (f : Func) : Nat := (f.entry.getD 0).toNat

theorem WellFormed.entry_eq (h : f.WellFormed scope) :
    f.entry = some (f.entryNode : Int) ∧ f.entryNode < f.graph.size := by
  obtain ⟨e, blk, he, hblk, _⟩ := h.entry
  obtain ⟨n, rfl, hn⟩ := block?_eq_some.mp hblk
  have hlt := (Array.getElem?_eq_some_iff.mp hn).1
  simp [entryNode, he, graph_size, hlt]

/-- Well-formed functions have dominance trees. -/
theorem WellFormed.compute_eq (h : f.WellFormed scope) :
    DomInfo.compute f = .ok ⟨f.graph.dominators f.entryNode, f.graph.postDominators⟩ := by
  obtain ⟨he, hlt⟩ := h.entry_eq
  exact DomInfo.compute_eq_ok he hlt

/-- The dominance trees of a well-formed function. -/
structure HasDominance (scope : Option Symbols) (f : Func) (d : DomInfo) : Prop where
  wf : f.WellFormed scope
  computed : DomInfo.compute f = .ok d

variable {d : DomInfo}

theorem HasDominance.eq (h : f.HasDominance scope d) :
    d = ⟨f.graph.dominators f.entryNode, f.graph.postDominators⟩ := by
  have := h.wf.compute_eq.symm.trans h.computed
  cases this
  rfl

theorem HasDominance.dominates_iff (h : f.HasDominance scope d) {a b : Nat} :
    d.dom.dominates a b = true ↔ Dominates f.graph.succ f.entryNode a b := by
  rw [h.eq]
  exact DomTree.dominates_iff h.wf.mirrored h.wf.entry_eq.2

theorem HasDominance.isReachable_iff (h : f.HasDominance scope d) {b : Nat} :
    d.dom.isReachable b = true ↔ Reaches f.graph.succ f.entryNode b := by
  rw [h.eq]
  exact DomTree.isReachable_iff (DomTree.compute_spec h.wf.mirrored h.wf.entry_eq.2)

theorem HasDominance.exists_block (h : f.HasDominance scope d) {a b : Nat}
    (hd : d.dom.dominates a b = true) : ∃ blk, f.block? a = some blk := by
  obtain ⟨l, w⟩ := (h.dominates_iff.mp hd).reaches_left
  have hlt := w.lt h.wf.mirrored.succ_lt h.wf.entry_eq.2 a w.end_mem
  rw [graph_size] at hlt
  exact ⟨f.blocks[a], by rw [block?_ofNat, Array.getElem?_eq_getElem hlt]⟩

/-- Instruction `a` runs before every run of `b`. -/
def Precedes (f : Func) (d : DomInfo) (a b : Int) : Prop := d.instrDominates f a b = .ok true

theorem indexOf_of_home {b id : Int} {i : Instr} {blk : Block} (hi : f.instr? id = some i)
    (hhome : i.home = some b) (hblk : f.block? b = some blk) (hid : id ∈ blk.instrs) :
    f.indexOf id = .ok (blk.instrs.idxOf id) := by
  have hidx : blk.instrs.idxOf? id = some (blk.instrs.idxOf id) := by
    have hlt := List.idxOf_lt_length_iff.mpr hid
    rw [List.idxOf?_eq_some_iff]
    refine ⟨hlt, by simp, fun j hj => ?_⟩
    simpa using List.not_of_lt_findIdx hj
  simp [indexOf, instr_eq_ok.mpr hi, hhome, block_eq_ok.mpr hblk, hidx]

theorem WellFormed.indexOf_eq (h : f.WellFormed scope) {b id : Int} {blk : Block}
    (hblk : f.block? b = some blk) (hid : id ∈ blk.instrs) :
    f.indexOf id = .ok (blk.instrs.idxOf id) := by
  obtain ⟨i, hi, hhome, _⟩ := h.home_of_stands ⟨blk, hblk, hid⟩
  exact indexOf_of_home hi hhome hblk hid

/-- The order of two instructions that stand somewhere, in terms of blocks and lists. -/
theorem WellFormed.instrDominates_eq (h : f.WellFormed scope) {a b : Int} {x y : Nat}
    (ha : f.Stands x a) {blk : Block} (hblk : f.block? y = some blk) (hb : b ∈ blk.instrs) :
    d.instrDominates f a b = .ok (if x = y then decide (blk.instrs.idxOf a < blk.instrs.idxOf b)
      else d.dom.strictlyDominates x y) := by
  obtain ⟨i, hi, hhome, _⟩ := h.home_of_stands ha
  obtain ⟨j, hj, hhome', _⟩ := h.home_of_stands ⟨blk, hblk, hb⟩
  by_cases hxy : x = y
  · subst hxy
    obtain ⟨blk', hblk', ha⟩ := ha
    rw [hblk] at hblk'
    cases hblk'
    simp [DomInfo.instrDominates, instr_eq_ok.mpr hi, instr_eq_ok.mpr hj, hhome, hhome',
      h.indexOf_eq hblk ha, h.indexOf_eq hblk hb]
  · have hne : (x : Int) ≠ y := by omega
    simp [DomInfo.instrDominates, instr_eq_ok.mpr hi, instr_eq_ok.mpr hj, hhome, hhome', hxy, hne]

theorem WellFormed.precedes_iff (h : f.WellFormed scope) {a b : Int} {x y : Nat}
    (ha : f.Stands x a) {blk : Block} (hblk : f.block? y = some blk) (hb : b ∈ blk.instrs) :
    f.Precedes d a b ↔ x ≠ y ∧ d.dom.dominates x y = true ∨ x = y ∧ [a, b].Sublist blk.instrs := by
  rw [Precedes, h.instrDominates_eq ha hblk hb]
  by_cases hxy : x = y
  · subst hxy
    simp [idxOf_lt_idxOf_iff (h.block _ _ hblk).body.nodup hb]
  · simp [hxy, DomTree.strictlyDominates]

theorem indexOf_eq_ok {b id : Int} {n : Nat} (h : f.Belongs b id) :
    f.indexOf id = .ok n ↔ id ∈ f.bodyOf b ∧ (f.bodyOf b).idxOf id = n := by
  obtain ⟨i, hi, hhome⟩ := h
  cases hblk : f.block? b with
  | none =>
    simp [bodyOf, indexOf, instr_eq_ok.mpr hi, hhome, block, hblk]
  | some blk =>
    have hbody : f.bodyOf b = blk.instrs := by simp [bodyOf, hblk]
    rw [hbody]
    by_cases hid : id ∈ blk.instrs
    · simp [indexOf_of_home hi hhome hblk hid, hid]
    · have hidx : blk.instrs.idxOf? id = none := by simpa [List.idxOf?_eq_none_iff] using hid
      simp [indexOf, instr_eq_ok.mpr hi, hhome, block_eq_ok.mpr hblk, hidx, hid]

theorem Precedes.belongs {a b : Int} (h : f.Precedes d a b) :
    ∃ x y, f.Belongs x a ∧ f.Belongs y b := by
  simp only [Precedes, DomInfo.instrDominates, Checked.bind_eq_ok, instr_eq_ok] at h
  obtain ⟨i, hi, j, hj, h⟩ := h
  split at h
  · next x y hx hy => exact ⟨x, y, ⟨i, hi, hx⟩, j, hj, hy⟩
  · cases h

/-- The order of two live instructions. One that its block does not list has none there. -/
theorem Belongs.precedes_iff {a b x y : Int} (ha : f.Belongs x a) (hb : f.Belongs y b)
    (hnodup : (f.bodyOf y).Nodup) :
    f.Precedes d a b ↔ (x ≠ y ∧ 0 ≤ x ∧ 0 ≤ y ∧ d.dom.strictlyDominates x.toNat y.toNat = true) ∨
      x = y ∧ [a, b].Sublist (f.bodyOf y) := by
  obtain ⟨i, hi, hx⟩ := id ha
  obtain ⟨j, hj, hy⟩ := id hb
  rw [Precedes, DomInfo.instrDominates, instr_eq_ok.mpr hi, Checked.ok_bind, instr_eq_ok.mpr hj,
    Checked.ok_bind, hx, hy]
  by_cases hxy : x = y
  · subst hxy
    simp only [ne_eq, not_true_eq_false, if_false, false_and, false_or, true_and, Checked.bind_eq_ok,
      Checked.pure_eq_ok, indexOf_eq_ok ha, indexOf_eq_ok hb, decide_eq_true_eq]
    constructor
    · rintro ⟨_, ⟨-, rfl⟩, _, ⟨hmem, rfl⟩, hlt⟩
      exact (idxOf_lt_idxOf_iff hnodup hmem).mp hlt
    · intro hsub
      have hmem : b ∈ f.bodyOf x := hsub.subset (by simp)
      exact ⟨_, ⟨hsub.subset (by simp), rfl⟩, _, ⟨hmem, rfl⟩,
        (idxOf_lt_idxOf_iff hnodup hmem).mpr hsub⟩
  · simp [hxy, and_assoc]

/-- Definitions dominate their uses. A phi uses its operands at the end of the incoming blocks;
`counts` tells which of these blocks are looked at. -/
structure DominatesUses (f : Func) (d : DomInfo) (counts : Nat → Prop) : Prop where
  uses : ∀ u i (a : Nat) v, f.instr? u = some i → i.home = some (a : Int) →
    d.dom.isReachable a = true → i.op ≠ .phi → Value.instr v ∈ i.operands → f.Precedes d v u
  incoming : ∀ u i (n : Nat) v (p : Nat) t, f.instr? u = some i → i.isErased = false →
    i.op = .phi → i.operands[n]? = some (.instr v) → i.targets[n]? = some (p : Int) →
      counts p → f.terminator p = .ok (some t) → f.Precedes d v t

def Computes (f : Func) (id : Int) : Prop :=
  (∃ b, f.Stands b id) ∧ (f.opOf id).isTerminator = false

/-- Definitions dominate their uses, and what is used is computed. That the uses are dominated does
not imply this: a block may use the terminator of an earlier one. -/
structure InSsaForm (f : Func) (d : DomInfo) (counts : Nat → Prop) : Prop where
  uses : ∀ (b : Nat) id i v, d.dom.isReachable b = true → f.Stands b id → f.instr? id = some i →
    i.op ≠ .phi → Value.instr v ∈ i.operands → f.Computes v ∧ f.Precedes d v id
  incoming : ∀ (b : Int) id i (n : Nat) v (p : Nat) t, f.Stands b id → f.instr? id = some i →
    i.op = .phi → i.operands[n]? = some (.instr v) → i.targets[n]? = some (p : Int) → counts p →
      f.terminator p = .ok (some t) → f.Computes v ∧ f.Precedes d v t

theorem InSsaForm.dominatesUses {counts : Nat → Prop} (hwf : f.WellFormed scope)
    (hssa : f.InSsaForm d counts)
    (hstands : ∀ id i, f.instr? id = some i → i.isErased = false → ∃ b, f.Stands b id) :
    f.DominatesUses d counts where
  uses u i a v hi hhome hreach hop hv := by
    obtain ⟨b, hb⟩ := hstands u i hi (by simp [Instr.isErased, hhome])
    cases hhome.symm.trans (hwf.home_eq hb hi)
    exact (hssa.uses a u i v hreach hb hi hop hv).2
  incoming u i n v p t hi hlive hop hv hp hcounts ht := by
    obtain ⟨b, hb⟩ := hstands u i hi hlive
    exact (hssa.incoming b u i n v p t hb hi hop hv hp hcounts ht).2

theorem stands_of_bodies (h : ∀ n < f.instrs.size, ∃ b < f.blocks.size, (n : Int) ∈ f.bodyOf b)
    (id : Int) (i : Instr) (hi : f.instr? id = some i) : ∃ b, f.Stands b id := by
  obtain ⟨hpos, hlt⟩ := lt_of_instr? hi
  obtain ⟨n, rfl⟩ := Int.eq_ofNat_of_zero_le hpos
  obtain ⟨b, -, hb⟩ := h n (Int.ofNat_lt.mp hlt)
  exact ⟨b, stands_iff.mpr hb⟩

/-! Whether a function is in SSA form can be computed. -/

instance {b id : Int} : Decidable (f.Stands b id) := decidable_of_iff _ stands_iff.symm

theorem computes_iff {id : Int} :
    f.Computes id ↔ (∃ b ∈ List.range f.blocks.size, f.Stands b id) ∧
      (f.opOf id).isTerminator = false := by
  refine and_congr_left fun _ => ⟨fun ⟨b, hb⟩ => ?_, fun ⟨b, _, hb⟩ => ⟨b, hb⟩⟩
  obtain ⟨n, rfl, hn⟩ := hb.nat
  exact ⟨n, List.mem_range.mpr hn, hb⟩

instance {id : Int} : Decidable (f.Computes id) := decidable_of_iff _ computes_iff.symm

instance {a b : Int} : Decidable (f.Precedes d a b) :=
  inferInstanceAs (Decidable (d.instrDominates f a b = .ok true))

theorem stands_of_terminator {b t : Int} (h : f.terminator b = .ok (some t)) : f.Stands b t := by
  simp only [terminator, Checked.bind_eq_ok, block_eq_ok] at h
  obtain ⟨blk, hblk, h⟩ := h
  cases hl : blk.instrs.getLast? with
  | none => simp [hl] at h
  | some x =>
    rw [hl] at h
    simp only [Checked.bind_eq_ok, Checked.pure_eq_ok, Option.ite_none_right_eq_some,
      Option.some.injEq] at h
    obtain ⟨_, _, _, rfl⟩ := h
    exact ⟨blk, hblk, List.mem_of_getLast? hl⟩

def instrOf? : Value → Option Int
  | .instr id => some id
  | _ => none

def usesHold (f : Func) (d : DomInfo) : Bool :=
  (List.range f.blocks.size).all fun b => !d.dom.isReachable b || (f.bodyOf b).all fun id =>
    (f.instr? id).toList.all fun i => i.op = .phi || (i.operands.filterMap instrOf?).all fun v =>
      f.Computes v ∧ f.Precedes d v id

def incomingHold (f : Func) (d : DomInfo) (counts : Nat → Prop) [DecidablePred counts] : Bool :=
  (List.range f.blocks.size).all fun b => (f.bodyOf b).all fun id =>
    (f.instr? id).toList.all fun i => i.op ≠ .phi || (i.operands.zip i.targets).all fun (x, p) =>
      !counts p.toNat || (instrOf? x).toList.all fun v => (f.bodyOf p).all fun t =>
        f.terminator p ≠ .ok (some t) || (f.Computes v ∧ f.Precedes d v t)

theorem inSsaForm_of_holds {counts : Nat → Prop} [DecidablePred counts]
    (hu : f.usesHold d = true) (hi : f.incomingHold d counts = true) : f.InSsaForm d counts where
  uses := by
    intro b id i v hreach hb hi hphi hv
    obtain ⟨n, hn, hlt⟩ := hb.nat
    cases hn
    simp only [usesHold, List.all_eq_true, List.mem_range, Bool.or_eq_true, Bool.not_eq_true',
      decide_eq_true_eq, Option.mem_toList, List.mem_filterMap] at hu
    have h := (hu b hlt).resolve_left (by simp [hreach]) id (stands_iff.mp hb) i hi
    exact h.resolve_left hphi v ⟨_, hv, rfl⟩
  incoming := by
    intro b id i n v p t hb hi' hphi hv hp hcounts ht
    obtain ⟨m, rfl, hlt⟩ := hb.nat
    simp only [incomingHold, List.all_eq_true, List.mem_range, Bool.or_eq_true, Bool.not_eq_true',
      decide_eq_true_eq, decide_eq_false_iff_not, Option.mem_toList, Prod.forall] at hi
    have h := (hi m hlt id (stands_iff.mp hb) i hi').resolve_left (not_not.mpr hphi)
    have hmem : (Value.instr v, (p : Int)) ∈ i.operands.zip i.targets := by
      refine List.mem_iff_getElem?.mpr ⟨n, ?_⟩
      rw [List.getElem?_zip_eq_some]
      exact ⟨hv, hp⟩
    have h := (h _ _ hmem).resolve_left (by simpa using hcounts) v rfl t
      (stands_iff.mp (stands_of_terminator ht))
    exact h.resolve_left (not_not.mpr ht)

end Func

end RegPressure
