import RegPressure.Proofs.IR.Update

namespace RegPressure

/-- The block without its edges. -/
def Block.bare (b : Block) : Block := { b with succs := [], preds := [] }

namespace Func

/-- The function without its edges. -/
def bare (f : Func) : Func := { f with blocks := f.blocks.map Block.bare }

variable {f g : Func} {b c t id : Int} {blk : Block} {bs ts : List Int}

theorem instr?_bare : f.bare.instr? id = f.instr? id := rfl

theorem block?_bare : f.bare.block? c = (f.block? c).map Block.bare := by
  unfold block? bare
  split
  · rfl
  · exact Array.getElem?_map

theorem bare_setBlock {change : Block → Block} (h : ∀ blk, (change blk).bare = blk.bare) :
    (f.setBlock b change).bare = f.bare := by
  unfold setBlock
  split
  · rfl
  · unfold bare
    congr 1
    refine Array.ext_getElem? fun n => ?_
    simp only [Array.getElem?_map, Array.getElem?_modify]
    split
    · rw [Option.map_map]
      exact Option.map_congr fun x _ => h x
    · rfl

section Same

variable (h : g.bare = f.bare)

include h

theorem instr?_of_bare : g.instr? id = f.instr? id := by
  rw [← instr?_bare, h, instr?_bare]

theorem block?_of_bare (hc : f.block? c = some blk) :
    ∃ blk', g.block? c = some blk' ∧ blk'.bare = blk.bare := by
  have := block?_bare (f := g) (c := c)
  rw [h, block?_bare, hc] at this
  exact Option.map_eq_some_iff.mp this.symm

theorem exists_block_of_bare (hc : ∃ blk, f.block? c = some blk) : ∃ blk, g.block? c = some blk := by
  obtain ⟨blk, hblk⟩ := hc
  exact (block?_of_bare h hblk).imp fun _ hb => hb.1

theorem rebuildEdges_of_bare : g.rebuildEdges = f.rebuildEdges := by
  have hids : g.blockIds = f.blockIds := by
    have : g.bare.blocks.size = f.bare.blocks.size := by rw [h]
    simp only [bare, Array.size_map] at this
    rw [blockIds, this, blockIds]
  change fillEdges g.blockIds g.bare = fillEdges f.blockIds f.bare
  rw [h, hids]

end Same

theorem addEdges_keeps {α : Type} {part : Func → α} (hpart : ∀ f b g, part (setBlock f b g) = part f)
    (b : Int) (ts : List Int) (f : Func) : part (addEdges b ts f).1 = part f := by
  induction ts generalizing f with
  | nil => rfl
  | cons t ts ih =>
    have hedge : part (f.addEdge b t).1 = part f := by
      unfold addEdge
      dsimp only
      split <;> simp only [hpart]
    rw [addEdges]
    split
    · next heq => rw [ih, ← hedge, heq]
    · exact hedge

theorem fillEdges_keeps {α : Type} {part : Func → α} (hpart : ∀ f b g, part (setBlock f b g) = part f)
    (bs : List Int) (f : Func) : part (fillEdges bs f).1 = part f := by
  induction bs generalizing f with
  | nil => rfl
  | cons b bs ih =>
    rw [fillEdges]
    split
    · rfl
    · exact ih f
    · next id _ =>
      have hedges := addEdges_keeps hpart b (((f.instr? id).map (·.targets)).getD []) f
      split
      · next heq => rw [ih, ← hedges, heq]
      · exact hedges

theorem instrs_rebuildEdges (f : Func) : f.rebuildEdges.1.instrs = f.instrs :=
  fillEdges_keeps (fun _ _ _ => instrs_setBlock) _ _

theorem params_rebuildEdges (f : Func) : f.rebuildEdges.1.params = f.params := by
  have hblock : ∀ f b g, params (setBlock f b g) = params f := by
    intro f b g
    unfold setBlock
    split
    · rfl
    · rfl
  exact fillEdges_keeps hblock _ _

/-- The blocks that the terminator of a block names, in its order. -/
def targetsOf (f : Func) (b : Int) : List Int :=
  match f.terminator b with
  | .ok (some id) => ((f.instr? id).map (·.targets)).getD []
  | _ => []

theorem terminator_of_bare (h : g.bare = f.bare) (b : Int) : g.terminator b = f.terminator b := by
  have hbare : ∀ f : Func, f.bare.terminator b = f.terminator b := fun f => by
    unfold terminator block
    rw [block?_bare]
    cases f.block? b <;> rfl
  rw [← hbare, h, hbare]

theorem exists_addEdge (ht : ∃ blk, f.block? t = some blk) :
    ∃ g, f.addEdge b t = (g, .ok ()) ∧ g.bare = f.bare ∧ ∀ c, g.block? c = (f.block? c).map fun blk =>
      { blk with
        succs := if b = c then blk.succs ++ [t] else blk.succs
        preds := if t = c then blk.preds ++ [b] else blk.preds } := by
  have hout : (f.setBlock b fun blk => { blk with succs := blk.succs ++ [t] }).bare = f.bare :=
    bare_setBlock fun _ => rfl
  obtain ⟨blk, hblk⟩ := ht
  obtain ⟨blk', hblk', -⟩ := block?_of_bare hout hblk
  refine ⟨_, by simp only [addEdge, block_eq_ok.mpr hblk']; rfl, ?_, fun c => ?_⟩
  · rw [bare_setBlock (by exact fun _ => rfl), hout]
  · rw [block?_setBlock, block?_setBlock]
    cases f.block? c with
    | none => simp
    | some blk => split_ifs <;> rfl

structure Edged (f : Func) (succs preds : Int → List Int) (g : Func) : Prop where
  bare : g.bare = f.bare
  succs : ∀ c blk, g.block? c = some blk → blk.succs = succs c
  preds : ∀ c blk, g.block? c = some blk → blk.preds = preds c

namespace Edged

variable {succs preds : Int → List Int}

theorem addEdge (h : f.Edged succs preds g) (ht : ∃ blk, f.block? t = some blk) :
    ∃ g', g.addEdge b t = (g', .ok ()) ∧
      f.Edged (fun c => if b = c then succs c ++ [t] else succs c)
        (fun c => if t = c then preds c ++ [b] else preds c) g' := by
  obtain ⟨g', hg', hbare, hblock⟩ := exists_addEdge (b := b) (exists_block_of_bare h.bare ht)
  refine ⟨g', hg', hbare.trans h.bare, fun c blk hc => ?_, fun c blk hc => ?_⟩
  all_goals
    rw [hblock, Option.map_eq_some_iff] at hc
    obtain ⟨x, hx, rfl⟩ := hc
  · simp only [h.succs c x hx]
  · simp only [h.preds c x hx]

theorem congr {succs' preds' : Int → List Int} (h : f.Edged succs preds g)
    (hs : ∀ c, succs' c = succs c) (hp : ∀ c, preds' c = preds c) : f.Edged succs' preds' g where
  bare := h.bare
  succs c blk hc := (h.succs c blk hc).trans (hs c).symm
  preds c blk hc := (h.preds c blk hc).trans (hp c).symm

theorem addEdges (h : f.Edged succs preds g) (ht : ∀ t ∈ ts, ∃ blk, f.block? t = some blk) :
    ∃ g', Func.addEdges b ts g = (g', .ok ()) ∧
      f.Edged (fun c => if b = c then succs c ++ ts else succs c)
        (fun c => preds c ++ List.replicate (ts.count c) b) g' := by
  induction ts generalizing g succs preds with
  | nil => exact ⟨g, rfl, h.congr (fun c => by simp) fun c => by simp⟩
  | cons t ts ih =>
    obtain ⟨ht, hts⟩ := List.forall_mem_cons.mp ht
    obtain ⟨g₁, hg₁, h₁⟩ := h.addEdge (b := b) ht
    obtain ⟨g', hg', h'⟩ := ih h₁ hts
    refine ⟨g', by rw [Func.addEdges, hg₁]; exact hg', h'.congr (fun c => ?_) fun c => ?_⟩
    · split <;> simp
    · by_cases htc : t = c
      · subst htc
        simp [List.replicate_succ]
      · simp [htc]

end Edged

structure EndsInBlocks (f : Func) : Prop where
  terminator : ∀ b blk, f.block? b = some blk → ∃ o, f.terminator b = .ok o
  targets : ∀ b, ∀ t ∈ f.targetsOf b, ∃ blk, f.block? t = some blk

def followers (f : Func) (done : List Int) (c : Int) : List Int :=
  if c ∈ done then f.targetsOf c else []

def arrivals (f : Func) (done : List Int) (c : Int) : List Int :=
  done.flatMap fun b => List.replicate ((f.targetsOf b).count c) b

/-- A block that has not had its turn gets the targets of its terminator behind it. -/
theorem Edged.block {done : List Int} (hf : f.EndsInBlocks) (hb : ∃ blk, f.block? b = some blk)
    (hfresh : b ∉ done) (h : f.Edged (f.followers done) (f.arrivals done) g) :
    ∃ g', fillEdges [b] g = (g', .ok ()) ∧
      f.Edged (f.followers (done ++ [b])) (f.arrivals (done ++ [b])) g' := by
  obtain ⟨blk, hblk⟩ := hb
  obtain ⟨o, ho⟩ := hf.terminator b blk hblk
  have hterm : g.terminator b = .ok o := (terminator_of_bare h.bare b).trans ho
  obtain ⟨g', hg', h'⟩ := h.addEdges (b := b) (hf.targets b)
  have hedged : f.Edged (f.followers (done ++ [b])) (f.arrivals (done ++ [b])) g' := by
    refine h'.congr (fun c => ?_) fun c => by simp [arrivals]
    by_cases hbc : b = c
    · subst hbc
      simp [followers, hfresh]
    · simp [followers, hbc, Ne.symm hbc]
  cases o with
  | none =>
    have hnone : f.targetsOf b = [] := by rw [targetsOf, ho]
    rw [hnone] at hg'
    cases hg'
    exact ⟨g, by simp only [fillEdges, hterm], hedged⟩
  | some id =>
    have hsome : ((g.instr? id).map (·.targets)).getD [] = f.targetsOf b := by
      rw [targetsOf, ho, instr?_of_bare h.bare]
    exact ⟨g', by simp only [fillEdges, hterm, hsome, hg'], hedged⟩

theorem fillEdges_cons (hg : fillEdges [b] f = (g, .ok ())) : fillEdges (b :: bs) f = fillEdges bs g := by
  rw [fillEdges] at hg ⊢
  split at hg
  · cases hg
  · cases hg
    rfl
  · split at hg
    · cases hg
      rfl
    · next hfailed =>
      exact absurd hg (hfailed _)

theorem Edged.fillEdges {done : List Int} (hf : f.EndsInBlocks)
    (hb : ∀ b ∈ bs, ∃ blk, f.block? b = some blk) (hnodup : (done ++ bs).Nodup)
    (h : f.Edged (f.followers done) (f.arrivals done) g) : ∃ g', Func.fillEdges bs g = (g', .ok ()) ∧
      f.Edged (f.followers (done ++ bs)) (f.arrivals (done ++ bs)) g' := by
  induction bs generalizing g done with
  | nil => exact ⟨g, rfl, by simpa using h⟩
  | cons b bs ih =>
    obtain ⟨hb, hbs⟩ := List.forall_mem_cons.mp hb
    have hfresh : b ∉ done := fun hmem =>
      List.disjoint_of_nodup_append hnodup hmem (List.mem_cons_self ..)
    obtain ⟨g₁, hg₁, h₁⟩ := h.block hf hb hfresh
    rw [List.append_cons] at hnodup ⊢
    obtain ⟨g', hg', h'⟩ := ih hbs hnodup h₁
    exact ⟨g', (fillEdges_cons hg₁).trans hg', h'⟩

theorem pairwise_blockIds : f.blockIds.Pairwise (· < ·) :=
  List.pairwise_lt_range.map _ fun _ _ => Int.ofNat_lt.mpr

theorem mem_blockIds : b ∈ f.blockIds ↔ ∃ blk, f.block? b = some blk := by
  simp only [blockIds, List.mem_map, List.mem_range, block?_eq_some]
  constructor
  · rintro ⟨n, hn, rfl⟩
    exact ⟨f.blocks[n], n, rfl, Array.getElem?_eq_getElem hn⟩
  · rintro ⟨blk, n, rfl, hn⟩
    exact ⟨n, (Array.getElem?_eq_some_iff.mp hn).1, rfl⟩

/-- The edges can be read off, they are those that the terminators say, and reading them off again
changes nothing. -/
theorem EndsInBlocks.exists_rebuildEdges (hf : f.EndsInBlocks) : ∃ g, f.rebuildEdges = (g, .ok ()) ∧
    f.Edged f.targetsOf (f.arrivals f.blockIds) g ∧ g.rebuildEdges = (g, .ok ()) := by
  have hstart : f.Edged (f.followers []) (f.arrivals []) f.bare := by
    refine ⟨by simp [bare, Block.bare], fun c blk hc => ?_, fun c blk hc => ?_⟩
    all_goals
      rw [block?_bare, Option.map_eq_some_iff] at hc
      obtain ⟨x, -, rfl⟩ := hc
      rfl
  have hnodup : ([] ++ f.blockIds).Nodup := pairwise_blockIds.imp Int.ne_of_lt
  have hblocks : ∀ b ∈ f.blockIds, ∃ blk, f.block? b = some blk := fun b => mem_blockIds.mp
  obtain ⟨g, hg, h⟩ := hstart.fillEdges hf hblocks hnodup
  refine ⟨g, hg, ⟨h.bare, fun c blk hc => ?_, h.preds⟩, (rebuildEdges_of_bare h.bare).trans hg⟩
  have hmem : c ∈ [] ++ f.blockIds := mem_blockIds.mpr (exists_block_of_bare h.bare.symm ⟨blk, hc⟩)
  rw [h.succs c blk hc, followers, if_pos hmem]

structure Linked (f : Func) : Prop where
  member : ∀ b blk, f.block? b = some blk → ∀ id ∈ blk.instrs, ∃ i, f.instr? id = some i
  targets : ∀ id i, f.instr? id = some i → ∀ t ∈ i.targets, ∃ blk, f.block? t = some blk

theorem Linked.of_bare (hf : f.Linked) (h : g.bare = f.bare) : g.Linked where
  member := by
    intro b blk hblk id hid
    obtain ⟨blk', hblk', he⟩ := block?_of_bare h.symm hblk
    rw [instr?_of_bare h]
    exact hf.member b blk' hblk' id (show id ∈ blk'.bare.instrs from he ▸ hid)
  targets := by
    intro id i hi t ht
    exact exists_block_of_bare h (hf.targets id i (instr?_of_bare h ▸ hi) t ht)

theorem exists_terminator_of_members (hb : f.block? b = some blk)
    (hmember : ∀ id ∈ blk.instrs, ∃ i, f.instr? id = some i) : ∃ o, f.terminator b = .ok o := by
  simp only [terminator, Checked.bind_eq_ok, block_eq_ok, hb]
  cases hlast : blk.instrs.getLast? with
  | none => exact ⟨none, blk, rfl, by rw [hlast]; rfl⟩
  | some id =>
    obtain ⟨i, hi⟩ := hmember id (List.mem_of_getLast? hlast)
    exact ⟨_, blk, rfl, by rw [hlast]; dsimp only; rw [instr_eq_ok.mpr hi]; rfl⟩

theorem exists_of_mem_targetsOf (ht : t ∈ f.targetsOf b) :
    ∃ id i, f.terminator b = .ok (some id) ∧ f.instr? id = some i ∧ t ∈ i.targets := by
  unfold targetsOf at ht
  split at ht
  · next id hid =>
    cases hi : f.instr? id with
    | none => simp [hi] at ht
    | some i => exact ⟨id, i, hid, hi, by simpa [hi] using ht⟩
  · cases ht

theorem Linked.endsInBlocks (hf : f.Linked) : f.EndsInBlocks where
  terminator b blk hb := exists_terminator_of_members hb (hf.member b blk hb)
  targets b t ht := by
    obtain ⟨id, i, -, hi, ht⟩ := exists_of_mem_targetsOf ht
    exact hf.targets id i hi t ht

end Func

end RegPressure
