import RegPressure.Proofs.IR.Edges
import RegPressure.Proofs.IR.Verified

namespace RegPressure.Func

open Checked

variable {f g : Func} {b s : Int} {blk : Block} {done : List Int}

theorem mem_arrivals : b ∈ f.arrivals done s ↔ b ∈ done ∧ s ∈ f.targetsOf b := by
  simp only [arrivals, List.mem_flatMap, List.mem_replicate, ← Nat.pos_iff_ne_zero,
    List.count_pos_iff]
  constructor
  · rintro ⟨c, hc, hs, rfl⟩
    exact ⟨hc, hs⟩
  · rintro ⟨hb, hs⟩
    exact ⟨b, hb, hs, rfl⟩

theorem count_arrivals (hdone : done.Nodup) (hb : b ∈ done) :
    (f.arrivals done s).count b = (f.targetsOf b).count s := by
  induction done with
  | nil => cases hb
  | cons c done ih =>
    obtain ⟨hc, hdone⟩ := List.nodup_cons.mp hdone
    rw [arrivals, List.flatMap_cons, ← arrivals, List.count_append, List.count_replicate]
    by_cases hcb : c = b
    · subst hcb
      have hrest : (f.arrivals done s).count c = 0 :=
        List.count_eq_zero.mpr fun hmem => hc (mem_arrivals.mp hmem).1
      simp [hrest]
    · have hb : b ∈ done := (List.mem_cons.mp hb).resolve_left (Ne.symm hcb)
      simp [hcb, ih hdone hb]

theorem pairwise_arrivals (hdone : done.Pairwise (· < ·)) : (f.arrivals done s).Pairwise (· ≤ ·) := by
  refine List.pairwise_flatMap.mpr ⟨fun b _ => ?_, hdone.imp fun hlt x hx y hy => ?_⟩
  · exact List.pairwise_replicate.mpr (.inr (Int.le_refl b))
  · rw [List.eq_of_mem_replicate hx, List.eq_of_mem_replicate hy]
    exact Int.le_of_lt hlt

/-- The terminators of a function with a sound arena can be told. -/
theorem Arena.endsInBlocks (hf : f.Arena) (ht : ∀ b id i, f.terminator b = .ok (some id) →
      f.instr? id = some i → ∀ t ∈ i.targets, ∃ blk, f.block? t = some blk) : f.EndsInBlocks where
  terminator b blk hb := exists_terminator_of_members hb fun id hid => by
    have hbody : f.bodyOf b = blk.instrs := by simp [bodyOf, hb]
    obtain ⟨i, hi, -⟩ := hf.listed b id (hbody ▸ hid)
    exact ⟨i, hi⟩
  targets b t hmem := by
    obtain ⟨id, i, hid, hi, hmem⟩ := exists_of_mem_targetsOf hmem
    exact ht b id i hid hi t hmem

theorem phiNotPred_of_edgeDefects {ds : List Defect}
    (hsuccs : ∀ s ∈ blk.succs, ∃ x, f.block? s = some x ∧ b ∈ x.preds)
    (hpreds : ∀ p ∈ blk.preds, ∃ x, f.block? p = some x ∧ b ∈ x.succs)
    (h : f.edgeDefects b blk = .ok ds) : ∀ d ∈ ds, ∃ id t, d = .phiNotPred id t := by
  simp only [edgeDefects, bind_eq_ok, pure_eq_ok] at h
  obtain ⟨phis, hphis, rfl⟩ := h
  intro d hd
  rcases List.mem_append.mp hd with hd | hd
  · exfalso
    rcases List.mem_append.mp hd with hd | hd
    · obtain ⟨s, hs, hd⟩ := List.mem_filterMap.mp hd
      obtain ⟨x, hx, hmem⟩ := hsuccs s hs
      simp [hx, hasPred, hmem] at hd
    · obtain ⟨p, hp, hd⟩ := List.mem_filterMap.mp hd
      obtain ⟨x, hx, hmem⟩ := hpreds p hp
      simp [hx, hasSucc, hmem] at hd
  · obtain ⟨here, hhere, hd⟩ := List.mem_flatten.mp hd
    obtain ⟨id, -, hid⟩ := mem_of_mapM hphis hhere
    split at hid
    · split at hid
      · obtain ⟨t, -, ht⟩ := mem_of_mapM hid hd
        simp only [bind_eq_ok, pure_eq_ok] at ht
        obtain ⟨-, -, rfl⟩ := ht
        exact ⟨id, t, rfl⟩
      · cases hid
        cases hd
    · cases hid
      cases hd

theorem Edged.count_succs (h : f.Edged f.targetsOf (f.arrivals f.blockIds) g) {x y : Block}
    (hx : g.block? b = some x) (hy : g.block? s = some y) : x.succs.count s = y.preds.count b := by
  have hb : b ∈ f.blockIds := mem_blockIds.mpr (exists_block_of_bare h.bare.symm ⟨x, hx⟩)
  rw [h.succs b x hx, h.preds s y hy, count_arrivals (pairwise_blockIds.imp Int.ne_of_lt) hb]

theorem Edged.exists_ends (hf : f.EndsInBlocks) (h : f.Edged f.targetsOf (f.arrivals f.blockIds) g)
    (hblk : g.block? b = some blk) : (∀ s ∈ blk.succs, ∃ x, g.block? s = some x ∧ b ∈ x.preds) ∧
      ∀ p ∈ blk.preds, ∃ x, g.block? p = some x ∧ b ∈ x.succs := by
  constructor
  · intro s hs
    have hmem : s ∈ f.targetsOf b := h.succs b blk hblk ▸ hs
    obtain ⟨x, hx⟩ := exists_block_of_bare h.bare (hf.targets b s hmem)
    refine ⟨x, hx, List.count_pos_iff.mp ?_⟩
    rw [← h.count_succs hblk hx]
    exact List.count_pos_iff.mpr hs
  · intro p hp
    have hmem : p ∈ f.arrivals f.blockIds b := h.preds b blk hblk ▸ hp
    obtain ⟨x, hx⟩ := exists_block_of_bare h.bare (mem_blockIds.mp (mem_arrivals.mp hmem).1)
    refine ⟨x, hx, List.count_pos_iff.mp ?_⟩
    rw [h.count_succs hx hblk]
    exact List.count_pos_iff.mpr hp

/-- Where the arena is sound and the terminators name blocks only, the edges can be read off. Then each
block is followed by the targets of its terminator, in their order, and preceded by blocks in theirs; an
edge is there as often at both ends, and the check of the edges finds none that is missing at one, but at
most incoming blocks of phis that do not lead there. Reading the edges off once more changes nothing. -/
theorem rebuildEdges_mirrors (hf : f.Arena) (ht : ∀ b id i, f.terminator b = .ok (some id) →
      f.instr? id = some i → ∀ t ∈ i.targets, ∃ blk, f.block? t = some blk) :
    ∃ g, f.rebuildEdges = (g, .ok ()) ∧ g.bare = f.bare ∧ g.rebuildEdges = (g, .ok ()) ∧
      (∀ b blk, g.block? b = some blk →
        blk.succs = f.targetsOf b ∧ blk.preds.Pairwise (· ≤ ·)) ∧
      (∀ b s x y, g.block? b = some x → g.block? s = some y → x.succs.count s = y.preds.count b) ∧
      ∀ b blk, g.block? b = some blk →
        (∀ ds, g.edgeDefects b blk = .ok ds → ∀ d ∈ ds, ∃ id t, d = .phiNotPred id t) ∧
        ((∀ id ∈ blk.instrs, ∀ i, f.instr? id = some i → i.op = .phi → ∀ t ∈ i.targets,
          ∃ c, f.block? t = some c) → Answers (g.edgeDefects b blk)) := by
  have hends := hf.endsInBlocks ht
  obtain ⟨g, hg, h, hagain⟩ := hends.exists_rebuildEdges
  refine ⟨g, hg, h.bare, hagain, fun b blk hblk => ⟨h.succs b blk hblk, ?_⟩,
    fun b s x y hx hy => h.count_succs hx hy, fun b blk hblk => ⟨fun ds => ?_, fun hphis => ?_⟩⟩
  · rw [h.preds b blk hblk]
    exact pairwise_arrivals pairwise_blockIds
  · obtain ⟨hsuccs, hpreds⟩ := h.exists_ends hends hblk
    exact phiNotPred_of_edgeDefects hsuccs hpreds
  · refine answers_edgeDefects_iff.mpr fun id hid i hi hop t ht _ => ?_
    exact exists_block_of_bare h.bare (hphis id hid i (instr?_of_bare h.bare ▸ hi) hop t ht)

def revisiting : Func :=
  after { name := "f" } [.addBlock "a", .addBlock "b", .addBlock "c",
    .append 0 { op := .condbr, operands := [.int (some .i1) 1], targets := [1, 1] },
    .append 1 { op := .switch, operands := [.int (some .i8) 0], targets := [2, 1, 2] },
    .append 2 { op := .ret }]

theorem revisiting_mirrors : revisiting.Arena ∧
    (∀ b id i, revisiting.terminator b = .ok (some id) → revisiting.instr? id = some i →
      ∀ t ∈ i.targets, ∃ blk, revisiting.block? t = some blk) ∧
    ∃ g, revisiting.rebuildEdges = (g, .ok ()) ∧
      ∀ x y, g.block? 1 = some x → g.block? 2 = some y → x.succs = [2, 1, 2] ∧ y.preds.count 1 = 2 := by
  have hf : revisiting.Arena := (after_keeps (Arena.empty ..) _).1
  have htargets : ∀ i ∈ revisiting.instrs, ∀ t ∈ i.targets, (revisiting.block? t).isSome := by
    decide +kernel
  have ht : ∀ b id i, revisiting.terminator b = .ok (some id) → revisiting.instr? id = some i →
      ∀ t ∈ i.targets, ∃ blk, revisiting.block? t = some blk := fun _ _ i _ hi t ht =>
    Option.isSome_iff_exists.mp (htargets i (mem_of_instr? hi) t ht)
  obtain ⟨g, hg, -, -, hlists, hcount, -⟩ := rebuildEdges_mirrors hf ht
  refine ⟨hf, ht, g, hg, fun x y hx hy => ?_⟩
  have hsuccs : x.succs = [2, 1, 2] := (hlists 1 x hx).1.trans (by decide +kernel)
  exact ⟨hsuccs, by rw [← hcount 1 2 x y hx hy, hsuccs]; rfl⟩

end RegPressure.Func
