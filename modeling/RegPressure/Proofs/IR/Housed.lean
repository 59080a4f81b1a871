import RegPressure.Proofs.Faultless.Base

namespace RegPressure

open Checked

namespace Block

variable {id u : Int} {us vs : List Int} {blk : Block}

def behind (id : Int) (us : List Int) (blk : Block) : Block :=
  { blk with instrs := blk.instrs.flatMap fun x => if x = id then x :: us else [x] }

theorem flatMap_behind_of_notMem {l : List Int} (h : id ∉ l) :
    (l.flatMap fun x => if x = id then x :: us else [x]) = l := by
  rw [List.flatMap_congr fun x hx => if_neg (ne_of_mem_of_not_mem hx h), List.flatMap_singleton']

theorem behind_of_notMem (h : id ∉ blk.instrs) : blk.behind id us = blk := by
  rw [behind, flatMap_behind_of_notMem h]

theorem mem_flatMap_behind {l : List Int} {x : Int} :
    (x ∈ l.flatMap fun y => if y = id then y :: us else [y]) ↔ x ∈ l ∨ id ∈ l ∧ x ∈ us := by
  rw [List.mem_flatMap]
  constructor
  · rintro ⟨y, hy, hx⟩
    split at hx
    · next he =>
      rcases List.mem_cons.mp hx with rfl | hx
      · exact .inl hy
      · exact .inr ⟨he ▸ hy, hx⟩
    · exact .inl (List.mem_singleton.mp hx ▸ hy)
  · rintro (hx | ⟨hid, hx⟩)
    · exact ⟨x, hx, by split <;> simp⟩
    · exact ⟨id, hid, by simp [hx]⟩

theorem insertIdx_eq_behind {l : List Int} (hmem : id ∈ l) (hnodup : l.Nodup) :
    l.insertIdx (l.idxOf id + 1) u = l.flatMap fun x => if x = id then x :: [u] else [x] := by
  induction l with
  | nil => cases hmem
  | cons y l ih =>
    rw [List.flatMap_cons]
    by_cases hy : y = id
    · have hnew : id ∉ l := hy ▸ (List.nodup_cons.mp hnodup).1
      rw [if_pos hy, flatMap_behind_of_notMem hnew, hy, List.idxOf_cons_self]
      rfl
    · have hmem := (List.mem_cons.mp hmem).resolve_left (Ne.symm hy)
      rw [if_neg hy, List.idxOf_cons_ne _ hy, List.insertIdx_succ_cons,
        ih hmem (List.nodup_cons.mp hnodup).2]
      rfl

theorem behind_behind (hu : u ∉ blk.instrs) (hus : u ∉ us) :
    (blk.behind id (us ++ [u])).behind u vs = blk.behind id (us ++ u :: vs) := by
  simp only [behind, List.flatMap_assoc]
  congr 1
  refine List.flatMap_congr fun x hx => ?_
  have hxu : x ≠ u := ne_of_mem_of_not_mem hx hu
  split
  · rw [List.flatMap_cons, if_neg hxu, List.flatMap_append, flatMap_behind_of_notMem hus]
    simp
  · simp [hxu]

end Block

def Instr.placedIn (i : Instr) (b : Int) : Instr := { i with home := some b }

namespace Func

variable {scope : Option Symbols} {f : Func} {id b u : Int} {us vs : List Int} {i : Instr}
  {is js : List Instr}

def behind (f : Func) (id : Int) (us : List Int) (is : List Instr) : Func :=
  { f with blocks := f.blocks.map (Block.behind id us), instrs := f.instrs ++ is.toArray }

structure Housed (f : Func) : Prop where
  nodup : ∀ b, (f.bodyOf b).Nodup
  home : ∀ b, ∀ id ∈ f.bodyOf b, ∃ i, f.instr? id = some i ∧ i.home = some b

theorem WellFormed.housed (h : f.WellFormed scope) : f.Housed where
  nodup b := by
    unfold bodyOf
    cases hb : f.block? b with
    | none => exact List.nodup_nil
    | some blk => exact (h.block b blk hb).body.nodup
  home b id hid := by
    obtain ⟨i, hi, hhome, -⟩ := h.home_of_stands (stands_iff.mpr hid)
    exact ⟨i, hi, hhome⟩

theorem bodyOf_behind : (f.behind id us is).bodyOf b =
    (f.bodyOf b).flatMap fun x => if x = id then x :: us else [x] := by
  unfold bodyOf block? behind
  split
  · rfl
  · rw [Array.getElem?_map]
    cases f.blocks[b.toNat]? <;> rfl

theorem instr?_behind (hi : f.instr? id = some i) {x : Int} :
    (f.behind x us is).instr? id = some i := by
  have hlt := lt_of_instr? hi
  unfold instr? behind at *
  rw [if_neg (by omega)] at hi ⊢
  rw [Array.getElem?_append_left (by omega), hi]

theorem instr?_behind_size {x : Int} : (f.behind x us [i]).instr? f.instrs.size = some i := by
  unfold instr? behind
  rw [if_neg (by omega), Int.toNat_natCast, Array.getElem?_append_right (Nat.le_refl _)]
  simp

namespace Housed

variable (hf : f.Housed)

include hf

theorem lt_size (hid : id ∈ f.bodyOf b) : id < f.instrs.size := by
  obtain ⟨i, hi, -⟩ := hf.home b id hid
  exact (lt_of_instr? hi).2

theorem notMem_other {c : Int} (hid : id ∈ f.bodyOf b) (hc : c ≠ b) : id ∉ f.bodyOf c := by
  intro hmem
  obtain ⟨i, hi, hhome⟩ := hf.home b id hid
  obtain ⟨j, hj, hhome'⟩ := hf.home c id hmem
  rw [hi] at hj
  cases hj
  exact hc (Option.some.inj (hhome'.symm.trans hhome))

theorem insertAfter_eq (hid : id ∈ f.bodyOf b) (i : Instr) : f.insertAfter id i =
    .ok (f.behind id [(f.instrs.size : Int)] [i.placedIn b], f.instrs.size) := by
  obtain ⟨j, hj, hhome⟩ := hf.home b id hid
  obtain ⟨blk, hblk, hmem⟩ := stands_iff.mpr hid
  have hidx := List.idxOf_lt_length_of_mem hmem
  rw [insertAfter, instr_eq_ok.mpr hj, ok_bind, indexOf_of_home hj hhome hblk hmem, ok_bind, hhome,
    Option.getD_some, insertAt, block_eq_ok.mpr hblk, ok_bind, if_neg (by simp; omega)]
  refine congrArg (fun g => Except.ok (g, (f.instrs.size : Int))) ?_
  obtain ⟨m, rfl, hm⟩ := block?_eq_some.mp hblk
  rw [setBlock, if_neg (by omega), behind]
  congr 1
  refine Array.ext_getElem? fun n => ?_
  rw [Array.getElem?_modify, Array.getElem?_map, Int.toNat_natCast]
  split
  · next hn =>
    have hbody : f.bodyOf m = blk.instrs := by rw [bodyOf, hblk]; rfl
    rw [← hn, hm, Option.map_some, Option.map_some, Block.behind,
      ← Block.insertIdx_eq_behind hmem (hbody ▸ hf.nodup m)]
    rfl
  · next hn =>
    cases hc : f.blocks[n]? with
    | none => rfl
    | some c =>
      have hbody : f.bodyOf n = c.instrs := by rw [bodyOf, block?_ofNat, hc]; rfl
      rw [Option.map_some, Block.behind_of_notMem (hbody ▸ hf.notMem_other hid (by omega))]

theorem behind (hid : id ∈ f.bodyOf b) (i : Instr) :
    (f.behind id [(f.instrs.size : Int)] [i.placedIn b]).Housed where
  nodup c := by
    rw [bodyOf_behind]
    by_cases hmem : id ∈ f.bodyOf c
    · have hnew : (f.instrs.size : Int) ∉ f.bodyOf c := fun h =>
        Int.lt_irrefl _ (hf.lt_size h)
      rw [← Block.insertIdx_eq_behind hmem (hf.nodup c)]
      have hidx := List.idxOf_lt_length_of_mem hmem
      exact (List.perm_insertIdx _ _ (by omega)).nodup_iff.mpr
        (List.nodup_cons.mpr ⟨hnew, hf.nodup c⟩)
    · rw [Block.flatMap_behind_of_notMem hmem]
      exact hf.nodup c
  home c x hx := by
    rw [bodyOf_behind, Block.mem_flatMap_behind] at hx
    rcases hx with hx | ⟨hmem, hx⟩
    · obtain ⟨j, hj, hhome⟩ := hf.home c x hx
      exact ⟨j, instr?_behind hj, hhome⟩
    · have hc : c = b := by
        by_contra hne
        exact hf.notMem_other hid hne hmem
      rw [List.mem_singleton.mp hx, hc]
      exact ⟨_, instr?_behind_size, rfl⟩

theorem of_insertAfter {g : Func} (he : f.insertAfter id i = .ok (g, u)) : g.Housed := by
  have hinsert := he
  simp only [insertAfter, Checked.bind_eq_ok] at he
  obtain ⟨_, -, n, hn, -⟩ := he
  obtain ⟨b, _, -, -, hb⟩ := stands_of_indexOf hn
  rw [hf.insertAfter_eq (stands_iff.mp hb) i] at hinsert
  cases hinsert
  exact hf.behind (stands_iff.mp hb) i

theorem exists_placed : ∃ l, f.placed = .ok l := by
  refine answers_mapM fun id hid => ?_
  obtain ⟨b, hb⟩ := mem_flatMap_instrs.mp hid
  obtain ⟨i, hi, -⟩ := hf.home b id (stands_iff.mp hb)
  rw [cell_eq_ok.mpr hi, ok_bind]
  exact answers_pure _

theorem answers_instrDominates (d : DomInfo) {a c : Int} (ha : f.Stands b a) (hc : ∃ y, f.Stands y c) :
    Answers (d.instrDominates f a c) := by
  obtain ⟨y, hc⟩ := hc
  obtain ⟨i, hi, hhome⟩ := hf.home b a (stands_iff.mp ha)
  obtain ⟨j, hj, hhome'⟩ := hf.home y c (stands_iff.mp hc)
  obtain ⟨blk, hblk, ha⟩ := ha
  obtain ⟨blk', hblk', hc⟩ := hc
  rw [DomInfo.instrDominates, instr_eq_ok.mpr hi, ok_bind, instr_eq_ok.mpr hj, ok_bind, hhome, hhome']
  refine answers_ite (fun _ => answers_pure _) fun _ => ?_
  rw [indexOf_of_home hi hhome hblk ha, ok_bind, indexOf_of_home hj hhome' hblk' hc, ok_bind]
  exact answers_pure _

/-- The order of two instructions, in terms of blocks and lists. -/
theorem precedes_iff {d : DomInfo} {a c : Int} {x y : Nat} (ha : f.Stands x a) (hc : f.Stands y c) :
    f.Precedes d a c ↔ x ≠ y ∧ d.dom.dominates x y = true ∨ x = y ∧ [a, c].Sublist (f.bodyOf x) := by
  obtain ⟨i, hi, hhome⟩ := hf.home x a (stands_iff.mp ha)
  obtain ⟨j, hj, hhome'⟩ := hf.home y c (stands_iff.mp hc)
  rw [Precedes, DomInfo.instrDominates, instr_eq_ok.mpr hi, ok_bind, instr_eq_ok.mpr hj, ok_bind, hhome,
    hhome']
  by_cases hxy : x = y
  · subst hxy
    obtain ⟨blk, hblk, ha⟩ := ha
    obtain ⟨blk', hblk', hc⟩ := hc
    cases hblk.symm.trans hblk'
    have hbody : f.bodyOf x = blk.instrs := by rw [bodyOf, hblk]; rfl
    have hnodup := hf.nodup x
    rw [hbody] at hnodup ⊢
    simp [indexOf_of_home hi hhome hblk ha, indexOf_of_home hj hhome' hblk hc,
      idxOf_lt_idxOf_iff hnodup hc]
  · have hne : (x : Int) ≠ y := mt Int.ofNat.inj hxy
    simp [hne, hxy, DomTree.strictlyDominates]

end Housed

theorem Housed.nodup_placed (hf : f.Housed) {placed : List (Int × Instr)}
    (h : f.placed = .ok placed) : (placed.map (·.1)).Nodup := by
  have hids : placed.map (·.1) = f.blocks.toList.flatMap (·.instrs) := by
    refine map_of_mapM h fun id x _ hx => ?_
    simp only [bind_eq_ok, pure_eq_ok] at hx
    obtain ⟨i, -, rfl⟩ := hx
    rfl
  have hbody : ∀ n (hn : n < f.blocks.toList.length), (f.blocks.toList[n]).instrs = f.bodyOf n := by
    intro n hn
    rw [bodyOf, block?_ofNat, Array.getElem?_eq_getElem (by simpa using hn)]
    rfl
  rw [hids, List.nodup_flatMap, List.pairwise_iff_getElem]
  constructor
  · intro blk hblk
    obtain ⟨n, hn, rfl⟩ := List.mem_iff_getElem.mp hblk
    rw [hbody n hn]
    exact hf.nodup n
  · intro m n hm hn hlt id (hid : id ∈ f.blocks.toList[m].instrs)
      (hid' : id ∈ f.blocks.toList[n].instrs)
    rw [hbody m hm] at hid
    rw [hbody n hn] at hid'
    exact hf.notMem_other hid (by omega) hid'

theorem usedNames_behind : (f.behind id us is).usedNames = f.usedNames ++
    (is.filter fun i => !i.isErased && i.name ≠ "").map (·.name) := by
  simp [usedNames, behind, List.append_assoc]

theorem behind_behind (hu : ∀ b, u ∉ f.bodyOf b) (hus : u ∉ us) :
    (f.behind id (us ++ [u]) is).behind u vs js = f.behind id (us ++ u :: vs) (is ++ js) := by
  have hblocks : (f.blocks.map (Block.behind id (us ++ [u]))).map (Block.behind u vs) =
      f.blocks.map (Block.behind id (us ++ u :: vs)) := by
    rw [Array.map_map]
    refine Array.map_congr_left fun blk hblk => Block.behind_behind (fun hmem => ?_) hus
    obtain ⟨b, hb⟩ := mem_flatMap_instrs.mp (List.mem_flatMap.mpr ⟨blk, hblk.val, hmem⟩)
    exact hu b (stands_iff.mp hb)
  simp only [behind, hblocks, Array.append_assoc, List.append_toArray]

theorem Housed.insertAfter_behind (hf : f.Housed) (us : List Int) (hid : id ∈ f.bodyOf b)
    (hg : (f.behind id (us ++ [u]) is).Housed) (hu : f.instrs.size ≤ u) (hus : u ∉ us) (i : Instr)
    {n : Int} (hn : n = f.instrs.size + is.length) :
    (f.behind id (us ++ [u]) is).insertAfter u i =
        .ok (f.behind id (us ++ [u, n]) (is ++ [i.placedIn b]), n) ∧
      (f.behind id (us ++ [u, n]) (is ++ [i.placedIn b])).Housed := by
  have hmem : u ∈ (f.behind id (us ++ [u]) is).bodyOf b := by
    rw [bodyOf_behind, Block.mem_flatMap_behind]
    exact .inr ⟨hid, by simp⟩
  have hnew : ∀ c, u ∉ f.bodyOf c := fun c h => by
    have := hf.lt_size h
    omega
  have hsize : ((f.behind id (us ++ [u]) is).instrs.size : Int) = n := by
    simp [Func.behind, hn]
  have hins := hg.insertAfter_eq hmem i
  have hhoused := hg.behind hmem i
  rw [hsize, behind_behind hnew hus] at hins hhoused
  exact ⟨hins, hhoused⟩

end Func

end RegPressure
