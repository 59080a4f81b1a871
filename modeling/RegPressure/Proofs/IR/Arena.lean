import RegPressure.Proofs.IR.Placing
import RegPressure.Proofs.Run.Rewriting

namespace RegPressure.Func

variable {f g h : Func} {b u pos : Int} {i : Instr}

structure Arena (f : Func) : Prop where
  entry : f.entry = if f.blocks.size = 0 then none else some 0
  once : ∀ id i b, f.instr? id = some i → i.home = some b → (f.bodyOf b).count id = 1
  listed : ∀ b, ∀ id ∈ f.bodyOf b, ∃ i, f.instr? id = some i ∧ i.home = some b

def title? (f : Func) (b : Int) : Option String := (f.block? b).map (·.name)

/-- Every block and every instruction of `f` is in `g` under its number. Only the operands of an
instruction may differ, and it may have left its block. -/
structure Persists (f g : Func) : Prop where
  name : g.name = f.name
  entry : f.entry ≠ none → g.entry = f.entry
  block : ∀ b name, f.title? b = some name → g.title? b = some name
  instr : ∀ id i, f.instr? id = some i → ∃ j, g.instr? id = some j ∧
    { j with home := i.home, operands := i.operands } = i ∧ (j.home = i.home ∨ j.home = none)

namespace Persists

theorem refl (f : Func) : f.Persists f :=
  ⟨rfl, fun _ => rfl, fun _ _ hb => hb, fun _ i hi => ⟨i, hi, rfl, .inl rfl⟩⟩

theorem trans (hfg : f.Persists g) (hgh : g.Persists h) : f.Persists h where
  name := hgh.name.trans hfg.name
  entry hne := by rw [hgh.entry (by rwa [hfg.entry hne]), hfg.entry hne]
  block b name hb := hgh.block b name (hfg.block b name hb)
  instr id i hi := by
    obtain ⟨j, hj, hji, hhome⟩ := hfg.instr id i hi
    obtain ⟨k, hk, hkj, hhome'⟩ := hgh.instr id j hj
    refine ⟨k, hk, by rw [← hji, ← hkj], ?_⟩
    rcases hhome' with hkhome | hkhome
    · rwa [hkhome]
    · exact .inr hkhome

end Persists

namespace Arena

theorem nodup (hf : f.Arena) (b : Int) : (f.bodyOf b).Nodup := by
  refine List.nodup_iff_count_le_one.mpr fun id => ?_
  by_cases hmem : id ∈ f.bodyOf b
  · obtain ⟨i, hi, hhome⟩ := hf.listed b id hmem
    exact (hf.once id i b hi hhome).le
  · rw [List.count_eq_zero.mpr hmem]
    exact Nat.zero_le 1

theorem notMem (hf : f.Arena) {id : Int} (hi : f.instr? id = some i) (hb : i.home ≠ some b) :
    id ∉ f.bodyOf b := by
  intro hmem
  obtain ⟨j, hj, hhome⟩ := hf.listed b id hmem
  rw [hi] at hj
  cases hj
  exact hb hhome

theorem size_notMem (hf : f.Arena) (b : Int) : (f.instrs.size : Int) ∉ f.bodyOf b := by
  intro hmem
  obtain ⟨i, hi, -⟩ := hf.listed b _ hmem
  have := (lt_of_instr? hi).2
  omega

theorem empty (name : String) (params : List Param) (ret : Ty) : Arena { name, params, ret } where
  entry := rfl
  once id i b hi := by
    unfold instr? at hi
    split at hi <;> simp at hi
  listed b id hmem := by
    unfold bodyOf block? at hmem
    split at hmem <;> simp at hmem

end Arena

theorem instr?_size : f.instr? f.instrs.size = none := by
  unfold instr?
  rw [if_neg (by omega), Array.getElem?_eq_none (by omega)]

theorem bodyOf_addBlock (name : String) (b : Int) : (f.addBlock name).1.bodyOf b = f.bodyOf b := by
  unfold bodyOf block? addBlock
  by_cases hb : b < 0
  · simp [hb]
  · simp only [hb, if_false, Array.getElem?_push]
    split
    · next h => simp [← h]
    · rfl

theorem Arena.addBlock (hf : f.Arena) (name : String) : (f.addBlock name).1.Arena where
  entry := by
    have := hf.entry
    simp only [Func.addBlock, Array.size_push, Nat.add_one_ne_zero, if_false, this]
    split
    · next h => simp [h]
    · rfl
  once id i b hi hhome := by
    rw [bodyOf_addBlock]
    exact hf.once id i b hi hhome
  listed b id hmem := by
    rw [bodyOf_addBlock] at hmem
    exact hf.listed b id hmem

theorem title?_addBlock (name : String) (b : Int) : (f.addBlock name).1.title? b =
    if b = f.blocks.size then some name else f.title? b := by
  unfold title? block? addBlock
  by_cases hb : b < 0
  · rw [if_pos hb, if_pos hb, if_neg (by omega)]
  · rw [if_neg hb, if_neg hb, Array.getElem?_push]
    by_cases he : b = f.blocks.size
    · rw [if_pos he, if_pos (by omega)]
      rfl
    · rw [if_neg he, if_neg (by omega)]

theorem lt_of_title? {name : String} (h : f.title? b = some name) : b < f.blocks.size := by
  unfold title? block? at h
  split at h
  · cases h
  · obtain ⟨blk, hblk, -⟩ := Option.map_eq_some_iff.mp h
    have := (Array.getElem?_eq_some_iff.mp hblk).1
    omega

theorem persists_addBlock (name : String) : f.Persists (f.addBlock name).1 where
  name := rfl
  block b old hb := by
    rw [title?_addBlock, if_neg (lt_of_title? hb).ne, hb]
  entry hne := by
    cases he : f.entry with
    | none => exact absurd he hne
    | some e => simp [Func.addBlock, he]
  instr _ i hi := ⟨i, hi, rfl, .inl rfl⟩

structure Places (f : Func) (b : Int) (i : Instr) (g : Func) : Prop where
  blocks : g.blocks.size = f.blocks.size
  titles : ∀ c, g.title? c = f.title? c
  names : g.name = f.name ∧ g.entry = f.entry
  instr : ∀ id, g.instr? id = if id = f.instrs.size then some { i with home := some b } else f.instr? id
  body : ∃ l r, f.bodyOf b = l ++ r ∧ g.bodyOf b = l ++ (f.instrs.size : Int) :: r
  others : ∀ c, c ≠ b → g.bodyOf c = f.bodyOf c

theorem size_blocks_setBlock {change : Block → Block} :
    (f.setBlock b change).blocks.size = f.blocks.size := by
  unfold setBlock
  split
  · rfl
  · exact Array.size_modify

theorem places_of_insertAt (he : f.insertAt b pos i = .ok (g, u)) :
    u = f.instrs.size ∧ f.Places b i g := by
  obtain ⟨blk, l, r, hblk, hlr, -, hu, hname, hentry, -, hinstr, hblock⟩ := insertAt_spec he
  refine ⟨hu, ?_, fun c => ?_, ⟨hname, hentry⟩, fun id => by rw [hinstr, hu], ⟨l, r, ?_, ?_⟩,
    fun c hc => ?_⟩
  · simp only [insertAt, Checked.bind_eq_ok] at he
    obtain ⟨_, _, he⟩ := he
    split at he
    · simp at he
    · cases he
      exact size_blocks_setBlock
  · rw [title?, title?, hblock]
    split
    · next hc => rw [← hc, hblk, Option.map_some, Option.map_some]
    · rfl
  · rw [bodyOf, hblk, Option.map_some, Option.getD_some, hlr]
  · rw [bodyOf, hblock, if_pos rfl, ← hu]
    rfl
  · rw [bodyOf, hblock, if_neg (Ne.symm hc)]
    rfl

namespace Places

variable (hp : f.Places b i g)

include hp

theorem instr_old {id : Int} {j : Instr} (hj : f.instr? id = some j) : g.instr? id = some j := by
  have hne : id ≠ f.instrs.size := by
    have := (lt_of_instr? hj).2
    omega
  rw [hp.instr, if_neg hne, hj]

theorem persists : f.Persists g where
  name := hp.names.1
  entry _ := hp.names.2
  block b name hb := by rw [hp.titles, hb]
  instr _ j hj := ⟨j, hp.instr_old hj, rfl, .inl rfl⟩

theorem filter_bodyOf (hf : f.Arena) (c : Int) :
    (g.bodyOf c).filter (· ≠ (f.instrs.size : Int)) = f.bodyOf c := by
  have hsize := hf.size_notMem c
  by_cases hc : c = b
  · subst hc
    obtain ⟨l, r, hlr, hg⟩ := hp.body
    rw [hlr, List.mem_append, not_or] at hsize
    rw [hg, hlr, List.filter_append, List.filter_cons_of_neg (by simp),
      filter_ne_of_notMem hsize.1, filter_ne_of_notMem hsize.2]
  · rw [hp.others c hc, filter_ne_of_notMem hsize]

theorem count_bodyOf {id : Int} (hid : id ≠ f.instrs.size) (hf : f.Arena) (c : Int) :
    (g.bodyOf c).count id = (f.bodyOf c).count id := by
  rw [← hp.filter_bodyOf hf c, List.count_filter (by simpa using hid)]

theorem arena (hf : f.Arena) : g.Arena where
  entry := by rw [hp.names.2, hp.blocks, hf.entry]
  once id j c hj hhome := by
    rw [hp.instr] at hj
    split at hj
    · next hid =>
      cases hj
      cases hhome
      obtain ⟨l, r, hlr, hg⟩ := hp.body
      have hsize := hf.size_notMem b
      rw [hlr, List.mem_append, not_or] at hsize
      rw [hid, hg, List.count_append, List.count_cons_self, List.count_eq_zero.mpr hsize.1,
        List.count_eq_zero.mpr hsize.2]
    · next hid =>
      rw [hp.count_bodyOf hid hf c]
      exact hf.once id j c hj hhome
  listed c id hmem := by
    by_cases hid : id = f.instrs.size
    · have hc : c = b := by
        by_contra hne
        rw [hp.others c hne, hid] at hmem
        exact hf.size_notMem c hmem
      rw [hp.instr, if_pos hid, hc]
      exact ⟨_, rfl, rfl⟩
    · rw [hp.instr, if_neg hid]
      apply hf.listed c
      rw [← hp.filter_bodyOf hf c]
      exact List.mem_filter.mpr ⟨hmem, by simpa using hid⟩

end Places

structure Removes (f : Func) (u : Int) (g : Func) : Prop where
  blocks : g.blocks.size = f.blocks.size
  titles : ∀ c, g.title? c = f.title? c
  names : g.name = f.name ∧ g.entry = f.entry
  instr : ∀ id, g.instr? id =
    if u = id then (f.instr? id).map fun i => { i with home := none } else f.instr? id
  body : ∀ c, g.bodyOf c = (f.bodyOf c).filter (· ≠ u)
  stood : ∃ i b, f.instr? u = some i ∧ i.home = some b

theorem removes_of_erase (hf : f.Arena) (he : f.erase u = .ok g) : f.Removes u g := by
  simp only [erase, Checked.bind_eq_ok, instr_eq_ok, Checked.pure_eq_ok] at he
  obtain ⟨n, hn, i, hi, rfl⟩ := he
  obtain ⟨b, j, hj, hhome, blk, hblk, hmem⟩ := stands_of_indexOf hn
  rw [hi] at hj
  cases hj
  have hbody : f.bodyOf b = blk.instrs := by simp [bodyOf, hblk]
  -- The first position of the number is its only one.
  have hcut : blk.instrs.eraseIdx n = blk.instrs.filter (· ≠ u) := by
    rw [indexOf_of_home hi hhome hblk hmem] at hn
    cases hn
    rw [← List.erase_eq_eraseIdx_of_idxOf rfl, ← hbody, (hf.nodup b).erase_eq_filter]
    exact List.filter_congr fun x _ => by simp [bne, beq_eq_decide]
  refine ⟨?_, fun c => ?_, by simp, fun id => by rw [instr?_setInstr, instr?_setBlock], fun c => ?_,
    i, b, hi, hhome⟩
  · rw [blocks_setInstr, size_blocks_setBlock]
  · rw [title?, title?, block?_setInstr, block?_setBlock]
    split
    · rw [Option.map_map]
      rfl
    · rfl
  · rw [bodyOf, block?_setInstr, block?_setBlock, hhome, Option.getD_some]
    by_cases hc : b = c
    · subst hc
      rw [if_pos rfl, hblk, hbody]
      exact hcut
    · rw [if_neg hc]
      exact (filter_ne_of_notMem (hf.notMem hi fun h => hc (by simpa [hhome] using h))).symm

namespace Removes

variable (hr : f.Removes u g)

include hr

theorem persists : f.Persists g where
  name := hr.names.1
  entry _ := hr.names.2
  block b name hb := by rw [hr.titles, hb]
  instr id i hi := by
    rw [hr.instr, hi]
    split
    · exact ⟨_, rfl, rfl, .inr rfl⟩
    · exact ⟨i, rfl, rfl, .inl rfl⟩

theorem arena (hf : f.Arena) : g.Arena where
  entry := by rw [hr.names.2, hr.blocks, hf.entry]
  once id j c hj hhome := by
    rw [hr.instr] at hj
    split at hj
    · obtain ⟨i, -, rfl⟩ := Option.map_eq_some_iff.mp hj
      cases hhome
    · next hid =>
      rw [hr.body, List.count_filter (by simpa using Ne.symm hid)]
      exact hf.once id j c hj hhome
  listed c id hmem := by
    rw [hr.body, List.mem_filter] at hmem
    rw [hr.instr, if_neg (by simpa using Ne.symm (of_decide_eq_true hmem.2))]
    exact hf.listed c id hmem.1

end Removes

section ReplaceAllUses

variable {old : Int} {v : Value}

theorem bodyOf_replaceAllUses (b : Int) : (f.replaceAllUses old v).bodyOf b = f.bodyOf b := rfl

theorem home_instr?_replaceAllUses (f : Func) (old : Int) (v : Value) (id : Int) :
    ((f.replaceAllUses old v).instr? id).map (·.home) = (f.instr? id).map (·.home) := by
  rw [instr?_replaceAllUses]
  cases f.instr? id with
  | none => rfl
  | some i =>
    simp only [Option.map_some]
    split <;> rfl

theorem persists_replaceAllUses : f.Persists (f.replaceAllUses old v) where
  name := rfl
  entry _ := rfl
  block _ _ hb := hb
  instr id i hi := by
    rw [instr?_replaceAllUses, hi, Option.map_some]
    split
    · exact ⟨i, rfl, rfl, .inl rfl⟩
    · exact ⟨_, rfl, rfl, .inl rfl⟩

theorem Arena.replaceAllUses (hf : f.Arena) : (f.replaceAllUses old v).Arena where
  entry := hf.entry
  once id j b hj hhome := by
    have hsame := home_instr?_replaceAllUses f old v id
    rw [hj, Option.map_some, hhome] at hsame
    obtain ⟨i, hi, hihome⟩ := Option.map_eq_some_iff.mp hsame.symm
    exact hf.once id i b hi hihome
  listed b id hmem := by
    obtain ⟨i, hi, hhome⟩ := hf.listed b id hmem
    have hsame := home_instr?_replaceAllUses f old v id
    rw [hi, Option.map_some, hhome] at hsame
    exact Option.map_eq_some_iff.mp hsame

end ReplaceAllUses

end RegPressure.Func
