import RegPressure.Proofs.IR.Precedence
import Mathlib.Data.List.TakeWhile

namespace RegPressure.Func

variable {scope : Option Symbols} {f : Func}

theorem block?_setBlock {b c : Int} {change : Block → Block} :
    (f.setBlock b change).block? c = if b = c then (f.block? c).map change else f.block? c := by
  unfold setBlock block?
  by_cases hb : b < 0
  · rw [if_pos hb]
    by_cases hbc : b = c
    · rw [if_pos hbc, if_pos (hbc ▸ hb)]
      rfl
    · rw [if_neg hbc]
  · rw [if_neg hb]
    by_cases hc : c < 0
    · rw [if_pos hc, if_neg (by omega), if_pos hc]
    · have he : b = c ↔ b.toNat = c.toNat := by omega
      simp only [hc, if_false, Array.getElem?_modify, he]

@[simp] theorem instrs_setBlock {b : Int} {change : Block → Block} :
    (f.setBlock b change).instrs = f.instrs := by
  unfold setBlock
  split <;> rfl

@[simp] theorem instr?_setBlock {b id : Int} {change : Block → Block} :
    (f.setBlock b change).instr? id = f.instr? id := by
  unfold setBlock
  split <;> rfl

@[simp] theorem entry_setBlock {b : Int} {change : Block → Block} :
    (f.setBlock b change).entry = f.entry := by
  unfold setBlock
  split <;> rfl

@[simp] theorem params_setBlock {b : Int} {change : Block → Block} :
    (f.setBlock b change).params = f.params := by
  unfold setBlock
  split <;> rfl

theorem setInstr_eq_self {id : Int} {i : Instr} {change : Instr → Instr} (hi : f.instr? id = some i)
    (h : change i = i) : f.setInstr id change = f := by
  unfold setInstr
  split
  · rfl
  · next hneg =>
    have hi : f.instrs[id.toNat]? = some i := by rwa [instr?, if_neg hneg] at hi
    congr 1
    apply Array.ext_getElem?
    intro n
    rw [Array.getElem?_modify]
    split
    · next hn => rw [← hn, hi, Option.map_some, h]
    · rfl

theorem instr?_setInstr {id x : Int} {change : Instr → Instr} :
    (f.setInstr id change).instr? x = if id = x then (f.instr? x).map change else f.instr? x := by
  unfold setInstr instr?
  by_cases hb : id < 0
  · rw [if_pos hb]
    by_cases hbc : id = x
    · rw [if_pos hbc, if_pos (hbc ▸ hb)]
      rfl
    · rw [if_neg hbc]
  · rw [if_neg hb]
    by_cases hc : x < 0
    · rw [if_pos hc, if_neg (by omega), if_pos hc]
    · have he : id = x ↔ id.toNat = x.toNat := by omega
      simp only [hc, if_false, Array.getElem?_modify, he]

@[simp] theorem blocks_setInstr {id : Int} {change : Instr → Instr} :
    (f.setInstr id change).blocks = f.blocks := by
  unfold setInstr
  split <;> rfl

@[simp] theorem entry_setInstr {id : Int} {change : Instr → Instr} :
    (f.setInstr id change).entry = f.entry := by
  unfold setInstr
  split <;> rfl

@[simp] theorem params_setInstr {id : Int} {change : Instr → Instr} :
    (f.setInstr id change).params = f.params := by
  unfold setInstr
  split <;> rfl

@[simp] theorem block?_setInstr {id b : Int} {change : Instr → Instr} :
    (f.setInstr id change).block? b = f.block? b := by
  simp [block?]

theorem instr?_replaceAllUses {old id : Int} {v : Value} :
    (f.replaceAllUses old v).instr? id = (f.instr? id).map fun i =>
      if i.isErased then i
      else { i with operands := i.operands.map fun o => if o = .instr old then v else o } := by
  unfold instr? replaceAllUses
  split
  · rfl
  · simp only [Array.getElem?_map]

theorem graph_setBlock {b : Int} {change : Block → Block} (hs : ∀ blk, (change blk).succs = blk.succs)
    (hp : ∀ blk, (change blk).preds = blk.preds) : (f.setBlock b change).graph = f.graph := by
  unfold setBlock
  split
  · rfl
  · simp only [graph, Digraph.mk.injEq]
    constructor
    · refine Array.ext_getElem? fun n => ?_
      simp only [Array.getElem?_map, Array.getElem?_modify]
      split <;> cases f.blocks[n]? <;> simp [hs]
    · refine Array.ext_getElem? fun n => ?_
      simp only [Array.getElem?_map, Array.getElem?_modify]
      split <;> cases f.blocks[n]? <;> simp [hp]

@[simp] theorem graph_setInstr {id : Int} {change : Instr → Instr} :
    (f.setInstr id change).graph = f.graph := by
  simp [graph]

/-- A terminator is known by where it stands. -/
theorem WellFormed.terminator_iff (h : f.WellFormed scope) {b t : Int} :
    f.terminator b = .ok (some t) ↔ f.Stands b t ∧ (f.opOf t).isTerminator = true := by
  constructor
  · intro ht
    refine ⟨stands_of_terminator ht, ?_⟩
    simp only [terminator, Checked.bind_eq_ok, block_eq_ok] at ht
    obtain ⟨blk, hblk, ht⟩ := ht
    split at ht
    · cases ht
    · simp only [Checked.bind_eq_ok, instr_eq_ok, Checked.pure_eq_ok, Option.ite_none_right_eq_some,
        Option.some.injEq] at ht
      obtain ⟨i, hi, hop, rfl⟩ := ht
      rw [opOf_eq hi, hop]
  · rintro ⟨hb, ht⟩
    obtain ⟨blk, hblk, hmem⟩ := hb
    have hsound := h.block b blk hblk
    obtain ⟨l, r, hl⟩ := List.append_of_mem hmem
    have hr := (hsound.body.ends l t r hl).mp ht
    have hlast : blk.instrs.getLast? = some t := by rw [hl, hr, List.getLast?_concat]
    obtain ⟨i, hi, _⟩ := hsound.body.member t hmem
    have hop : i.op.isTerminator = true := by rwa [Func.opOf_eq hi] at ht
    simp [terminator, block_eq_ok.mpr hblk, hlast, instr_eq_ok.mpr hi, hop]

/-- The instructions of a block in their three groups. -/
structure Layout (f : Func) (ids phis mid : List Int) (t : Int) : Prop where
  eq : ids = phis ++ mid ++ [t]
  phis : ∀ x ∈ phis, f.opOf x = .phi
  mid : ∀ x ∈ mid, f.opOf x ≠ .phi ∧ (f.opOf x).isTerminator = false
  ends : (f.opOf t).isTerminator = true

theorem BodySound.layout {b : Int} {ids : List Int} (h : f.BodySound scope b ids) (hne : ids ≠ []) :
    ∃ phis mid t, f.Layout ids phis mid t := by
  obtain ⟨init, t, rfl⟩ := (List.eq_nil_or_concat' ids).resolve_left hne
  have hsplit : init.takeWhile (f.opOf · = .phi) ++ init.dropWhile (f.opOf · = .phi) = init :=
    List.takeWhile_append_dropWhile
  refine ⟨init.takeWhile (f.opOf · = .phi), init.dropWhile (f.opOf · = .phi), t, ?_, ?_, ?_, ?_⟩
  · rw [hsplit]
  · intro x hx
    simpa using List.mem_takeWhile_imp hx
  · intro x hx
    constructor
    · intro hphi
      -- The first instruction that is dropped is no phi, and no phi comes behind it.
      cases hd : init.dropWhile (f.opOf · = .phi) with
      | nil => simp [hd] at hx
      | cons y rest =>
        have hy : f.opOf y ≠ .phi := by
          have := List.head_dropWhile_not (f.opOf · = .phi) (l := init) (by simp [hd])
          simpa [hd] using this
        have hp : (y :: rest).Pairwise fun x y => f.opOf y = .phi → f.opOf x = .phi := by
          rw [← hd]
          exact h.phis_first.sublist
            ((List.dropWhile_sublist _).trans (List.sublist_append_left _ _))
        rw [hd] at hx
        rcases List.mem_cons.mp hx with rfl | hx
        · exact hy hphi
        · exact hy ((List.pairwise_cons.mp hp).1 x hx hphi)
    · have hmem : x ∈ init := (List.dropWhile_sublist _).subset hx
      obtain ⟨l, r, rfl⟩ := List.append_of_mem hmem
      have := h.ends l x (r ++ [t]) (by simp)
      simpa using this
  · exact (h.ends init t [] rfl).mpr rfl

theorem Layout.phis_first {ids phis mid : List Int} {t : Int} (h : f.Layout ids phis mid t) :
    ids.Pairwise fun x y => f.opOf y = .phi → f.opOf x = .phi := by
  have ht : f.opOf t ≠ .phi := by
    intro ht
    have := h.ends
    rw [ht] at this
    cases this
  rw [h.eq, List.append_assoc]
  refine List.pairwise_append.mpr ⟨?_, ?_, fun x hx _ _ _ => h.phis x hx⟩
  · exact List.pairwise_of_forall_mem_list fun x hx _ _ _ => h.phis x hx
  · refine List.pairwise_of_forall_mem_list fun x _ y hy hphi => ?_
    rcases List.mem_append.mp hy with hy | hy
    · exact absurd hphi (h.mid y hy).1
    · rw [List.mem_singleton.mp hy] at hphi
      exact absurd hphi ht

theorem Layout.not_terminator {ids phis mid : List Int} {t : Int} (h : f.Layout ids phis mid t)
    {x : Int} (hx : x ∈ phis ++ mid) : (f.opOf x).isTerminator = false := by
  rcases List.mem_append.mp hx with hx | hx
  · rw [h.phis x hx]
    rfl
  · exact (h.mid x hx).2

theorem Layout.terminator_last {ids phis mid : List Int} {t : Int} (h : f.Layout ids phis mid t) :
    ∀ l x r, ids = l ++ x :: r → ((f.opOf x).isTerminator = true ↔ r = []) := by
  intro l x r he
  rw [h.eq] at he
  rcases List.eq_nil_or_concat' r with rfl | ⟨r, y, rfl⟩
  · have : t = x := by simpa using congrArg List.getLast? he
    simp [← this, h.ends]
  · have hinit : phis ++ mid = l ++ x :: r := by
      have he' : phis ++ mid ++ [t] = (l ++ x :: r) ++ [y] := by simpa using he
      exact (List.append_inj' he' rfl).1
    have := h.not_terminator (x := x) (by rw [hinit]; simp)
    simp [this]

theorem Layout.bodySound {b : Int} {ids phis mid : List Int} {t : Int} (h : f.Layout ids phis mid t)
    (hnodup : ids.Nodup)
    (hmem : ∀ id ∈ ids, ∃ i, f.instr? id = some i ∧ i.home = some b ∧ f.References scope i) :
    f.BodySound scope b ids :=
  ⟨hnodup, hmem, h.phis_first, h.terminator_last⟩

end RegPressure.Func
