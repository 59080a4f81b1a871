import RegPressure.Proofs.IR.Structure

namespace RegPressure.Func

open Checked

def Guarded (scope : Option Symbols) (v : Value) : Prop := scope ≠ none → ∀ n, v = .global n → 0 ≤ n

/-- What an instruction of a block must be like for the check to get past it. An incoming block of a phi
that does not lead here is named, so it has to be a block all the same. -/
structure Passable (scope : Option Symbols) (f : Func) (blk : Block) (i : Instr) : Prop where
  operands : ∀ v ∈ i.operands, Guarded scope v
  incoming : i.op = .phi → ∀ t ∈ i.targets, t ∉ blk.preds → ∃ c, f.block? t = some c

variable {scope : Option Symbols} {f : Func}

theorem answers_global?_iff {v : Value} : Answers (global? scope v) ↔ Guarded scope v := by
  cases v with
  | global n =>
    cases scope with
    | none => exact iff_of_true ⟨none, rfl⟩ fun h => absurd rfl h
    | some s =>
      have hguarded : Guarded (some s) (.global n) ↔ 0 ≤ n := by simp [Guarded]
      rw [hguarded, global?]
      split
      · rw [answers_map_iff, answers_element_iff]
        omega
      · exact iff_of_true ⟨none, rfl⟩ (by omega)
  | _ => exact iff_of_true ⟨none, rfl⟩ (by rintro - _ ⟨⟩)

theorem answers_operandDefects_iff {id : Int} {v : Value} :
    Answers (f.operandDefects scope id v) ↔ Guarded scope v := by
  cases v with
  | global n => exact answers_bind_pure_iff.trans answers_global?_iff
  | _ => exact iff_of_true ⟨_, rfl⟩ (by rintro - _ ⟨⟩)

theorem answers_referenceDefects_iff {u : Int} {i : Instr} :
    Answers (f.referenceDefects scope u i) ↔ ∀ v ∈ i.operands, Guarded scope v := by
  unfold referenceDefects
  rw [answers_bind_pure_iff, answers_mapM_iff]
  simp only [answers_operandDefects_iff]

theorem answers_block_iff {b : Int} : Answers (f.block b) ↔ ∃ blk, f.block? b = some blk := by
  simp only [Answers, block_eq_ok]

theorem answers_edgeDefects_iff {b : Int} {blk : Block} :
    Answers (f.edgeDefects b blk) ↔ ∀ id ∈ blk.instrs, ∀ i, f.instr? id = some i → i.op = .phi →
      ∀ t ∈ i.targets, t ∉ blk.preds → ∃ c, f.block? t = some c := by
  unfold edgeDefects
  rw [answers_bind_pure_iff, answers_mapM_iff]
  refine forall₂_congr fun id _ => ?_
  cases hi : f.instr? id with
  | none => exact iff_of_true (answers_pure _) (by rintro _ ⟨⟩)
  | some i =>
    by_cases hphi : i.op = .phi
    · simp [hphi, answers_mapM_iff, answers_map_iff, answers_block_iff, hasPred]
    · simp [hphi, answers_pure]

theorem answers_bodyDefects_iff {b : Int} {ids seen : List Int} {phis : Bool} :
    Answers (f.bodyDefects scope b ids seen phis) ↔
      ∀ id ∈ ids, ∀ i, f.instr? id = some i → ∀ v ∈ i.operands, Guarded scope v := by
  induction ids generalizing seen phis with
  | nil => exact iff_of_true ⟨[], rfl⟩ (by simp)
  | cons id ids ih =>
    unfold bodyDefects
    rw [List.forall_mem_cons]
    split
    · next hi =>
      rw [answers_bind_pure_iff, ih]
      simp [hi]
    · next i hi =>
      rw [answers_seq_iff fun _ => answers_bind_pure_iff.trans ih, answers_referenceDefects_iff]
      simp [hi]

theorem answers_blockDefects_iff {seen : List Int} {b : Int} {blk : Block} :
    Answers (f.blockDefects scope seen b blk) ↔
      ∀ id ∈ blk.instrs, ∀ i, f.instr? id = some i → f.Passable scope blk i := by
  unfold blockDefects
  split
  · next hnil => exact iff_of_true (answers_pure _) (by simp [hnil])
  · rw [answers_seq_iff fun _ => answers_bind_pure_iff.trans answers_edgeDefects_iff,
      answers_bodyDefects_iff]
    constructor
    · rintro ⟨hbody, hedges⟩ id hid i hi
      exact ⟨hbody id hid i hi, hedges id hid i hi⟩
    · intro h
      exact ⟨fun id hid i hi => (h id hid i hi).operands, fun id hid i hi => (h id hid i hi).incoming⟩

theorem answers_allBlockDefects_iff {blocks : List Block} {b : Int} {seen : List Int} :
    Answers (f.allBlockDefects scope blocks b seen) ↔
      ∀ blk ∈ blocks, ∀ id ∈ blk.instrs, ∀ i, f.instr? id = some i → f.Passable scope blk i := by
  induction blocks generalizing b seen with
  | nil => exact iff_of_true ⟨[], rfl⟩ (by simp)
  | cons blk rest ih =>
    unfold allBlockDefects
    rw [answers_seq_iff fun _ => answers_bind_pure_iff.trans ih, answers_blockDefects_iff,
      List.forall_mem_cons]

theorem answers_verify_iff : Answers (f.verify scope) ↔ ((f.entry.bind f.block?).isSome →
    ∀ blk ∈ f.blocks, ∀ id ∈ blk.instrs, ∀ i, f.instr? id = some i → f.Passable scope blk i) := by
  rw [verify, answers_bind_pure_iff, defects]
  split
  · next hempty =>
    refine iff_of_true (answers_pure _) fun _ blk hblk => ?_
    rw [Array.isEmpty_iff.mp hempty] at hblk
    simp at hblk
  · split
    · next he => exact iff_of_true (answers_pure _) (by simp [he])
    · next blk he =>
      simp [answers_map_iff, answers_allBlockDefects_iff, he]

theorem answers_verify (hglobals : ∀ id i, f.instr? id = some i → ∀ n, .global n ∈ i.operands → 0 ≤ n)
    (htargets : ∀ id i, f.instr? id = some i → ∀ t ∈ i.targets, ∃ blk, f.block? t = some blk) :
    Answers (f.verify scope) := by
  refine answers_verify_iff.mpr fun _ blk _ id _ i hi => ⟨fun v hv _ n hn => ?_, fun _ t ht _ => ?_⟩
  · exact hglobals id i hi n (hn ▸ hv)
  · exact htargets id i hi t ht

end RegPressure.Func
