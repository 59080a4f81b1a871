import RegPressure.Proofs.IR.History
import RegPressure.Proofs.IR.Verdict

namespace RegPressure.Func

open Checked

variable {scope : Option Symbols} {f : Func} {v : Value} {id : Int} {i : Instr}

theorem answers_instr_iff : Answers (f.instr id) ↔ ∃ i, f.instr? id = some i := by
  simp only [Answers, instr_eq_ok]

theorem answers_blockName_iff {b : Int} :
    Answers (f.blockName b) ↔ ∃ blk, f.block? b = some blk := by
  rw [blockName, answers_bind_pure_iff, answers_block_iff]

namespace Resolves

theorem answers_typeOf_iff (h : f.Resolves scope v) :
    Answers (f.typeOf v) ↔ ∀ n, v = .arg n → 0 ≤ n := by
  cases v with
  | arg n =>
    have hlt : n < f.params.length := h
    rw [typeOf, if_pos hlt, answers_bind_pure_iff, answers_element_iff]
    simp [hlt]
  | instr id =>
    obtain ⟨i, hi, -⟩ := isLive_iff.mp h
    refine iff_of_true ?_ (by rintro _ ⟨⟩)
    rw [typeOf, answers_bind_pure_iff, answers_instr_iff]
    exact ⟨i, hi⟩
  | _ => exact iff_of_true ⟨_, rfl⟩ (by rintro _ ⟨⟩)

theorem answers_valueName_iff (h : f.Resolves scope v) :
    Answers (f.valueName scope v) ↔ ∀ n, v = .arg n → 0 ≤ n := by
  cases v with
  | arg n =>
    have hlt : n < f.params.length := h
    rw [valueName, if_pos hlt, answers_bind_pure_iff, answers_element_iff]
    simp [hlt]
  | instr id =>
    obtain ⟨i, hi, -⟩ := isLive_iff.mp h
    refine iff_of_true ?_ (by rintro _ ⟨⟩)
    rw [valueName, instrName, answers_bind_pure_iff, answers_instr_iff]
    exact ⟨i, hi⟩
  | global n =>
    refine iff_of_true ?_ (by rintro _ ⟨⟩)
    cases scope with
    | none => exact ⟨_, rfl⟩
    | some s =>
      obtain ⟨hpos, hlt⟩ := global?_some.mp h
      simp only [valueName]
      rw [if_pos hlt, answers_bind_pure_iff, answers_element_iff]
      exact ⟨hpos, hlt⟩
  | _ => exact iff_of_true ⟨_, rfl⟩ (by rintro _ ⟨⟩)

end Resolves

/-- All that an instruction refers to can be told: the types and names of its operands, and the names of
its targets. -/
structure Legible (scope : Option Symbols) (f : Func) (i : Instr) : Prop where
  types : ∀ v ∈ i.operands, Answers (f.typeOf v)
  names : ∀ v ∈ i.operands, Answers (f.valueName scope v)
  targets : ∀ t ∈ i.targets, Answers (f.blockName t)

theorem References.legible_iff (h : f.References scope i) :
    f.Legible scope i ↔ ∀ n, .arg n ∈ i.operands → 0 ≤ n := by
  constructor
  · intro hr n hn
    exact (h.operands _ hn).answers_typeOf_iff.mp (hr.types _ hn) n rfl
  · intro hargs
    have harg : ∀ v ∈ i.operands, ∀ n, v = .arg n → 0 ≤ n := by
      rintro _ hv n rfl
      exact hargs n hv
    exact {
      types := fun v hv => (h.operands v hv).answers_typeOf_iff.mpr (harg v hv)
      names := fun v hv => (h.operands v hv).answers_valueName_iff.mpr (harg v hv)
      targets := fun t ht => answers_blockName_iff.mpr (h.targets t ht) }

/-- An instruction that has not been erased stands in the block that it records. -/
theorem Arena.exists_block (hf : f.Arena) (hi : f.instr? id = some i) (hlive : i.isErased = false) :
    ∃ b blk, f.block? b = some blk ∧ id ∈ blk.instrs := by
  obtain ⟨b, hhome⟩ : ∃ b, i.home = some b := by
    rw [Instr.isErased, Option.isNone_eq_false_iff] at hlive
    exact Option.isSome_iff_exists.mp hlive
  have hcount := hf.once id i b hi hhome
  have hmem : id ∈ f.bodyOf b := List.count_pos_iff.mp (by omega)
  unfold bodyOf at hmem
  cases hblk : f.block? b with
  | none => simp [hblk] at hmem
  | some blk => exact ⟨b, blk, hblk, by simpa [hblk] using hmem⟩

theorem Arena.entry_isSome (hf : f.Arena) {blk : Block} (hblk : blk ∈ f.blocks) :
    (f.entry.bind f.block?).isSome = true := by
  have hpos : 0 < f.blocks.size := Array.size_pos_of_mem hblk
  rw [hf.entry, if_neg hpos.ne']
  simp [block?, hpos]

/-- On a function with a sound arena the check ends unless it comes to a global of its module with a
negative number or to a phi with an incoming block that is none, and on what it accepts, every
instruction can be read unless it refers to an argument with a negative number. -/
theorem verify_answers_and_reads (hf : f.Arena) (scope : Option Symbols) :
    (Answers (f.verify scope) ↔
      ∀ blk ∈ f.blocks, ∀ id ∈ blk.instrs, ∀ i, f.instr? id = some i → f.Passable scope blk i) ∧
    (f.verify scope = .ok [] → ∀ id i, f.instr? id = some i → i.isErased = false →
      (f.Legible scope i ↔ ∀ n, .arg n ∈ i.operands → 0 ≤ n)) := by
  constructor
  · rw [answers_verify_iff]
    exact ⟨fun h blk hblk => h (hf.entry_isSome hblk) blk hblk, fun h _ => h⟩
  · intro hv id i hi hlive
    obtain ⟨b, blk, hblk, hmem⟩ := hf.exists_block hi hlive
    obtain ⟨j, hj, -, hrefs⟩ := ((verify_eq_nil.mp hv).block b blk hblk).body.member id hmem
    rw [hi] at hj
    cases hj
    exact hrefs.legible_iff

def beforeReturn (i : Instr) : Func :=
  after { name := "f", params := [{ name := "x", ty := some .i32 }] }
    [.addBlock "a", .append 0 i, .append 0 { op := .ret }]

theorem arena_beforeReturn (i : Instr) : (beforeReturn i).Arena := (after_keeps (Arena.empty ..) _).1

def doubled (n : Int) : Instr := { op := .add, ty := .i32, operands := [.arg n, .arg n] }

theorem doubled_verified_and_read :
    (beforeReturn (doubled 0)).Arena ∧ Answers ((beforeReturn (doubled 0)).verify (some {})) ∧
      ∀ i, (beforeReturn (doubled 0)).instr? 0 = some i →
        (beforeReturn (doubled 0)).Legible (some {}) i := by
  have hf := arena_beforeReturn (doubled 0)
  have hverify : (beforeReturn (doubled 0)).verify (some {}) = .ok [] := by decide +kernel
  obtain ⟨-, hreads⟩ := verify_answers_and_reads hf (some {})
  refine ⟨hf, ⟨_, hverify⟩, fun i hi => ?_⟩
  obtain rfl : { doubled 0 with home := some 0 } = i := Option.some.inj hi
  refine (hreads hverify 0 _ hi rfl).mpr fun n hn => ?_
  have hn : n = 0 := by simpa [doubled] using hn
  omega

/-- Each missing guard is felt, though the arena is sound: at a phi from a block that is none and at a
negative global the check itself faults, and a negative argument passes it and cannot be read. -/
theorem stray_numbers_fault :
    (∀ i, (beforeReturn i).Arena) ∧
    ¬ Answers ((beforeReturn { op := .phi, operands := [.arg 0], targets := [7] }).verify (some {})) ∧
    ¬ Answers ((beforeReturn { op := .load, operands := [.global (-1)] }).verify (some {})) ∧
    (beforeReturn (doubled (-1))).verify (some {}) = .ok [] ∧
    ∃ i, (beforeReturn (doubled (-1))).instr? 0 = some i ∧ i.isErased = false ∧
      ¬ (beforeReturn (doubled (-1))).Legible (some {}) i := by
  refine ⟨arena_beforeReturn, ?_, ?_, by decide +kernel, { doubled (-1) with home := some 0 }, rfl, rfl,
    fun h => ?_⟩
  · rintro ⟨_, h⟩
    cases h
  · rintro ⟨_, h⟩
    cases h
  · obtain ⟨_, htype⟩ := h.types (.arg (-1)) (by simp [doubled])
    cases htype

end RegPressure.Func
