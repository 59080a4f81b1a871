import RegPressure.Proofs.Advice.Records
import RegPressure.Proofs.Faultless.Base
import RegPressure.Proofs.Narrow.Names

namespace RegPressure

open Narrow

variable {scope : Option Symbols} {f g h : Func} {id u : Int} {i : Instr}

/-! ### Marks while instructions come in -/

namespace Func

structure Copies (f g : Func) : Prop where
  old : ∀ id i, f.instr? id = some i → ∃ ops, g.instr? id = some { i with operands := ops }
  new : ∀ u j, f.instr? u = none → g.instr? u = some j → j.checked = false

theorem Copies.refl (f : Func) : f.Copies f where
  old _ i hi := ⟨i.operands, hi⟩
  new u j hu hj := by
    cases hu.symm.trans hj

/-- What is new in a copy was not there at first. -/
theorem Copies.fresh (hfg : f.Copies g) (hu : g.instr? u = none) : f.instr? u = none := by
  cases hf : f.instr? u with
  | none => rfl
  | some i =>
    obtain ⟨ops, hg⟩ := hfg.old u i hf
    cases hu.symm.trans hg

theorem allowsInsertion_copies (f : Func) : AllowsInsertion f.Copies := by
  intro g h b pos i u _ hmark hfg he
  obtain ⟨blk, l, r, -, -, -, rfl, -, -, -, hinstr, -⟩ := insertAt_spec he
  constructor
  · intro id j hj
    obtain ⟨ops, hops⟩ := hfg.old id j hj
    have hlt := lt_of_instr? hops
    exact ⟨ops, by rw [hinstr, if_neg (by omega), hops]⟩
  · intro id j hid hj
    rw [hinstr] at hj
    split at hj
    · cases hj
      exact hmark
    · exact hfg.new id j hid hj

theorem Copies.replaceAllUses (hfg : f.Copies g) (old : Int) (v : Value) :
    f.Copies (g.replaceAllUses old v) where
  old id i hi := by
    obtain ⟨ops, hops⟩ := hfg.old id i hi
    rw [instr?_replaceAllUses, hops, Option.map_some]
    split
    · exact ⟨ops, rfl⟩
    · exact ⟨_, rfl⟩
  new u j hu hj := by
    rw [instr?_replaceAllUses] at hj
    obtain ⟨k, hk, rfl⟩ := Option.map_eq_some_iff.mp hj
    have hmark := hfg.new u k hu hk
    split
    · exact hmark
    · exact hmark

end Func

/-! ### Marks under narrowing -/

namespace Narrow

/-- What narrowing leaves of a function. Instructions stay as they were, apart from their operands, or
are erased, and only those that can be narrowed and casts are. None that is new is marked. -/
structure Leaves (f g : Func) : Prop where
  old : ∀ id i, f.instr? id = some i → ∃ ops home, g.instr? id = some { i with operands := ops, home } ∧
    (home = i.home ∨ home = none ∧ (i.op ∈ narrowed ∨ isResize i.op = true))
  new : ∀ u j, f.instr? u = none → g.instr? u = some j → j.checked = false

theorem Leaves.refl (f : Func) : Leaves f f where
  old _ i hi := ⟨i.operands, i.home, hi, .inl rfl⟩
  new := (Func.Copies.refl f).new

theorem Leaves.trans (hfg : Leaves f g) (hgh : Leaves g h) : Leaves f h where
  old id i hi := by
    obtain ⟨ops, home, hg, hhome⟩ := hfg.old id i hi
    obtain ⟨ops', home', hh, hhome'⟩ := hgh.old id _ hg
    refine ⟨ops', home', hh, ?_⟩
    rcases hhome' with rfl | hgone
    · exact hhome
    · exact .inr hgone
  new u j hu hj := by
    cases hg : g.instr? u with
    | none => exact hgh.new u j hg hj
    | some k =>
      obtain ⟨ops, home, hh, -⟩ := hgh.old u k hg
      cases hh.symm.trans hj
      exact hfg.new u k hu hg

theorem leaves_erase (hi : f.instr? id = some i) (hop : i.op ∈ narrowed ∨ isResize i.op = true)
    (he : f.erase id = .ok g) : Leaves f g where
  old x j hj := by
    rw [Func.instr?_of_erase he, hj]
    split
    · next hx =>
      subst hx
      cases hi.symm.trans hj
      exact ⟨i.operands, none, rfl, .inr ⟨rfl, hop⟩⟩
    · exact ⟨j.operands, j.home, rfl, .inl rfl⟩
  new x j hx hj := by
    rw [Func.instr?_of_erase he, hx] at hj
    split at hj <;> cases hj

/-- A conversion copies the function, up to the instruction that it erases and the name that it gives
to a new one. -/
theorem leaves_convert {w : Int} (hi : f.instr? id = some i) (hop : i.op ∈ narrowed)
    (he : (convert scope id w).run f = .ok () g) : Leaves f g := by
  obtain ⟨j, ops, g₁, g₂, u, wide, g₃, g₄, hj, hops, hu, hwide, hg₄, rfl⟩ := convert_cases he
  cases hi.symm.trans hj
  have hins := Func.allowsInsertion_copies f
  have h₁ := (keeps_narrowOperands hins _ _).of_ok (.refl f) hops
  have h₂ := (hins.insertBefore rfl rfl id).of_ok h₁ (Edit.change_eq_ok.mpr hu)
  have h₃ := ((keeps_resize hins _ _).of_ok h₂ hwide).replaceAllUses id wide
  have hnew : f.instr? u = none := by
    simp only [Func.insertBefore, Checked.bind_eq_ok] at hu
    obtain ⟨_, -, _, -, hu⟩ := hu
    obtain ⟨_, _, _, -, -, -, rfl, -⟩ := Func.insertAt_spec hu
    refine h₁.fresh ?_
    cases hg₁ : g₁.instr? (g₁.instrs.size : Int) with
    | none => rfl
    | some k => exact absurd (Func.lt_of_instr? hg₁).2 (Int.lt_irrefl _)
  have hset (x : Int) (hx : x ≠ u) : (g₄.setInstr u ({ · with name := i.name })).instr? x =
      g₄.instr? x := by
    rw [Func.instr?_setInstr, if_neg (Ne.symm hx)]
  constructor
  · intro x k hk
    obtain ⟨ops', hx⟩ := h₃.old x k hk
    rw [hset x fun he => by cases hnew.symm.trans (he ▸ hk)]
    rw [Func.instr?_of_erase hg₄, hx]
    split
    · next hid =>
      subst hid
      cases hi.symm.trans hk
      exact ⟨ops', none, rfl, .inr ⟨rfl, .inl hop⟩⟩
    · exact ⟨ops', k.home, rfl, .inl rfl⟩
  · intro x k hx hk
    have hne : id ≠ x := fun he => by cases hi.symm.trans (he ▸ hx)
    rw [Func.instr?_setInstr, Func.instr?_of_erase hg₄, if_neg hne] at hk
    split at hk
    · obtain ⟨k', hk', rfl⟩ := Option.map_eq_some_iff.mp hk
      exact h₃.new x k' hx hk'
    · exact h₃.new x k hx hk

theorem leaves_narrow {widths : List Int} {changed : Bool} (hf : f.Intact scope)
    (he : (narrow scope widths).run f = .ok changed g) : Leaves f g :=
  (narrow_intact_induction (P := Leaves f)
    (fun _ _ _ _ _ hg hi hop hg' => hg.trans (leaves_convert hi hop hg'))
    (fun _ _ _ _ hg hi hop hg' => hg.trans (leaves_erase hi (.inr hop) hg')) hf (.refl f) he).2

end Narrow

/-- The instruction stays as it was, apart from its operands, or there is a new one of the same
operation that is marked. -/
def Func.MarkKept (f g : Func) (id : Int) (i : Instr) : Prop :=
  (∃ ops, g.instr? id = some { i with operands := ops }) ∨
    ∃ u j, f.instr? u = none ∧ g.instr? u = some j ∧ j.isErased = false ∧ j.op = i.op ∧
      j.checked = true

/-- A mark is kept if and only if its instruction is not erased, since nothing new is marked. Marked
instructions that cannot be narrowed and are no casts are not erased, and none that is left is ever
advised to move. -/
theorem narrow_marks_iff {file : String} {src : Bytes} {p : Parsed} (hp : parse file src = .ok p)
    (he : p.errors = []) (hf : f ∈ p.module.funcs) {widths : List Int} {changed : Bool}
    (hg : (narrow (some p.module.symbols) widths).run f = .ok changed g) :
    (∀ u j, f.instr? u = none → g.instr? u = some j → j.checked = false) ∧
    ∀ id i, f.instr? id = some i → i.checked = true →
      (f.MarkKept g id i ↔ g.isLive id = true) ∧
      (g.isLive id = true ∨ i.op ∈ narrowed ∨ isResize i.op = true) ∧
      ∀ report, advise (some p.module.symbols) g = .ok report →
        ∀ r ∈ report.records, ∀ c ∈ r.candidates, c.instr ≠ id := by
  have hread := (read_of_parse hp he).funcs f hf
  have hleaves := leaves_narrow hread.intact hg
  refine ⟨hleaves.new, fun id i hi hmark => ?_⟩
  obtain ⟨ops, home, hgi, hhome⟩ := hleaves.old id i hi
  obtain ⟨b, hb⟩ := hread.stands hi
  have hat : i.home = some b := hread.wellFormed.home_eq hb hi
  have hlive : g.isLive id = true ↔ home ≠ none := by
    simp [Func.isLive, hgi, Instr.isErased, Option.isSome_iff_ne_none]
  refine ⟨?_, ?_, ?_⟩
  · rw [hlive]
    constructor
    · rintro (⟨ops', hkept⟩ | ⟨u, j, hu, hj, -, -, hjmark⟩) rfl
      · cases (congrArg Instr.home (Option.some.inj (hgi.symm.trans hkept))).trans hat
      · cases (hleaves.new u j hu hj).symm.trans hjmark
    · intro hne
      obtain rfl := hhome.resolve_right fun hgone => hne hgone.1
      exact .inl ⟨ops, hgi⟩
  · rw [hlive]
    refine hhome.imp (fun hhome => ?_) fun hgone => hgone.2
    simp [hhome, hat]
  · rintro report hreport r hr c hc rfl
    obtain ⟨j, hj, hpinned⟩ := advise_not_pinned hreport hr hc
    cases hgi.symm.trans hj
    exact hpinned (.inr (.inr (.inl hmark)))

def remainder : Bytes := Bytes.ofString
  ("func @f(%p: ptr, %x: i8) -> i32 \x7b\na:\n  %w = load checked i32, %p\n" ++
    "  %u = sext i8 %x to i32\n  br b\nb:\n  %q = srem checked i32 %u, 10\n" ++
    "  %s = add i32 %w, %q\n  ret i32 %s\n\x7d\n")

def advised (s : Symbols) (f : Func) : Option (List (Int × Reason)) :=
  (advise (some s) f).toOption.map fun r =>
    r.records.flatMap fun r => r.candidates.map fun c => (c.instr, c.reason)

def narrowedTo (s : Symbols) (f : Func) : Option Func :=
  let narrowed := (narrow (some s) []).apply f
  narrowed.2.toOption.map fun _ => narrowed.1

theorem run_of_narrowedTo {s : Symbols} (hg : narrowedTo s f = some g) :
    ∃ changed, (narrow (some s) []).run f = .ok changed g := by
  simp only [narrowedTo, Edit.apply] at hg
  cases hrun : (narrow (some s) []).run f with
  | ok changed h =>
    rw [hrun] at hg
    cases hg
    exact ⟨changed, rfl⟩
  | error e h =>
    rw [hrun] at hg
    cases hg

theorem run_remainder : ∃ p f changed g load rest, parse "f.mir" remainder = .ok p ∧ p.errors = [] ∧
    f ∈ p.module.funcs ∧ (narrow (some p.module.symbols) []).run f = .ok changed g ∧
    (f.instr? 0 = some load ∧ load.checked = true ∧ g.isLive 0 = true) ∧
    (f.instr? 3 = some rest ∧ rest.isErased = false ∧ rest.op = .srem ∧ rest.checked = true) ∧
    (∀ j ∈ g.instrs, j.isErased = false → j.op = .srem → j.checked = false) ∧
    advised p.module.symbols f = some [] ∧
    advised p.module.symbols g = some [(7, .pure), (8, .pure), (4, .pure)] := by
  have hrun : ((parse "f.mir" remainder).toOption.bind fun p => p.module.funcs.head?.bind fun f =>
      (f.instr? 0).bind fun load => (f.instr? 3).bind fun rest =>
        (narrowedTo p.module.symbols f).map fun g =>
          p.errors.isEmpty && (load.checked && g.isLive 0) &&
            (!rest.isErased && rest.op = .srem && rest.checked) &&
            (g.instrs.all fun j => j.isErased || j.op ≠ .srem || !j.checked) &&
            advised p.module.symbols f = some [] &&
            advised p.module.symbols g = some [(7, .pure), (8, .pure), (4, .pure)]) = some true := by
    decide +kernel
  simp only [Option.bind_eq_some_iff, Option.map_eq_some_iff, Checked.toOption_eq_some,
    Bool.and_eq_true, Bool.not_eq_true', decide_eq_true_eq] at hrun
  obtain ⟨p, hp, f, hf, load, hload, rest, hrest, g, hg,
    ⟨⟨⟨⟨he, hkept⟩, ⟨hlive, hop⟩, hmark⟩, hall⟩, hbefore⟩, hafter⟩ := hrun
  obtain ⟨changed, hg⟩ := run_of_narrowedTo hg
  refine ⟨p, f, changed, g, load, rest, hp, List.isEmpty_iff.mp he, List.mem_of_mem_head? hf, hg,
    ⟨hload, hkept⟩, ⟨hrest, hlive, hop, hmark⟩, fun j hj hjlive hjop => ?_, hbefore, hafter⟩
  have hj := Array.all_eq_true'.mp hall j hj
  simpa [hjlive, hjop] using hj

/-- The load stays, with its mark. -/
theorem remainder_keeps_load : ∃ p f changed g load, parse "f.mir" remainder = .ok p ∧ p.errors = [] ∧
    f ∈ p.module.funcs ∧ (narrow (some p.module.symbols) []).run f = .ok changed g ∧
    f.instr? 0 = some load ∧ load.checked = true ∧ f.MarkKept g 0 load := by
  obtain ⟨p, f, changed, g, load, -, hp, he, hf, hg, ⟨hload, hmark, hlive⟩, -⟩ := run_remainder
  exact ⟨p, f, changed, g, load, hp, he, hf, hg, hload, hmark,
    ((narrow_marks_iff hp he hf hg).2 0 load hload hmark).1.mpr hlive⟩

/-- The remainder is done in sixteen bits, without its mark, and is advised to move. -/
theorem remainder_loses_mark : ∃ p f changed g rest, parse "f.mir" remainder = .ok p ∧ p.errors = [] ∧
    f ∈ p.module.funcs ∧ (narrow (some p.module.symbols) []).run f = .ok changed g ∧
    f.instr? 3 = some rest ∧ rest.checked = true ∧ ¬f.MarkKept g 3 rest ∧
    advised p.module.symbols f = some [] ∧
    advised p.module.symbols g = some [(7, .pure), (8, .pure), (4, .pure)] := by
  obtain ⟨p, f, changed, g, -, rest, hp, he, hf, hg, -, ⟨hrest, hlive, hop, hmark⟩, hall, hbefore,
    hafter⟩ := run_remainder
  refine ⟨p, f, changed, g, rest, hp, he, hf, hg, hrest, hmark, ?_, hbefore, hafter⟩
  rintro (⟨ops, hkept⟩ | ⟨u, j, -, hj, hjlive, hjop, hjmark⟩)
  · cases (hall _ (Func.mem_of_instr? hkept) hlive hop).symm.trans hmark
  · cases (hall j (Func.mem_of_instr? hj) hjlive (hjop.trans hop)).symm.trans hjmark

end RegPressure
