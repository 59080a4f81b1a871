import RegPressure.Proofs.IR.Structure
import Mathlib.Data.List.Nodup

namespace RegPressure

theorem ofDigitChars_toString (n : Nat) : Nat.ofDigitChars 10 (toString n).toList 0 = n := by
  rw [Nat.toString_eq_ofList_toDigits, String.toList_ofList,
    Nat.ofDigitChars_toDigits (by decide) (by decide)]

theorem eq_of_numbered {stem : String} {m n : Nat} (h : stem ++ toString m = stem ++ toString n) :
    m = n := by
  have hdigits := congrArg (Nat.ofDigitChars 10 ·.toList 0) (String.append_right_inj _ |>.mp h)
  simpa only [ofDigitChars_toString] using hdigits

theorem firstFree_spec (taken : List String) (stem : String) (n : Nat) :
    firstFree taken stem n ∉ taken ∧ ∃ k, n ≤ k ∧ firstFree taken stem n = stem ++ toString k := by
  fun_induction firstFree taken stem n with
  | case1 taken n name hmem ih =>
    obtain ⟨hnew, k, hk, hname⟩ := ih
    refine ⟨fun h => hnew ((List.mem_erase_of_ne fun he => ?_).mpr h), k, Nat.le_of_succ_le hk, hname⟩
    exact absurd (eq_of_numbered (hname.symm.trans he)) (by omega)
  | case2 taken n name hfree => exact ⟨hfree, n, Nat.le_refl n, rfl⟩

namespace Func

variable {f g h : Func} {x base : String} {id : Int}

def Named (f : Func) (id : Int) (x : String) : Prop :=
  x ≠ "" ∧ ∃ i, f.instr? id = some i ∧ i.isErased = false ∧ i.name = x

structure NamesApart (f : Func) : Prop where
  given : ∀ p ∈ f.params, p.name ≠ ""
  params : (f.params.map (·.name)).Nodup
  unique : ∀ x id u, f.Named id x → f.Named u x → id = u
  new : ∀ x id, f.Named id x → ∀ p ∈ f.params, p.name ≠ x

structure NamesNothing (f g : Func) : Prop where
  params : g.params = f.params
  named : ∀ id x, g.Named id x → f.Named id x
  erased : ∀ id i, f.instr? id = some i → i.isErased = true →
    ∃ j, g.instr? id = some j ∧ j.isErased = true

theorem NamesNothing.refl (f : Func) : f.NamesNothing f :=
  ⟨rfl, fun _ _ hx => hx, fun _ i hi he => ⟨i, hi, he⟩⟩

theorem NamesNothing.trans (hfg : f.NamesNothing g) (hgh : g.NamesNothing h) : f.NamesNothing h where
  params := hgh.params.trans hfg.params
  named id x hx := hfg.named id x (hgh.named id x hx)
  erased id i hi he := by
    obtain ⟨j, hj, he⟩ := hfg.erased id i hi he
    exact hgh.erased id j hj he

theorem NamesApart.of_namesNothing (hf : f.NamesApart) (h : f.NamesNothing g) : g.NamesApart where
  given := h.params ▸ hf.given
  params := h.params ▸ hf.params
  unique x id u hid hu := hf.unique x id u (h.named id x hid) (h.named u x hu)
  new x id hid := h.params ▸ hf.new x id (h.named id x hid)

theorem mem_usedNames : x ∈ f.usedNames ↔ (∃ p ∈ f.params, p.name = x) ∨ ∃ id, f.Named id x := by
  have hinstrs : (∃ i, (i ∈ f.instrs ∧ i.isErased = false ∧ i.name ≠ "") ∧ i.name = x) ↔
      ∃ id, f.Named id x := by
    constructor
    · rintro ⟨i, ⟨hi, hlive, hne⟩, rfl⟩
      obtain ⟨n, hn⟩ := Array.getElem?_of_mem hi
      exact ⟨n, hne, i, by simpa [instr?] using hn, hlive, rfl⟩
    · rintro ⟨id, hne, i, hi, hlive, rfl⟩
      exact ⟨i, ⟨mem_of_instr? hi, hlive, hne⟩, rfl⟩
  rw [← hinstrs]
  simp [usedNames]

theorem uniqueName_spec (f : Func) (base : String) : f.uniqueName base ∉ f.usedNames ∧
    (f.uniqueName base = base ∨ ∃ k : Nat, f.uniqueName base = base ++ toString k) := by
  unfold uniqueName
  split
  · obtain ⟨hnew, k, -, hk⟩ := firstFree_spec f.usedNames base 1
    exact ⟨hnew, .inr ⟨k, hk⟩⟩
  · next hfree => exact ⟨hfree, .inl rfl⟩

theorem uniqueName_ne_empty (f : Func) (base : String) (hbase : base ≠ "") :
    f.uniqueName base ≠ "" := by
  obtain ⟨-, h | ⟨n, h⟩⟩ := f.uniqueName_spec base
  · rwa [h]
  · rw [h]
    simp [hbase]

end Func

end RegPressure
