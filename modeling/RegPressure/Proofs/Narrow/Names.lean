import RegPressure.Proofs.IR.Names
import RegPressure.Proofs.Narrow.Intact

namespace RegPressure

namespace Func

variable {f g : Func} {b u pos id : Int} {i : Instr} {x : String}

theorem namesNothing_insertAt (hi : i.name = "") (he : f.insertAt b pos i = .ok (g, u)) :
    f.NamesNothing g := by
  obtain ⟨blk, l, r, -, -, -, hu, -, -, hparams, hinstr, -⟩ := insertAt_spec he
  refine ⟨hparams, fun id x ⟨hne, j, hj, hlive, hx⟩ => ⟨hne, j, ?_, hlive, hx⟩,
    fun id j hj herased => ?_⟩
  · rw [hinstr] at hj
    split at hj
    · cases hj
      exact absurd (hx.symm.trans hi) hne
    · exact hj
  · have hlt := lt_of_instr? hj
    exact ⟨j, by rw [hinstr, if_neg (by omega), hj], herased⟩

theorem namesNothing_replaceAllUses (f : Func) (old : Int) (v : Value) :
    f.NamesNothing (f.replaceAllUses old v) := by
  refine ⟨rfl, fun id x ⟨hne, j, hj, hlive, hx⟩ => ⟨hne, ?_⟩, fun id i hi herased => ?_⟩
  · rw [instr?_replaceAllUses] at hj
    obtain ⟨i, hi, rfl⟩ := Option.map_eq_some_iff.mp hj
    refine ⟨i, hi, ?_⟩
    split at hlive
    · next h => exact absurd (h.symm.trans hlive) (by decide)
    · next h =>
      rw [if_neg h] at hx
      exact ⟨hlive, hx⟩
  · exact ⟨i, by rw [instr?_replaceAllUses, hi, Option.map_some, if_pos herased], herased⟩

theorem params_of_erase (he : f.erase u = .ok g) : g.params = f.params := by
  simp only [erase, Checked.bind_eq_ok, Checked.pure_eq_ok] at he
  obtain ⟨n, -, i, -, rfl⟩ := he
  rw [params_setInstr, params_setBlock]

theorem named_of_erase (he : f.erase u = .ok g) (hid : g.Named id x) : f.Named id x ∧ id ≠ u := by
  obtain ⟨hne, j, hj, hlive, hx⟩ := hid
  rw [instr?_of_erase he] at hj
  split at hj
  · obtain ⟨i, -, rfl⟩ := Option.map_eq_some_iff.mp hj
    cases hlive
  · next hu => exact ⟨⟨hne, j, hj, hlive, hx⟩, Ne.symm hu⟩

theorem namesNothing_erase (he : f.erase u = .ok g) : f.NamesNothing g where
  params := params_of_erase he
  named _ _ hid := (named_of_erase he hid).1
  erased id i hi herased := by
    rw [instr?_of_erase he, hi]
    split
    · exact ⟨_, rfl, rfl⟩
    · exact ⟨i, rfl, herased⟩

theorem live_of_erase (he : f.erase u = .ok g) (hi : f.instr? u = some i) : i.isErased = false := by
  simp only [erase, Checked.bind_eq_ok] at he
  obtain ⟨n, hn, -⟩ := he
  obtain ⟨b, j, hj, hhome, -⟩ := stands_of_indexOf hn
  rw [hi] at hj
  cases hj
  simp [Instr.isErased, hhome]

/-- The name of an erased instruction can be given to another one. -/
theorem NamesApart.setName {h : Func} (hf : f.NamesApart) (hi : f.instr? u = some i)
    (hfg : f.NamesNothing g) (he : g.erase u = .ok h) (id : Int) :
    (h.setInstr id ({ · with name := i.name })).NamesApart := by
  have hlive : i.isErased = false := by
    by_contra herased
    obtain ⟨j, hj, hjerased⟩ := hfg.erased u i hi (by simpa using herased)
    rw [live_of_erase he hj] at hjerased
    cases hjerased
  have hfh := hfg.trans (namesNothing_erase he)
  -- Under the name of `u` there is only the instruction that gets it.
  have hnamed : ∀ y x, (h.setInstr id ({ · with name := i.name })).Named y x →
      h.Named y x ∧ y ≠ id ∨ y = id ∧ f.Named u x := by
    rintro y x ⟨hne, j, hj, hjlive, hx⟩
    rw [instr?_setInstr] at hj
    split at hj
    · next hy =>
      obtain ⟨k, -, rfl⟩ := Option.map_eq_some_iff.mp hj
      exact .inr ⟨hy.symm, hne, i, hi, hlive, hx⟩
    · next hy => exact .inl ⟨⟨hne, j, hj, hjlive, hx⟩, Ne.symm hy⟩
  have hfree : ∀ y x, h.Named y x → ¬f.Named u x := by
    intro y x hy hu
    obtain ⟨hgy, hyu⟩ := named_of_erase he hy
    exact hyu (hf.unique x y u (hfg.named y x hgy) hu)
  have hparams : (h.setInstr id ({ · with name := i.name })).params = f.params := by
    rw [params_setInstr, hfh.params]
  refine ⟨hparams ▸ hf.given, hparams ▸ hf.params, fun x y z hy hz => ?_, fun x y hy => ?_⟩
  · rcases hnamed y x hy with ⟨hy', -⟩ | ⟨rfl, hu⟩
    · rcases hnamed z x hz with ⟨hz', -⟩ | ⟨-, hu⟩
      · exact hf.unique x y z (hfh.named y x hy') (hfh.named z x hz')
      · exact absurd hu (hfree y x hy')
    · rcases hnamed z x hz with ⟨hz', -⟩ | ⟨hz', -⟩
      · exact absurd hu (hfree z x hz')
      · exact hz'.symm
  · rw [hparams]
    rcases hnamed y x hy with ⟨hy, -⟩ | ⟨-, hu⟩
    · exact hf.new x y (hfh.named y x hy)
    · exact hf.new x u hu

end Func

namespace Narrow

open Func Edit

variable {scope : Option Symbols} {f g f₀ : Func} {id : Int}

theorem allowsInsertion_namesNothing (f₀ : Func) : AllowsInsertion f₀.NamesNothing :=
  fun _ _ _ _ _ _ hname _ hf he => hf.trans (namesNothing_insertAt hname he)

theorem keeps_erase (id : Int) : Keeps f₀.NamesNothing (Edit.erase id) :=
  keeps_change fun f g _ hf he => by
    simp only [Checked.bind_eq_ok, Checked.pure_eq_ok, Prod.mk.injEq, and_true] at he
    obtain ⟨_, he, rfl⟩ := he
    exact hf.trans (namesNothing_erase he)

theorem keeps_convert (id width : Int) : Keeps NamesApart (convert scope id width) := by
  intro f hf
  unfold Edit.apply
  cases hrun : (convert scope id width).run f with
  | error x g =>
    refine hf.of_namesNothing ?_
    unfold convert at hrun
    have hins := allowsInsertion_namesNothing f
    refine (keeps_ask _).error_of_bind (fun i f₁ _ h₁ hrun => ?_) (NamesNothing.refl f) hrun
    refine (keeps_narrowOperands hins _ _).error_of_bind (fun _ f₂ _ h₂ hrun => ?_) h₁ hrun
    refine (hins.insertBefore rfl rfl _).error_of_bind (fun _ f₃ _ h₃ hrun => ?_) h₂ hrun
    refine (keeps_resize hins _ _).error_of_bind (fun wide f₄ _ h₄ hrun => ?_) h₃ hrun
    refine (keeps_modify fun k hk => hk.trans (namesNothing_replaceAllUses k id wide)).error_of_bind
      (fun _ f₅ _ h₅ hrun => ?_) h₄ hrun
    exact (keeps_erase id).error_of_bind (fun _ _ _ _ hrun => by cases hrun) h₅ hrun
  | ok _ g =>
    obtain ⟨i, ops, g₁, g₂, u, wide, g₃, g₄, hi, hops, hu, hwide, hg₄, rfl⟩ := convert_cases hrun
    have hins := allowsInsertion_namesNothing f
    have h₁ := (keeps_narrowOperands hins _ _).of_ok (.refl f) hops
    have h₂ := (hins.insertBefore rfl rfl id).of_ok h₁ (Edit.change_eq_ok.mpr hu)
    have h₃ := (keeps_resize hins _ _).of_ok h₂ hwide
    have h₄ := h₃.trans (namesNothing_replaceAllUses g₃ id wide)
    exact hf.setName hi h₄ hg₄ u

theorem keeps_convertAll (d : DomInfo) (widths : List Int) (steps : Nat) :
    Keeps NamesApart (convertAll scope d widths steps) := by
  induction steps with
  | zero => exact keeps_throw _
  | succ steps ih =>
    refine (keeps_ask _).bind fun next => ?_
    cases next with
    | none => exact keeps_pure _
    | some p => exact (keeps_convert _ _).bind fun _ => ih.bind fun _ => keeps_pure _

theorem keeps_eraseDeadCasts (rounds : Nat) : Keeps f₀.NamesNothing (eraseDeadCasts rounds) := by
  induction rounds with
  | zero => exact keeps_throw _
  | succ rounds ih =>
    refine keeps_get.bind fun _ => (keeps_ask _).bind fun _ => ?_
    dsimp only
    split
    · exact keeps_pure _
    · exact (keeps_forM keeps_erase).bind fun _ => ih

theorem keeps_narrow (widths : List Int) : Keeps NamesApart (narrow scope widths) := by
  refine (keeps_ask _).bind fun d => keeps_get.bind fun _ =>
    (keeps_convertAll _ _ _).bind fun changed => ?_
  have herase (n : Nat) : Keeps NamesApart (eraseDeadCasts n) := fun f hf =>
    hf.of_namesNothing (keeps_eraseDeadCasts n f (.refl f))
  split
  · exact keeps_get.bind fun _ => (herase _).bind fun _ => keeps_pure _
  · exact keeps_pure _

end Narrow

end RegPressure
