import RegPressure.Pass.Assumption
import RegPressure.Pass.Rename
import RegPressure.Proofs.Faultless.Base
import RegPressure.Proofs.IR.Intact

namespace RegPressure

namespace Func

variable {scope : Option Symbols} {f g : Func} {id u : Int} {i call : Instr}

/-- Putting an instruction right behind another one, neither of them a phi or a terminator. -/
theorem Intact.insertAfter (hf : f.Intact scope) (hid : f.Resolves scope (.instr id))
    (hidphi : f.opOf id ≠ .phi) (hidterm : (f.opOf id).isTerminator = false)
    (hi : f.References scope i) (hphi : i.op ≠ .phi) (hterm : i.op.isTerminator = false)
    (hbit : i.op = .icmp → i.ty = .i1) : ∃ g u, f.insertAfter id i = .ok (g, u) ∧ g.Intact scope ∧
      f.Grows g ∧ g.opOf u = i.op ∧ g.Resolves scope (.instr u) := by
  obtain ⟨c, _, hc, -⟩ := hf.exists_stands hid
  obtain ⟨⟨g, u⟩, he⟩ := hf.wellFormed.answers_insertAfter hc i
  obtain ⟨b, l, r, hins⟩ := inserts_of_insertAfter hf.wellFormed he hphi hidphi hidterm hterm
  refine ⟨g, u, he, hf.inserted hins ⟨hi.operands, hi.targets, hi.arity⟩ (fun h => absurd h hphi) hbit,
    hins.grows, hins.opOf_self, ?_⟩
  simp [Resolves, isLive, hins.instr_eq, Instr.isErased]

end Func

namespace Assumption

variable {scope : Option Symbols} {f g : Func} {id : Int} {i call : Instr} {b : Bounds}

theorem references_comparison (hid : f.Resolves scope (.instr id)) (h : Func) (call : Instr)
    (pred : String) (bound : Int64) : f.References scope (comparison h id call pred bound) where
  operands v hv := by
    simp only [comparison, List.mem_cons, List.not_mem_nil, or_false] at hv
    rcases hv with rfl | rfl
    · exact hid
    · trivial
  targets := by simp [comparison]
  arity := nofun

theorem references_statement (hid : f.Resolves scope (.instr id)) (call : Instr) :
    f.References scope (statement call id) where
  operands v hv := by
    rw [List.mem_singleton.mp hv]
    exact hid
  targets := by simp [statement]
  arity := nofun

theorem exists_state (hf : f.Intact scope) (hi : f.instr? id = some i) (hop : i.op = .call)
    (hid : f.Resolves scope (.instr id)) (call : Instr) (b : Bounds) :
    ∃ g, state f id call b = .ok g ∧ g.Intact scope ∧ f.Grows g := by
  have hcall : f.opOf id = .call := by rw [Func.opOf_eq hi, hop]
  obtain ⟨f₁, least, h₁, hf₁, hgrows₁, hop₁, hleast⟩ := hf.insertAfter hid (by rw [hcall]; decide)
    (by rw [hcall]; rfl) (references_comparison hid f call "sge" b.min)
    (by simp [comparison]) rfl (fun _ => rfl)
  have hop₁ : f₁.opOf least = .icmp := hop₁
  obtain ⟨f₂, most, h₂, hf₂, hgrows₂, hop₂, hmost⟩ := hf₁.insertAfter hleast (by rw [hop₁]; decide)
    (by rw [hop₁]; rfl)
    (references_comparison (hgrows₁.resolves hid) f₁ call "sle" b.max)
    (by simp [comparison]) rfl (fun _ => rfl)
  have hop₂ : f₂.opOf most = .icmp := hop₂
  obtain ⟨f₃, first, h₃, hf₃, hgrows₃, hop₃, hfirst⟩ := hf₂.insertAfter hmost (by rw [hop₂]; decide)
    (by rw [hop₂]; rfl) (references_statement (hgrows₂.resolves hleast) call)
    (by simp [statement]) rfl (by simp [statement])
  have hop₃ : f₃.opOf first = .call := hop₃
  obtain ⟨f₄, second, h₄, hf₄, hgrows₄, -⟩ := hf₃.insertAfter hfirst (by rw [hop₃]; decide)
    (by rw [hop₃]; rfl) (references_statement (hgrows₃.resolves hmost) call)
    (by simp [statement]) rfl (by simp [statement])
  refine ⟨f₄, ?_, hf₄, ((hgrows₁.trans hgrows₂).trans hgrows₃).trans hgrows₄⟩
  simp only [state, h₁, h₂, h₃, h₄, Checked.ok_bind]
  rfl

end Assumption

namespace Func

variable {scope : Option Symbols} {s t : Symbols} {f g : Func}

theorem Intact.mono (hs : s.globals.length ≤ t.globals.length) (h : f.Intact (some s)) :
    f.Intact (some t) :=
  { h with wellFormed := h.wellFormed.mono hs }

theorem Intact.exists_assumeBounds (hf : f.Intact scope) (table : BoundsTable) :
    ∃ r, f.assumeBounds table = .ok r ∧ r.1.Intact scope := by
  obtain ⟨placed, hplaced, -⟩ := hf.wellFormed.exists_placed
  let calls := placed.filterMap fun x => (Assumption.boundsOf? table x.2).map fun b => (x.1, x.2, b)
  -- The calls keep their numbers and operations while their neighbours come in.
  have hfold : ∃ g, calls.foldlM (fun k x => Assumption.state k x.1 x.2.1 x.2.2) f = .ok g ∧
      (g.Intact scope ∧ f.Grows g) := by
    refine Checked.answers_foldlM (fun k => k.Intact scope ∧ f.Grows k) (fun k x hx hkeep => ?_)
      ⟨hf, .refl f⟩
    obtain ⟨⟨id, i⟩, hmem, hx⟩ := List.mem_filterMap.mp hx
    obtain ⟨b, hb, rfl⟩ := Option.map_eq_some_iff.mp hx
    obtain ⟨hi, c, hc⟩ := mem_placed hplaced hmem
    have hop : i.op = .call := by
      unfold Assumption.boundsOf? at hb
      split at hb
      · next h =>
        simp only [Bool.and_eq_true, decide_eq_true_eq] at h
        exact h.1.1
      · cases hb
    have hid := hf.wellFormed.resolves_of_stands hc
    obtain ⟨k', hk', hintact, hgrows⟩ := Assumption.exists_state hkeep.1 (hkeep.2.instr id i hi) hop
      (hkeep.2.resolves hid) i b
    exact ⟨k', hk', hintact, hkeep.2.trans hgrows⟩
  obtain ⟨g, hg, hkept⟩ := hfold
  refine ⟨(g, !calls.isEmpty), ?_, hkept.1⟩
  rw [Func.assumeBounds, hplaced, Checked.ok_bind]
  exact Checked.bind_eq_ok.mpr ⟨g, hg, rfl⟩

theorem Intact.exists_clean (hf : f.Intact scope) : ∃ r, f.clean = .ok r ∧ r.1.Intact scope := by
  obtain ⟨placed, hplaced, -⟩ := hf.wellFormed.exists_placed
  refine ⟨_, by rw [Func.clean, hplaced]; rfl, ?_⟩
  exact List.foldlRecOn (motive := Func.Intact scope) _ _ hf fun k hk x _ => hk.renamed x.1.1 x.2

end Func

def Module.Intact (m : Module) : Prop := ∀ f ∈ m.funcs, f.Intact (some m.symbols)

namespace Module

variable {m m' : Module}

theorem Intact.verify (h : m.Intact) : m.verify = .ok [] := by
  have hall : ∀ f ∈ m.funcs, f.verify (some m.symbols) = .ok [] := fun f hf =>
    Func.verify_eq_nil.mpr (h f hf).wellFormed
  obtain ⟨l, hl, hnil⟩ := Checked.mapM_flatten_eq_nil.mpr hall
  exact Checked.bind_eq_ok.mpr ⟨l, hl, by rw [hnil]; rfl⟩

theorem Intact.exists_assumeBounds (h : m.Intact) (table : BoundsTable) :
    ∃ r, m.assumeBounds table = .ok r ∧ r.1.Intact := by
  obtain ⟨funcs, hfuncs⟩ := Checked.answers_mapM (l := m.funcs) (f := (·.assumeBounds table))
    fun f hf => ((h f hf).exists_assumeBounds table).imp fun _ => And.left
  refine ⟨_, by rw [Module.assumeBounds, hfuncs]; rfl, fun g hg => ?_⟩
  obtain ⟨r, hmem, rfl⟩ := List.mem_map.mp hg
  obtain ⟨f, hf, he⟩ := Checked.mem_of_mapM hfuncs hmem
  obtain ⟨r', hr', hintact⟩ := (h f hf).exists_assumeBounds table
  cases he.symm.trans hr'
  refine hintact.mono ?_
  -- Declaring a function leaves the globals alone.
  dsimp only
  split
  · unfold Symbols.declareAssume
    split <;> exact Nat.le_refl _
  · exact Nat.le_refl _

theorem length_rename_clean (isBad : String → Bool) (taken names : List String) :
    (Rename.clean isBad taken names).length = names.length := by
  induction names generalizing taken with
  | nil => rfl
  | cons n ns ih =>
    unfold Rename.clean
    split <;> simp [ih]

theorem Intact.exists_clean (h : m.Intact) : ∃ r, m.clean = .ok r ∧ r.1.Intact := by
  obtain ⟨funcs, hfuncs⟩ := Checked.answers_mapM (l := m.funcs) (f := Func.clean)
    fun f hf => (h f hf).exists_clean.imp fun _ => And.left
  refine ⟨_, by rw [Module.clean, hfuncs]; rfl, fun g hg => ?_⟩
  obtain ⟨r, hmem, rfl⟩ := List.mem_map.mp hg
  obtain ⟨f, hf, he⟩ := Checked.mem_of_mapM hfuncs hmem
  obtain ⟨r', hr', hintact⟩ := (h f hf).exists_clean
  cases he.symm.trans hr'
  refine hintact.mono ?_
  simp [length_rename_clean]

end Module

end RegPressure
