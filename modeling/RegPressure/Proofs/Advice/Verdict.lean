import RegPressure.Advice.Verdict
import RegPressure.Proofs.IR.Checked

namespace RegPressure

variable {o : AliasOracle} {region : List Nat} {i : Instr} {r : Reason}

/-- How the verdict on a load comes about. -/
theorem loadVerdict_cases (h : loadVerdict o region i = .ok r) :
    i.isUnordered = false ∧ r = .orderedAccess ∨
    i.isUnordered = true ∧ ∃ addr, element i.operands 0 = .ok addr ∧
      (o.isImmutable addr = .ok true ∧ r = .immutableLoad ∨
        o.isImmutable addr = .ok false ∧
          (i.access.invariant = true ∧ r = .invariantLoad ∨
            i.access.invariant = false ∧
              ∃ modified, o.modified ⟨addr, i.ty.storeSize.getD 0, i.access⟩ region = .ok modified ∧
                r = if modified then .mayBeModified else .unmodifiedLoad)) := by
  unfold loadVerdict at h
  split at h
  · next hu =>
    cases h
    exact .inl ⟨by simpa using hu, rfl⟩
  · next hu =>
    simp only [Checked.bind_eq_ok] at h
    obtain ⟨addr, haddr, immutable, himm, h⟩ := h
    refine .inr ⟨by simpa using hu, addr, haddr, ?_⟩
    cases immutable with
    | true =>
      cases h
      exact .inl ⟨himm, rfl⟩
    | false =>
      refine .inr ⟨himm, ?_⟩
      cases hinv : i.access.invariant with
      | true =>
        simp only [hinv, if_true] at h
        cases h
        exact .inl ⟨rfl, rfl⟩
      | false =>
        simp only [hinv, Bool.false_eq_true, if_false] at h
        obtain ⟨modified, hm, h⟩ := Checked.bind_eq_ok.mp h
        refine .inr ⟨rfl, modified, hm, ?_⟩
        cases modified <;> cases h <;> rfl

theorem verdict_load (hop : i.op = .load) (hchecked : i.checked = false) :
    verdict o region i = loadVerdict o region i := by
  simp [verdict, hop, hchecked]

theorem verdict_of_ne_load (hop : i.op ≠ .load) (o' : AliasOracle) (region' : List Nat) :
    verdict o region i = verdict o' region' i := by
  unfold verdict
  split
  · rfl
  · split
    · next h => exact absurd h hop
    all_goals rfl

/-- Only unchecked loads and operations without effects may move, and of the loads only those that
are not ordered. -/
theorem verdict_movable (h : verdict o region i = .ok r) (hr : r.isMovable = true) :
    i.checked = false ∧
      (i.op = .load ∧ i.isUnordered = true ∨ i.op.isPure = true ∧ r = .pure) := by
  cases hchecked : i.checked with
  | true =>
    simp only [verdict, hchecked, if_true] at h
    cases h
    cases hr
  | false =>
    refine ⟨rfl, ?_⟩
    by_cases hop : i.op = .load
    · rw [verdict_load hop hchecked] at h
      rcases loadVerdict_cases h with ⟨-, rfl⟩ | ⟨hu, -⟩
      · cases hr
      · exact .inl ⟨hop, hu⟩
    · right
      simp only [verdict, hchecked, Bool.false_eq_true, if_false] at h
      split at h
      · next hload => exact absurd hload hop
      · split at h <;> cases h <;> cases hr
      · cases h
        cases hr
      · cases h
        cases hr
      · cases h
        cases hr
      · cases h
        cases hr
      · split at h
        · next hpure =>
          cases h
          exact ⟨hpure, rfl⟩
        · cases h
          cases hr

/-- A load moves for its own reason if no block of the region may write what it reads. -/
theorem verdict_unmodified (h : verdict o region i = .ok .unmodifiedLoad) :
    i.op = .load ∧ ∃ addr, element i.operands 0 = .ok addr ∧
      o.modified ⟨addr, i.ty.storeSize.getD 0, i.access⟩ region = .ok false := by
  obtain ⟨hchecked, ⟨hop, -⟩ | ⟨-, hr⟩⟩ := verdict_movable h rfl
  · refine ⟨hop, ?_⟩
    rw [verdict_load hop hchecked] at h
    rcases loadVerdict_cases h with ⟨-, h⟩ | ⟨-, addr, haddr, ⟨-, h⟩ | ⟨-, ⟨-, h⟩ | ⟨-, m, hm, h⟩⟩⟩
    · cases h
    · cases h
    · cases h
    · cases m with
      | true => cases h
      | false => exact ⟨addr, haddr, hm⟩
  · cases hr

theorem Op.of_isPure {op : Op} (h : op.isPure = true) : op.isTerminator = false ∧ op ≠ .load ∧
    op ∉ [Op.phi, .alloca, .store, .call, .fence, .atomicrmw, .cmpxchg] := by
  cases op <;> first | cases h; done | exact ⟨rfl, by decide, by decide⟩

/-- What stays where it is, whatever the operands and whatever is known about memory. -/
def Instr.Pinned (i : Instr) : Prop :=
  i.op.isTerminator = true ∨ i.op ∈ [Op.phi, .alloca, .store, .call, .fence, .atomicrmw, .cmpxchg] ∨
    i.checked = true ∨
    i.op = .load ∧ (i.volatile = true ∨ MemOrder.unordered.rank < i.ordering.rank)

theorem not_pinned_of_verdict (h : verdict o region i = .ok r) (hr : r.isMovable = true) :
    ¬ i.Pinned := by
  obtain ⟨hchecked, ⟨hop, hu⟩ | ⟨hpure, -⟩⟩ := verdict_movable h hr
  · have hordered : i.volatile = false ∧ i.ordering.rank ≤ MemOrder.unordered.rank := by
      simpa [Instr.isUnordered] using hu
    rintro (hp | hp | hp | ⟨-, hp | hp⟩)
    · rw [hop] at hp
      cases hp
    · rw [hop] at hp
      exact absurd hp (by decide)
    · cases hchecked.symm.trans hp
    · cases hordered.1.symm.trans hp
    · exact absurd hordered.2 (Nat.not_le.mpr hp)
  · obtain ⟨hterm, hload, hnot⟩ := Op.of_isPure hpure
    rintro (hp | hp | hp | ⟨hp, -⟩)
    · cases hterm.symm.trans hp
    · exact hnot hp
    · cases hchecked.symm.trans hp
    · exact hload hp

end RegPressure
