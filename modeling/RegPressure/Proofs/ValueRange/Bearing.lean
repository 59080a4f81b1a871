import RegPressure.Proofs.ValueRange.Facts

namespace RegPressure

open Checked

namespace Interval

variable {n : Nat} {r s t : Interval} {x lo hi : Int}

theorem has_of_intersect? (h : r.intersect? s = some t) : t.Has x ↔ r.Has x ∧ s.Has x := by
  simp only [intersect?, Option.ite_none_left_eq_some] at h
  obtain ⟨-, h⟩ := h
  cases h
  simp only [Has]
  omega

theorem exists_intersect? (hr : r.Has x) (hs : s.Has x) :
    ∃ t, r.intersect? s = some t ∧ t.bits = r.bits := by
  obtain ⟨hrlo, hrhi⟩ := hr
  obtain ⟨hslo, hshi⟩ := hs
  refine ⟨_, if_neg ?_, rfl⟩
  omega

theorem eq_of_has (hx : r.Has x) (hbits : r.bits = s.bits) (h : ∀ y, r.Has y ↔ s.Has y) : r = s := by
  have hle : r.lo ≤ r.hi := hx.1.trans hx.2
  have hle' : s.lo ≤ s.hi := ((h x).mp hx).1.trans ((h x).mp hx).2
  have hlo : r.lo = s.lo := Int.le_antisymm ((h s.lo).mpr ⟨Int.le_refl _, hle'⟩).1
    ((h r.lo).mp ⟨Int.le_refl _, hle⟩).1
  have hhi : r.hi = s.hi := Int.le_antisymm ((h r.hi).mp ⟨hle, Int.le_refl _⟩).2
    ((h s.hi).mpr ⟨hle', Int.le_refl _⟩).2
  cases r
  cases s
  simp_all

theorem clamp_eq (hn : 1 ≤ n) (hn' : n ≤ 256) (hlo : (Ty.int n).Holds lo) (hhi : (Ty.int n).Holds hi)
    (hle : lo ≤ hi) : clamp n lo hi = ⟨n, lo, hi⟩ := by
  obtain ⟨hsmallest, hlargest⟩ := extremes hn hn'
  rw [clamp, if_neg]
  simp only [Bool.or_eq_true, decide_eq_true_eq, hsmallest, hlargest]
  obtain ⟨h₁, -⟩ := hlo
  obtain ⟨-, h₂⟩ := hhi
  omega

theorem has_clamped (hn : 1 ≤ n) (hn' : n ≤ 256) (hlo : (Ty.int n).Holds lo)
    (hhi : (Ty.int n).Holds hi) (hle : lo ≤ hi) (hx : (Ty.int n).Holds x) :
    (∀ r, (if (clamp n lo hi).isFull = true then none else some (clamp n lo hi)) = some r → r.Has x) ↔
      lo ≤ x ∧ x ≤ hi := by
  rw [clamp_eq hn hn' hlo hhi hle]
  split
  · next hfull =>
    simp only [isFull, Bool.and_eq_true, decide_eq_true_eq] at hfull
    have hall : (full n).Has x := (has_full hn hn').mpr hx
    simp only [reduceCtorEq, false_implies, implies_true, true_iff]
    exact ⟨hfull.1 ▸ hall.1, hfull.2 ▸ hall.2⟩
  · simp only [Option.some.injEq, forall_eq']
    rfl

end Interval

namespace ValueRange

variable {k : Context} {d : DomInfo} {v : Value} {n : Nat} {c : Int64} {x ctx : Int} {r : Interval}

theorem has_factRange?_sge (hn : 1 ≤ n) (hn' : n ≤ 64) (hc : (Ty.int n).Holds c.toInt)
    (hx : (Ty.int n).Holds x) :
    (∀ r, factRange? "sge" c n = some r → r.Has x) ↔ c.toInt ≤ x := by
  have hfull := Interval.of_full hn (show n ≤ 256 by omega)
  have htop := (Interval.has_full hn (by omega)).mpr hx
  have htop' := (Interval.has_full hn (by omega)).mpr hc
  have h := Interval.has_clamped hn (by omega) hc hfull.hi htop'.2 hx
  exact h.trans (and_iff_left htop.2)

theorem has_factRange?_sle (hn : 1 ≤ n) (hn' : n ≤ 64) (hc : (Ty.int n).Holds c.toInt)
    (hx : (Ty.int n).Holds x) :
    (∀ r, factRange? "sle" c n = some r → r.Has x) ↔ x ≤ c.toInt := by
  have hfull := Interval.of_full hn (show n ≤ 256 by omega)
  have htop := (Interval.has_full hn (by omega)).mpr hx
  have htop' := (Interval.has_full hn (by omega)).mpr hc
  have h := Interval.has_clamped hn (by omega) hfull.lo hc htop'.1 hx
  exact h.trans (and_iff_right htop.1)

/-! ### Narrowing by facts -/

structure Bears (k : Context) (d : DomInfo) (v : Value) (ctx bits : Int) (fact : Fact) : Prop where
  value : fact.value.sameAs v = true
  bits : fact.range.bits = bits
  precedes : k.func.Precedes d fact.site ctx

/-- As long as some number is in all of them, an interval is narrowed to what the intervals of the facts
that bear on the value have in common with it. -/
theorem narrowBy_has (hdom : k.dom = some d)
    (hdoms : ∀ fact ∈ k.facts, Checked.Answers (d.instrDominates k.func fact.site ctx)) (hx : r.Has x)
    (hall : ∀ fact ∈ k.facts, Bears k d v ctx r.bits fact → fact.range.Has x) :
    ∃ q, narrowBy k v (some ctx) r = .ok q ∧ q.bits = r.bits ∧
      ∀ y, q.Has y ↔ r.Has y ∧ ∀ fact ∈ k.facts, Bears k d v ctx r.bits fact → fact.range.Has y := by
  unfold narrowBy
  simp only [hdom]
  generalize k.facts = facts at hdoms hall
  induction facts generalizing r with
  | nil => exact ⟨r, rfl, rfl, by simp⟩
  | cons fact facts ih =>
    have hdoms' := fun fact hf => hdoms fact (List.mem_cons_of_mem _ hf)
    have hall' := fun fact hf => hall fact (List.mem_cons_of_mem _ hf)
    -- A fact that does not bear on the value leaves the interval alone.
    have hskip (hnot : ¬Bears k d v ctx r.bits fact) (y : Int) :
        (∀ x ∈ fact :: facts, Bears k d v ctx r.bits x → x.range.Has y) ↔
          ∀ x ∈ facts, Bears k d v ctx r.bits x → x.range.Has y := by
      rw [List.forall_mem_cons, and_iff_right fun hbears => absurd hbears hnot]
    rw [List.foldlM_cons]
    split
    · next hother =>
      obtain ⟨q, hq, hbits, hhas⟩ := ih hx hdoms' hall'
      refine ⟨q, hq, hbits, fun y => (hhas y).trans (and_congr_right' (hskip ?_ y).symm)⟩
      intro hbears
      simp [hbears.value, hbears.bits] at hother
    next hsame =>
    simp only [Bool.or_eq_true, Bool.not_eq_true', decide_eq_true_eq, not_or, Bool.not_eq_false,
      not_not] at hsame
    obtain ⟨holds, hholds⟩ := hdoms fact (List.mem_cons_self ..)
    rw [hholds, ok_bind]
    cases holds with
    | false =>
      obtain ⟨q, hq, hbits, hhas⟩ := ih hx hdoms' hall'
      refine ⟨q, hq, hbits, fun y => (hhas y).trans (and_congr_right' (hskip ?_ y).symm)⟩
      intro hbears
      cases hholds.symm.trans hbears.precedes
    | true =>
      have hbears : Bears k d v ctx r.bits fact := ⟨hsame.1, hsame.2, hholds⟩
      obtain ⟨t, ht, htbits⟩ := Interval.exists_intersect? hx (hall fact (List.mem_cons_self ..) hbears)
      rw [if_pos rfl, ht, Option.getD_some, pure_bind]
      rw [← htbits] at hall'
      obtain ⟨q, hq, hbits, hhas⟩ := ih ((Interval.has_of_intersect? ht).mpr
        ⟨hx, hall fact (List.mem_cons_self ..) hbears⟩) hdoms' hall'
      refine ⟨q, hq, hbits.trans htbits, fun y => ?_⟩
      rw [hhas y, Interval.has_of_intersect? ht, List.forall_mem_cons, htbits, and_assoc]
      simp [hbears]

end ValueRange

end RegPressure
