import RegPressure.Graph.Dominance
import RegPressure.Proofs.Graph.Search
import Mathlib.Logic.Function.Iterate

namespace RegPressure.DomTree

open RegPressure.Digraph

inductive Above (root : Nat) (idom : Parents) (a : Nat) : Nat → Prop
  | refl : Above root idom a a
  | up {b d : Nat} : b ≠ root → parent idom b = some d → Above root idom a d → Above root idom a b

/-- The node has its place in the tree. -/
def Known (idom : Parents) (b : Nat) : Prop := ∃ d, parent idom b = some d

/-- The search for a common ancestor of two nodes, where the one that comes later moves up to its
parent, ends at the third node. -/
inductive Meets (idom : Parents) (rank : Nat → Nat) : Nat → Nat → Nat → Prop
  | here (a : Nat) : Meets idom rank a a a
  | left {a b c d : Nat} : rank b < rank a → parent idom a = some d → Meets idom rank d b c →
    Meets idom rank a b c
  | right {a b c d : Nat} : rank a < rank b → parent idom b = some d → Meets idom rank a d c →
    Meets idom rank a b c

def forward (g : Digraph) (order : List Nat) (x : Nat) : List Nat :=
  (g.succ x).filter fun y => order.idxOf x < order.idxOf y

def retreats (order : List Nat) : List Nat → Nat
  | y :: x :: l => (if order.idxOf x < order.idxOf y then 0 else 1) + retreats order (x :: l)
  | _ => 0

/-- Every parent comes before its child in the order and leads to it by edges that go forward. -/
structure IsForest (g : Digraph) (root : Nat) (order : List Nat) (idom : Parents) : Prop where
  size_eq : idom.size = g.size
  root_parent : parent idom root = some root
  placed : ∀ b, Known idom b → b ∈ order
  parent_known : ∀ b d, parent idom b = some d → Known idom d
  parent_before : ∀ b d, b ≠ root → parent idom b = some d → order.idxOf d < order.idxOf b
  leads : ∀ b d, b ≠ root → parent idom b = some d → Reaches (forward g order) d b

section

variable {g : Digraph} {root : Nat} {order : List Nat} {idom : Parents}

theorem retreats_suffix (order : List Nat) {k l : List Nat} (h : k <:+ l) : retreats order k ≤ retreats order l := by
  induction l with
  | nil =>
    obtain rfl := List.suffix_nil.mp h
    exact Nat.le_refl _
  | cons y l ih =>
    rcases List.suffix_cons_iff.mp h with rfl | h
    · exact Nat.le_refl _
    · refine Nat.le_trans (ih h) ?_
      cases l with
      | nil => simp [retreats]
      | cons x l => simp [retreats]

theorem retreats_lt_length (order : List Nat) {l : List Nat} (h : l ≠ []) : retreats order l < l.length := by
  induction l with
  | nil => exact absurd rfl h
  | cons y l ih =>
    cases l with
    | nil => simp [retreats]
    | cons x l =>
      have := ih (by simp)
      simp only [retreats, List.length_cons] at this ⊢
      split <;> omega

theorem retreats_step {a b p : Nat} {next : Nat → List Nat} {l : List Nat}
    (w : Walk next a p l) : retreats order (b :: l) =
      (if order.idxOf p < order.idxOf b then 0 else 1) + retreats order l := by
  cases w <;> rfl

theorem idxOf_le_of_forward {a b : Nat} {l : List Nat} (w : Walk (forward g order) a b l) :
    ∀ x ∈ l, order.idxOf a ≤ order.idxOf x := by
  induction w with
  | here => simp
  | @step b c l w h ih =>
    have hlt : order.idxOf b < order.idxOf c := by simpa using (List.mem_filter.mp h).2
    have hb := ih b w.end_mem
    intro x hx
    rcases List.mem_cons.mp hx with rfl | hx
    · omega
    · exact ih x hx

theorem walk_of_forward {a b : Nat} {l : List Nat} (w : Walk (forward g order) a b l) :
    Walk g.succ a b l := by
  induction w with
  | here => exact .here
  | step _ h ih => exact .step ih (List.mem_filter.mp h).1

namespace Above

variable {a b c : Nat}

/-- The parent of the root does not count. -/
theorem eq_root (h : Above root idom a root) : a = root := by
  cases h with
  | refl => rfl
  | up h => exact absurd rfl h

theorem known (hf : IsForest g root order idom) (h : Above root idom a b) (hb : Known idom b) :
    Known idom a := by
  induction h with
  | refl => exact hb
  | up _ hd _ ih => exact ih (hf.parent_known _ _ hd)

theorem idxOf_le (hf : IsForest g root order idom) (h : Above root idom a b) :
    order.idxOf a ≤ order.idxOf b := by
  induction h with
  | refl => exact Nat.le_refl _
  | up hb hd _ ih => exact Nat.le_trans ih (Nat.le_of_lt (hf.parent_before _ _ hb hd))

end Above

theorem above_iff_of_parent {a b d : Nat} (hb : b ≠ root) (hd : parent idom b = some d) :
    Above root idom a b ↔ a = b ∨ Above root idom a d := by
  constructor
  · intro h
    cases h with
    | refl => exact .inl rfl
    | up _ hd' h =>
      rw [hd] at hd'
      cases hd'
      exact .inr h
  · rintro (rfl | h)
    · exact .refl
    · exact .up hb hd h

end

section

variable {g : Digraph} {root : Nat} {order : List Nat}

theorem idxOf_root (ho : IsReversePostorder g root order) : order.idxOf root = 0 := by
  have := ho.head
  cases order with
  | nil => simp at this
  | cons x l =>
    have hx : x = root := by simpa using this
    simp [hx]

theorem idxOf_lt_of_sublist (ho : IsReversePostorder g root order) {p b : Nat}
    (h : [p, b].Sublist order) : order.idxOf p < order.idxOf b := by
  obtain ⟨l, m, rfl, hp, hb⟩ := List.cons_sublist_iff.mp h
  have hbm : b ∈ m := List.singleton_sublist.mp hb
  have hbl : b ∉ l := fun hl => List.disjoint_of_nodup_append ho.nodup hl hbm
  rw [List.idxOf_append_of_mem hp, List.idxOf_append_of_notMem hbl]
  exact Nat.lt_of_lt_of_le (List.idxOf_lt_length_iff.mpr hp) (Nat.le_add_right _ _)

variable {idom : Parents}

/-- The meeting point of two nodes has exactly their common ancestors. -/
theorem Meets.above_iff (ho : IsReversePostorder g root order) (hf : IsForest g root order idom)
    {a b c : Nat} (h : Meets idom (order.idxOf ·) a b c) (y : Nat) :
    Above root idom y c ↔ Above root idom y a ∧ Above root idom y b := by
  have hroot := idxOf_root ho
  induction h with
  | here a => simp
  | @left a b c d hlt hd _ ih =>
    have har : a ≠ root := by
      rintro rfl
      omega
    refine ih.trans ?_
    rw [above_iff_of_parent har hd]
    refine ⟨fun h => ⟨.inr h.1, h.2⟩, ?_⟩
    rintro ⟨rfl | h, hyb⟩
    · have := hyb.idxOf_le hf
      omega
    · exact ⟨h, hyb⟩
  | @right a b c d hlt hd _ ih =>
    have hbr : b ≠ root := by
      rintro rfl
      omega
    refine ih.trans ?_
    rw [above_iff_of_parent hbr hd]
    refine ⟨fun h => ⟨h.1, .inr h.2⟩, ?_⟩
    rintro ⟨hya, rfl | h⟩
    · have := hya.idxOf_le hf
      omega
    · exact ⟨hya, h⟩

/-- From two nodes of the tree the search ends, within as many steps as their places allow. -/
theorem meets_intersect (ho : IsReversePostorder g root order) (hf : IsForest g root order idom)
    (steps : Nat) {a b : Nat} (ha : Known idom a) (hb : Known idom b)
    (hs : order.idxOf a + order.idxOf b < steps) :
    Meets idom (order.idxOf ·) a b (intersect idom (order.idxOf ·) steps a b) := by
  have hroot := idxOf_root ho
  -- Each step goes to a parent, which comes earlier in the order, so the two places together bound
  -- the steps.
  induction steps generalizing a b with
  | zero => omega
  | succ steps ih =>
    rw [intersect]
    by_cases hab : a = b
    · rw [if_pos hab, hab]
      exact .here b
    · rw [if_neg hab]
      by_cases hlt : order.idxOf b < order.idxOf a
      · have har : a ≠ root := by
          rintro rfl
          omega
        obtain ⟨d, hd⟩ := ha
        have hda := hf.parent_before a d har hd
        rw [if_pos hlt, hd, Option.getD_some]
        exact .left hlt hd (ih (hf.parent_known a d hd) hb (by omega))
      · have hne : order.idxOf a ≠ order.idxOf b := fun h => hab ((List.idxOf_inj (hf.placed a ha)).mp h)
        have hbr : b ≠ root := by
          rintro rfl
          omega
        obtain ⟨d, hd⟩ := hb
        have hdb := hf.parent_before b d hbr hd
        rw [if_neg hlt, hd, Option.getD_some]
        exact .right (by omega) hd (ih ha (hf.parent_known b d hd) (by omega))

def candidateStep (idom : Parents) (rank : Nat → Nat) (best : Option Nat) (p : Nat) : Option Nat :=
  if (parent idom p).isNone then best
  else match best with
    | none => some p
    | some q => some (intersect idom rank (rank p + rank q + 1) p q)

theorem candidate_eq (rank : Nat → Nat) (preds : List Nat) :
    candidate idom rank preds = preds.foldl (candidateStep idom rank) none := rfl

theorem not_known {p : Nat} : ¬ Known idom p ↔ (parent idom p).isNone = true := by
  simp [Known, Option.eq_none_iff_forall_ne_some]

theorem candidateStep_of_known (ho : IsReversePostorder g root order)
    (hf : IsForest g root order idom) {p : Nat} (hp : Known idom p) {best : Option Nat}
    (hbest : ∀ q, best = some q → Known idom q) :
    ∃ x, candidateStep idom (order.idxOf ·) best p = some x ∧ Known idom x ∧
      ∀ y, Above root idom y x ↔ Above root idom y p ∧ ∀ q, best = some q → Above root idom y q := by
  have hp' : (parent idom p).isNone = false := by
    obtain ⟨d, hd⟩ := hp
    simp [hd]
  cases best with
  | none => exact ⟨p, by simp [candidateStep, hp'], hp, by simp⟩
  | some q =>
    have hq := hbest q rfl
    have hx := (meets_intersect ho hf (order.idxOf p + order.idxOf q + 1) hp hq
      (by omega)).above_iff ho hf
    refine ⟨_, by simp only [candidateStep, hp']; rfl, ?_, fun y => ?_⟩
    · exact ((hx _).mp .refl).1.known hf hp
    · rw [hx]
      simp

theorem candidateStep_of_not_known {p : Nat} (hp : ¬ Known idom p) (rank : Nat → Nat)
    (best : Option Nat) : candidateStep idom rank best p = best := by
  simp [candidateStep, not_known.mp hp]

/-- Folding over the known predecessors leaves the ancestors that they share with the best
candidate so far. -/
theorem foldl_candidateStep (ho : IsReversePostorder g root order)
    (hf : IsForest g root order idom) (preds : List Nat) (best : Option Nat)
    (hbest : ∀ q, best = some q → Known idom q)
    (hsome : best.isSome ∨ ∃ q ∈ preds, Known idom q) :
    ∃ x, preds.foldl (candidateStep idom (order.idxOf ·)) best = some x ∧ Known idom x ∧
      ∀ y, Above root idom y x ↔ (∀ q, best = some q → Above root idom y q) ∧
        ∀ q ∈ preds, Known idom q → Above root idom y q := by
  -- A node is above the candidate if and only if it is above all predecessors with a place so far.
  induction preds generalizing best with
  | nil =>
    obtain ⟨x, hx⟩ := Option.isSome_iff_exists.mp (hsome.resolve_right (by simp))
    exact ⟨x, hx, hbest x hx, fun y => by simp [hx]⟩
  | cons q preds ih =>
    by_cases hq : Known idom q
    · obtain ⟨z, hz, hzk, hzy⟩ := candidateStep_of_known ho hf hq hbest
      obtain ⟨x, hx, hxk, hxy⟩ := ih (some z) (by simpa using hzk) (.inl rfl)
      refine ⟨x, by rw [List.foldl_cons, hz, hx], hxk, fun y => ?_⟩
      rw [hxy y]
      simp only [Option.some.injEq, forall_eq', hzy y, List.forall_mem_cons]
      tauto
    · have hsome' : best.isSome ∨ ∃ q ∈ preds, Known idom q := by
        rcases hsome with h | ⟨r, hr, hk⟩
        · exact .inl h
        · rcases List.mem_cons.mp hr with rfl | hr
          · exact absurd hk hq
          · exact .inr ⟨r, hr, hk⟩
      obtain ⟨x, hx, hxk, hxy⟩ := ih best hbest hsome'
      refine ⟨x, by rw [List.foldl_cons, candidateStep_of_not_known hq, hx], hxk, fun y => ?_⟩
      rw [hxy y]
      simp [hq]

theorem candidate_spec (ho : IsReversePostorder g root order) (hf : IsForest g root order idom)
    {preds : List Nat} {p : Nat} (hp : p ∈ preds) (hk : Known idom p) :
    ∃ x, candidate idom (order.idxOf ·) preds = some x ∧ Known idom x ∧
      ∀ y, Above root idom y x ↔ ∀ q ∈ preds, Known idom q → Above root idom y q := by
  obtain ⟨x, hx, hxk, hxy⟩ := foldl_candidateStep ho hf preds none (by simp)
    (.inr ⟨p, hp, hk⟩)
  exact ⟨x, by rw [candidate_eq, hx], hxk, fun y => by rw [hxy y]; simp⟩

end

end RegPressure.DomTree
