import RegPressure.Proofs.Graph.Dominance
import Mathlib.Data.Nat.Find

namespace RegPressure.DomTree

open RegPressure.Digraph

/-- The number of a node in the order in which nodes have their turns. -/
def place (g : Digraph) (root b : Nat) : Nat := (g.reversePostorder root).idxOf b

/-- The tree that the iteration starts from: the root alone. -/
def start (g : Digraph) (root : Nat) : Parents :=
  (Array.replicate g.size none).setIfInBounds root (some root)

/-- One pass over all nodes but the root. -/
def fullPass (g : Digraph) (root : Nat) (idom : Parents) : Parents × Bool :=
  pass g (place g root) (g.reversePostorder root).tail idom

/-- The tree after `n` passes. -/
def afterPasses (g : Digraph) (root n : Nat) : Parents :=
  (fun t => (fullPass g root t).1)^[n] (start g root)

/-- The tree in pass number `n`, counted from zero, when the nodes of `done` have had their turn. -/
def during (g : Digraph) (root n : Nat) (done : List Nat) : Parents :=
  (done.foldl (improve g (place g root)) (afterPasses g root n, false)).1

/-- While the candidate for a node with these predecessors is looked for, the search for a common
ancestor is started from `p`, a predecessor that is not passed over, and from `q`, the candidate of
the predecessors before it. -/
def Calls (idom : Parents) (rank : Nat → Nat) (preds : List Nat) (p q : Nat) : Prop :=
  ∃ before after, preds = before ++ p :: after ∧ ¬ (parent idom p).isNone ∧
    candidate idom rank before = some q

variable {g : Digraph} {root : Nat} {order : List Nat} {idom : Parents}

theorem candidate_eq_none {rank : Nat → Nat} {preds : List Nat}
    (h : ∀ p ∈ preds, ¬ Known idom p) : candidate idom rank preds = none := by
  rw [candidate_eq]
  induction preds with
  | nil => rfl
  | cons p preds ih =>
    rw [List.foldl_cons, candidateStep_of_not_known (h p (List.mem_cons_self ..))]
    exact ih fun q hq => h q (List.mem_cons_of_mem _ hq)

theorem known_of_candidate (ho : IsReversePostorder g root order)
    (hf : IsForest g root order idom) {preds : List Nat} {x : Nat}
    (h : candidate idom (order.idxOf ·) preds = some x) : Known idom x := by
  by_cases hk : ∃ p ∈ preds, Known idom p
  · obtain ⟨p, hp, hk⟩ := hk
    obtain ⟨y, hy, hyk, -⟩ := candidate_spec ho hf hp hk
    rw [hy] at h
    cases h
    exact hyk
  · rw [candidate_eq_none fun p hp hpk => hk ⟨p, hp, hpk⟩] at h
    cases h

section

variable (hg : g.Mirrored) (ho : IsReversePostorder g root order)

include hg ho

theorem InPass.improve_eq (hroot : root < g.size) {k : Nat} {done : List Nat}
    {s : Parents × Bool} (h : InPass g root order k done s.1) (hk : g.size ≤ k) {b : Nat}
    (hb : b ∈ order) (hr : b ≠ root)
    (hbefore : ∀ p ∈ order, order.idxOf p < order.idxOf b → p ∈ done) :
    DomTree.improve g (order.idxOf ·) s b = s := by
  have hf := h.forest
  obtain ⟨x, hx, u, -⟩ := h.exists_update hg ho hb hr hbefore
  have h' := h.improve hg ho hb hr hbefore
  have hsame : ∀ a, Above root s.1 a b ↔ a = b ∨ Above root s.1 a x := fun a => by
    rw [← u.above_self hf, h'.above_iff hg ho hroot hk hb, h.above_iff hg ho hroot hk hb]
  obtain ⟨d, hd⟩ := (h.last_pass (by omega) b hb).1
  have hdb := hf.parent_before b d hr hd
  have hdx : Above root s.1 d x := by
    refine ((hsame d).mp (.up hr hd .refl)).resolve_left ?_
    rintro rfl
    omega
  have hxd : Above root s.1 x d := by
    refine ((above_iff_of_parent hr hd).mp ((hsame x).mpr (.inr .refl))).resolve_left ?_
    rintro rfl
    exact Nat.lt_irrefl _ u.before
  have heq : x = d := (List.idxOf_inj (hf.placed x u.known)).mp
    (Nat.le_antisymm (hxd.idxOf_le hf) (hdx.idxOf_le hf))
  simp only [DomTree.improve, hx, heq, hd, if_true]

theorem InPass.foldl_eq (hroot : root < g.size) {k : Nat} (hk : g.size ≤ k) (l done : List Nat)
    (s : Parents × Bool) (heq : order = done ++ l) (hmem : root ∈ done)
    (h : InPass g root order k done s.1) :
    l.foldl (DomTree.improve g (order.idxOf ·)) s = s := by
  induction l generalizing done with
  | nil => rfl
  | cons b l ih =>
    have hb : b ∈ order := by simp [heq]
    have hr := ne_root_of_split ho heq hmem
    have hbefore : ∀ p ∈ order, order.idxOf p < order.idxOf b → p ∈ done :=
      fun p _ => mem_of_idxOf_lt ho heq
    have hstay := h.improve_eq hg ho hroot hk hb hr hbefore
    have h' := h.improve hg ho hb hr hbefore
    rw [hstay] at h'
    rw [List.foldl_cons, hstay]
    exact ih (done ++ [b]) (by simp [heq]) (List.mem_append_left _ hmem) h'

end

section

variable (hg : g.Mirrored) (hroot : root < g.size)

include hg hroot

theorem order_eq : g.reversePostorder root = [root] ++ (g.reversePostorder root).tail :=
  (List.cons_head?_tail (reversePostorder_spec hg.succ_lt hroot).head).symm

theorem inPass_afterPasses (n : Nat) :
    InPass g root (g.reversePostorder root) n [root] (afterPasses g root n) :=
  have ho := reversePostorder_spec hg.succ_lt hroot
  InPass.iterate hg ho (inPass_start ho hroot) n

theorem inPass_during (n : Nat) {done rest : List Nat}
    (h : (g.reversePostorder root).tail = done ++ rest) :
    InPass g root (g.reversePostorder root) n ([root] ++ done) (during g root n done) := by
  have ho := reversePostorder_spec hg.succ_lt hroot
  refine (inPass_afterPasses hg hroot n).foldl hg ho done [root] rest (_, false) ?_
    (List.mem_singleton_self _)
  rw [← h]
  exact order_eq hg hroot

theorem fullPass_afterPasses {n : Nat} (hn : g.size ≤ n) :
    fullPass g root (afterPasses g root n) = (afterPasses g root n, false) :=
  (inPass_afterPasses hg hroot n).foldl_eq hg (reversePostorder_spec hg.succ_lt hroot) hroot hn _
    [root] (_, false) (order_eq hg hroot) (List.mem_singleton_self _)

theorem exists_last_pass : ∃ k ≤ g.size,
    (∀ j < k, (fullPass g root (afterPasses g root j)).2 = true) ∧
      (fullPass g root (afterPasses g root k)).2 = false ∧
      (compute g root).idom = afterPasses g root k := by
  have hex : ∃ n, (fullPass g root (afterPasses g root n)).2 = false :=
    ⟨g.size, by rw [fullPass_afterPasses hg hroot (Nat.le_refl _)]⟩
  have hle : Nat.find hex ≤ g.size :=
    Nat.find_min' hex (by rw [fullPass_afterPasses hg hroot (Nat.le_refl _)])
  have hlast := Nat.find_spec hex
  refine ⟨Nat.find hex, hle, fun j hj => by simpa using Nat.find_min hex hj, hlast, ?_⟩
  have hfix : (fullPass g root (afterPasses g root (Nat.find hex))).1 =
      afterPasses g root (Nat.find hex) := congrArg Prod.fst (foldl_improve_snd _ _ hlast)
  have hsq : g.size ≤ g.size * g.size := Nat.le_mul_self _
  obtain ⟨m, hm⟩ := Nat.exists_eq_add_of_le' (show Nat.find hex ≤ g.size * g.size + 1 by omega)
  calc (compute g root).idom
      = afterPasses g root (g.size * g.size + 1) := settle_eq_iterate _ _ _ _
    _ = (fun t => (fullPass g root t).1)^[m] (afterPasses g root (Nat.find hex)) := by
        rw [hm, afterPasses, Function.iterate_add_apply, afterPasses]
    _ = afterPasses g root (Nat.find hex) := Function.iterate_fixed hfix m

/-- The iteration ends, and looks only at nodes that have a place in the tree. At every moment
parents come before their children in the order. A node whose turn it is gets a parent; every search
for a common ancestor that this takes starts from two nodes with a place and ends at one. A pass
leaves no node that the root reaches without a place, and at most as many passes as there are nodes
change anything. -/
theorem iteration_ends :
    (∀ n done rest, (g.reversePostorder root).tail = done ++ rest →
      ∀ b d, b ≠ root → parent (during g root n done) b = some d →
        place g root d < place g root b) ∧
    (∀ n done b rest, (g.reversePostorder root).tail = done ++ b :: rest →
      (∃ x, candidate (during g root n done) (place g root) (g.pred b) = some x ∧
        parent (during g root n (done ++ [b])) b = some x) ∧
      ∀ p q, Calls (during g root n done) (place g root) (g.pred b) p q →
        Known (during g root n done) p ∧ Known (during g root n done) q ∧
        ∃ c, intersect (during g root n done) (place g root) (place g root p + place g root q + 1)
            p q = c ∧ Meets (during g root n done) (place g root) p q c ∧
          Known (during g root n done) c) ∧
    (∀ n b, Reaches g.succ root b → Known (afterPasses g root (n + 1)) b) ∧
    ∃ k ≤ g.size, (∀ j < k, (fullPass g root (afterPasses g root j)).2 = true) ∧
      (fullPass g root (afterPasses g root k)).2 = false ∧
      (compute g root).idom = afterPasses g root k := by
  -- At every moment parents come before their children in the order, so every search for a common
  -- ancestor ends, and on its way meets only nodes with a place in the tree.
  have ho := reversePostorder_spec hg.succ_lt hroot
  refine ⟨fun n done rest h => ?_, fun n done b rest h => ⟨?_, fun p q hcall => ?_⟩,
    fun n b hb => ?_, exists_last_pass hg hroot⟩
  · exact (inPass_during hg hroot n h).forest.parent_before
  · have heq : g.reversePostorder root = ([root] ++ done) ++ b :: rest := by
      rw [List.append_assoc, ← h]
      exact order_eq hg hroot
    have hr := ne_root_of_split ho heq (by simp)
    obtain ⟨x, hx, u, -⟩ := (inPass_during hg hroot n h).exists_update hg ho
      (s := (done.foldl _ (_, false))) (by rw [heq]; simp) hr fun p _ => mem_of_idxOf_lt ho heq
    refine ⟨x, hx, ?_⟩
    have hp := u.parent_eq b
    rw [if_pos rfl] at hp
    rw [during, List.foldl_append]
    exact hp
  · have hf := (inPass_during hg hroot n h).forest
    obtain ⟨before, after, -, hp, hq⟩ := hcall
    have hp := not_not.mp (mt not_known.mp hp)
    have hq := known_of_candidate ho hf hq
    have hm := meets_intersect ho hf _ hp hq (Nat.lt_succ_self _)
    exact ⟨hp, hq, _, rfl, hm, ((hm.above_iff ho hf _).mp .refl).1.known hf hp⟩
  · exact ((inPass_afterPasses hg hroot (n + 1)).last_pass (Nat.succ_pos n) b
      ((ho.mem_iff b).mpr hb)).1

end

def misled : Digraph where
  succs := #[[1, 2], [3], [4, 5], [4], [3, 5], [4]]
  preds := #[[], [0], [0], [1, 4], [2, 3, 5], [2, 4]]

/-- The first pass takes 1 for the parent of 3. In the second one the search from 4 and 1 ends at
the root, and a third pass is needed to see that nothing is left to change. -/
theorem misled_iteration_ends : misled.Mirrored ∧ 0 < misled.size ∧
    parent (afterPasses misled 0 1) 3 = some 1 ∧
    Calls (during misled 0 1 [2, 1]) (place misled 0) (misled.pred 3) 4 1 ∧
    Meets (during misled 0 1 [2, 1]) (place misled 0) 4 1 0 ∧
    ∃ k ≤ misled.size, 2 ≤ k ∧ (fullPass misled 0 (afterPasses misled 0 k)).2 = false ∧
      (compute misled 0).idom = afterPasses misled 0 k := by
  have hg : misled.Mirrored := by decide +kernel
  have hroot : 0 < misled.size := by decide
  obtain ⟨-, hturns, -, k, hk, hchange, hlast, heq⟩ := iteration_ends hg hroot
  have hcall : Calls (during misled 0 1 [2, 1]) (place misled 0) (misled.pred 3) 4 1 :=
    ⟨[1], [], by decide +kernel, by decide +kernel, by decide +kernel⟩
  obtain ⟨-, hcalls⟩ := hturns 1 [2, 1] 3 [4, 5] (by decide +kernel)
  obtain ⟨-, -, c, hc, hmeets, -⟩ := hcalls 4 1 hcall
  obtain rfl : c = 0 := hc.symm.trans (by decide +kernel)
  have hmany : ¬ k < 2 := by
    intro hlt
    have hfirst : ∀ j < 2, (fullPass misled 0 (afterPasses misled 0 j)).2 = true := by
      decide +kernel
    rw [hfirst k hlt] at hlast
    cases hlast
  exact ⟨hg, hroot, by decide +kernel, hcall, hmeets, k, hk, Nat.not_lt.mp hmany, hlast, heq⟩

end RegPressure.DomTree
