import RegPressure.Proofs.Graph.Dominance

namespace RegPressure.Digraph

variable {g : Digraph} {a b c : Nat} {l : List Nat}

/-- A run can end here: the node has no successors, or no node without successors can be reached
from it. -/
def EndsRun (g : Digraph) (b : Nat) : Prop :=
  g.succ b = [] ∨ ¬ ∃ e, Reaches g.succ b e ∧ g.succ e = []

theorem mem_exits (hg : g.Mirrored) : b ∈ g.exits ↔ b < g.size ∧ g.EndsRun b := by
  have hcanEnd : b < g.size → (b ∈ g.reach g.pred (g.nodes.filter fun b => g.succ b = []) ↔
      ∃ e, Reaches g.succ b e ∧ g.succ e = []) := by
    intro hb
    have hstarts : ∀ x ∈ g.nodes.filter (fun b => g.succ b = []), x < g.size :=
      fun x hx => List.mem_range.mp (List.mem_filter.mp hx).1
    rw [mem_reach hg.pred_lt hstarts]
    constructor
    · rintro ⟨e, he, l, w⟩
      obtain ⟨k, v, _⟩ := w.reverse fun x y hy => (hg.mem_pred y x).mp hy
      exact ⟨e, ⟨k, v⟩, by simpa using (List.mem_filter.mp he).2⟩
    · rintro ⟨e, ⟨l, w⟩, he⟩
      have hlt := w.lt hg.succ_lt hb e w.end_mem
      obtain ⟨k, v, _⟩ := w.reverse fun x y hy => (hg.mem_pred x y).mpr hy
      exact ⟨e, List.mem_filter.mpr ⟨List.mem_range.mpr hlt, by simpa using he⟩, k, v⟩
  simp only [exits, List.mem_filter, nodes, List.mem_range, Bool.or_eq_true, decide_eq_true_eq,
    Bool.not_eq_true', EndsRun]
  refine and_congr_right fun hb => or_congr_right ?_
  rw [← hcanEnd hb, ← Bool.not_eq_true, List.contains_iff_mem, nodes]

theorem exists_endsRun (g : Digraph) (b : Nat) : ∃ c, Reaches g.succ b c ∧ g.EndsRun c := by
  by_cases h : ∃ e, Reaches g.succ b e ∧ g.succ e = []
  · obtain ⟨e, hr, he⟩ := h
    exact ⟨e, hr, .inl he⟩
  · exact ⟨b, .refl _ _, .inr h⟩

section

variable (hsize : g.preds.size = g.size)

include hsize

theorem size_withExit : g.withExit.size = g.size + 1 := by
  simp [withExit, size, hsize]

theorem succ_withExit (b : Nat) :
    g.withExit.succ b = if b = g.size then g.exits else g.pred b := by
  simp only [withExit, succ, pred, Array.getD_eq_getD_getElem?, Array.getElem?_push, hsize]
  split <;> rfl

omit hsize in
theorem pred_withExit (b : Nat) : g.withExit.pred b =
    if b < g.size ∧ b ∈ g.exits then g.succ b ++ [g.size] else g.succ b := by
  simp only [withExit, succ, pred, Array.getD_eq_getD_getElem?, Array.getElem?_push, size,
    Array.size_mapIdx, Array.getElem?_mapIdx, List.contains_iff_mem]
  by_cases hb : b < g.succs.size
  · rw [if_neg (Nat.ne_of_lt hb), Array.getElem?_eq_getElem hb]
    by_cases he : b ∈ g.exits <;> simp [he, hb]
  · rw [Array.getElem?_eq_none (Nat.not_lt.mp hb)]
    split <;> simp [hb]

variable (hg : g.Mirrored)

include hg

theorem mirrored_withExit : g.withExit.Mirrored where
  succ_lt := by
    intro a b hb
    rw [succ_withExit hsize] at hb
    rw [size_withExit hsize]
    split at hb
    · exact Nat.lt_succ_of_lt ((mem_exits hg).mp hb).1
    · exact Nat.lt_succ_of_lt (hg.pred_lt a b hb)
  mem_pred := by
    intro a b
    rw [pred_withExit, succ_withExit hsize]
    by_cases ha : a = g.size
    · have hnot : a ∉ g.succ b := fun h => absurd (hg.succ_lt b a h) (by omega)
      rw [if_pos ha]
      constructor
      · intro h
        split at h
        · next hb => exact hb.2
        · exact absurd h hnot
      · intro hb
        rw [if_pos ⟨((mem_exits hg).mp hb).1, hb⟩]
        simp [ha]
    · rw [if_neg ha, hg.mem_pred b a]
      split <;> simp [ha]

theorem walk_withExit (w : Walk g.withExit.succ g.size b l) :
    b = g.size ∧ l = [g.size] ∨ ∃ c ∈ g.exits, ∃ k, Walk g.pred c b k ∧ l = k ++ [g.size] := by
  induction w with
  | here => exact .inl ⟨rfl, rfl⟩
  | @step x y l w hy ih =>
    rw [succ_withExit hsize] at hy
    right
    rcases ih with ⟨rfl, rfl⟩ | ⟨c, hc, k, v, rfl⟩
    · rw [if_pos rfl] at hy
      exact ⟨y, hy, [y], .here, rfl⟩
    · have hx : x ≠ g.size := Nat.ne_of_lt (v.lt hg.pred_lt ((mem_exits hg).mp hc).1 x v.end_mem)
      rw [if_neg hx] at hy
      exact ⟨c, hc, y :: k, v.step hy, rfl⟩

theorem walk_withExit_of (hc : c ∈ g.exits) (w : Walk g.pred c b l) :
    Walk g.withExit.succ g.size b (l ++ [g.size]) := by
  induction w with
  | here => exact .step .here (by rwa [succ_withExit hsize, if_pos rfl])
  | @step x y l w hy ih =>
    have hx : x ≠ g.size := Nat.ne_of_lt (w.lt hg.pred_lt ((mem_exits hg).mp hc).1 x w.end_mem)
    exact .step ih (by rwa [succ_withExit hsize, if_neg hx])

theorem dominates_postDominators :
    g.postDominators.dominates a b = true ↔ Dominates g.withExit.succ g.size a b := by
  refine DomTree.dominates_iff (mirrored_withExit hsize hg) ?_
  rw [size_withExit hsize]
  exact Nat.lt_succ_self _

/-- The walks back from the added exit are the walks on to the end of a run. -/
theorem dominates_withExit_iff (ha : a < g.size) (hb : b < g.size) :
    Dominates g.withExit.succ g.size a b ↔
      ∀ c l, Walk g.succ b c l → g.EndsRun c → a ∈ l := by
  have hback : ∀ x y, y ∈ g.succ x → x ∈ g.pred y := fun x y h => (hg.mem_pred x y).mpr h
  have hforth : ∀ x y, y ∈ g.pred x → x ∈ g.succ y := fun x y h => (hg.mem_pred y x).mp h
  have hexit : ∀ {c l}, Walk g.succ b c l → g.EndsRun c → c ∈ g.exits := fun w he =>
    (mem_exits hg).mpr ⟨w.lt hg.succ_lt hb _ w.end_mem, he⟩
  constructor
  · rintro ⟨_, hall⟩ c l w he
    obtain ⟨k, v, hk⟩ := w.reverse hback
    have hmem := hall _ (walk_withExit_of hsize hg (hexit w he) v)
    rcases List.mem_append.mp hmem with hmem | hmem
    · exact (hk a).mp hmem
    · exact absurd (List.mem_singleton.mp hmem) (Nat.ne_of_lt ha)
  · intro hall
    constructor
    · obtain ⟨c, ⟨l, w⟩, he⟩ := exists_endsRun g b
      obtain ⟨k, v, _⟩ := w.reverse hback
      exact ⟨_, walk_withExit_of hsize hg (hexit w he) v⟩
    · intro l w
      rcases walk_withExit hsize hg w with ⟨e, _⟩ | ⟨c, hc, k, v, rfl⟩
      · exact absurd e (Nat.ne_of_lt hb)
      · obtain ⟨m, u, hm⟩ := v.reverse hforth
        exact List.mem_append_left _ ((hm a).mp (hall c m u ((mem_exits hg).mp hc).2))

end

/-- A node postdominates another if and only if it is on every walk from there to the end of a
run; a run that never returns ends where it can no longer leave. -/
theorem postDominators_dominates_iff (hg : g.Mirrored) (hsize : g.preds.size = g.size)
    (ha : a < g.size) (hb : b < g.size) : g.postDominators.dominates a b = true ↔
      ∀ c l, Walk g.succ b c l → g.EndsRun c → a ∈ l := by
  rw [dominates_postDominators hsize hg]
  exact dominates_withExit_iff hsize hg ha hb

def loopOrReturn : Digraph where
  succs := #[[1, 3], [2], [1], [4], [], [3, 3]]
  preds := #[[], [0, 2], [1], [0, 5, 5], [3], []]

/-- All that return do so at 4, but a run from 0 may never return; and from 1, which can no longer
leave, a run may end before it comes to 2. -/
theorem loopOrReturn_postDominators : loopOrReturn.Mirrored ∧
    loopOrReturn.preds.size = loopOrReturn.size ∧
    (∀ c l, Walk loopOrReturn.succ 5 c l → loopOrReturn.EndsRun c → 4 ∈ l) ∧
    (¬ ∀ c l, Walk loopOrReturn.succ 0 c l → loopOrReturn.EndsRun c → 4 ∈ l) ∧
    ¬ ∀ c l, Walk loopOrReturn.succ 1 c l → loopOrReturn.EndsRun c → 2 ∈ l := by
  have hg : loopOrReturn.Mirrored := by decide
  have hsize : loopOrReturn.preds.size = loopOrReturn.size := by decide
  refine ⟨hg, hsize, ?_, ?_, ?_⟩
  · exact (postDominators_dominates_iff hg hsize (by decide) (by decide)).mp (by decide)
  · rw [← postDominators_dominates_iff hg hsize (by decide) (by decide)]
    decide
  · rw [← postDominators_dominates_iff hg hsize (by decide) (by decide)]
    decide

end RegPressure.Digraph

namespace RegPressure

namespace DomTree

/-- `d` is the nearest of the nodes that strictly dominate `b`, where `dom` says what dominates what,
and all parts of the tree agree about it. -/
structure IsParent (dom : Nat → Nat → Prop) (t : DomTree) (d b : Nat) : Prop where
  idom : t.idom? b = some d
  dominates : d ≠ b ∧ dom d b
  nearest : ∀ a, a ≠ b → dom a b → dom a d
  child_once : (t.children d).count b = 1
  child_only : ∀ c, c ≠ d → b ∉ t.children c
  before : t.order.idxOf d < t.order.idxOf b

/-- The tree answers what dominates what, its order lists its nodes, and each but the root has a
parent. -/
structure Consistent (dom : Nat → Nat → Prop) (t : DomTree) : Prop where
  dominates : ∀ a b, t.dominates a b = true ↔ dom a b
  strict : ∀ a b, t.strictlyDominates a b = true ↔ a ≠ b ∧ dom a b
  head : t.order.head? = some t.root
  count : ∀ b, t.order.count b = if t.isReachable b then 1 else 0
  parent : ∀ b, t.isReachable b = true → b ≠ t.root → ∃ d, t.IsParent dom d b

variable {g : Digraph} {root : Nat}

theorem isParent_of_parent (hg : g.Mirrored) (hroot : root < g.size) {b d : Nat} (hb : b ≠ root)
    (hd : DomTree.parent (compute g root).idom b = some d) :
    (compute g root).IsParent (Dominates g.succ root) d b := by
  have h := compute_spec hg hroot
  have hmem := h.forest.placed b ⟨d, hd⟩
  have hmem' := h.forest.placed d (h.forest.parent_known b d hd)
  have hbefore := h.forest.parent_before b d hb hd
  have hne : d ≠ b := by
    rintro rfl
    omega
  refine ⟨(if_neg hb).trans hd, ⟨hne, ?_⟩, fun a ha hab => ?_, ?_, fun c hc hbc => ?_, hbefore⟩
  · exact (h.above_iff d b hmem).mp (.up hb hd .refl)
  · have habove := (h.above_iff a b hmem).mpr hab
    exact (h.above_iff a d hmem').mp (((above_iff_of_parent hb hd).mp habove).resolve_left ha)
  · have htail := (mem_tail h.order).mpr ⟨hmem, hb⟩
    rw [h.children_eq, List.count_filter (by simpa using hd)]
    exact List.count_eq_one_of_mem (h.order.nodup.sublist (List.tail_sublist _)) htail
  · rw [h.children_eq, List.mem_filter, decide_eq_true_iff, hd] at hbc
    exact hc (Option.some.inj hbc.2).symm

theorem consistent_compute (hg : g.Mirrored) (hroot : root < g.size) :
    (compute g root).Consistent (Dominates g.succ root) := by
  have h := compute_spec hg hroot
  have hmem : ∀ b, b ∈ (compute g root).order ↔ (compute g root).isReachable b = true :=
    fun b => (h.order.mem_iff b).trans (isReachable_iff h).symm
  have hdom : ∀ a b, (compute g root).dominates a b = true ↔ Dominates g.succ root a b :=
    fun a b => dominates_iff hg hroot
  refine ⟨hdom, fun a b => ?_, h.order.head, fun b => ?_, fun b hreach hb => ?_⟩
  · rw [strictlyDominates_iff, hdom]
  · by_cases hreach : (compute g root).isReachable b = true
    · rw [if_pos hreach, List.count_eq_one_of_mem h.order.nodup ((hmem b).mpr hreach)]
    · rw [if_neg hreach, List.count_eq_zero_of_not_mem (mt (hmem b).mp hreach)]
  · obtain ⟨d, hd⟩ := h.known b ((hmem b).mpr hreach)
    exact ⟨d, isParent_of_parent hg hroot hb hd⟩

end DomTree

namespace Digraph

variable {g : Digraph} {entry : Nat}

/-- Each run from `b` passes `a` before it ends. All runs end at the added exit, and that comes last. -/
def PostDominates (g : Digraph) (a b : Nat) : Prop :=
  b ≤ g.size ∧ (a = g.size ∨ a < g.size ∧ b < g.size ∧ ∀ c l, Walk g.succ b c l → g.EndsRun c → a ∈ l)

section

variable (hsize : g.preds.size = g.size) (hg : g.Mirrored)

include hsize hg

theorem reaches_withExit (b : Nat) : Reaches g.withExit.succ g.size b ↔ b ≤ g.size := by
  have hm := mirrored_withExit hsize hg
  constructor
  · rintro ⟨l, w⟩
    have := w.lt hm.succ_lt (by rw [size_withExit hsize]; exact Nat.lt_succ_self _) b w.end_mem
    rw [size_withExit hsize] at this
    exact Nat.le_of_lt_succ this
  · intro hb
    rcases Nat.lt_or_eq_of_le hb with hlt | rfl
    · refine ((dominates_withExit_iff hsize hg hlt hlt).mpr fun c l w _ => w.start_mem).1
    · exact .refl _ _

theorem isReachable_postDominators (b : Nat) : g.postDominators.isReachable b = true ↔ b ≤ g.size := by
  have hroot : g.size < g.withExit.size := by
    rw [size_withExit hsize]
    exact Nat.lt_succ_self _
  rw [postDominators, DomTree.isReachable_iff (DomTree.compute_spec (mirrored_withExit hsize hg) hroot)]
  exact reaches_withExit hsize hg b

theorem dominates_withExit (a b : Nat) : Dominates g.withExit.succ g.size a b ↔ g.PostDominates a b := by
  constructor
  · intro h
    have hb := (reaches_withExit hsize hg b).mp h.1
    obtain ⟨l, w⟩ := h.1
    have ha := w.lt (mirrored_withExit hsize hg).succ_lt
      (by rw [size_withExit hsize]; exact Nat.lt_succ_self _) a (h.2 l w)
    rw [size_withExit hsize] at ha
    refine ⟨hb, (Nat.lt_or_eq_of_le (Nat.le_of_lt_succ ha)).symm.imp_right fun ha => ?_⟩
    have hne : b ≠ g.size := by
      rintro rfl
      exact absurd (List.mem_singleton.mp (h.2 [g.size] .here)) (Nat.ne_of_lt ha)
    have hb := Nat.lt_of_le_of_ne hb hne
    exact ⟨ha, hb, (dominates_withExit_iff hsize hg ha hb).mp h⟩
  · rintro ⟨hb, rfl | ⟨ha, hb, hall⟩⟩
    · exact ⟨(reaches_withExit hsize hg b).mpr hb, fun l w => w.start_mem⟩
    · exact (dominates_withExit_iff hsize hg ha hb).mpr hall

end

/-- In both trees the parent of a node is the nearest of the other nodes that are on all its walks, those
from the entry or those to the end of a run, and lists it once among its children, as no other node
does; and the order begins with the root and lists the nodes once, each behind its parent. The trees
hold what the entry reaches, and all nodes with the added exit. -/
theorem dominatorTrees_consistent (hg : g.Mirrored) (hsize : g.preds.size = g.size)
    (hentry : entry < g.size) :
    ((g.dominators entry).Consistent (Dominates g.succ entry) ∧
      ∀ b, (g.dominators entry).isReachable b = true ↔ Reaches g.succ entry b) ∧
    g.postDominators.Consistent g.PostDominates ∧
      ∀ b, g.postDominators.isReachable b = true ↔ b ≤ g.size := by
  refine ⟨⟨DomTree.consistent_compute hg hentry, fun b => ?_⟩, ?_,
    isReachable_postDominators hsize hg⟩
  · exact DomTree.isReachable_iff (DomTree.compute_spec hg hentry)
  · have hdom : Dominates g.withExit.succ g.size = g.PostDominates :=
      funext₂ fun a b => propext (dominates_withExit hsize hg a b)
    rw [← hdom]
    refine DomTree.consistent_compute (mirrored_withExit hsize hg) ?_
    rw [size_withExit hsize]
    exact Nat.lt_succ_self _

/-- Where the two doors of the loop meet, its entry is the nearest dominator; and a run that ends at
3 or, coming from 4, there too, ends at the exit. -/
theorem twoDoors_consistent : twoDoors.Mirrored ∧ twoDoors.preds.size = twoDoors.size ∧
    0 < twoDoors.size ∧ (twoDoors.dominators 0).IsParent (Dominates twoDoors.succ 0) 0 2 ∧
    (twoDoors.dominators 0).IsParent (Dominates twoDoors.succ 0) 2 3 ∧
    twoDoors.postDominators.IsParent twoDoors.PostDominates 3 4 := by
  have hg : twoDoors.Mirrored := by decide
  have hsize : twoDoors.preds.size = twoDoors.size := by decide
  have hentry : 0 < twoDoors.size := by decide
  obtain ⟨⟨hdom, -⟩, hpdom, -⟩ := dominatorTrees_consistent hg hsize hentry
  have parent_of : ∀ {dom : Nat → Nat → Prop} {t : DomTree} {b d : Nat}, t.Consistent dom →
      t.isReachable b = true → b ≠ t.root → t.idom? b = some d → t.IsParent dom d b := by
    intro dom t b d ht hb hne hd
    obtain ⟨e, he⟩ := ht.parent b hb hne
    cases hd.symm.trans he.idom
    exact he
  exact ⟨hg, hsize, hentry, parent_of hdom (by decide) (by decide) (by decide),
    parent_of hdom (by decide) (by decide) (by decide),
    parent_of hpdom (by decide) (by decide) (by decide)⟩

end Digraph

end RegPressure
