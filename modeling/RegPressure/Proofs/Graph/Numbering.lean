import RegPressure.Proofs.Graph.DominatorTree

namespace RegPressure.DomTree

open RegPressure.Digraph

structure IsBranching (kids : Nat → List Nat) (rank : Nat → Nat) : Prop where
  parent_unique : ∀ a b c, c ∈ kids a → c ∈ kids b → a = b
  nodup : ∀ a, (kids a).Nodup
  rank_lt : ∀ a c, c ∈ kids a → rank a < rank c

namespace IsBranching

variable {kids : Nat → List Nat} {rank : Nat → Nat} {a b c d x : Nat}

theorem eq_or_reaches (h : Reaches kids a b) : a = b ∨ ∃ c ∈ kids a, Reaches kids c b := by
  obtain ⟨l, w⟩ := h
  induction w with
  | here => exact .inl rfl
  | step _ hc ih =>
    rcases ih with rfl | ⟨d, hd, hr⟩
    · exact .inr ⟨_, hc, .refl _ _⟩
    · exact .inr ⟨d, hd, hr.step hc⟩

variable (ht : IsBranching kids rank)

include ht

theorem rank_le (h : Reaches kids a b) : rank a ≤ rank b := by
  obtain ⟨l, w⟩ := h
  induction w with
  | here => exact Nat.le_refl _
  | step _ hc ih => exact Nat.le_trans ih (Nat.le_of_lt (ht.rank_lt _ _ hc))

theorem not_reaches_parent (hc : c ∈ kids b) (h : Reaches kids c b) : False := by
  have := ht.rank_le h
  have := ht.rank_lt _ _ hc
  omega

theorem reaches_total (ha : Reaches kids a x) (hb : Reaches kids b x) :
    Reaches kids a b ∨ Reaches kids b a := by
  obtain ⟨l, w⟩ := ha
  induction w with
  | here => exact .inr hb
  | @step y x _ w hx ih =>
    obtain ⟨k, v⟩ := hb
    cases v with
    | here => exact .inl (Reaches.step ⟨_, w⟩ hx)
    | @step z _ _ v hx' =>
      obtain rfl := ht.parent_unique _ _ _ hx hx'
      exact ih ⟨_, v⟩

theorem siblings_apart (hc : c ∈ kids b) (hd : d ∈ kids b) (hcx : Reaches kids c x)
    (hdx : Reaches kids d x) : c = d := by
  have key : ∀ {c d}, c ∈ kids b → d ∈ kids b → Reaches kids c d → c = d := by
    rintro c d hc hd ⟨l, w⟩
    cases w with
    | here => rfl
    | step w hd' =>
      obtain rfl := ht.parent_unique _ _ _ hd hd'
      exact (ht.not_reaches_parent hc ⟨_, w⟩).elim
  rcases ht.reaches_total hcx hdx with h | h
  · exact key hc hd h
  · exact (key hd hc h).symm

end IsBranching

namespace Numbering

def preOf (s : Numbering) (x : Nat) : Nat := s.pre.getD x 0

def postOf (s : Numbering) (x : Nat) : Nat := s.post.getD x 0

/-- By the numbers, `x` is above `y`. -/
def Encloses (s : Numbering) (x y : Nat) : Prop := s.preOf x ≤ s.preOf y ∧ s.postOf y ≤ s.postOf x

variable {s : Numbering} {b x n : Nat}

theorem getD_set {xs : Array Nat} (hb : b < xs.size) (v : Nat) :
    (xs.setIfInBounds b v).getD x 0 = if x = b then v else xs.getD x 0 := by
  simp only [Array.getD_eq_getD_getElem?, Array.getElem?_setIfInBounds, eq_comm (a := b)]
  by_cases hx : x = b
  · subst hx
    simp [hb]
  · simp [hx]

theorem preOf_enter (hb : b < s.pre.size) :
    (s.enter b).preOf x = if x = b then s.entered else s.preOf x := getD_set hb _

theorem postOf_leave (hb : b < s.post.size) :
    (s.leave b).postOf x = if x = b then s.left else s.postOf x := getD_set hb _

end Numbering

def Under (kids : Nat → List Nat) (starts : List Nat) (x : Nat) : Prop :=
  ∃ a ∈ starts, Reaches kids a x

structure Numbered (kids : Nat → List Nat) (starts : List Nat) (s t : Numbering) : Prop where
  pre_size : t.pre.size = s.pre.size
  post_size : t.post.size = s.post.size
  entered_le : s.entered ≤ t.entered
  left_le : s.left ≤ t.left
  kept : ∀ x, ¬ Under kids starts x → t.preOf x = s.preOf x ∧ t.postOf x = s.postOf x
  pre_between : ∀ x, Under kids starts x → s.entered ≤ t.preOf x ∧ t.preOf x < t.entered
  post_between : ∀ x, Under kids starts x → s.left ≤ t.postOf x ∧ t.postOf x < t.left
  encloses_iff : ∀ x y, Under kids starts x → Under kids starts y →
    (t.Encloses x y ↔ Reaches kids x y)

namespace Numbered

variable {kids : Nat → List Nat} {rank : Nat → Nat} {starts rest : List Nat} {s t u : Numbering}
  {b n : Nat}

theorem nil : Numbered kids [] s s where
  pre_size := rfl
  post_size := rfl
  entered_le := Nat.le_refl _
  left_le := Nat.le_refl _
  kept _ _ := ⟨rfl, rfl⟩
  pre_between := by simp [Under]
  post_between := by simp [Under]
  encloses_iff := by simp [Under]

theorem under_cons {x : Nat} :
    Under kids (b :: rest) x ↔ Under kids [b] x ∨ Under kids rest x := by
  simp [Under]

theorem under_singleton {x : Nat} : Under kids [b] x ↔ x = b ∨ Under kids (kids b) x := by
  simp only [Under, List.mem_singleton, exists_eq_left]
  constructor
  · exact fun hr => (IsBranching.eq_or_reaches hr).imp_left Eq.symm
  · rintro (rfl | ⟨c, hc, hr⟩)
    · exact .refl _ _
    · exact ((Reaches.refl kids b).step hc).trans hr

/-- What comes later in the walk is neither above nor below what came earlier. -/
theorem cons (h : Numbered kids [b] s t) (h' : Numbered kids rest t u)
    (hapart : ∀ x, Under kids [b] x → ¬ Under kids rest x) : Numbered kids (b :: rest) s u := by
  have hdown : ∀ {starts x y}, Under kids starts x → Reaches kids x y → Under kids starts y := by
    rintro starts x y ⟨a, ha, hr⟩ hxy
    exact ⟨a, ha, hr.trans hxy⟩
  have hkept : ∀ x, Under kids [b] x → u.preOf x = t.preOf x ∧ u.postOf x = t.postOf x :=
    fun x hx => h'.kept x (hapart x hx)
  have hle := h.entered_le
  have hle' := h'.entered_le
  have hll := h.left_le
  have hll' := h'.left_le
  refine ⟨h'.pre_size.trans h.pre_size, h'.post_size.trans h.post_size, Nat.le_trans hle hle',
    Nat.le_trans hll hll', ?_, ?_, ?_, ?_⟩
  · intro x hx
    rw [under_cons, not_or] at hx
    obtain ⟨hpre, hpost⟩ := h.kept x hx.1
    obtain ⟨hpre', hpost'⟩ := h'.kept x hx.2
    exact ⟨hpre'.trans hpre, hpost'.trans hpost⟩
  · intro x hx
    rcases under_cons.mp hx with hx | hx
    · have := h.pre_between x hx
      rw [(hkept x hx).1]
      omega
    · have := h'.pre_between x hx
      omega
  · intro x hx
    rcases under_cons.mp hx with hx | hx
    · have := h.post_between x hx
      rw [(hkept x hx).2]
      omega
    · have := h'.post_between x hx
      omega
  · intro x y hx hy
    rcases under_cons.mp hx with hx | hx <;> rcases under_cons.mp hy with hy | hy
    · rw [Numbering.Encloses, (hkept x hx).1, (hkept x hx).2, (hkept y hy).1, (hkept y hy).2]
      exact h.encloses_iff x y hx hy
    · -- The walk had left `x` before it came to `y`.
      have hx' := h.post_between x hx
      have hy' := h'.post_between y hy
      refine iff_of_false ?_ fun hr => hapart y (hdown hx hr) hy
      rw [Numbering.Encloses, (hkept x hx).2]
      omega
    · have hx' := h'.pre_between x hx
      have hy' := h.pre_between y hy
      refine iff_of_false ?_ fun hr => hapart y hy (hdown hx hr)
      rw [Numbering.Encloses, (hkept y hy).1]
      omega
    · exact h'.encloses_iff x y hx hy

/-- A node is left once all below it are. -/
theorem node (ht : IsBranching kids rank) (hpre : b < s.pre.size) (hpost : b < s.post.size)
    (h : Numbered kids (kids b) (s.enter b) t) : Numbered kids [b] s (t.leave b) := by
  -- The walk comes to `b` before all that is under it and leaves it after them.
  have hb : ¬ Under kids (kids b) b := by
    rintro ⟨c, hc, hr⟩
    exact ht.not_reaches_parent hc hr
  have hentered : s.entered + 1 ≤ t.entered := h.entered_le
  have hleft : s.left ≤ t.left := h.left_le
  have hpre' : ∀ {x}, Under kids (kids b) x → s.entered + 1 ≤ t.preOf x ∧ t.preOf x < t.entered :=
    fun hx => h.pre_between _ hx
  have hpost' : ∀ {x}, Under kids (kids b) x → s.left ≤ t.postOf x ∧ t.postOf x < t.left :=
    fun hx => h.post_between _ hx
  have hpreb : t.preOf b = s.entered := by
    rw [(h.kept b hb).1, Numbering.preOf_enter hpre, if_pos rfl]
  have hpostb : (t.leave b).postOf b = t.left := by
    rw [Numbering.postOf_leave (h.post_size ▸ hpost), if_pos rfl]
  have hprex : ∀ x, (t.leave b).preOf x = t.preOf x := fun _ => rfl
  have hpostx : ∀ {x}, x ≠ b → (t.leave b).postOf x = t.postOf x := fun hx => by
    rw [Numbering.postOf_leave (h.post_size ▸ hpost), if_neg hx]
  have hne : ∀ {x}, Under kids (kids b) x → x ≠ b := fun hx he => hb (he ▸ hx)
  refine ⟨?_, ?_, Nat.le_trans (Nat.le_succ _) hentered, Nat.le_succ_of_le hleft, ?_, ?_, ?_, ?_⟩
  · exact h.pre_size.trans Array.size_setIfInBounds
  · exact Array.size_setIfInBounds.trans h.post_size
  · intro x hx
    rw [under_singleton, not_or] at hx
    obtain ⟨hkpre, hkpost⟩ := h.kept x hx.2
    rw [hprex, hpostx hx.1, hkpre, hkpost, Numbering.preOf_enter hpre, if_neg hx.1]
    exact ⟨rfl, rfl⟩
  · intro x hx
    change s.entered ≤ t.preOf x ∧ t.preOf x < t.entered
    rcases under_singleton.mp hx with rfl | hx
    · omega
    · have := hpre' hx
      omega
  · intro x hx
    change s.left ≤ (t.leave b).postOf x ∧ (t.leave b).postOf x < t.left + 1
    rcases under_singleton.mp hx with rfl | hx
    · omega
    · have := hpost' hx
      rw [hpostx (hne hx)]
      omega
  · intro x y hx hy
    rw [Numbering.Encloses, hprex, hprex]
    rcases under_singleton.mp hx with rfl | hx' <;> rcases under_singleton.mp hy with rfl | hy'
    · exact iff_of_true ⟨Nat.le_refl _, Nat.le_refl _⟩ (.refl _ _)
    · have := hpre' hy'
      have := hpost' hy'
      obtain ⟨c, hc, hr⟩ := hy'
      refine iff_of_true ?_ (((Reaches.refl kids x).step hc).trans hr)
      rw [hpreb, hpostb, hpostx (hne ⟨c, hc, hr⟩)]
      omega
    · have := hpre' hx'
      obtain ⟨c, hc, hr⟩ := hx'
      refine iff_of_false ?_ fun hxy => ht.not_reaches_parent hc (hr.trans hxy)
      omega
    · rw [hpostx (hne hx'), hpostx (hne hy')]
      exact h.encloses_iff x y hx' hy'

end Numbered

section

variable {kids : Nat → List Nat} {rank : Nat → Nat} {n : Nat}

/-- Children that are nodes below `n` can all be numbered in arrays of that size. -/
theorem number_spec (ht : IsBranching kids rank) (hlt : ∀ a c, c ∈ kids a → c < n ∧ rank c < n)
    (depth : Nat) {s : Numbering} {b : Nat} (hb : b < n) (hdepth : n ≤ depth + rank b)
    (hrank : rank b < n) (hpre : s.pre.size = n) (hpost : s.post.size = n) :
    Numbered kids [b] s (number kids depth s b) := by
  induction depth generalizing s b with
  | zero => omega
  | succ depth ih =>
    have hfold : ∀ (l : List Nat) (s : Numbering), l ⊆ kids b → l.Nodup → s.pre.size = n →
        s.post.size = n → Numbered kids l s (l.foldl (number kids depth) s) := by
      intro l
      induction l with
      | nil => exact fun s _ _ _ _ => .nil
      | cons c rest ihl =>
        intro s hsub hnodup hpre hpost
        obtain ⟨hc, hrest⟩ := List.cons_subset.mp hsub
        obtain ⟨hnot, hnodup⟩ := List.nodup_cons.mp hnodup
        have hrankc := ht.rank_lt b c hc
        have hstep := ih (hlt b c hc).1 (by omega) (hlt b c hc).2 hpre hpost
        refine hstep.cons (ihl _ hrest hnodup (hstep.pre_size.trans hpre)
          (hstep.post_size.trans hpost)) ?_
        rintro x ⟨a, ha, hax⟩ ⟨d, hd, hdx⟩
        obtain rfl := List.mem_singleton.mp ha
        exact hnot (ht.siblings_apart hc (hrest hd) hax hdx ▸ hd)
    refine Numbered.node ht (hpre.symm ▸ hb) (hpost.symm ▸ hb) (hfold _ _ (List.Subset.refl _)
      (ht.nodup b) ?_ hpost)
    simpa [Numbering.enter] using hpre

end

/-! The lists of children that belong to a tree of parents. -/

section

variable {g : Digraph} {root : Nat} {order nodes : List Nat} {idom : Parents} {b c d : Nat}

theorem size_adopt (lists : Array (List Nat)) : (adopt idom lists b).size = lists.size := by
  unfold adopt
  split
  · exact Array.size_setIfInBounds
  · rfl

theorem getD_adopt {lists : Array (List Nat)} (hd : d < lists.size) :
    (adopt idom lists b).getD d [] =
      lists.getD d [] ++ if parent idom b = some d then [b] else [] := by
  unfold adopt
  cases parent idom b with
  | none => simp
  | some e =>
    by_cases hde : e = d
    · subst hde
      simp [hd]
    · simp [hde]

theorem foldl_adopt (nodes : List Nat) {lists : Array (List Nat)} (hd : d < lists.size) :
    (nodes.foldl (adopt idom) lists).getD d [] =
      lists.getD d [] ++ nodes.filter fun b => parent idom b = some d := by
  induction nodes generalizing lists with
  | nil => simp
  | cons b nodes ih =>
    rw [List.foldl_cons, ih (by rwa [size_adopt]), getD_adopt hd, List.filter_cons]
    by_cases hb : parent idom b = some d <;> simp [hb]

theorem size_childLists : (childLists idom nodes).size = idom.size := by
  have hfold : ∀ (nodes : List Nat) (lists : Array (List Nat)),
      (nodes.foldl (adopt idom) lists).size = lists.size := by
    intro nodes
    induction nodes with
    | nil => exact fun _ => rfl
    | cons b nodes ih => exact fun lists => (ih _).trans (size_adopt lists)
  rw [childLists, hfold, Array.size_replicate]

theorem mem_tail (ho : IsReversePostorder g root order) : b ∈ order.tail ↔ b ∈ order ∧ b ≠ root := by
  have hhead := ho.head
  have hnodup := ho.nodup
  cases order with
  | nil => simp
  | cons a l =>
    obtain rfl : a = root := by simpa using hhead
    have ha := (List.nodup_cons.mp hnodup).1
    rw [List.tail_cons, List.mem_cons]
    constructor
    · exact fun hb => ⟨.inr hb, ne_of_mem_of_not_mem hb ha⟩
    · exact fun hb => hb.1.resolve_left hb.2

variable (ho : IsReversePostorder g root order) (hf : IsForest g root order idom)

include hf

theorem lt_size_of_parent (hd : parent idom c = some d) : d < idom.size := by
  obtain ⟨e, he⟩ := hf.parent_known c d hd
  by_contra hle
  rw [parent, Array.getD_eq_getD_getElem?, Array.getElem?_eq_none (Nat.not_lt.mp hle)] at he
  cases he

theorem childLists_eq : (childLists idom nodes).getD d [] =
    nodes.filter fun b => parent idom b = some d := by
  by_cases hd : d < idom.size
  · rw [childLists, foldl_adopt nodes (by rwa [Array.size_replicate])]
    simp [hd]
  · have hnone : (childLists idom nodes).size ≤ d := size_childLists ▸ Nat.not_lt.mp hd
    rw [Array.getD_eq_getD_getElem?, Array.getElem?_eq_none hnone]
    refine (List.filter_eq_nil_iff.mpr fun c _ => ?_).symm
    exact fun hc => hd (lt_size_of_parent hf (of_decide_eq_true hc))

include ho

theorem mem_childLists :
    c ∈ (childLists idom order.tail).getD d [] ↔ c ≠ root ∧ parent idom c = some d := by
  rw [childLists_eq hf, List.mem_filter, mem_tail ho, decide_eq_true_iff]
  exact ⟨fun h => ⟨h.1.2, h.2⟩, fun h => ⟨⟨hf.placed c ⟨d, h.2⟩, h.1⟩, h.2⟩⟩

theorem isBranching : IsBranching ((childLists idom order.tail).getD · []) (order.idxOf ·) where
  parent_unique a b c ha hb := by
    have ha := ((mem_childLists ho hf).mp ha).2
    have hb := ((mem_childLists ho hf).mp hb).2
    exact Option.some.inj (ha.symm.trans hb)
  nodup a := by
    rw [childLists_eq hf]
    exact (ho.nodup.sublist (List.tail_sublist _)).filter _
  rank_lt a c hc := by
    obtain ⟨hr, hd⟩ := (mem_childLists ho hf).mp hc
    exact hf.parent_before c a hr hd

theorem reaches_childLists_iff {a b : Nat} :
    Reaches ((childLists idom order.tail).getD · []) a b ↔ Above root idom a b := by
  constructor
  · rintro ⟨l, w⟩
    induction w with
    | here => exact .refl
    | step _ hc ih =>
      obtain ⟨hr, hd⟩ := (mem_childLists ho hf).mp hc
      exact .up hr hd ih
  · intro h
    induction h with
    | refl => exact .refl _ _
    | up hr hd _ ih => exact ih.step ((mem_childLists ho hf).mpr ⟨hr, hd⟩)

theorem number_encloses_iff (hlt : ∀ b ∈ order, b < g.size ∧ order.idxOf b < g.size)
    {s : Numbering} (hpre : s.pre.size = g.size) (hpost : s.post.size = g.size) {a b : Nat}
    (ha : Above root idom root a) (hb : Above root idom root b) :
    (number ((childLists idom order.tail).getD · []) g.size s root).Encloses a b ↔
      Above root idom a b := by
  have hroot := hlt root ((ho.mem_iff root).mpr (.refl _ _))
  have hkids : ∀ a c, c ∈ (childLists idom order.tail).getD a [] →
      c < g.size ∧ order.idxOf c < g.size := fun a c hc =>
    hlt c (hf.placed c ⟨a, ((mem_childLists ho hf).mp hc).2⟩)
  have hspec := number_spec (isBranching ho hf) hkids g.size hroot.1 (Nat.le_add_right _ _) hroot.2
    hpre hpost
  rw [← reaches_childLists_iff ho hf] at ha hb
  rw [hspec.encloses_iff a b ⟨root, List.mem_singleton_self _, ha⟩ ⟨root, List.mem_singleton_self _, hb⟩,
    reaches_childLists_iff ho hf]

end

end RegPressure.DomTree
