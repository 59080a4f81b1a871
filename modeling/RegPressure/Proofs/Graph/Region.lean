import RegPressure.Graph.Chain
import RegPressure.Proofs.Graph.Partition
import RegPressure.Proofs.Graph.PostDominance
import RegPressure.Proofs.Graph.Search

namespace RegPressure

variable {g : Digraph} {next : Nat → List Nat} {a b c x : Nat}

namespace Digraph

theorem reaches_filter_iff : Reaches (fun y => (next y).filter (· ≠ c)) a x ↔
    ∃ l, Walk next a x (l ++ [a]) ∧ c ∉ l := by
  constructor
  · rintro ⟨l, w⟩
    obtain ⟨k, rfl⟩ := w.exists_concat
    exact ⟨k, Walk.filter_append_iff.mp w⟩
  · rintro ⟨l, w⟩
    exact ⟨_, Walk.filter_append_iff.mpr w⟩

theorem mem_reach_filter (hnext : ∀ y z, z ∈ next y → z < g.size) (ha : a < g.size) :
    x ∈ g.reach (fun y => (next y).filter (· ≠ c)) [a] ↔
      ∃ l, Walk next a x (l ++ [a]) ∧ c ∉ l := by
  rw [mem_reach (fun y z hz => hnext y z (List.mem_filter.mp hz).1) (by simpa using ha)]
  simp only [List.mem_singleton, exists_eq_left, reaches_filter_iff]

theorem Mirrored.exists_back_iff (hg : g.Mirrored) :
    (∃ l, Walk g.pred b x l ∧ a ∉ l) ↔ ∃ l, Walk g.succ x b l ∧ a ∉ l := by
  constructor
  · rintro ⟨l, w, hl⟩
    exact ⟨_, w.backwards fun y z hz => (hg.mem_pred z y).mp hz, by simpa using hl⟩
  · rintro ⟨l, w, hl⟩
    exact ⟨_, w.backwards fun y z hz => (hg.mem_pred y z).mpr hz, by simpa using hl⟩

theorem Mirrored.mem_reach_back (hg : g.Mirrored) {starts : List Nat}
    (hstarts : ∀ y ∈ starts, y < g.size) :
    x ∈ g.reach (fun y => (g.pred y).filter (· ≠ c)) (starts.filter (· ≠ c)) ↔
      ∃ a ∈ starts, ∃ l, Walk g.succ x a l ∧ c ∉ l := by
  rw [mem_reach (fun y z hz => hg.pred_lt y z (List.mem_filter.mp hz).1)
    fun y hy => hstarts y (List.mem_filter.mp hy).1]
  refine exists_congr fun a => ?_
  rw [List.mem_filter, decide_eq_true_eq, and_assoc, reaches_filter_iff]
  refine and_congr_right fun _ => ?_
  constructor
  · rintro ⟨hac, hback⟩
    exact hg.exists_back_iff.mp ((Walk.exists_avoiding_iff (Ne.symm hac)).mp hback)
  · rintro ⟨l, w, hl⟩
    have hca : c ≠ a := fun he => hl (he ▸ w.end_mem)
    exact ⟨Ne.symm hca, (Walk.exists_avoiding_iff hca).mpr (hg.exists_back_iff.mpr ⟨l, w, hl⟩)⟩

theorem mem_between_iff (hg : g.Mirrored) (ha : a < g.size) (hb : b < g.size) :
    x ∈ g.between a b ↔ x ≠ a ∧ x ≠ b ∧ (∃ l, Walk g.succ a x (l ++ [a]) ∧ b ∉ l) ∧
      ∃ l, Walk g.pred b x (l ++ [b]) ∧ a ∉ l := by
  have hlt : (∃ l, Walk g.succ a x (l ++ [a]) ∧ b ∉ l) → x < g.size := by
    rintro ⟨l, w, _⟩
    exact w.lt hg.succ_lt ha x w.end_mem
  simp only [between, List.mem_filter, nodes, List.mem_range, Bool.and_eq_true,
    decide_eq_true_eq, List.contains_iff_mem, mem_reach_filter hg.succ_lt ha,
    mem_reach_filter hg.pred_lt hb]
  constructor
  · rintro ⟨_, ⟨⟨hxa, hxb⟩, hto⟩, hfrom⟩
    exact ⟨hxa, hxb, hto, hfrom⟩
  · rintro ⟨hxa, hxb, hto, hfrom⟩
    exact ⟨hlt hto, ⟨⟨hxa, hxb⟩, hto⟩, hfrom⟩

end Digraph

namespace Walk

variable {back : Nat → List Nat}

/-- A way to `x` and a way back to it from `b` make one way from `a` to `b`. The way to `x` counts from
the last visit of `a`, the way on up to the first visit of `b`. -/
theorem exists_through (hback : ∀ y z, z ∈ back y → y ∈ next z) (hxa : x ≠ a) (hxb : x ≠ b)
    (hto : ∃ l, Walk next a x (l ++ [a]) ∧ b ∉ l) (hfrom : ∃ l, Walk back b x (l ++ [b]) ∧ a ∉ l) :
    ∃ l, Walk next a b (b :: (l ++ [a])) ∧ a ∉ l ∧ b ∉ l ∧ x ∈ l := by
  obtain ⟨l, w, hbl⟩ := hto
  obtain ⟨m, v, ham⟩ := hfrom
  obtain ⟨l', hl, hal', w⟩ := w.exists_leave
  obtain ⟨m', hm, hbm', v⟩ := v.exists_leave
  have v := v.backwards hback
  rw [List.reverse_append, List.reverse_singleton, List.singleton_append] at v
  have hx : x ∈ l' := by simpa [hxa] using List.mem_append.mp w.end_mem
  obtain ⟨q, hq⟩ := w.exists_cons
  obtain ⟨p, hp⟩ := v.exists_concat
  cases p with
  | nil => exact absurd (List.cons.inj hp).1.symm hxb
  | cons y p =>
    obtain ⟨rfl, hp'⟩ := List.cons.inj hp
    have hpm : p ⊆ m' := fun y hy => List.mem_reverse.mp (hp' ▸ List.mem_append_left _ hy)
    refine ⟨p ++ l', ?_, ?_, ?_, List.mem_append_right _ hx⟩
    · rw [List.append_assoc, hq]
      exact append_iff.mpr ⟨hq ▸ w, hp ▸ v⟩
    · rw [List.mem_append, not_or]
      exact ⟨fun h => ham (hm (hpm h)), hal'⟩
    · rw [List.mem_append, not_or]
      exact ⟨fun h => hbm' (hpm h), fun h => hbl (hl h)⟩

theorem halves {l : List Nat} (hnext : ∀ y z, z ∈ next y → y ∈ back z)
    (w : Walk next a b (b :: (l ++ [a]))) (hal : a ∉ l) (hbl : b ∉ l) (hx : x ∈ l) :
    (∃ l, Walk next a x (l ++ [a]) ∧ b ∉ l) ∧ ∃ l, Walk back b x (l ++ [b]) ∧ a ∉ l := by
  obtain ⟨p, q, rfl⟩ := List.append_of_mem hx
  rw [List.append_assoc, List.cons_append] at w
  obtain ⟨w, v⟩ := append_iff (k := b :: p).mp w
  have v := v.backwards hnext
  rw [List.cons_append, List.reverse_cons] at v
  refine ⟨⟨x :: q, w, fun h => hbl (List.mem_append_right _ h)⟩, _, v, fun h => ?_⟩
  rw [List.mem_reverse, List.mem_append, List.mem_singleton] at h
  rcases h with h | rfl
  · exact hal (List.mem_append_left _ h)
  · exact hal hx

end Walk

/-- Between `a` and `b`, which may be one node, lie just the nodes inside ways from `a` to `b` that
meet neither of them inside, each of them once and in ascending order. -/
theorem between_iff_on_way (hg : g.Mirrored) (ha : a < g.size) (hb : b < g.size) :
    (g.between a b).Pairwise (· < ·) ∧ ∀ x, x ∈ g.between a b ↔
      ∃ l, Walk g.succ a b (b :: (l ++ [a])) ∧ a ∉ l ∧ b ∉ l ∧ x ∈ l := by
  refine ⟨List.pairwise_lt_range.filter _, fun x => ?_⟩
  rw [Digraph.mem_between_iff hg ha hb]
  constructor
  · rintro ⟨hxa, hxb, hto, hfrom⟩
    exact Walk.exists_through (fun y z hz => (hg.mem_pred z y).mp hz) hxa hxb hto hfrom
  · rintro ⟨l, w, hal, hbl, hx⟩
    refine ⟨ne_of_mem_of_not_mem hx hal, ne_of_mem_of_not_mem hx hbl, ?_⟩
    exact w.halves (fun y z hz => (hg.mem_pred y z).mpr hz) hal hbl hx

def sideLoop : Digraph where
  succs := #[[1], [2, 1], [3, 4, 4], [1, 3], []]
  preds := #[[], [0, 1, 3], [1], [2, 3], [2, 2]]

/-- Nothing lies between 1 and 2, but 3 lies on the way from 2 back to 2. -/
theorem sideLoop_between : sideLoop.Mirrored ∧ sideLoop.between 1 2 = [] ∧
    sideLoop.between 2 2 = [1, 3] ∧
      ∃ l, Walk sideLoop.succ 2 2 (2 :: (l ++ [2])) ∧ 2 ∉ l ∧ 3 ∈ l := by
  have hg : sideLoop.Mirrored := by decide +kernel
  have hloop : sideLoop.between 2 2 = [1, 3] := by decide +kernel
  obtain ⟨-, hmem⟩ := between_iff_on_way hg (a := 2) (b := 2) (by decide) (by decide)
  obtain ⟨l, w, h2, -, h3⟩ := (hmem 3).mp (by rw [hloop]; decide)
  exact ⟨hg, by decide +kernel, hloop, l, w, h2, h3⟩

end RegPressure

namespace RegPressure

variable {g : Digraph} {entry a b x : Nat}

theorem mem_between (hg : g.Mirrored) (ha : a < g.size) (hb : b < g.size) (hab : a ≠ b) :
    x ∈ g.between a b ↔ x ≠ a ∧ x ≠ b ∧ (∃ l, Walk g.succ a x l ∧ b ∉ l) ∧
      ∃ l, Walk g.succ x b l ∧ a ∉ l := by
  rw [Digraph.mem_between_iff hg ha hb, Walk.exists_avoiding_iff (Ne.symm hab),
    Walk.exists_avoiding_iff hab, hg.exists_back_iff]

namespace Digraph

theorem dominates_between (hg : g.Mirrored) (ha : a < g.size) (hb : b < g.size) (hab : a ≠ b)
    (hdom : Dominates g.succ entry a b) (hx : x ∈ g.between a b) :
    Dominates g.succ entry a x := by
  obtain ⟨_, _, ⟨k, v, _⟩, m, u, hm⟩ := (mem_between hg ha hb hab).mp hx
  refine ⟨hdom.reaches_left.trans ⟨k, v⟩, fun l w => ?_⟩
  -- The walk goes on to `b` without meeting `a`, so it has met `a` before.
  obtain ⟨n, hn, hmem⟩ := w.append u
  exact ((hmem a).mp (hdom.2 n hn)).resolve_right hm

theorem postDominates_between (hg : g.Mirrored) (ha : a < g.size) (hb : b < g.size) (hab : a ≠ b)
    (hpost : ∀ c l, Walk g.succ a c l → g.EndsRun c → b ∈ l) (hx : x ∈ g.between a b) :
    ∀ c l, Walk g.succ x c l → g.EndsRun c → b ∈ l := by
  obtain ⟨_, _, ⟨k, v, hk⟩, _⟩ := (mem_between hg ha hb hab).mp hx
  intro c l w hc
  obtain ⟨n, hn, hmem⟩ := v.append w
  exact ((hmem b).mp (hpost c n hn hc)).resolve_left hk

theorem notMem_between_of_dominates (hg : g.Mirrored) (ha : a < g.size) (hb : b < g.size)
    (hab : a ≠ b) (hdom : Dominates g.succ entry a b) (hx : Dominates g.succ entry b x) :
    x ∉ g.between a b := by
  intro hmem
  obtain ⟨_, _, ⟨k, v, hk⟩, _⟩ := (mem_between hg ha hb hab).mp hmem
  have hnot : ¬ Dominates g.succ entry b a := fun h => hab (hdom.antisymm h)
  have hall : ¬ ∀ l, Walk g.succ entry a l → b ∈ l := fun h => hnot ⟨hdom.reaches_left, h⟩
  push Not at hall
  obtain ⟨l, w, hl⟩ := hall
  obtain ⟨n, hn, hmem⟩ := w.append v
  exact ((hmem b).mp (hx.2 n hn)).elim hl hk

end Digraph

namespace Chain

theorem exists_append_of_mem_zip_tail {l : List Nat} {a b : Nat} (h : (a, b) ∈ l.zip l.tail) :
    ∃ p q, l = p ++ a :: b :: q := by
  induction l with
  | nil => simp at h
  | cons x l ih =>
    cases l with
    | nil => simp at h
    | cons y l =>
      rw [List.tail_cons, List.zip_cons_cons] at h
      rcases List.mem_cons.mp h with e | h
      · cases e
        exact ⟨[], l, rfl⟩
      · obtain ⟨p, q, hpq⟩ := ih h
        exact ⟨x :: p, q, by rw [hpq, List.cons_append]⟩

variable {d : DomOracle} {c : Chain}

theorem Sound.exists_link (hc : Sound g d c) {m : List Nat} (hm : m ∈ c.between) :
    ∃ prev next, ((prev, next), m) ∈ c.links := by
  have hlen := hc.length_eq
  obtain ⟨i, hi, rfl⟩ := List.mem_iff_getElem.mp hm
  have hzip : i < (c.blocks.zip c.blocks.tail).length := by
    rw [List.length_zip, List.length_tail]
    omega
  refine ⟨_, _, List.mem_iff_getElem.mpr ⟨i, ?_, List.getElem_zip⟩⟩
  rw [links, List.length_zip]
  exact Nat.lt_min.mpr ⟨hzip, hi⟩

theorem pairwise_dominates (hd : ∀ a b, d.dominates a b = true → Dominates g.succ entry a b)
    (hc : Sound g d c) : c.blocks.Pairwise (Dominates g.succ entry) := by
  have : IsTrans Nat (Dominates g.succ entry) := ⟨fun _ _ _ => Dominates.trans⟩
  rw [← List.isChain_iff_pairwise, List.isChain_iff_getElem]
  intro i hi
  have hprev : c.blocks[i]? = some c.blocks[i] := List.getElem?_eq_getElem _
  exact hd _ _ (hc.at_link hprev (List.getElem?_eq_getElem hi)).1.dominates

/-- The blocks up to `a` dominate `a`, which dominates the region; those from `b` on are dominated
by `b`, and the region is not. -/
theorem notMem_blocks (hg : g.Mirrored)
    (hd : ∀ a b, d.dominates a b = true → Dominates g.succ entry a b) (hc : Sound g d c)
    (hlink : ((a, b), g.between a b) ∈ c.links) (ha : a < g.size) (hb : b < g.size)
    (hx : x ∈ g.between a b) : x ∉ c.blocks := by
  have hl := hc.link a b _ hlink
  have hdom := hd a b hl.dominates
  have hax := Digraph.dominates_between hg ha hb hl.ne hdom hx
  have hne : x ≠ a := ((mem_between hg ha hb hl.ne).mp hx).1
  obtain ⟨p, q, hpq⟩ := exists_append_of_mem_zip_tail (List.of_mem_zip hlink).1
  have hpair := pairwise_dominates hd hc
  rw [hpq, List.pairwise_append, List.pairwise_cons, List.pairwise_cons] at hpair
  obtain ⟨_, ⟨_, hq, _⟩, hp⟩ := hpair
  rw [hpq]
  intro hmem
  rcases List.mem_append.mp hmem with hmem | hmem
  · exact hne ((hp x hmem a (List.mem_cons_self ..)).antisymm hax)
  · rcases List.mem_cons.mp hmem with rfl | hmem
    · exact hne rfl
    · have hbx : Dominates g.succ entry b x := by
        rcases List.mem_cons.mp hmem with rfl | hmem
        · exact .refl hdom.1
        · exact hq x hmem
      exact Digraph.notMem_between_of_dominates hg ha hb hl.ne hdom hbx hx

end Chain

/-- Each link of a function's chains encloses a region that is entered and left only through the
ends of the link, and no such region reaches into the chain that it belongs to. -/
theorem links_enclose_regions {f : Func} (hg : f.graph.Mirrored) {entry : Nat}
    (he : f.entry = some (entry : Int)) (hentry : entry < f.graph.size) :
    ∃ d, DomInfo.compute f = .ok d ∧ ∀ c ∈ Chain.build f.graph d.oracle entry,
      (∀ prev next m, ((prev, next), m) ∈ c.links → ∀ x ∈ m,
        d.dom.strictlyDominates prev x = true ∧ d.pdom.strictlyDominates next x = true) ∧
      ∀ m ∈ c.between, ∀ x ∈ m, x ∉ c.blocks := by
  refine ⟨_, DomInfo.compute_eq_ok he hentry, fun c hc => ?_⟩
  have hsize : f.graph.preds.size = f.graph.size := by simp [Func.graph, Digraph.size]
  have hdom : ∀ a b, (f.graph.dominators entry).dominates a b = true →
      Dominates f.graph.succ entry a b := fun a b => (DomTree.dominates_iff hg hentry).mp
  have hsound := Chain.build_spec c hc
  have hlt : ∀ {a b m}, ((a, b), m) ∈ c.links → a < f.graph.size ∧ b < f.graph.size := by
    intro a b m h
    have hsucc := (hsound.link a b m h).succ
    exact ⟨hg.pred_lt b a ((hg.mem_pred a b).mpr hsucc), hg.succ_lt a b hsucc⟩
  constructor
  · intro prev next m hlink x hx
    have hl := hsound.link prev next m hlink
    obtain ⟨hp, hn⟩ := hlt hlink
    rw [hl.between_eq] at hx
    obtain ⟨hxp, hxn, _⟩ := (mem_between hg hp hn hl.ne).mp hx
    have hxlt : x < f.graph.size := List.mem_range.mp (List.mem_filter.mp hx).1
    have hpost := (Digraph.dominates_postDominators hsize hg).mp hl.postDominates
    rw [Digraph.dominates_withExit_iff hsize hg hn hp] at hpost
    rw [DomTree.strictlyDominates, DomTree.strictlyDominates, Bool.and_eq_true, Bool.and_eq_true]
    refine ⟨⟨by simpa using Ne.symm hxp, ?_⟩, by simpa using Ne.symm hxn, ?_⟩
    · refine (DomTree.dominates_iff hg hentry).mpr ?_
      exact Digraph.dominates_between hg hp hn hl.ne (hdom _ _ hl.dominates) hx
    · rw [Digraph.dominates_postDominators hsize hg,
        Digraph.dominates_withExit_iff hsize hg hn hxlt]
      exact Digraph.postDominates_between hg hp hn hl.ne hpost hx
  · intro m hm x hx
    obtain ⟨prev, next, hlink⟩ := hsound.exists_link hm
    obtain ⟨hp, hn⟩ := hlt hlink
    have hm := (hsound.link prev next m hlink).between_eq
    subst hm
    exact Chain.notMem_blocks hg hdom hsound hlink hp hn hx

def detour : Func where
  name := "detour"
  blocks := #[{ succs := [1, 3] }, { succs := [2], preds := [0, 2] },
    { succs := [1, 3], preds := [1] }, { preds := [0, 2, 4] }, { succs := [3] }]
  entry := some 0

/-- The loop of 1 and 2 lies between 0 and 3. -/
theorem detour_encloses_region :
    ∃ d, DomInfo.compute detour = .ok d ∧
      Chain.build detour.graph d.oracle (0 : Nat) = [⟨[0, 3], [[1, 2]]⟩, ⟨[1, 2], [[]]⟩] ∧
      ∀ x ∈ [1, 2], d.dom.strictlyDominates 0 x = true ∧ d.pdom.strictlyDominates 3 x = true := by
  obtain ⟨d, hd, hall⟩ := links_enclose_regions (f := detour) (by decide +kernel) rfl
    (by decide +kernel)
  have hchains : Chain.build detour.graph d.oracle (0 : Nat) =
      [⟨[0, 3], [[1, 2]]⟩, ⟨[1, 2], [[]]⟩] := by
    cases (DomInfo.compute_eq_ok rfl (by decide +kernel)).symm.trans hd
    decide +kernel
  refine ⟨d, hd, hchains, ?_⟩
  exact (hall ⟨[0, 3], [[1, 2]]⟩ (by rw [hchains]; decide)).1 0 3 [1, 2] (by decide)

end RegPressure
