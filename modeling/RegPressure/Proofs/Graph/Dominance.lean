import RegPressure.Proofs.Graph.Numbering

namespace RegPressure.DomTree

open RegPressure.Digraph

variable {g : Digraph} {root : Nat} {order : List Nat} {idom idom' : Parents}

def Settled (g : Digraph) (root : Nat) (order : List Nat) (idom : Parents) (k b : Nat) : Prop :=
  ∀ l, Walk g.succ root b l → retreats order l < k → ∀ a, Above root idom a b → a ∈ l

structure InPass (g : Digraph) (root : Nat) (order : List Nat) (k : Nat) (done : List Nat)
    (idom : Parents) : Prop where
  forest : IsForest g root order idom
  dominators : ∀ a b, Known idom b → Dominates g.succ root a b → Above root idom a b
  this_pass : ∀ b ∈ done, Known idom b ∧ Settled g root order idom (k + 1) b
  last_pass : 0 < k → ∀ b ∈ order, Known idom b ∧ Settled g root order idom k b

/-- `idom'` is `idom` with `x` as the parent of `b`, which comes later in the order. -/
structure Update (g : Digraph) (root : Nat) (order : List Nat) (b x : Nat)
    (idom idom' : Parents) : Prop where
  size_eq : idom'.size = idom.size
  parent_eq : ∀ c, parent idom' c = if c = b then some x else parent idom c
  mem : b ∈ order
  ne_root : b ≠ root
  known : Known idom x
  before : order.idxOf x < order.idxOf b
  leads : Reaches (forward g order) x b

theorem above_leads (hf : IsForest g root order idom) {a b : Nat} (h : Above root idom a b) :
    Reaches (forward g order) a b := by
  induction h with
  | refl => exact .refl _ _
  | up hb hd _ ih => exact ih.trans (hf.leads _ _ hb hd)

namespace Update

variable {a b c x : Nat} (u : Update g root order b x idom idom')

include u

theorem known_mono (h : Known idom c) : Known idom' c := by
  obtain ⟨d, hd⟩ := h
  by_cases hc : c = b
  · exact ⟨x, by rw [u.parent_eq, if_pos hc]⟩
  · exact ⟨d, by rw [u.parent_eq, if_neg hc, hd]⟩

theorem forest (hf : IsForest g root order idom) : IsForest g root order idom' where
  size_eq := u.size_eq.trans hf.size_eq
  root_parent := by rw [u.parent_eq, if_neg (Ne.symm u.ne_root), hf.root_parent]
  placed := by
    rintro c ⟨d, hd⟩
    rw [u.parent_eq] at hd
    split at hd
    · next hc => exact hc ▸ u.mem
    · exact hf.placed c ⟨d, hd⟩
  parent_known := by
    intro c d hd
    rw [u.parent_eq] at hd
    split at hd
    · cases hd
      exact u.known_mono u.known
    · exact u.known_mono (hf.parent_known c d hd)
  parent_before := by
    intro c d hc hd
    rw [u.parent_eq] at hd
    split at hd
    · next h =>
      cases hd
      exact h ▸ u.before
    · exact hf.parent_before c d hc hd
  leads := by
    intro c d hc hd
    rw [u.parent_eq] at hd
    split at hd
    · next h =>
      cases hd
      exact h ▸ u.leads
    · exact hf.leads c d hc hd

theorem above_before (hf : IsForest g root order idom) (hc : order.idxOf c < order.idxOf b) :
    Above root idom' a c ↔ Above root idom a c := by
  have hne : ∀ {c}, order.idxOf c < order.idxOf b → c ≠ b := by
    rintro c hc rfl
    omega
  constructor
  · intro h
    induction h with
    | refl => exact .refl
    | up hr hd _ ih =>
      have hlt := (u.forest hf).parent_before _ _ hr hd
      rw [u.parent_eq, if_neg (hne hc)] at hd
      exact .up hr hd (ih (Nat.lt_trans hlt hc))
  · intro h
    induction h with
    | refl => exact .refl
    | up hr hd _ ih =>
      have hlt := hf.parent_before _ _ hr hd
      refine .up hr ?_ (ih (Nat.lt_trans hlt hc))
      rw [u.parent_eq, if_neg (hne hc), hd]

theorem above_cases (h : Above root idom' a c) :
    Above root idom a c ∨ Above root idom b c ∧ Above root idom' a b := by
  induction h with
  | refl => exact .inl .refl
  | @up c d hr hd h ih =>
    by_cases hc : c = b
    · subst hc
      exact .inr ⟨.refl, .up hr hd h⟩
    · rw [u.parent_eq, if_neg hc] at hd
      rcases ih with h | ⟨h, h'⟩
      · exact .inl (.up hr hd h)
      · exact .inr ⟨.up hr hd h, h'⟩

theorem above_self (hf : IsForest g root order idom) :
    Above root idom' a b ↔ a = b ∨ Above root idom a x := by
  have hd : parent idom' b = some x := by rw [u.parent_eq, if_pos rfl]
  rw [above_iff_of_parent u.ne_root hd, u.above_before hf u.before]

end Update

theorem dominates_parent (ho : IsReversePostorder g root order) (hf : IsForest g root order idom)
    {a b d : Nat} (hb : b ≠ root) (hd : parent idom b = some d) (h : Dominates g.succ root a b)
    (had : Above root idom a d) : Dominates g.succ root a d := by
  have hreach := (ho.mem_iff d).mp (hf.placed d (hf.parent_known b d hd))
  by_cases hne : a = d
  · subst hne
    exact .refl hreach
  · refine ⟨hreach, fun l w => ?_⟩
    obtain ⟨k, v⟩ := hf.leads b d hb hd
    obtain ⟨m, hm, hmem⟩ := w.append (walk_of_forward v)
    rcases (hmem a).mp (h.2 m hm) with hl | hk
    · exact hl
    · -- The way down from `d` only meets nodes behind `d`, and `a` is before it.
      have hle := idxOf_le_of_forward v a hk
      have hge := had.idxOf_le hf
      have hin := hf.placed a (had.known hf (hf.parent_known b d hd))
      exact absurd ((List.idxOf_inj hin).mp (Nat.le_antisymm hge hle)) hne

theorem Update.dominators (ho : IsReversePostorder g root order) {b x : Nat}
    (u : Update g root order b x idom idom') (hf : IsForest g root order idom)
    (hdom : ∀ a c, Known idom c → Dominates g.succ root a c → Above root idom a c)
    (hx : ∀ a, a ≠ b → Dominates g.succ root a b → Above root idom a x) {a c : Nat}
    (hc : Known idom' c) (h : Dominates g.succ root a c) : Above root idom' a c := by
  induction hn : order.idxOf c using Nat.strongRecOn generalizing c with
  | _ n ih =>
    by_cases hcb : c = b
    · subst hcb
      rw [u.above_self hf]
      by_cases hac : a = c
      · exact .inl hac
      · exact .inr (hx a hac h)
    · obtain ⟨d, hd⟩ := hc
      have hd' := hd
      rw [u.parent_eq, if_neg hcb] at hd
      by_cases hr : c = root
      · subst hr
        exact h.eq_root ▸ .refl
      · rcases (above_iff_of_parent hr hd).mp (hdom a c ⟨d, hd⟩ h) with rfl | had
        · exact .refl
        · have hlt := hf.parent_before c d hr hd
          refine .up hr hd' (ih _ (hn ▸ hlt) ((u.forest hf).parent_known c d hd') ?_ rfl)
          exact dominates_parent ho hf hr hd h had

theorem Update.settled {b x k j : Nat} (u : Update g root order b x idom idom')
    (hb : Settled g root order idom' k b) (hj : j ≤ k) {c : Nat}
    (hc : Settled g root order idom j c) : Settled g root order idom' j c := by
  intro l w hl a ha
  rcases u.above_cases ha with h | ⟨h, h'⟩
  · exact hc l w hl a h
  · obtain ⟨m, hm, v⟩ := w.upTo (hc l w hl b h)
    have hret := retreats_suffix order hm
    exact hm.subset (hb m v (by omega) a h')

theorem parent_setIfInBounds {b c : Nat} (v : Option Nat) (hb : b < idom.size) :
    parent (idom.setIfInBounds b v) c = if c = b then v else parent idom c := by
  simp only [parent, Array.getD_eq_getD_getElem?, Array.getElem?_setIfInBounds]
  by_cases h : b = c
  · subst h
    simp [hb]
  · simp [h, Ne.symm h]

theorem improve_fst {rank : Nat → Nat} {s : Parents × Bool} {b x : Nat} (hb : b < s.1.size)
    (hx : candidate s.1 rank (g.pred b) = some x) :
    (improve g rank s b).1.size = s.1.size ∧
      ∀ c, parent (improve g rank s b).1 c = if c = b then some x else parent s.1 c := by
  simp only [improve, hx]
  split
  · next h =>
    refine ⟨rfl, fun c => ?_⟩
    split
    · next hc => rw [hc, h]
    · rfl
  · exact ⟨Array.size_setIfInBounds, fun c => parent_setIfInBounds _ hb⟩

section

variable (hg : g.Mirrored) (ho : IsReversePostorder g root order)

include hg ho

/-- A node whose turn it is has a candidate, which becomes its parent. -/
theorem InPass.exists_update {k : Nat} {done : List Nat} {s : Parents × Bool}
    (h : InPass g root order k done s.1) {b : Nat} (hb : b ∈ order) (hr : b ≠ root)
    (hbefore : ∀ p ∈ order, order.idxOf p < order.idxOf b → p ∈ done) :
    ∃ x, candidate s.1 (order.idxOf ·) (g.pred b) = some x ∧
      Update g root order b x s.1 (DomTree.improve g (order.idxOf ·) s b).1 ∧
      ∀ a, Above root s.1 a x ↔ ∀ q ∈ g.pred b, Known s.1 q → Above root s.1 a q := by
  have hf := h.forest
  obtain ⟨p, hp, hpb⟩ := ho.behind b hb hr
  have hpin : p ∈ order := hpb.subset (List.mem_cons_self ..)
  have hplt := idxOf_lt_of_sublist ho hpb
  have hpk := (h.this_pass p (hbefore p hpin hplt)).1
  obtain ⟨x, hx, hxk, hxy⟩ := candidate_spec ho hf ((hg.mem_pred p b).mpr hp) hpk
  have hlt : b < s.1.size := by
    obtain ⟨l, w⟩ := (ho.mem_iff b).mp hb
    cases w with
    | here => exact absurd rfl hr
    | step _ hc => exact hf.size_eq ▸ hg.succ_lt _ _ hc
  obtain ⟨hsize, hparent⟩ := improve_fst hlt hx
  have hxp : Above root s.1 x p := (hxy x).mp .refl p ((hg.mem_pred p b).mpr hp) hpk
  refine ⟨x, hx, ?_, hxy⟩
  exact
    { size_eq := hsize, parent_eq := hparent, mem := hb, ne_root := hr, known := hxk
      before := Nat.lt_of_le_of_lt (hxp.idxOf_le hf) hplt
      leads := (above_leads hf hxp).step (List.mem_filter.mpr ⟨hp, by simpa using hplt⟩) }

/-- One node has its turn after all that come before it. -/
theorem InPass.improve {k : Nat} {done : List Nat} {s : Parents × Bool}
    (h : InPass g root order k done s.1) {b : Nat} (hb : b ∈ order) (hr : b ≠ root)
    (hbefore : ∀ p ∈ order, order.idxOf p < order.idxOf b → p ∈ done) :
    InPass g root order k (done ++ [b]) (DomTree.improve g (order.idxOf ·) s b).1 := by
  have hf := h.forest
  obtain ⟨x, -, u, hxy⟩ := h.exists_update hg ho hb hr hbefore
  have hsettled : Settled g root order (DomTree.improve g (order.idxOf ·) s b).1 (k + 1) b := by
    intro l w hl a ha
    cases w with
    | here => exact absurd rfl hr
    | @step q _ l w hq =>
      rw [retreats_step w] at hl
      rcases (u.above_self hf).mp ha with rfl | hax
      · exact List.mem_cons_self ..
      · have hqin : q ∈ order := (ho.mem_iff q).mpr ⟨_, w⟩
        refine List.mem_cons_of_mem _ ?_
        -- A walk that goes forward at its end comes from this pass, any other from the last one.
        by_cases hqb : order.idxOf q < order.idxOf b
        · obtain ⟨hqk, hqs⟩ := h.this_pass q (hbefore q hqin hqb)
          rw [if_pos hqb] at hl
          exact hqs l w (by omega) a ((hxy a).mp hax q ((hg.mem_pred q b).mpr hq) hqk)
        · rw [if_neg hqb] at hl
          obtain ⟨hqk, hqs⟩ := h.last_pass (by omega) q hqin
          exact hqs l w (by omega) a ((hxy a).mp hax q ((hg.mem_pred q b).mpr hq) hqk)
  refine ⟨u.forest hf, fun a c hc hdom => ?_, fun c hc => ?_, fun hk c hc => ?_⟩
  · refine u.dominators ho hf h.dominators (fun a hab hd => (hxy a).mpr fun q hq hqk => ?_) hc hdom
    have hqr := (ho.mem_iff q).mp (hf.placed q hqk)
    exact h.dominators a q hqk (hd.of_edge hab hqr ((hg.mem_pred q b).mp hq))
  · rcases List.mem_append.mp hc with hc | hc
    · obtain ⟨hck, hcs⟩ := h.this_pass c hc
      exact ⟨u.known_mono hck, u.settled hsettled (Nat.le_refl _) hcs⟩
    · rw [List.mem_singleton.mp hc]
      exact ⟨⟨x, by rw [u.parent_eq, if_pos rfl]⟩, hsettled⟩
  · obtain ⟨hck, hcs⟩ := h.last_pass hk c hc
    exact ⟨u.known_mono hck, u.settled hsettled (Nat.le_succ _) hcs⟩

omit hg in
theorem mem_of_idxOf_lt {done rest : List Nat} {b : Nat} (heq : order = done ++ b :: rest) {p : Nat}
    (hlt : order.idxOf p < order.idxOf b) : p ∈ done := by
  have hbd : b ∉ done := fun hb =>
    List.disjoint_of_nodup_append (heq ▸ ho.nodup) hb (List.mem_cons_self ..)
  by_contra hpd
  rw [heq, List.idxOf_append_of_notMem hpd, List.idxOf_append_of_notMem hbd] at hlt
  rw [List.idxOf_cons_self] at hlt
  omega

omit hg in
theorem ne_root_of_split {done rest : List Nat} {b : Nat} (heq : order = done ++ b :: rest)
    (hroot : root ∈ done) : b ≠ root := by
  rintro rfl
  exact List.disjoint_of_nodup_append (heq ▸ ho.nodup) hroot (List.mem_cons_self ..)

/-- The nodes of a part of the order have their turns one after the other. -/
theorem InPass.foldl {k : Nat} (l done rest : List Nat) (s : Parents × Bool)
    (heq : order = done ++ (l ++ rest)) (hroot : root ∈ done)
    (h : InPass g root order k done s.1) :
    InPass g root order k (done ++ l) (l.foldl (DomTree.improve g (order.idxOf ·)) s).1 := by
  induction l generalizing done s with
  | nil => simpa using h
  | cons b l ih =>
    rw [List.cons_append] at heq
    rw [List.append_cons]
    refine ih (done ++ [b]) _ (by simp [heq]) (List.mem_append_left _ hroot) ?_
    exact h.improve hg ho (by simp [heq]) (ne_root_of_split ho heq hroot)
      fun p _ => mem_of_idxOf_lt ho heq

omit hg ho in
/-- A pass starts where the one before it ended. -/
theorem InPass.next {k : Nat} (h : InPass g root order k order idom) :
    InPass g root order (k + 1) [root] idom := by
  refine ⟨h.forest, h.dominators, fun b hb => ?_, fun _ b hb => h.this_pass b hb⟩
  rw [List.mem_singleton.mp hb]
  exact ⟨⟨root, h.forest.root_parent⟩, fun l w _ a ha => ha.eq_root ▸ w.start_mem⟩

theorem InPass.iterate (hstart : InPass g root order 0 [root] idom) (k : Nat) :
    InPass g root order k [root]
      ((fun t => (pass g (order.idxOf ·) order.tail t).1)^[k] idom) := by
  induction k with
  | zero => exact hstart
  | succ k ih =>
    have heq : [root] ++ order.tail = order := List.cons_head?_tail ho.head
    have hpass := ih.foldl hg ho order.tail [root] [] (_, false) (by rw [List.append_nil, heq])
      (List.mem_singleton_self _)
    rw [heq] at hpass
    rw [Function.iterate_succ_apply']
    exact hpass.next

end

theorem improve_snd {rank : Nat → Nat} {s : Parents × Bool} {b : Nat}
    (h : (improve g rank s b).2 = false) : improve g rank s b = s := by
  unfold improve at h ⊢
  split
  · rfl
  · next d hd =>
    rw [hd] at h
    dsimp only at h ⊢
    split
    · rfl
    · next hne => simp [hne] at h

theorem foldl_improve_snd {rank : Nat → Nat} (l : List Nat) (s : Parents × Bool)
    (h : (l.foldl (improve g rank) s).2 = false) : l.foldl (improve g rank) s = s := by
  induction l generalizing s with
  | nil => rfl
  | cons b l ih =>
    rw [List.foldl_cons] at h ⊢
    have hs := ih _ h
    rw [hs] at h ⊢
    exact improve_snd h

theorem settle_eq_iterate (rank : Nat → Nat) (l : List Nat) (passes : Nat) (idom : Parents) :
    settle g rank l passes idom = (fun t => (pass g rank l t).1)^[passes] idom := by
  induction passes generalizing idom with
  | zero => rfl
  | succ n ih =>
    rw [settle, Function.iterate_succ_apply]
    rcases hp : pass g rank l idom with ⟨t, changed⟩
    cases changed with
    | true => simpa [hp] using ih t
    | false =>
      have hfix : pass g rank l idom = (idom, false) := foldl_improve_snd l _ (by rw [← pass, hp])
      rw [hfix] at hp
      cases hp
      exact (Function.iterate_fixed (by rw [hfix]) n).symm

/-- The tree that the iteration starts from holds the root alone. -/
theorem inPass_start (ho : IsReversePostorder g root order) (hroot : root < g.size) :
    InPass g root order 0 [root]
      ((Array.replicate g.size none).setIfInBounds root (some root)) := by
  have hparent : ∀ c, parent ((Array.replicate g.size none).setIfInBounds root (some root)) c =
      if c = root then some root else none := by
    intro c
    rw [parent_setIfInBounds _ (by simpa using hroot)]
    simp only [parent, Array.getD_eq_getD_getElem?, Array.getElem?_replicate]
    split_ifs <;> rfl
  have hknown : ∀ c d,
      parent ((Array.replicate g.size none).setIfInBounds root (some root)) c = some d →
        c = root := by
    intro c d hd
    rw [hparent] at hd
    split at hd
    · assumption
    · cases hd
  have hself : parent ((Array.replicate g.size none).setIfInBounds root (some root)) root =
      some root := by rw [hparent, if_pos rfl]
  refine ⟨⟨by simp, hself, ?_, ?_, ?_, ?_⟩, ?_, ?_, by omega⟩
  · rintro b ⟨d, hd⟩
    rw [hknown b d hd]
    exact (ho.mem_iff root).mpr (.refl _ _)
  · intro b d hd
    have hb := hknown b d hd
    rw [hb, hself] at hd
    cases hd
    exact ⟨root, hself⟩
  · exact fun b d hr hd => absurd (hknown b d hd) hr
  · exact fun b d hr hd => absurd (hknown b d hd) hr
  · rintro a b ⟨d, hd⟩ hdom
    have hb := hknown b d hd
    subst hb
    exact hdom.eq_root ▸ .refl
  · intro b hb
    rw [List.mem_singleton.mp hb]
    exact ⟨⟨root, hself⟩, fun l w _ a ha => ha.eq_root ▸ w.start_mem⟩

theorem IsReversePostorder.length_le (hg : g.Mirrored) (hroot : root < g.size)
    (ho : IsReversePostorder g root order) : order.length ≤ g.size := by
  refine Search.Valid.length_le (s := ⟨order, []⟩) ⟨ho.nodup, fun x hx => ?_⟩
  obtain ⟨l, w⟩ := (ho.mem_iff x).mp hx
  exact w.lt hg.succ_lt hroot x w.end_mem

/-- After as many passes as there are nodes the ancestors of a node are its dominators. -/
theorem InPass.above_iff (hg : g.Mirrored) (ho : IsReversePostorder g root order)
    (hroot : root < g.size) {k : Nat} {done : List Nat} (h : InPass g root order k done idom)
    (hk : g.size ≤ k) {a b : Nat} (hb : b ∈ order) :
    Above root idom a b ↔ Dominates g.succ root a b := by
  obtain ⟨hbk, hbs⟩ := h.last_pass (by omega) b hb
  refine ⟨fun hab => ⟨(ho.mem_iff b).mp hb, fun l w => ?_⟩, h.dominators a b hbk⟩
  obtain ⟨m, hm, hnodup, v⟩ := w.exists_nodup
  have hlen : m.length ≤ g.size :=
    Search.Valid.length_le (s := ⟨m, []⟩) ⟨hnodup, v.lt hg.succ_lt hroot⟩
  have hret := retreats_lt_length order (List.ne_nil_of_mem v.end_mem)
  exact hm (hbs m v (by omega) a hab)

structure IsDominatorTree (g : Digraph) (t : DomTree) : Prop where
  forest : IsForest g t.root t.order t.idom
  order : IsReversePostorder g t.root t.order
  known : ∀ b ∈ t.order, Known t.idom b
  above_iff : ∀ a, ∀ b ∈ t.order, Above t.root t.idom a b ↔ Dominates g.succ t.root a b
  children_eq : ∀ d, t.children d = t.order.tail.filter fun b => parent t.idom b = some d
  numbers : ∀ a ∈ t.order, ∀ b ∈ t.order, (t.pre.getD a 0 ≤ t.pre.getD b 0 ∧
    t.post.getD b 0 ≤ t.post.getD a 0) ↔ Above t.root t.idom a b

theorem compute_spec (hg : g.Mirrored) (hroot : root < g.size) :
    IsDominatorTree g (compute g root) := by
  have ho := reversePostorder_spec hg.succ_lt hroot
  have h := InPass.iterate hg ho (inPass_start ho hroot) (g.size * g.size + 1)
  rw [← settle_eq_iterate] at h
  have hlast := h.last_pass (Nat.succ_pos _)
  have habove : ∀ a, ∀ b ∈ g.reversePostorder root, Above root (compute g root).idom a b ↔
      Dominates g.succ root a b := by
    have hsq : g.size ≤ g.size * g.size := Nat.le_mul_self _
    exact fun a b hb => h.above_iff hg ho hroot (by omega) hb
  refine ⟨h.forest, ho, fun b hb => (hlast b hb).1, habove, fun d => childLists_eq h.forest, ?_⟩
  intro a ha b hb
  have hroot_above : ∀ b ∈ g.reversePostorder root, Above root (compute g root).idom root b :=
    fun b hb => (habove root b hb).mpr ⟨(ho.mem_iff b).mp hb, fun _ w => w.start_mem⟩
  have hlt : ∀ b ∈ g.reversePostorder root, b < g.size ∧
      (g.reversePostorder root).idxOf b < g.size := by
    intro b hb
    obtain ⟨l, w⟩ := (ho.mem_iff b).mp hb
    have hlen := IsReversePostorder.length_le hg hroot ho
    exact ⟨w.lt hg.succ_lt hroot b w.end_mem,
      Nat.lt_of_lt_of_le (List.idxOf_lt_length_iff.mpr hb) hlen⟩
  exact number_encloses_iff ho h.forest hlt Array.size_replicate Array.size_replicate
    (hroot_above a ha) (hroot_above b hb)

theorem isReachable_iff {t : DomTree} (h : IsDominatorTree g t) {b : Nat} :
    t.isReachable b = true ↔ Reaches g.succ t.root b := by
  rw [← h.order.mem_iff, isReachable, Option.isSome_iff_exists]
  exact ⟨h.forest.placed b, h.known b⟩

theorem strictlyDominates_iff {t : DomTree} {a b : Nat} :
    t.strictlyDominates a b = true ↔ a ≠ b ∧ t.dominates a b = true := by
  rw [strictlyDominates, Bool.and_eq_true, decide_eq_true_iff]

/-- The tree answers questions of dominance as walks do. -/
theorem dominates_iff (hg : g.Mirrored) (hroot : root < g.size) {a b : Nat} :
    (compute g root).dominates a b = true ↔ Dominates g.succ root a b := by
  have h := compute_spec hg hroot
  simp only [dominates, Bool.and_eq_true, decide_eq_true_eq, isReachable_iff h, and_assoc]
  constructor
  · rintro ⟨ha, hb, hnumbers⟩
    have ha := (h.order.mem_iff a).mpr ha
    have hb := (h.order.mem_iff b).mpr hb
    exact (h.above_iff a b hb).mp ((h.numbers a ha b hb).mp hnumbers)
  · intro hab
    have ha := (h.order.mem_iff a).mpr hab.reaches_left
    have hb := (h.order.mem_iff b).mpr hab.1
    exact ⟨hab.reaches_left, hab.1, (h.numbers a ha b hb).mpr ((h.above_iff a b hb).mpr hab)⟩

end RegPressure.DomTree

namespace RegPressure

/-- A function has dominance trees if its entry is one of its blocks. -/
theorem DomInfo.compute_eq_ok {f : Func} {entry : Nat} (he : f.entry = some (entry : Int))
    (hentry : entry < f.graph.size) :
    DomInfo.compute f = .ok ⟨f.graph.dominators entry, f.graph.postDominators⟩ := by
  have hnode : f.graph.node entry = .ok entry := by simp [Digraph.node, Digraph.nodeBelow, hentry]
  rw [DomInfo.compute, he, Option.getD_some, DomInfo.ofGraph, hnode]
  rfl

namespace Digraph

/-- Dominance from an entry is what walks say: the entry reaches both nodes, and no walk from the
entry to the second avoids the first. -/
theorem dominators_dominates_iff {g : Digraph} (hg : g.Mirrored) {entry : Nat}
    (hentry : entry < g.size) (a b : Nat) : (g.dominators entry).dominates a b = true ↔
      Reaches g.succ entry a ∧ Reaches g.succ entry b ∧
        ∀ l, Walk g.succ entry b l → a ∈ l := by
  rw [dominators, DomTree.dominates_iff hg hentry]
  exact ⟨fun h => ⟨h.reaches_left, h⟩, fun h => h.2⟩

def twoDoors : Digraph where
  succs := #[[1, 2, 2], [2], [1, 3], [], [3]]
  preds := #[[], [0, 2], [0, 0, 1], [2, 4], []]

/-- Every walk to 3 passes 2, but 2 can be reached without 1, and 4 cannot be reached. -/
theorem twoDoors_dominators : twoDoors.Mirrored ∧ 0 < twoDoors.size ∧
    (∀ l, Walk twoDoors.succ 0 3 l → 2 ∈ l) ∧
    ¬ (Reaches twoDoors.succ 0 1 ∧ Reaches twoDoors.succ 0 2 ∧
      ∀ l, Walk twoDoors.succ 0 2 l → 1 ∈ l) ∧
    ¬ (Reaches twoDoors.succ 0 4 ∧ Reaches twoDoors.succ 0 4 ∧
      ∀ l, Walk twoDoors.succ 0 4 l → 4 ∈ l) := by
  have hg : twoDoors.Mirrored := by decide
  have hentry : 0 < twoDoors.size := by decide
  refine ⟨hg, hentry, ?_, ?_, ?_⟩
  · exact ((dominators_dominates_iff hg hentry 2 3).mp (by decide)).2.2
  · rw [← dominators_dominates_iff hg hentry]
    decide
  · rw [← dominators_dominates_iff hg hentry]
    decide

end Digraph

end RegPressure
