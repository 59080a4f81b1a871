import RegPressure.Proofs.Graph.Chain

namespace RegPressure.Chain

variable {g : Digraph} {d : DomOracle}

inductive Grows (g : Digraph) (d : DomOracle) : Chain → Claims → Chain → Claims → Prop
  | stop {c : Chain} {k k' : Claims} :
    claimSuccs g d c.last k = (k', none) → Grows g d c k c k'
  | extend {c c' : Chain} {k k' k'' : Claims} {b : Nat} :
    claimSuccs g d c.last k = (k', some b) → Grows g d (c.push g b) k' c' k'' → Grows g d c k c' k''

/-- Chains are built until no root is left. -/
inductive Builds (g : Digraph) (d : DomOracle) : List Nat → List Nat → List Chain → Prop
  | done {claimed : List Nat} : Builds g d [] claimed []
  | chain {b : Nat} {rest claimed : List Nat} {c : Chain} {k : Claims} {cs : List Chain} :
    Grows g d { blocks := [b] } { claimed } c k →
      Builds g d (k.roots ++ rest) k.claimed cs → Builds g d (b :: rest) claimed (c :: cs)

/-- Between two states the blocks `new` have joined the chain and those of `extra` have been set
aside, each of them once. -/
structure Taken (k k' : Claims) (new extra : List Nat) : Prop where
  roots : k'.roots = k.roots ++ extra
  perm : k'.claimed.Perm (new ++ extra ++ k.claimed)
  nodup : k'.claimed.Nodup

namespace Taken

variable {k k' k'' : Claims} {new extra new' extra' : List Nat}

theorem refl (hk : k.claimed.Nodup) : Taken k k [] [] := ⟨by simp, .refl _, hk⟩

theorem trans (h : Taken k k' new extra) (h' : Taken k' k'' new' extra') :
    Taken k k'' (new ++ new') (extra ++ extra') where
  roots := by rw [h'.roots, h.roots, List.append_assoc]
  perm := by
    have h1 := h.perm
    have h2 := h'.perm
    simp only [List.perm_iff_count, List.count_append] at h1 h2 ⊢
    intro x
    have := h1 x
    have := h2 x
    omega
  nodup := h'.nodup

theorem length_eq (h : Taken k k' new extra) :
    k'.claimed.length = new.length + extra.length + k.claimed.length := by
  rw [h.perm.length_eq, List.length_append, List.length_append]

theorem mem_claimed (h : Taken k k' new extra) {x : Nat} :
    x ∈ k'.claimed ↔ x ∈ new ++ extra ∨ x ∈ k.claimed := by
  rw [h.perm.mem_iff, List.mem_append]

end Taken

theorem claim_mem (tail : Nat) (r : Claims × Option Nat) (s : Nat) :
    s ∈ (claim d tail r s).1.claimed := by
  unfold claim
  split
  · next h => simpa using h
  · split <;> simp

theorem claim_taken (tail : Nat) {r : Claims × Option Nat} (hk : r.1.claimed.Nodup) (s : Nat) :
    ∃ new extra, Taken r.1 (claim d tail r s).1 new extra ∧
      (claim d tail r s).2.toList = r.2.toList ++ new ∧ new ++ extra ⊆ [s] := by
  unfold claim
  split
  · exact ⟨[], [], .refl hk, by simp, by simp⟩
  · next hs =>
    have hnodup : (s :: r.1.claimed).Nodup := List.nodup_cons.mpr ⟨by simpa using hs, hk⟩
    split
    · next hok =>
      have hnone : r.2 = none := by simpa using (And.left (And.left (by simpa using hok)))
      exact ⟨[s], [], ⟨by simp, .refl _, hnodup⟩, by simp [hnone], by simp⟩
    · exact ⟨[], [s], ⟨rfl, .refl _, hnodup⟩, by simp, by simp⟩

theorem foldl_claim_taken (tail : Nat) (ss : List Nat) {r : Claims × Option Nat}
    (hk : r.1.claimed.Nodup) : ∃ new extra, Taken r.1 (ss.foldl (claim d tail) r).1 new extra ∧
      (ss.foldl (claim d tail) r).2.toList = r.2.toList ++ new ∧ new ++ extra ⊆ ss ∧
      ∀ s ∈ ss, s ∈ (ss.foldl (claim d tail) r).1.claimed := by
  induction ss generalizing r with
  | nil => exact ⟨[], [], .refl hk, by simp, by simp, by simp⟩
  | cons s ss ih =>
    rw [List.foldl_cons]
    obtain ⟨new, extra, h, hn, hs⟩ := claim_taken (d := d) tail hk s
    obtain ⟨new', extra', h', hn', hs', hmem⟩ := ih h.nodup
    refine ⟨new ++ new', extra ++ extra', h.trans h', ?_, ?_, ?_⟩
    · rw [hn', hn, List.append_assoc]
    · intro x hx
      have hs := @hs x
      have hs' := @hs' x
      simp only [List.mem_append, List.mem_cons] at hx hs hs' ⊢
      tauto
    · intro x hx
      rcases List.mem_cons.mp hx with rfl | hx
      · exact h'.mem_claimed.mpr (.inr (claim_mem tail r x))
      · exact hmem x hx

theorem claimSuccs_taken (tail : Nat) {k : Claims} (hk : k.claimed.Nodup) :
    ∃ extra, Taken k (claimSuccs g d tail k).1 (claimSuccs g d tail k).2.toList extra ∧
      (claimSuccs g d tail k).2.toList ++ extra ⊆ g.succ tail ∧
      ∀ s ∈ g.succ tail, s ∈ (claimSuccs g d tail k).1.claimed := by
  rw [claimSuccs_eq]
  obtain ⟨new, extra, h, hn, hs, hmem⟩ :=
    foldl_claim_taken (d := d) tail (g.succ tail) (r := (k, none)) hk
  have hn' : ((g.succ tail).foldl (claim d tail) (k, none)).2.toList = new := by simpa using hn
  rw [hn']
  exact ⟨extra, h, hs, hmem⟩

structure Grown (g : Digraph) (c : Chain) (k : Claims) (c' : Chain) (k' : Claims)
    (new extra : List Nat) : Prop where
  taken : Taken k k' new extra
  blocks : c'.blocks = c.blocks ++ new
  reached : ∀ x ∈ new ++ extra, Reaches g.succ c.last x
  succs : ∀ x ∈ c.last :: new, ∀ y ∈ g.succ x, y ∈ k'.claimed

theorem Grows.grown {c c' : Chain} {k k' : Claims} (h : Grows g d c k c' k')
    (hk : k.claimed.Nodup) : ∃ new extra, Grown g c k c' k' new extra := by
  induction h with
  | @stop c k k' hs =>
    obtain ⟨extra, ht, hsub, hmem⟩ := claimSuccs_taken (g := g) (d := d) c.last hk
    rw [hs] at ht hsub hmem
    refine ⟨[], extra, ht, by simp, fun x hx => ?_, by simpa using hmem⟩
    exact (Reaches.refl _ _).step (hsub hx)
  | @extend c c' k k' k'' b hs _ ih =>
    obtain ⟨extra, ht, hsub, hmem⟩ := claimSuccs_taken (g := g) (d := d) c.last hk
    rw [hs] at ht hsub hmem
    obtain ⟨new', extra', h'⟩ := ih ht.nodup
    have hb : Reaches g.succ c.last b := (Reaches.refl _ _).step (hsub (by simp))
    refine ⟨b :: new', extra ++ extra', ht.trans h'.taken, ?_, fun x hx => ?_, fun x hx => ?_⟩
    · rw [h'.blocks]
      simp [push]
    · have hold : x = b ∨ x ∈ extra ∨ x ∈ new' ++ extra' := by
        simp only [List.mem_append, List.mem_cons] at hx ⊢
        tauto
      rcases hold with rfl | hx | hx
      · exact hb
      · exact (Reaches.refl _ _).step (hsub (by simp [hx]))
      · have := h'.reached x hx
        rw [last_push] at this
        exact hb.trans this
    · rcases List.mem_cons.mp hx with rfl | hx
      · exact fun y hy => h'.taken.mem_claimed.mpr (.inr (hmem y hy))
      · exact h'.succs x (by rwa [last_push])

structure Parted (g : Digraph) (roots other : List Nat) (cs : List Chain) : Prop where
  nodup : (cs.flatMap (·.blocks) ++ other).Nodup
  placed : ∀ x ∈ roots, x ∈ cs.flatMap (·.blocks)
  reached : ∀ x ∈ cs.flatMap (·.blocks), ∃ r ∈ roots, Reaches g.succ r x
  closed : ∀ x ∈ cs.flatMap (·.blocks), ∀ y ∈ g.succ x, y ∈ cs.flatMap (·.blocks) ++ other

theorem Builds.parted {roots claimed other : List Nat} {cs : List Chain}
    (h : Builds g d roots claimed cs) (hk : claimed.Nodup) (hp : claimed.Perm (roots ++ other)) :
    Parted g roots other cs := by
  induction h generalizing other with
  | done => exact ⟨by simpa using hp.nodup_iff.mp hk, by simp, by simp, by simp⟩
  | @chain b rest claimed c k cs hgrow _ ih =>
    obtain ⟨new, extra, hg⟩ := hgrow.grown hk
    have hblocks : c.blocks = b :: new := hg.blocks
    have hroots : k.roots = extra := by simpa using hg.taken.roots
    -- The new chain joins what has been placed before.
    have hp' : k.claimed.Perm ((k.roots ++ rest) ++ (c.blocks ++ other)) := by
      have h1 := hg.taken.perm
      rw [hblocks, hroots]
      simp only [List.perm_iff_count, List.count_append, List.count_cons] at h1 hp ⊢
      intro x
      have := h1 x
      have := hp x
      omega
    obtain ⟨hnodup, hplaced, hreached, hclosed⟩ := ih hg.taken.nodup hp'
    have hb : ∀ x ∈ new ++ extra, Reaches g.succ b x := hg.reached
    have hmem : ∀ x, x ∈ cs.flatMap (·.blocks) ++ (c.blocks ++ other) ↔
        x ∈ (c :: cs).flatMap (·.blocks) ++ other := by
      intro x
      simp only [List.flatMap_cons, List.mem_append]
      tauto
    refine ⟨?_, fun x hx => ?_, fun x hx => ?_, fun x hx y hy => ?_⟩
    · refine (List.Perm.nodup_iff ?_).mp hnodup
      rw [List.flatMap_cons, List.append_assoc]
      exact List.perm_append_comm_assoc ..
    · rw [List.flatMap_cons, List.mem_append, hblocks]
      rcases List.mem_cons.mp hx with rfl | hx
      · exact .inl (List.mem_cons_self ..)
      · exact .inr (hplaced x (List.mem_append_right _ hx))
    · rw [List.flatMap_cons, List.mem_append, hblocks] at hx
      rcases hx with hx | hx
      · rcases List.mem_cons.mp hx with rfl | hx
        · exact ⟨x, List.mem_cons_self .., .refl _ _⟩
        · exact ⟨b, List.mem_cons_self .., hb x (List.mem_append_left _ hx)⟩
      · obtain ⟨r, hr, hx⟩ := hreached x hx
        rw [hroots] at hr
        rcases List.mem_append.mp hr with hr | hr
        · exact ⟨b, List.mem_cons_self .., (hb r (List.mem_append_right _ hr)).trans hx⟩
        · exact ⟨r, List.mem_cons_of_mem _ hr, hx⟩
    · rw [← hmem]
      rw [List.flatMap_cons, List.mem_append, hblocks] at hx
      rcases hx with hx | hx
      · -- All successors of the chain have been claimed, so they are placed or still to come.
        rcases List.mem_append.mp (hp'.mem_iff.mp (hg.succs x hx y hy)) with h | h
        · exact List.mem_append_left _ (hplaced y h)
        · exact List.mem_append_right _ h
      · exact hclosed x hx y hy

section

variable (hsucc : ∀ a b, b ∈ g.succ a → b < g.size)

include hsucc

theorem Grown.lt {c c' : Chain} {k k' : Claims} {new extra : List Nat}
    (h : Grown g c k c' k' new extra) (hlast : c.last < g.size)
    (hlt : ∀ x ∈ k.claimed, x < g.size) : ∀ x ∈ k'.claimed, x < g.size := by
  intro x hx
  rcases h.taken.mem_claimed.mp hx with hx | hx
  · obtain ⟨l, w⟩ := h.reached x hx
    exact w.lt hsucc hlast x w.end_mem
  · exact hlt x hx

omit hsucc in
theorem length_claimed_le {claimed : List Nat} (hk : claimed.Nodup)
    (hlt : ∀ x ∈ claimed, x < g.size) : claimed.length ≤ g.size := by
  have hsub : claimed ⊆ List.range g.size := fun x hx => List.mem_range.mpr (hlt x hx)
  simpa using (List.subperm_of_subset hk hsub).length_le

theorem grows_grow (n : Nat) {c : Chain} {k : Claims} (hk : k.claimed.Nodup)
    (hlt : ∀ x ∈ k.claimed, x < g.size) (hn : g.size < n + k.claimed.length) :
    Grows g d c k (grow g d n c k).1 (grow g d n c k).2 := by
  induction n generalizing c k with
  | zero =>
    have := length_claimed_le hk hlt
    omega
  | succ n ih =>
    obtain ⟨extra, ht, hsub, _⟩ := claimSuccs_taken (g := g) (d := d) c.last hk
    rw [grow]
    rcases hs : claimSuccs g d c.last k with ⟨k', next⟩
    cases next with
    | none => exact .stop hs
    | some b =>
      rw [hs] at ht hsub
      refine .extend hs (ih ht.nodup (fun x hx => ?_) ?_)
      · rcases ht.mem_claimed.mp hx with hx | hx
        · exact hsucc _ _ (hsub hx)
        · exact hlt x hx
      · have := ht.length_eq
        simp only [Option.toList_some, List.length_singleton] at this
        omega

/-- Every chain takes a root, and roots that are added have been free before. -/
theorem builds_buildFrom (n : Nat) {roots claimed : List Nat} (hk : claimed.Nodup)
    (hlt : ∀ x ∈ claimed, x < g.size) (hroots : ∀ x ∈ roots, x ∈ claimed)
    (hn : roots.length + g.size ≤ n + claimed.length) :
    Builds g d roots claimed (buildFrom g d n roots claimed) := by
  induction n generalizing roots claimed with
  | zero =>
    have hle := length_claimed_le hk hlt
    have hnil : roots = [] := List.length_eq_zero_iff.mp (by omega)
    subst hnil
    exact .done
  | succ n ih =>
    cases roots with
    | nil => exact .done
    | cons b rest =>
      rw [buildFrom]
      have hb := hroots b (List.mem_cons_self ..)
      have hpos : 0 < claimed.length := List.length_pos_of_mem hb
      have hgrow := grows_grow hsucc (d := d) g.size (c := { blocks := [b] }) (k := { claimed })
        hk hlt (by dsimp only; omega)
      obtain ⟨new, extra, hg⟩ := hgrow.grown hk
      refine .chain hgrow (ih hg.taken.nodup (hg.lt hsucc (hlt b hb) hlt) (fun x hx => ?_) ?_)
      · rw [hg.taken.mem_claimed]
        have hr : (grow g d g.size { blocks := [b] } { claimed }).2.roots = extra := by
          simpa using hg.taken.roots
        rw [hr] at hx
        rcases List.mem_append.mp hx with hx | hx
        · exact .inl (List.mem_append_right _ hx)
        · exact .inr (hroots x (List.mem_cons_of_mem _ hx))
      · have hlen := hg.taken.length_eq
        have hr := congrArg List.length hg.taken.roots
        simp only [List.length_append, List.length_cons, List.length_nil] at hlen hr hn ⊢
        omega

end

theorem Builds.starts {b : Nat} {rest claimed : List Nat} {cs : List Chain}
    (h : Builds g d (b :: rest) claimed cs) (hk : claimed.Nodup) :
    ∃ c cs', cs = c :: cs' ∧ c.blocks.head? = some b := by
  cases h with
  | @chain _ _ _ c _ cs' hgrow _ =>
    obtain ⟨new, extra, hg⟩ := hgrow.grown hk
    exact ⟨c, cs', rfl, by simp [hg.blocks]⟩

theorem builds_build {root : Nat} (hsucc : ∀ a b, b ∈ g.succ a → b < g.size)
    (hroot : root < g.size) : Builds g d [root] [root] (build g d root) := by
  have heq : build g d root = buildFrom g d g.size [root] [root] := by simp [build, hroot]
  rw [heq]
  exact builds_buildFrom hsucc g.size (by simp) (by simpa using hroot) (by simp) (by simp; omega)

theorem mem_build {root : Nat} (hsucc : ∀ a b, b ∈ g.succ a → b < g.size) (hroot : root < g.size) :
    ((build g d root).flatMap (·.blocks)).Nodup ∧
      ∀ b, b ∈ (build g d root).flatMap (·.blocks) ↔ Reaches g.succ root b := by
  have h : Parted g [root] [] (build g d root) :=
    (builds_build hsucc hroot).parted (by simp) (by simp)
  refine ⟨by simpa using h.nodup, fun b => ⟨fun hb => ?_, fun hb => ?_⟩⟩
  · obtain ⟨r, hr, hb⟩ := h.reached b hb
    rwa [List.mem_singleton.mp hr] at hb
  · refine Digraph.Reaches.mem_of_closed hb (h.placed root (List.mem_singleton_self _)) ?_
    simpa using h.closed

theorem Sound.at_link {c : Chain} (h : Sound g d c) {i prev next : Nat}
    (hprev : c.blocks[i]? = some prev) (hnext : c.blocks[i + 1]? = some next) :
    LinkSound g d prev next (g.between prev next) ∧
      c.between[i]? = some (g.between prev next) := by
  have hlt : i < c.between.length := by
    have := (List.getElem?_eq_some_iff.mp hnext).1
    have := h.length_eq
    omega
  have hm : c.between[i]? = some c.between[i] := List.getElem?_eq_getElem hlt
  have hlink : ((prev, next), c.between[i]) ∈ c.links := by
    refine List.mem_iff_getElem?.mpr ⟨i, ?_⟩
    rw [links, List.getElem?_zip_eq_some, List.getElem?_zip_eq_some, List.getElem?_tail]
    exact ⟨⟨hprev, hnext⟩, hm⟩
  have hs := h.link _ _ _ hlink
  have heq := hs.between_eq
  rw [heq] at hs hm
  exact ⟨hs, hm⟩

/-- For every oracle chain building ends. Its chains hold the blocks that the root reaches, each
once and no others; the first chain starts at the root; and a chain joins a block to a successor
that the oracle accepts, with the blocks between the two stored once for each link. -/
theorem build_parts_reachable (d : DomOracle) {root : Nat}
    (hsucc : ∀ a b, b ∈ g.succ a → b < g.size) (hroot : root < g.size) :
    Builds g d [root] [root] (build g d root) ∧
    ((build g d root).flatMap (·.blocks)).Nodup ∧
    (∀ b, b ∈ (build g d root).flatMap (·.blocks) ↔ Reaches g.succ root b) ∧
    (∃ c cs, build g d root = c :: cs ∧ c.blocks.head? = some root) ∧
    ∀ c ∈ build g d root, c.between.length + 1 = c.blocks.length ∧
      ∀ i prev next, c.blocks[i]? = some prev → c.blocks[i + 1]? = some next →
        next ∈ g.succ prev ∧ d.dominates prev next = true ∧ d.postDominates next prev = true ∧
          c.between[i]? = some (g.between prev next) := by
  have hbuilds : Builds g d [root] [root] (build g d root) := builds_build hsucc hroot
  obtain ⟨hnodup, hmem⟩ := mem_build (d := d) hsucc hroot
  refine ⟨hbuilds, hnodup, hmem, hbuilds.starts (by simp), fun c hc => ?_⟩
  have hsound := build_spec c hc
  refine ⟨hsound.length_eq, fun i prev next hprev hnext => ?_⟩
  obtain ⟨hlink, hbetween⟩ := hsound.at_link hprev hnext
  exact ⟨hlink.succ, hlink.dominates, hlink.postDominates, hbetween⟩

def loopWithExit : Digraph where
  succs := #[[1, 1], [2, 4], [2, 3], [1, 4], [], [4]]
  preds := #[[], [0, 0, 3], [1, 2], [2], [1, 3, 5], []]

/-- Even an oracle that accepts everything leads to chains of the blocks 0 to 4, each once. -/
theorem loopWithExit_parts_reachable :
    (∀ a b, b ∈ loopWithExit.succ a → b < loopWithExit.size) ∧ 0 < loopWithExit.size ∧
    (build loopWithExit ⟨fun _ _ => true, fun _ _ => true⟩ (0 : Nat)).map (·.blocks) =
      [[0, 1, 2, 3], [4]] ∧
    ∀ b, b ∈ [0, 1, 2, 3, 4] ↔ Reaches loopWithExit.succ 0 b := by
  have hsucc : ∀ a b, b ∈ loopWithExit.succ a → b < loopWithExit.size :=
    Digraph.Mirrored.succ_lt (by decide)
  have hroot : 0 < loopWithExit.size := by decide
  have h := (build_parts_reachable ⟨fun _ _ => true, fun _ _ => true⟩ hsucc hroot).2.2.1
  have heq : (build loopWithExit ⟨fun _ _ => true, fun _ _ => true⟩ (0 : Nat)).map (·.blocks) =
      [[0, 1, 2, 3], [4]] := by decide
  refine ⟨hsucc, hroot, heq, fun b => ?_⟩
  rw [← h b, List.flatMap_def, heq]
  rfl

end RegPressure.Chain
