import RegPressure.Proofs.Graph.Walk
import Mathlib.Data.List.Perm.Subperm

namespace RegPressure.Digraph

variable {next : Nat → List Nat} {n : Nat}

/-- The nodes met are nodes below `n`, each met once. -/
structure Search.Valid (n : Nat) (s : Search) : Prop where
  nodup : s.seen.Nodup
  lt : ∀ x ∈ s.seen, x < n

/-- From `s` the search came to `t` by visiting `starts`; `new` are the nodes it met and did on
the way, the last one done first. -/
structure Grown (next : Nat → List Nat) (n : Nat) (starts : List Nat) (s t : Search)
    (new : List Nat) : Prop where
  valid : t.Valid n
  length_le : s.seen.length ≤ t.seen.length
  done_eq : t.done = new ++ s.done
  nodup : new.Nodup
  mem_seen : ∀ x, x ∈ t.seen ↔ x ∈ new ∨ x ∈ s.seen
  fresh : ∀ x ∈ new, x ∉ s.seen
  closed : ∀ x ∈ new, ∀ y ∈ next x, y ∈ t.seen
  starts_seen : ∀ x ∈ starts, x ∈ t.seen
  reached : ∀ x ∈ new, ∃ a ∈ starts, Reaches next a x
  behind : ∀ x ∈ new, x ∈ starts ∨ ∃ p, x ∈ next p ∧ [p, x].Sublist new

theorem Grown.none {s : Search} (hs : s.Valid n) {starts : List Nat}
    (h : ∀ x ∈ starts, x ∈ s.seen) : Grown next n starts s s [] where
  valid := hs
  length_le := Nat.le_refl _
  done_eq := rfl
  nodup := List.nodup_nil
  mem_seen := by simp
  fresh := by simp
  closed := by simp
  starts_seen := h
  reached := by simp
  behind := by simp

theorem Grown.append {starts more new new' : List Nat} {s t u : Search}
    (h : Grown next n starts s t new) (h' : Grown next n more t u new') :
    Grown next n (starts ++ more) s u (new' ++ new) where
  valid := h'.valid
  length_le := Nat.le_trans h.length_le h'.length_le
  done_eq := by rw [h'.done_eq, h.done_eq, List.append_assoc]
  nodup := by
    refine List.nodup_append.mpr ⟨h'.nodup, h.nodup, fun x hx y hy e => ?_⟩
    subst e
    exact h'.fresh x hx ((h.mem_seen x).mpr (.inl hy))
  mem_seen := fun x => by rw [h'.mem_seen, h.mem_seen, List.mem_append, or_assoc]
  fresh := by
    intro x hx hs
    rcases List.mem_append.mp hx with hx | hx
    · exact h'.fresh x hx ((h.mem_seen x).mpr (.inr hs))
    · exact h.fresh x hx hs
  closed := by
    intro x hx y hy
    rcases List.mem_append.mp hx with hx | hx
    · exact h'.closed x hx y hy
    · exact (h'.mem_seen y).mpr (.inr (h.closed x hx y hy))
  starts_seen := by
    intro x hx
    rcases List.mem_append.mp hx with hx | hx
    · exact (h'.mem_seen x).mpr (.inr (h.starts_seen x hx))
    · exact h'.starts_seen x hx
  reached := by
    intro x hx
    rcases List.mem_append.mp hx with hx | hx
    · obtain ⟨a, ha, hr⟩ := h'.reached x hx
      exact ⟨a, List.mem_append_right _ ha, hr⟩
    · obtain ⟨a, ha, hr⟩ := h.reached x hx
      exact ⟨a, List.mem_append_left _ ha, hr⟩
  behind := by
    intro x hx
    rcases List.mem_append.mp hx with hx | hx
    · rcases h'.behind x hx with ha | ⟨p, hp, hl⟩
      · exact .inl (List.mem_append_right _ ha)
      · exact .inr ⟨p, hp, hl.trans (List.sublist_append_left _ _)⟩
    · rcases h.behind x hx with ha | ⟨p, hp, hl⟩
      · exact .inl (List.mem_append_left _ ha)
      · exact .inr ⟨p, hp, hl.trans (List.sublist_append_right _ _)⟩

/-- A node is done once all that it leads to is. -/
theorem Grown.node {s t : Search} {b : Nat} {new : List Nat} (hb : b ∉ s.seen)
    (h : Grown next n (next b) { s with seen := b :: s.seen } t new) :
    Grown next n [b] s { t with done := b :: t.done } (b :: new) where
  valid := ⟨h.valid.nodup, h.valid.lt⟩
  length_le := Nat.le_trans (Nat.le_succ _) h.length_le
  done_eq := by simp [h.done_eq]
  nodup := List.nodup_cons.mpr ⟨fun hb' => h.fresh b hb' (List.mem_cons_self ..), h.nodup⟩
  mem_seen := fun x => by
    have := h.mem_seen x
    simp only [List.mem_cons] at this ⊢
    tauto
  fresh := by
    intro x hx
    rcases List.mem_cons.mp hx with rfl | hx
    · exact hb
    · exact fun hs => h.fresh x hx (List.mem_cons_of_mem _ hs)
  closed := by
    intro x hx y hy
    rcases List.mem_cons.mp hx with rfl | hx
    · exact h.starts_seen y hy
    · exact h.closed x hx y hy
  starts_seen := by
    intro x hx
    rw [List.mem_singleton] at hx
    subst hx
    exact (h.mem_seen x).mpr (.inr (List.mem_cons_self ..))
  reached := by
    intro x hx
    refine ⟨b, List.mem_singleton_self _, ?_⟩
    rcases List.mem_cons.mp hx with rfl | hx
    · exact .refl _ _
    · obtain ⟨a, ha, hr⟩ := h.reached x hx
      exact ((Reaches.refl next b).step ha).trans hr
  behind := by
    intro x hx
    rcases List.mem_cons.mp hx with rfl | hx
    · exact .inl (List.mem_singleton_self _)
    · refine .inr ?_
      rcases h.behind x hx with ha | ⟨p, hp, hl⟩
      · exact ⟨b, ha, List.Sublist.cons_cons _ (List.singleton_sublist.mpr hx)⟩
      · exact ⟨p, hp, hl.trans (List.sublist_cons_self _ _)⟩

theorem Search.Valid.length_le {s : Search} (h : s.Valid n) : s.seen.length ≤ n := by
  have hsub : s.seen ⊆ List.range n := fun x hx => List.mem_range.mpr (h.lt x hx)
  simpa using (List.subperm_of_subset h.nodup hsub).length_le

theorem Search.Valid.insert {s : Search} (h : s.Valid n) {b : Nat} (hb : b < n)
    (hs : b ∉ s.seen) : Valid n { s with seen := b :: s.seen } where
  nodup := List.nodup_cons.mpr ⟨hs, h.nodup⟩
  lt := by simpa using ⟨hb, h.lt⟩

theorem visit_seen (depth : Nat) {s : Search} {b : Nat} (hb : b ∈ s.seen) :
    visit next depth s b = s := by
  cases depth <;> simp [visit, hb]

theorem foldl_visit_grown (depth : Nat)
    (hvisit : ∀ (s : Search) (b : Nat), s.Valid n → b < n → n ≤ depth + s.seen.length →
      ∃ new, Grown next n [b] s (visit next depth s b) new)
    (starts : List Nat) (s : Search) (hs : s.Valid n) (hstarts : ∀ x ∈ starts, x < n)
    (hd : n ≤ depth + s.seen.length) :
    ∃ new, Grown next n starts s (starts.foldl (visit next depth) s) new := by
  induction starts generalizing s with
  | nil => exact ⟨[], .none hs (by simp)⟩
  | cons b rest ih =>
    obtain ⟨new, h⟩ := hvisit s b hs (hstarts b (List.mem_cons_self ..)) hd
    have hd' := h.length_le
    obtain ⟨more, h'⟩ := ih (visit next depth s b) h.valid
      (fun x hx => hstarts x (List.mem_cons_of_mem _ hx)) (by omega)
    exact ⟨more ++ new, h.append h'⟩

section

variable (hnext : ∀ x y, y ∈ next x → y < n)

include hnext

theorem visit_fresh (depth : Nat) {s : Search} {b : Nat} (hs : s.Valid n) (hb : b < n)
    (hseen : b ∉ s.seen) (hd : n ≤ depth + s.seen.length) :
    ∃ new, Grown next n [b] s (visit next depth s b) (b :: new) := by
  induction depth generalizing s b with
  | zero =>
    have := (hs.insert hb hseen).length_le
    simp only [List.length_cons] at this
    omega
  | succ depth ih =>
    have hvisit : ∀ (s : Search) (b : Nat), s.Valid n → b < n → n ≤ depth + s.seen.length →
        ∃ new, Grown next n [b] s (visit next depth s b) new := by
      intro s b hs hb hd
      by_cases hseen : b ∈ s.seen
      · rw [visit_seen depth hseen]
        exact ⟨[], .none hs (by simpa using hseen)⟩
      · obtain ⟨new, h⟩ := ih hs hb hseen hd
        exact ⟨_, h⟩
    have hlen : n ≤ depth + (b :: s.seen).length := by
      simp only [List.length_cons]
      omega
    obtain ⟨new, h⟩ := foldl_visit_grown depth hvisit (next b) _ (hs.insert hb hseen)
      (fun y hy => hnext b y hy) hlen
    refine ⟨new, ?_⟩
    simpa [visit, hseen] using Grown.node hseen h

theorem visit_grown (depth : Nat) (s : Search) (b : Nat) (hs : s.Valid n) (hb : b < n)
    (hd : n ≤ depth + s.seen.length) : ∃ new, Grown next n [b] s (visit next depth s b) new := by
  by_cases hseen : b ∈ s.seen
  · rw [visit_seen depth hseen]
    exact ⟨[], .none hs (by simpa using hseen)⟩
  · obtain ⟨new, h⟩ := visit_fresh hnext depth hs hb hseen hd
    exact ⟨_, h⟩

end

theorem Reaches.mem_of_closed {a b : Nat} (h : Reaches next a b) {l : List Nat} (ha : a ∈ l)
    (hl : ∀ x ∈ l, ∀ y ∈ next x, y ∈ l) : b ∈ l := by
  obtain ⟨k, w⟩ := h
  induction w with
  | here => exact ha
  | step _ hc ih => exact hl _ ih _ hc

theorem search_valid : Search.Valid n {} := ⟨List.nodup_nil, by simp⟩

theorem mem_foldl_visit (hnext : ∀ x y, y ∈ next x → y < n) {starts : List Nat}
    (hstarts : ∀ x ∈ starts, x < n) {b : Nat} :
    b ∈ (starts.foldl (visit next n) {}).seen ↔ ∃ a ∈ starts, Reaches next a b := by
  obtain ⟨new, h⟩ := foldl_visit_grown n (visit_grown hnext n) starts {}
    search_valid hstarts (by simp)
  have hmem : ∀ x, x ∈ (starts.foldl (visit next n) {}).seen ↔ x ∈ new := fun x => by
    simpa using h.mem_seen x
  constructor
  · exact fun hb => h.reached b ((hmem b).mp hb)
  · rintro ⟨a, ha, hr⟩
    refine Reaches.mem_of_closed hr (h.starts_seen a ha) fun x hx y hy => ?_
    exact h.closed x ((hmem x).mp hx) y hy

theorem mem_visit (hnext : ∀ x y, y ∈ next x → y < n) {root b : Nat} (hroot : root < n) :
    b ∈ (visit next n {} root).seen ↔ Reaches next root b := by
  have hmem : b ∈ ([root].foldl (visit next n) {}).seen ↔ ∃ a ∈ [root], Reaches next a b :=
    mem_foldl_visit hnext (by simpa using hroot)
  simpa using hmem

theorem mem_reach {g : Digraph} (hnext : ∀ x y, y ∈ next x → y < g.size) {starts : List Nat}
    (hstarts : ∀ x ∈ starts, x < g.size) {b : Nat} :
    b ∈ g.reach next starts ↔ ∃ a ∈ starts, Reaches next a b := mem_foldl_visit hnext hstarts

/-- The edges are listed alike from both ends, and they join nodes of the graph. -/
structure Mirrored (g : Digraph) : Prop where
  succ_lt : ∀ a b, b ∈ g.succ a → b < g.size
  mem_pred : ∀ a b, a ∈ g.pred b ↔ b ∈ g.succ a

section

variable {g : Digraph} {b : Nat}

theorem succ_eq_nil (h : g.size ≤ b) : g.succ b = [] := by
  rw [succ, Array.getD_eq_getD_getElem?, Array.getElem?_eq_none h]
  rfl

theorem pred_eq_nil (h : g.preds.size ≤ b) : g.pred b = [] := by
  rw [pred, Array.getD_eq_getD_getElem?, Array.getElem?_eq_none h]
  rfl

theorem Mirrored.pred_lt (hg : g.Mirrored) : ∀ x y, y ∈ g.pred x → y < g.size := by
  intro x y hy
  have hx := (hg.mem_pred y x).mp hy
  by_contra hge
  simp [succ_eq_nil (Nat.not_lt.mp hge)] at hx

theorem mirrored_iff : g.Mirrored ↔
    (∀ a < g.size, ∀ b ∈ g.succ a, b < g.size ∧ a ∈ g.pred b) ∧
      ∀ b < g.preds.size, ∀ a ∈ g.pred b, b ∈ g.succ a := by
  constructor
  · intro hg
    exact ⟨fun a _ b hb => ⟨hg.succ_lt a b hb, (hg.mem_pred a b).mpr hb⟩,
      fun b _ a ha => (hg.mem_pred a b).mp ha⟩
  · rintro ⟨hs, hp⟩
    have hs' : ∀ a b, b ∈ g.succ a → b < g.size ∧ a ∈ g.pred b := by
      intro a b hb
      by_cases ha : a < g.size
      · exact hs a ha b hb
      · simp [succ_eq_nil (Nat.not_lt.mp ha)] at hb
    refine ⟨fun a b hb => (hs' a b hb).1, fun a b => ⟨fun ha => ?_, fun hb => (hs' a b hb).2⟩⟩
    by_cases hb : b < g.preds.size
    · exact hp b hb a ha
    · simp [pred_eq_nil (Nat.not_lt.mp hb)] at ha

instance : Decidable g.Mirrored := decidable_of_iff _ mirrored_iff.symm

end

structure IsReversePostorder (g : Digraph) (root : Nat) (order : List Nat) : Prop where
  nodup : order.Nodup
  mem_iff : ∀ b, b ∈ order ↔ Reaches g.succ root b
  head : order.head? = some root
  behind : ∀ b ∈ order, b ≠ root → ∃ p, b ∈ g.succ p ∧ [p, b].Sublist order

theorem reversePostorder_spec {g : Digraph} (hg : ∀ x y, y ∈ g.succ x → y < g.size) {root : Nat}
    (hroot : root < g.size) : IsReversePostorder g root (g.reversePostorder root) := by
  obtain ⟨new, h⟩ := visit_fresh hg g.size search_valid hroot (by simp) (by simp)
  have hdone : g.reversePostorder root = root :: new := by
    simpa [reversePostorder] using h.done_eq
  have hmem : ∀ x, x ∈ (visit g.succ g.size {} root).seen ↔ x ∈ root :: new := fun x => by
    simpa using h.mem_seen x
  rw [hdone]
  refine ⟨h.nodup, fun b => ⟨fun hb => ?_, fun hb => ?_⟩, rfl, fun b hb hne => ?_⟩
  · obtain ⟨a, ha, hr⟩ := h.reached b hb
    rwa [List.mem_singleton.mp ha] at hr
  · rw [← hmem]
    refine Reaches.mem_of_closed hb (h.starts_seen root (List.mem_singleton_self _)) ?_
    exact fun x hx y hy => h.closed x ((hmem x).mp hx) y hy
  · exact (h.behind b hb).resolve_left (by simpa using hne)

end RegPressure.Digraph
