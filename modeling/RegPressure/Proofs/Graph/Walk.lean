import RegPressure.Graph.Digraph
import Mathlib.Data.List.Nodup
import Mathlib.Tactic.Common
import Mathlib.Tactic.Tauto

namespace RegPressure

variable {next : Nat → List Nat} {a b c x : Nat} {l k m : List Nat}

/-- A way from `a` to `b` along `next`. The list holds the nodes on it, the last one first. -/
inductive Walk (next : Nat → List Nat) (a : Nat) : Nat → List Nat → Prop
  | here : Walk next a a [a]
  | step {b c : Nat} {l : List Nat} : Walk next a b l → c ∈ next b → Walk next a c (c :: l)

def Reaches (next : Nat → List Nat) (a b : Nat) : Prop := ∃ l, Walk next a b l

namespace Walk

theorem end_mem (w : Walk next a b l) : b ∈ l := by
  cases w <;> simp

theorem start_mem (w : Walk next a b l) : a ∈ l := by
  induction w with
  | here => simp
  | step _ _ ih => exact List.mem_cons_of_mem _ ih

theorem exists_concat (w : Walk next a b l) : ∃ k, l = k ++ [a] := by
  induction w with
  | here => exact ⟨[], rfl⟩
  | @step b c l w hc ih =>
    obtain ⟨k, rfl⟩ := ih
    exact ⟨c :: k, rfl⟩

theorem exists_cons (w : Walk next a b l) : ∃ k, l = b :: k := by
  cases w with
  | here => exact ⟨[], rfl⟩
  | step w hc => exact ⟨_, rfl⟩

/-- A walk can be parted at every node on it, and two walks put together. -/
theorem append_iff :
    Walk next a b (k ++ x :: m) ↔ Walk next a x (x :: m) ∧ Walk next x b (k ++ [x]) := by
  induction k generalizing b with
  | nil =>
    constructor
    · intro w
      obtain ⟨_, h⟩ := w.exists_cons
      cases h
      exact ⟨w, .here⟩
    · rintro ⟨w, v⟩
      obtain ⟨_, h⟩ := v.exists_cons
      cases h
      exact w
  | cons c k ih =>
    constructor
    · intro w
      cases hl : k ++ x :: m with
      | nil => simp at hl
      | cons d l =>
        rw [List.cons_append, hl] at w
        cases w with
        | step w hc =>
          obtain ⟨v, u⟩ := ih.mp (hl ▸ w)
          exact ⟨v, u.step hc⟩
    · rintro ⟨w, v⟩
      cases hl : k ++ [x] with
      | nil => simp at hl
      | cons d l =>
        rw [List.cons_append, hl] at v
        cases v with
        | step v hc => exact (ih.mpr ⟨w, hl ▸ v⟩).step hc

theorem upTo (w : Walk next a b l) {x : Nat} (hx : x ∈ l) : ∃ k, k <:+ l ∧ Walk next a x k := by
  obtain ⟨k, m, rfl⟩ := List.append_of_mem hx
  exact ⟨x :: m, List.suffix_append _ _, (append_iff.mp w).1⟩

theorem append (w : Walk next a b l) {k : List Nat} (v : Walk next b c k) :
    ∃ m, Walk next a c m ∧ ∀ x, x ∈ m ↔ x ∈ l ∨ x ∈ k := by
  obtain ⟨k, rfl⟩ := v.exists_concat
  obtain ⟨l, rfl⟩ := w.exists_cons
  refine ⟨k ++ b :: l, append_iff.mpr ⟨w, v⟩, fun x => ?_⟩
  simp only [List.mem_append, List.mem_cons, List.not_mem_nil, or_false]
  tauto

theorem onwards (w : Walk next a b l) {x : Nat} (hx : x ∈ l) :
    ∃ k, k ⊆ l ∧ Walk next x b k ∧ k.count x = 1 := by
  induction w with
  | here =>
    rw [List.mem_singleton] at hx
    subst hx
    exact ⟨_, List.Subset.refl _, .here, by simp⟩
  | @step b c l w h ih =>
    by_cases hc : x = c
    · subst hc
      exact ⟨[x], by simp, .here, by simp⟩
    · obtain ⟨k, hk, hw, hcount⟩ := ih ((List.mem_cons.mp hx).resolve_left hc)
      refine ⟨c :: k, List.cons_subset_cons _ hk, .step hw h, ?_⟩
      rw [List.count_cons_of_ne (Ne.symm hc), hcount]

theorem exists_nodup (w : Walk next a b l) : ∃ k, k ⊆ l ∧ k.Nodup ∧ Walk next a b k := by
  induction w with
  | here => exact ⟨_, List.Subset.refl _, List.nodup_singleton _, .here⟩
  | @step b c l w h ih =>
    obtain ⟨k, hk, hnodup, hw⟩ := ih
    by_cases hc : c ∈ k
    · obtain ⟨m, hm, hv⟩ := hw.upTo hc
      exact ⟨m, fun x hx => List.mem_cons_of_mem _ (hk (hm.subset hx)),
        hnodup.sublist hm.sublist, hv⟩
    · exact ⟨c :: k, List.cons_subset_cons _ hk, List.nodup_cons.mpr ⟨hc, hnodup⟩, .step hw h⟩

theorem reaches (w : Walk next a b l) {x : Nat} (hx : x ∈ l) : Reaches next a x := by
  obtain ⟨k, _, hw⟩ := w.upTo hx
  exact ⟨k, hw⟩

theorem lt {n : Nat} (hnext : ∀ x y, y ∈ next x → y < n) (ha : a < n) (w : Walk next a b l) :
    ∀ x ∈ l, x < n := by
  induction w with
  | here => simpa using ha
  | step _ h ih => simpa using ⟨hnext _ _ h, ih⟩

theorem behind (w : Walk next a b l) (h : a ∈ next c) :
    ∃ m, Walk next c b m ∧ ∀ x, x ∈ m ↔ x = c ∨ x ∈ l := by
  obtain ⟨m, hm, hx⟩ := (Walk.here.step h).append w
  refine ⟨m, hm, fun x => ?_⟩
  have := w.start_mem
  rw [hx, List.mem_cons, List.mem_singleton]
  constructor
  · rintro ((rfl | rfl) | hx)
    · exact .inr this
    · exact .inl rfl
    · exact .inr hx
  · rintro (rfl | hx)
    · exact .inl (.inr rfl)
    · exact .inr hx

theorem backwards {prev : Nat → List Nat} (h : ∀ x y, y ∈ next x → x ∈ prev y)
    (w : Walk next a b l) : Walk prev b a l.reverse := by
  induction w with
  | here => exact .here
  | @step b c l w hc ih =>
    obtain ⟨k, hk⟩ := ih.exists_concat
    rw [List.reverse_cons, hk, List.append_assoc]
    exact append_iff.mpr ⟨Walk.here.step (h b c hc), hk ▸ ih⟩

/-- A walk can be gone back along the reversed edges. -/
theorem reverse {prev : Nat → List Nat} (h : ∀ x y, y ∈ next x → x ∈ prev y)
    (w : Walk next a b l) : ∃ k, Walk prev b a k ∧ ∀ x, x ∈ k ↔ x ∈ l :=
  ⟨_, w.backwards h, fun _ => List.mem_reverse⟩

theorem exists_leave (w : Walk next a b (l ++ [a])) :
    ∃ k, k ⊆ l ∧ a ∉ k ∧ Walk next a b (k ++ [a]) := by
  obtain ⟨k, hk, v, hcount⟩ := w.onwards w.start_mem
  obtain ⟨k, rfl⟩ := v.exists_concat
  have ha : a ∉ k := by
    rw [List.count_append, List.count_singleton_self] at hcount
    exact List.count_eq_zero.mp (by omega)
  refine ⟨k, fun x hx => ?_, ha, v⟩
  have hmem := hk (List.mem_append_left _ hx)
  exact (List.mem_append.mp hmem).resolve_right (by simpa using ne_of_mem_of_not_mem hx ha)

/-- Walks that do not enter `c` after their start. -/
theorem filter_append_iff : Walk (fun x => (next x).filter (· ≠ c)) a b (l ++ [a]) ↔
    Walk next a b (l ++ [a]) ∧ c ∉ l := by
  induction l generalizing b with
  | nil =>
    constructor
    · intro w
      obtain ⟨_, h⟩ := w.exists_cons
      cases h
      exact ⟨.here, List.not_mem_nil⟩
    · rintro ⟨w, -⟩
      obtain ⟨_, h⟩ := w.exists_cons
      cases h
      exact .here
  | cons d l ih =>
    cases hl : l ++ [a] with
    | nil => simp at hl
    | cons e m =>
      rw [hl] at ih
      rw [List.cons_append, hl, List.mem_cons, not_or]
      constructor
      · intro w
        cases w with
        | step w hd =>
          obtain ⟨hd, hne⟩ := List.mem_filter.mp hd
          obtain ⟨w, hc⟩ := ih.mp w
          exact ⟨w.step hd, Ne.symm (of_decide_eq_true hne), hc⟩
      · rintro ⟨w, hne, hc⟩
        cases w with
        | step w hd =>
          exact (ih.mpr ⟨w, hc⟩).step (List.mem_filter.mpr ⟨hd, decide_eq_true (Ne.symm hne)⟩)

theorem exists_avoiding_iff (hca : c ≠ a) :
    (∃ l, Walk next a b (l ++ [a]) ∧ c ∉ l) ↔ ∃ l, Walk next a b l ∧ c ∉ l := by
  constructor
  · rintro ⟨l, w, hc⟩
    exact ⟨_, w, by simp [hc, hca]⟩
  · rintro ⟨l, w, hc⟩
    obtain ⟨k, rfl⟩ := w.exists_concat
    exact ⟨k, w, fun h => hc (List.mem_append_left _ h)⟩

end Walk

theorem Reaches.refl (next : Nat → List Nat) (a : Nat) : Reaches next a a := ⟨_, .here⟩

theorem Reaches.step (h : Reaches next a b) (hc : c ∈ next b) : Reaches next a c := by
  obtain ⟨l, w⟩ := h
  exact ⟨_, w.step hc⟩

theorem Reaches.trans (h : Reaches next a b) (h' : Reaches next b c) : Reaches next a c := by
  obtain ⟨l, w⟩ := h
  obtain ⟨k, v⟩ := h'
  obtain ⟨m, hm, _⟩ := w.append v
  exact ⟨m, hm⟩

/-- Every walk from `root` to `b` passes `a`, and there is one. -/
def Dominates (next : Nat → List Nat) (root a b : Nat) : Prop :=
  Reaches next root b ∧ ∀ l, Walk next root b l → a ∈ l

namespace Dominates

variable {root : Nat}

theorem refl (h : Reaches next root a) : Dominates next root a a := ⟨h, fun _ w => w.end_mem⟩

theorem reaches_left (h : Dominates next root a b) : Reaches next root a := by
  obtain ⟨⟨l, w⟩, hall⟩ := h
  exact w.reaches (hall l w)

theorem trans (h : Dominates next root a b) (h' : Dominates next root b c) :
    Dominates next root a c := by
  refine ⟨h'.1, fun l w => ?_⟩
  obtain ⟨k, hk, hw⟩ := w.upTo (h'.2 l w)
  exact hk.subset (h.2 k hw)

theorem antisymm (h : Dominates next root a b) (h' : Dominates next root b a) : a = b := by
  obtain ⟨l, w⟩ := h.1
  obtain ⟨k, _, hnodup, hw⟩ := w.exists_nodup
  -- On a walk without loops the part up to `a` ends before `b`, unless the two are one node.
  cases hw with
  | here => simpa using h.2 _ .here
  | @step _ _ m v hc =>
    by_contra hne
    have ha : a ∈ m := (List.mem_cons.mp (h.2 _ (v.step hc))).resolve_left hne
    obtain ⟨j, hj, hu⟩ := v.upTo ha
    exact (List.nodup_cons.mp hnodup).1 (hj.subset (h'.2 j hu))

theorem of_edge (h : Dominates next root a c) (hne : a ≠ c) (hb : Reaches next root b)
    (hc : c ∈ next b) : Dominates next root a b :=
  ⟨hb, fun _ w => (List.mem_cons.mp (h.2 _ (w.step hc))).resolve_left hne⟩

theorem of_walk (h : Dominates next root a c) (hb : Reaches next root b) (w : Walk next b c l)
    (ha : a ∉ l) : Dominates next root a b := by
  refine ⟨hb, fun k v => ?_⟩
  obtain ⟨m, u, hm⟩ := v.append w
  exact ((hm a).mp (h.2 m u)).resolve_right ha

theorem eq_root (h : Dominates next root a root) : a = root := by
  simpa using h.2 _ .here

end Dominates

end RegPressure
