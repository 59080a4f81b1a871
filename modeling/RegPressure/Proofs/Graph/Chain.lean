import RegPressure.Graph.Chain
import RegPressure.Proofs.Graph.Search

namespace RegPressure

def DomOracle.inLine : DomOracle := ⟨fun a b => a ≤ b, fun b a => a ≤ b⟩

namespace Chain

variable {g : Digraph} {d : DomOracle}

/-- What holds of two neighbours of a chain and of what is stored for them. -/
structure LinkSound (g : Digraph) (d : DomOracle) (a b : Nat) (between : List Nat) : Prop where
  succ : b ∈ g.succ a
  ne : a ≠ b
  dominates : d.dominates a b = true
  postDominates : d.postDominates b a = true
  between_eq : between = g.between a b

structure Sound (g : Digraph) (d : DomOracle) (c : Chain) : Prop where
  ne_nil : c.blocks ≠ []
  length_eq : c.between.length + 1 = c.blocks.length
  link : ∀ a b m, ((a, b), m) ∈ c.links → LinkSound g d a b m

theorem zip_tail_concat (l : List Nat) (a b : Nat) :
    (l ++ [a] ++ [b]).zip (l ++ [a] ++ [b]).tail = (l ++ [a]).zip (l ++ [a]).tail ++ [(a, b)] := by
  induction l with
  | nil => rfl
  | cons x l ih =>
    cases l with
    | nil => rfl
    | cons y l => simpa using ih

theorem links_push {c : Chain} (hne : c.blocks ≠ [])
    (hlen : c.between.length + 1 = c.blocks.length) (b : Nat) :
    (c.push g b).links = c.links ++ [((c.last, b), g.between c.last b)] := by
  obtain ⟨l, a, hl⟩ := (List.eq_nil_or_concat' c.blocks).resolve_left hne
  have hlast : c.last = a := by simp [last, hl]
  have hzip : ((l ++ [a]).zip (l ++ [a]).tail).length = c.between.length := by
    rw [hl] at hlen
    simp only [List.length_append, List.length_singleton] at hlen
    simp only [List.length_zip, List.length_tail, List.length_append, List.length_singleton]
    omega
  simp only [links, push, hlast, hl, zip_tail_concat]
  rw [List.zip_append hzip]
  rfl

theorem Sound.push {c : Chain} (h : Sound g d c) {b : Nat}
    (hb : LinkSound g d c.last b (g.between c.last b)) : Sound g d (c.push g b) where
  ne_nil := by simp [Chain.push]
  length_eq := by
    have := h.length_eq
    simp only [Chain.push, List.length_append, List.length_singleton]
    omega
  link := by
    intro x y m hm
    rw [links_push h.ne_nil h.length_eq] at hm
    rcases List.mem_append.mp hm with hm | hm
    · exact h.link x y m hm
    · rw [List.mem_singleton] at hm
      cases hm
      exact hb

structure Claimed (g : Digraph) (d : DomOracle) (tail : Nat) (k : Claims) (r : Claims × Option Nat) :
    Prop where
  mono : ∀ x ∈ k.claimed, x ∈ r.1.claimed
  roots : ∀ x ∈ r.1.roots, x ∈ k.roots ∨ x ∈ r.1.claimed
  next : ∀ b, r.2 = some b → b ∈ r.1.claimed ∧ b ∈ g.succ tail ∧ b ∉ k.claimed ∧
    d.dominates tail b = true ∧ d.postDominates b tail = true

def claim (d : DomOracle) (tail : Nat) (r : Claims × Option Nat) (s : Nat) : Claims × Option Nat :=
  if r.1.claimed.contains s then r
  else if r.2.isNone && d.dominates tail s && d.postDominates s tail then
    ({ r.1 with claimed := s :: r.1.claimed }, some s)
  else ({ claimed := s :: r.1.claimed, roots := r.1.roots ++ [s] }, r.2)

theorem claimSuccs_eq (tail : Nat) (k : Claims) :
    claimSuccs g d tail k = (g.succ tail).foldl (claim d tail) (k, none) := rfl

theorem claimSuccs_spec (tail : Nat) (k : Claims) :
    Claimed g d tail k (claimSuccs g d tail k) := by
  suffices main : ∀ (ss : List Nat) (r : Claims × Option Nat), (∀ s ∈ ss, s ∈ g.succ tail) →
      Claimed g d tail k r → Claimed g d tail k (ss.foldl (claim d tail) r) by
    rw [claimSuccs_eq]
    exact main (g.succ tail) (k, none) (fun _ h => h)
      ⟨fun _ h => h, fun _ h => .inl h, fun _ h => by cases h⟩
  intro ss
  induction ss with
  | nil => exact fun r _ h => h
  | cons s ss ih =>
    intro r hss h
    rw [List.foldl_cons]
    refine ih _ (fun x hx => hss x (List.mem_cons_of_mem _ hx)) ?_
    have hs := hss s (List.mem_cons_self ..)
    unfold claim
    split
    · exact h
    · next hfresh =>
      have hk : s ∉ k.claimed := fun hk => hfresh (by simpa using h.mono s hk)
      split
      · next hok =>
        simp only [Bool.and_eq_true] at hok
        refine ⟨fun x hx => List.mem_cons_of_mem _ (h.mono x hx), fun x hx => ?_, fun b hb => ?_⟩
        · exact (h.roots x hx).imp_right (List.mem_cons_of_mem _)
        · cases hb
          exact ⟨List.mem_cons_self .., hs, hk, hok.1.2, hok.2⟩
      · refine ⟨fun x hx => List.mem_cons_of_mem _ (h.mono x hx), fun x hx => ?_, fun b hb => ?_⟩
        · rcases List.mem_append.mp hx with hx | hx
          · exact (h.roots x hx).imp_right (List.mem_cons_of_mem _)
          · rw [List.mem_singleton.mp hx]
            exact .inr (List.mem_cons_self ..)
        · exact ⟨List.mem_cons_of_mem _ (h.next b hb).1, (h.next b hb).2⟩

theorem last_push (c : Chain) (b : Nat) : (c.push g b).last = b := by simp [push, last]

theorem grow_spec (n : Nat) {c : Chain} {k : Claims} (hc : Sound g d c)
    (hlast : c.last ∈ k.claimed) (hroots : ∀ x ∈ k.roots, x ∈ k.claimed) :
    Sound g d (grow g d n c k).1 ∧
      ∀ x, x ∈ k.claimed ∨ x ∈ (grow g d n c k).2.roots → x ∈ (grow g d n c k).2.claimed := by
  induction n generalizing c k with
  | zero => exact ⟨hc, fun x hx => hx.elim id (hroots x)⟩
  | succ n ih =>
    have h : Claimed g d c.last k (claimSuccs g d c.last k) := claimSuccs_spec c.last k
    have hr : ∀ x ∈ (claimSuccs g d c.last k).1.roots, x ∈ (claimSuccs g d c.last k).1.claimed :=
      fun x hx => (h.roots x hx).elim (fun hx => h.mono x (hroots x hx)) id
    rw [grow]
    rcases hs : claimSuccs g d c.last k with ⟨k', next⟩
    rw [hs] at h hr
    cases next with
    | none => exact ⟨hc, fun x hx => hx.elim (h.mono x) (hr x)⟩
    | some b =>
      obtain ⟨hb, hsucc, hfresh, hdom, hpdom⟩ := h.next b rfl
      have hlink : LinkSound g d c.last b (g.between c.last b) :=
        ⟨hsucc, fun he => hfresh (he ▸ hlast), hdom, hpdom, rfl⟩
      obtain ⟨h1, h2⟩ := ih (hc.push hlink) (by rw [last_push]; exact hb) hr
      exact ⟨h1, fun x hx => h2 x (hx.imp_left (h.mono x))⟩

theorem buildFrom_spec (n : Nat) {roots claimed : List Nat} (h : ∀ x ∈ roots, x ∈ claimed) :
    ∀ c ∈ buildFrom g d n roots claimed, Sound g d c := by
  induction n generalizing roots claimed with
  | zero => simp [buildFrom]
  | succ n ih =>
    cases roots with
    | nil => simp [buildFrom]
    | cons b rest =>
      have hsingle : Sound g d { blocks := [b] } := ⟨by simp, rfl, by simp [links]⟩
      obtain ⟨hc, hclaimed⟩ := grow_spec g.size (k := { claimed }) hsingle
        (h b (List.mem_cons_self ..)) (by simp)
      intro c hmem
      rw [buildFrom] at hmem
      rcases List.mem_cons.mp hmem with rfl | hmem
      · exact hc
      · refine ih (fun x hx => ?_) c hmem
        rcases List.mem_append.mp hx with hx | hx
        · exact hclaimed x (.inr hx)
        · exact hclaimed x (.inl (h x (List.mem_cons_of_mem _ hx)))

theorem build_spec {root : Int} : ∀ c ∈ build g d root, Sound g d c := by
  intro c hc
  rw [build] at hc
  split at hc
  · exact buildFrom_spec g.size (by simp) c hc
  · simp at hc

end Chain

end RegPressure
