import Mathlib.Algebra.BigOperators.Group.Finset.Piecewise
import Mathlib.Algebra.Order.BigOperators.Group.Finset
import RegPressure.Proofs.Narrow.Outcome

namespace RegPressure

open Relation

namespace Func

/-- A comparison of nothing but comparisons is listed behind one of them. -/
def ComparesInOrder (f : Func) : Prop :=
  ∀ c i, f.instr? c = some i → i.isErased = false → i.op = .icmp → ∃ v ∈ i.operands,
    f.opBehind v = .icmp → ∃ d, v = .instr d ∧ [d, c].Sublist f.listed

instance : (f : Func) → Decidable f.ComparesInOrder := fun f =>
  decidable_of_iff (∀ c ∈ f.instrIds, ∀ i ∈ f.instr? c, i.isErased = false → i.op = .icmp →
      ∃ v ∈ i.operands, f.opBehind v = .icmp → ∃ d ∈ f.listed, v = .instr d ∧ [d, c].Sublist f.listed) <| by
    constructor
    · intro h c i hi hlive hop
      obtain ⟨v, hv, hbefore⟩ := h c (mem_instrIds.mpr ⟨i, hi⟩) i hi hlive hop
      exact ⟨v, hv, fun hcmp => (hbefore hcmp).imp fun _ hd => hd.2⟩
    · intro h c _ i hi hlive hop
      obtain ⟨v, hv, hbefore⟩ := h c i hi hlive hop
      exact ⟨v, hv, fun hcmp => (hbefore hcmp).imp fun _ hd => ⟨hd.2.subset (by simp), hd⟩⟩

def ComparesRanked (f : Func) : Prop :=
  ∃ rank : Int → Nat, ∀ c d, f.isLive c = true → f.Compares c d → rank d < rank c

def ComparesPairs (f : Func) : Prop :=
  ∀ c i, f.instr? c = some i → i.isErased = false → i.op = .icmp → i.operands.length = 2

theorem exists_of_opOf {f : Func} {c : Int} {op : Op} (h : f.opOf c = op) (hop : op ≠ .invalid) :
    ∃ i, f.instr? c = some i ∧ i.op = op := by
  cases hi : f.instr? c with
  | none =>
    rw [opOf, hi] at h
    exact absurd h.symm hop
  | some i => exact ⟨i, rfl, (opOf_eq hi).symm.trans h⟩

end Func

namespace ValueRange.RangeM

variable {α : Type} {f : Func} {g : α → RangeM Bool} {a : α} {l : List α} {m m' : Memo}

theorem exists_run_of_allM (hg : ∀ a ∈ l, Stable f (g a)) (hm : m.Idle f) (ha : a ∈ l)
    (h : (l.allM g).run m = .ok (true, m')) :
    ∃ m₁ m₂, m.Later m₁ ∧ (g a).run m₁ = .ok (true, m₂) := by
  induction l generalizing m with
  | nil => cases ha
  | cons b l ih =>
    obtain ⟨p, hp, h⟩ := run_allM_cons_eq_ok.mp h
    obtain ⟨yes, m₂⟩ := p
    cases yes with
    | false => cases h
    | true =>
      rcases List.mem_cons.mp ha with rfl | ha
      · exact ⟨m, m₂, Std.Refl.refl m, hp⟩
      · have hlater := (hg b (List.mem_cons_self ..) m _ m₂ hm hp).1
        obtain ⟨m₃, m₄, hm₃, hrun⟩ :=
          ih (fun x hx => hg x (List.mem_cons_of_mem _ hx)) (hm.later hlater) ha h
        exact ⟨m₃, m₄, IsTrans.trans _ _ _ hlater hm₃, hrun⟩

end ValueRange.RangeM

namespace Narrow

open ValueRange RangeM Func

variable {scope : Option Symbols} {f g : Func} {k : Context} {widths : List Int} {d : DomInfo}
  {w : Int} {id u c : Int} {i j : Instr} {v wide : Value} {m m' : Memo}

/-! ### The choice of a candidate -/

theorem candidate?_eq (k : Context) (widths : List Int) : candidate? k widths =
    candidate?.go k (k.func.listed.flatMap fun id => widths.map fun w => (id, w)) := by
  rw [candidate?, listed, List.flatMap_assoc]

theorem run_go_cons {p : Int × Int} {places : List (Int × Int)} :
    (candidate?.go k (p :: places)).run m = (do
      let _ ← k.func.instr p.1
      let q ← (canNarrow k p.2 (k.func.instrs.size + 1) (.instr p.1) p.1).run m
      if q.1 then .ok (some p, q.2) else (candidate?.go k places).run q.2) := by
  rw [candidate?.go]
  cases k.func.instr p.1 with
  | error e => rfl
  | ok i =>
    refine congrArg ((canNarrow k p.2 _ (.instr p.1) p.1).run m >>= ·) (funext fun q => ?_)
    obtain ⟨yes, m'⟩ := q
    cases yes <;> rfl

theorem run_go_eq_some {places : List (Int × Int)} (hm : m.Idle k.func)
    (h : (candidate?.go k places).run m = .ok (some (id, w), m')) :
    ∃ before after m₁, places = before ++ (id, w) :: after ∧ m.Later m₁ ∧
      (canNarrow k w (k.func.instrs.size + 1) (.instr id) id).run m₁ = .ok (true, m') ∧
      ∀ p ∈ before, ∀ m₂, m₁.Later m₂ →
        (canNarrow k p.2 (k.func.instrs.size + 1) (.instr p.1) p.1).run m₂ = .ok (false, m₂) := by
  induction places generalizing m with
  | nil => cases h
  | cons p places ih =>
    rw [run_go_cons, Checked.bind_eq_ok] at h
    obtain ⟨-, -, h⟩ := h
    obtain ⟨⟨yes, m₀⟩, hq, h⟩ := Checked.bind_eq_ok.mp h
    cases yes with
    | true =>
      cases h
      exact ⟨[], places, m, rfl, Std.Refl.refl m, hq, by simp⟩
    | false =>
      obtain ⟨hlater, hagain⟩ := stable_canNarrow _ _ _ m _ m₀ hm hq
      obtain ⟨before, after, m₁, rfl, hm₁, hyes, hno⟩ := ih (hm.later hlater) h
      refine ⟨p :: before, after, m₁, rfl, IsTrans.trans _ _ _ hlater hm₁, hyes, ?_⟩
      exact List.forall_mem_cons.mpr ⟨fun m₂ hm₂ => hagain m₂ (IsTrans.trans _ _ _ hm₁ hm₂), hno⟩

structure Chosen (f : Func) (widths : List Int) (id : Int) (i : Instr) (w : Int) : Prop where
  instr : f.instr? id = some i
  live : i.isErased = false
  mem : w ∈ widths
  shrinks : Shrinkable f w (.instr id)
  operands : i.op = .icmp → ∀ v ∈ i.operands, Shrinkable f w v
  /-- A comparison among its operands would have been chosen, were it listed before. -/
  first : i.op = .icmp → ∀ d, .instr d ∈ i.operands → f.opOf d = .icmp → ¬ [d, id].Sublist f.listed

theorem pairwise_places {ids : List Int} (h : ids.Nodup) (widths : List Int) :
    (ids.flatMap fun id => widths.map fun w => (id, w)).Pairwise
      fun p q => ¬ [q.1, p.1].Sublist ids := by
  have hlt {a b : Int} (hab : [a, b].Sublist ids) : ids.idxOf a < ids.idxOf b :=
    (idxOf_lt_idxOf_iff h (hab.subset (by simp))).mpr hab
  refine List.pairwise_flatMap.mpr ⟨fun id _ => ?_, List.pairwise_iff_forall_sublist.mpr fun hab => ?_⟩
  · refine List.pairwise_map.mpr (List.pairwise_iff_forall_sublist.mpr fun _ hself => ?_)
    exact absurd (hlt hself) (Nat.lt_irrefl _)
  · rintro p hp q hq hqp
    obtain ⟨_, _, rfl⟩ := List.mem_map.mp hp
    obtain ⟨_, _, rfl⟩ := List.mem_map.mp hq
    exact absurd (hlt hqp) (hlt hab).asymm

theorem chosen_of_candidate (hf : f.Intact scope) (hk : Context.of f (some d) = .ok k)
    (hnext : (candidate? k widths).run' (Memo.empty f) = .ok (some (id, w))) :
    ∃ i, Chosen f widths id i w := by
  obtain ⟨rfl, -, -⟩ := Context.of_eq hk
  simp only [StateT.run', Checked.map_eq_ok] at hnext
  obtain ⟨⟨_, m⟩, hm, rfl⟩ := hnext
  obtain ⟨b, i, hb, hi, hcan⟩ := canNarrow_of_candidate (k := k) ⟨_, m, hm⟩
  rw [candidate?_eq] at hm
  obtain ⟨before, after, m₁, hplaces, hlater, hyes, hno⟩ := run_go_eq_some (Memo.idle_empty k.func) hm
  have hidle : m₁.Idle k.func := (Memo.idle_empty k.func).later hlater
  have hmem : (id, w) ∈ k.func.listed.flatMap fun id => widths.map fun w => (id, w) := by
    rw [hplaces]
    simp
  have hw : w ∈ widths := by
    obtain ⟨_, -, hmem⟩ := List.mem_flatMap.mp hmem
    obtain ⟨_, hw, ⟨⟩⟩ := List.mem_map.mp hmem
    exact hw
  have hlive : i.isErased = false := by
    simp [Instr.isErased, hf.wellFormed.home_eq hb hi]
  refine ⟨i, hi, hlive, hw, shrinkable_of_canNarrow hcan, fun hop => shrinkable_operands hi hop hcan,
    fun hop d hd hcmp hbefore => ?_⟩
  -- The comparison among its operands was turned down before, and now it can be had.
  have hnodup := hf.wellFormed.nodup_listed
  have hturned : (d, w) ∈ before := by
    have hpairs := pairwise_places hnodup widths
    have hplace : (d, w) ∈ k.func.listed.flatMap fun id => widths.map fun w => (id, w) :=
      List.mem_flatMap.mpr ⟨d, hbefore.subset (by simp), List.mem_map_of_mem hw⟩
    rw [hplaces] at hpairs hplace
    rcases List.mem_append.mp hplace with hbef | haft
    · exact hbef
    · rcases List.mem_cons.mp haft with he | haft
      · cases he
        have htwice := hbefore.nodup hnodup
        simp at htwice
      · have hcons := (List.pairwise_append.mp hpairs).2.1
        exact absurd hbefore (List.rel_of_pairwise_cons hcons haft)
  obtain ⟨j, hj, hjop⟩ := exists_of_opOf hcmp (by decide)
  rw [canNarrow_compare hi hop] at hyes
  obtain ⟨m₂, m₃, hlater₂, hrun⟩ :=
    exists_run_of_allM (fun v _ => stable_canNarrow _ v id) hidle hd hyes
  have hrun := run_canNarrow_succ hrun
  -- a comparison can be had or not wherever it is looked at from
  have hsite : ∀ n, canNarrow k w (n + 1) (.instr d) id = canNarrow k w (n + 1) (.instr d) d := fun _ =>
    (canNarrow_compare hj hjop).trans (canNarrow_compare hj hjop).symm
  rw [hsite] at hrun
  cases (hno (d, w) hturned m₂ hlater₂).symm.trans hrun

/-! ### Conversions that are left -/

def conversionsLeft (f : Func) (widths : List Int) (q : Int) : Nat :=
  match f.instr? q with
  | some i =>
    if i.isErased = true ∨ i.op ∉ narrowed then 0
    else if i.op = .icmp then if ∃ v ∈ i.operands, (f.opBehind v).isCast = true then 0 else 1
    else widths.countP fun w => w < (i.ty.bits : Int)
  | none => 0

def potential (f : Func) (widths : List Int) : Nat :=
  ∑ n ∈ Finset.range f.instrs.size, conversionsLeft f widths n

theorem conversionsLeft_none (hc : f.instr? c = none) : conversionsLeft f widths c = 0 := by
  simp only [conversionsLeft, hc]

theorem conversionsLeft_erased (hi : f.instr? c = some i) (herased : i.isErased = true) :
    conversionsLeft f widths c = 0 := by
  simp only [conversionsLeft, hi, herased, true_or, if_true]

theorem conversionsLeft_kept (hi : f.instr? c = some i) (hop : i.op ∉ narrowed) :
    conversionsLeft f widths c = 0 := by
  simp only [conversionsLeft, hi]
  exact if_pos (.inr hop)

theorem conversionsLeft_compare (hi : f.instr? c = some i) (hlive : i.isErased = false)
    (hop : i.op = .icmp) : conversionsLeft f widths c =
      if ∃ v ∈ i.operands, (f.opBehind v).isCast = true then 0 else 1 := by
  simp only [conversionsLeft, hi]
  rw [if_neg (by rw [hlive, hop]; decide), if_pos hop]

theorem conversionsLeft_other (hi : f.instr? c = some i) (hlive : i.isErased = false)
    (hmem : i.op ∈ narrowed) (hop : i.op ≠ .icmp) :
    conversionsLeft f widths c = widths.countP fun w => w < (i.ty.bits : Int) := by
  simp only [conversionsLeft, hi]
  rw [if_neg (by simp [hlive, hmem]), if_neg hop]

theorem conversionsLeft_le (hwidths : widths ≠ []) : conversionsLeft f widths c ≤ widths.length := by
  have hone : 1 ≤ widths.length := List.length_pos_iff.mpr hwidths
  unfold conversionsLeft
  split
  · split
    · exact Nat.zero_le _
    split
    · split <;> omega
    · exact List.countP_le_length
  · exact Nat.zero_le _

theorem countP_lt_countP {n : Int} (hmem : w ∈ widths) (hlt : w < n) :
    widths.countP (fun x => x < w) < widths.countP fun x => x < n := by
  obtain ⟨s, t, rfl⟩ := List.append_of_mem hmem
  have hmono (l : List Int) : l.countP (fun x => x < w) ≤ l.countP fun x => x < n :=
    List.countP_mono_left fun x _ hx => by simp at hx ⊢; omega
  have hs := hmono s
  have ht := hmono t
  simp only [List.countP_append, List.countP_cons, decide_eq_true_eq, lt_irrefl, if_false, hlt, if_true]
  omega

theorem potential_le (f : Func) (hwidths : widths ≠ []) :
    potential f widths ≤ f.instrs.size * widths.length := by
  have hsum := Finset.sum_le_card_nsmul (Finset.range f.instrs.size)
    (fun n => conversionsLeft f widths n) widths.length fun n _ => conversionsLeft_le hwidths
  simpa [potential] using hsum

theorem potential_eq_sum {N : Nat} (hN : f.instrs.size ≤ N) :
    potential f widths = ∑ n ∈ Finset.range N, conversionsLeft f widths n := by
  refine Finset.sum_subset (Finset.range_mono hN) fun n _ hn => conversionsLeft_none ?_
  cases hi : f.instr? n with
  | none => rfl
  | some i =>
    have hlt := (lt_of_instr? hi).2
    simp only [Finset.mem_range] at hn
    omega

theorem exists_mem_of_forall₂ {α β : Type} {R : α → β → Prop} {l : List α} {l' : List β} {a : α}
    (h : List.Forall₂ R l l') (ha : a ∈ l) : ∃ b ∈ l', R a b := by
  induction h with
  | nil => cases ha
  | @cons a' b l l' hab _ ih =>
    rcases List.mem_cons.mp ha with rfl | ha
    · exact ⟨b, List.mem_cons_self .., hab⟩
    · obtain ⟨b', hb', hR⟩ := ih ha
      exact ⟨b', List.mem_cons_of_mem _ hb', hR⟩

theorem isCast_of_newCast (h : f.NewCast g v) : (g.opBehind v).isCast = true := by
  obtain ⟨c, j, rfl, -, hj, hcast⟩ := h
  rwa [opBehind, opOf_eq hj]

structure Settling (scope : Option Symbols) (widths : List Int) (f : Func) : Prop where
  intact : f.Intact scope
  pairs : f.ComparesPairs
  order : 1 ∈ widths → f.ComparesInOrder

section Step

variable (hf : Settling scope widths f) (hi : Chosen f widths id i w)
  (h : Outcome f id i w u wide g)

include hi in
theorem Chosen.op_mem : i.op ∈ narrowed := (hi.shrinks.instr hi.instr).1

include h in
theorem Outcome.opOf_old (hj : f.instr? c = some j) : g.opOf c = f.opOf c := by
  obtain ⟨j', hj', hop, -⟩ := h.old c j hj
  rw [opOf_eq hj, opOf_eq hj', hop]

include h in
theorem Outcome.opBehind_old (hv : f.opBehind v ≠ .invalid) : g.opBehind v = f.opBehind v := by
  cases v with
  | instr c =>
    obtain ⟨j, hj, -⟩ := exists_of_opOf rfl hv
    exact h.opOf_old hj
  | _ => rfl

include hi h in
theorem Outcome.replaced_cast (hv : (f.opBehind v).isCast = true) :
    replaced id wide v = v ∧ (g.opBehind v).isCast = true := by
  have hne : f.opBehind v ≠ .invalid := fun he => by rw [he] at hv; cases hv
  refine ⟨if_neg ?_, by rwa [h.opBehind_old hne]⟩
  rintro rfl
  rw [opBehind, opOf_eq hi.instr, (kind_of_narrowed i.op hi.op_mem).2] at hv
  cases hv

include hf hi h

theorem Outcome.exists_cast (hop : i.op = .icmp) :
    ∃ j, g.instr? u = some j ∧ ∃ v ∈ j.operands, (g.opBehind v).isCast = true := by
  obtain ⟨j, hj, -, -, -, hops⟩ := h.form
  obtain ⟨v, hv, hother⟩ : ∃ v ∈ i.operands, w = 1 → f.opBehind v ≠ .icmp := by
    by_cases hw : w = 1
    · obtain ⟨v, hv, horder⟩ := hf.order (hw ▸ hi.mem) id i hi.instr hi.live hop
      refine ⟨v, hv, fun _ hcmp => ?_⟩
      obtain ⟨d, rfl, hbefore⟩ := horder hcmp
      exact hi.first hop d hv hcmp hbefore
    · have hlen := hf.pairs id i hi.instr hi.live hop
      obtain ⟨v, hv⟩ := List.exists_mem_of_length_pos (l := i.operands) (by omega)
      exact ⟨v, hv, fun he => absurd he hw⟩
  obtain ⟨v', hv', hnew | ⟨hw, hcmp, -⟩⟩ := exists_mem_of_forall₂ (hops hop) hv
  · exact ⟨j, hj, v', hv', isCast_of_newCast hnew⟩
  · exact absurd hcmp (hother hw)

omit hf in
/-- Nothing but the narrow form has more conversions left than before. -/
theorem Outcome.conversionsLeft_le (hc : c ≠ u) :
    conversionsLeft g widths c ≤ conversionsLeft f widths c := by
  cases hj : f.instr? c with
  | none =>
    cases hj' : g.instr? c with
    | none => rw [conversionsLeft_none hj']; exact Nat.zero_le _
    | some j' =>
      have hcast := h.new c j' hj hc hj'
      have hop : j'.op ∉ narrowed := fun hop => by
        rw [(kind_of_narrowed j'.op hop).2] at hcast
        cases hcast
      exact (conversionsLeft_kept hj' hop).le.trans (Nat.zero_le _)
  | some j =>
    obtain ⟨j', hj', hop, hty, hlive, hops⟩ := h.old c j hj
    by_cases hmem : j.op ∈ narrowed
    case neg => exact (conversionsLeft_kept hj' (hop ▸ hmem)).le.trans (Nat.zero_le _)
    cases herased : j'.isErased with
    | true => exact (conversionsLeft_erased hj' herased).le.trans (Nat.zero_le _)
    | false =>
      have hjlive : j.isErased = false := by
        rw [herased, eq_comm, Bool.or_eq_false_iff] at hlive
        exact hlive.1
      rw [if_neg (by simp [hjlive])] at hops
      by_cases hcmp : j.op = .icmp
      · rw [conversionsLeft_compare hj' herased (hop.trans hcmp), conversionsLeft_compare hj hjlive hcmp]
        by_cases hcast : ∃ v ∈ j.operands, (f.opBehind v).isCast = true
        · obtain ⟨v, hv, hcast⟩ := hcast
          obtain ⟨hself, hcast⟩ := h.replaced_cast hi hcast
          have hv' : v ∈ j'.operands := hops ▸ List.mem_map.mpr ⟨v, hv, hself⟩
          rw [if_pos ⟨v, hv', hcast⟩]
          exact Nat.zero_le _
        · rw [if_neg hcast]
          split <;> omega
      · rw [conversionsLeft_other hj' herased (hop ▸ hmem) (hop ▸ hcmp),
          conversionsLeft_other hj hjlive hmem hcmp, hty]

omit hf in
theorem Outcome.conversionsLeft_self : conversionsLeft g widths id = 0 := by
  obtain ⟨j, hj, -, -, herased, -⟩ := h.old id i hi.instr
  exact conversionsLeft_erased hj (by simp [herased])

theorem Outcome.conversionsLeft_form (hw : 0 < w) :
    conversionsLeft g widths u < conversionsLeft f widths id := by
  obtain ⟨j, hj, hop, hlive, hty, -⟩ := h.form
  by_cases hcmp : i.op = .icmp
  · -- Nothing that can be narrowed is a cast.
    have hnone : ¬ ∃ v ∈ i.operands, (f.opBehind v).isCast = true := by
      rintro ⟨v, hv, hcast⟩
      obtain ⟨q, j, rfl, hj, hop, -⟩ := hi.operands hcmp v hv
      rw [opBehind, opOf_eq hj, (kind_of_narrowed j.op hop).2] at hcast
      cases hcast
    obtain ⟨j', hj', hcast⟩ := h.exists_cast hf hi hcmp
    cases hj.symm.trans hj'
    rw [conversionsLeft_compare hi.instr hi.live hcmp, if_neg hnone,
      conversionsLeft_compare hj hlive (hop.trans hcmp), if_pos hcast]
    exact Nat.zero_lt_one
  · obtain ⟨n, hn, hlt⟩ := (hi.shrinks.instr hi.instr).2.resolve_left hcmp
    rw [conversionsLeft_other hi.instr hi.live hi.op_mem hcmp,
      conversionsLeft_other hj hlive (hop ▸ hi.op_mem) (hop ▸ hcmp), hty hcmp, hn]
    have hbits : ((Ty.int w.toNat).bits : Int) = w := Int.toNat_of_nonneg hw.le
    rw [hbits]
    exact countP_lt_countP hi.mem hlt

/-- A conversion uses up one of those that are left. -/
theorem Outcome.potential_lt (hw : 0 < w) : potential g widths < potential f widths := by
  have hform := h.conversionsLeft_form hf hi hw
  obtain ⟨hid, hidlt⟩ := lt_of_instr? hi.instr
  obtain ⟨p, rfl⟩ := Int.eq_ofNat_of_zero_le hid
  obtain ⟨j, hj, -⟩ := h.form
  obtain ⟨hu, hult⟩ := lt_of_instr? hj
  obtain ⟨q, rfl⟩ := Int.eq_ofNat_of_zero_le hu
  have hne : p ≠ q := by
    rintro rfl
    cases h.fresh.symm.trans hi.instr
  let N := f.instrs.size + g.instrs.size
  have hpointwise : ∀ n ∈ Finset.range N,
      conversionsLeft g widths n + (if n = p then conversionsLeft f widths p else 0) ≤
        conversionsLeft f widths n + if n = q then conversionsLeft g widths q else 0 := by
    intro n _
    by_cases hp : n = p
    · subst hp
      rw [h.conversionsLeft_self hi, if_pos rfl, if_neg hne]
      omega
    by_cases hq : n = q
    · subst hq
      rw [if_neg hp, if_pos rfl]
      omega
    · have hle := h.conversionsLeft_le hi (c := n) (by omega)
      rw [if_neg hp, if_neg hq]
      omega
  have hsum := Finset.sum_le_sum hpointwise
  rw [Finset.sum_add_distrib, Finset.sum_add_distrib, Finset.sum_ite_eq', Finset.sum_ite_eq',
    if_pos (Finset.mem_range.mpr (by omega)), if_pos (Finset.mem_range.mpr (by omega))] at hsum
  rw [potential_eq_sum (f := g) (N := N) (by omega), potential_eq_sum (f := f) (N := N) (by omega)]
  omega

omit hf hi in
theorem Outcome.compare_cases (hj : g.instr? c = some j) (hlive : j.isErased = false)
    (hcmp : j.op = .icmp) : c = u ∨ c ≠ id ∧ ∃ j', f.instr? c = some j' ∧ j'.isErased = false ∧
      j'.op = .icmp ∧ j.operands = j'.operands.map (replaced id wide) := by
  by_cases hc : c = u
  · exact .inl hc
  cases hj' : f.instr? c with
  | none =>
    have hcast := h.new c j hj' hc hj
    rw [hcmp] at hcast
    cases hcast
  | some j' =>
    obtain ⟨k, hk, hop, -, herased, hops⟩ := h.old c j' hj'
    cases hj.symm.trans hk
    rw [hlive, eq_comm, Bool.or_eq_false_iff, decide_eq_false_iff_not] at herased
    rw [if_neg (by simp [herased.1])] at hops
    exact .inr ⟨herased.2, j', rfl, herased.1, hop.symm.trans hcmp, hops⟩

/-- Comparisons that were in order still are. -/
theorem Outcome.inOrder (horder : f.ComparesInOrder) : g.ComparesInOrder := by
  have hnot {v : Value} (hv : (g.opBehind v).isCast = true) : g.opBehind v ≠ .icmp := fun he => by
    rw [he] at hv
    cases hv
  intro c j hj hlive hcmp
  rcases h.compare_cases hj hlive hcmp with rfl | ⟨hc, j', hj', hlive', hcmp', hops⟩
  · obtain ⟨j', hj', hop, -⟩ := h.form
    cases hj.symm.trans hj'
    obtain ⟨j', hj', v, hv, hcast⟩ := h.exists_cast hf hi (hop.symm.trans hcmp)
    cases hj.symm.trans hj'
    exact ⟨v, hv, fun he => absurd he (hnot hcast)⟩
  · obtain ⟨v, hv, hbefore⟩ := horder c j' hj' hlive' hcmp'
    refine ⟨replaced id wide v, hops ▸ List.mem_map_of_mem hv, fun hbehind => ?_⟩
    by_cases hid : v = .instr id
    · subst hid
      rw [replaced, if_pos rfl] at hbehind ⊢
      rcases h.wide with ⟨hop, rfl⟩ | hnew
      · obtain ⟨_, ⟨⟩, hbefore⟩ := hbefore ((opOf_eq hi.instr).trans hop)
        exact ⟨u, rfl, by simpa using h.order id c hc hbefore⟩
      · exact absurd hbehind (hnot (isCast_of_newCast hnew))
    · rw [replaced, if_neg hid] at hbehind ⊢
      cases v with
      | instr d =>
        have hd : f.Resolves scope (.instr d) := (hf.intact.references hj' hlive').operands _ hv
        obtain ⟨k, hk, -⟩ := isLive_iff.mp hd
        obtain ⟨_, ⟨⟩, hbefore⟩ := hbefore ((h.opOf_old hk).symm.trans hbehind)
        have hne : d ≠ id := fun he => hid (he ▸ rfl)
        exact ⟨d, rfl, by simpa [hne] using h.order d c hc hbefore⟩
      | _ => cases hbehind

theorem Outcome.settling (hg : g.Intact scope) : Settling scope widths g where
  intact := hg
  pairs c j hj hlive hcmp := by
    rcases h.compare_cases hj hlive hcmp with rfl | ⟨-, j', hj', hlive', hcmp', hops⟩
    · obtain ⟨j', hj', hop, -, -, hops⟩ := h.form
      cases hj.symm.trans hj'
      have hop : i.op = .icmp := hop.symm.trans hcmp
      exact (hops hop).length_eq.symm.trans (hf.pairs id i hi.instr hi.live hop)
    · rw [hops, List.length_map]
      exact hf.pairs c j' hj' hlive' hcmp'
  order hone := h.inOrder hf hi (hf.order hone)

end Step

/-! ### Comparisons that compare themselves -/

theorem Outcome.ranked (hf : f.Intact scope) (hi : Chosen f widths id i w)
    (h : Outcome f id i w u wide g) (hr : f.ComparesRanked) : g.ComparesRanked := by
  obtain ⟨rank, hrank⟩ := hr
  have hrank {c d : Int} {j : Instr} (hj : f.instr? c = some j) (hlive : j.isErased = false)
      (hcmp : j.op = .icmp) (hd : .instr d ∈ j.operands) :
      rank d < rank c ∧ ∃ k, f.instr? d = some k := by
    have hresolves : f.Resolves scope (.instr d) := (hf.references hj hlive).operands _ hd
    obtain ⟨k, hk, -⟩ := isLive_iff.mp hresolves
    exact ⟨hrank c d (isLive_iff.mpr ⟨j, hj, hlive⟩) ⟨j, hj, hcmp, hd⟩, k, hk⟩
  -- The narrow form comes in the place of the instruction, and new casts compare nothing.
  let rank' (q : Int) : Nat :=
    if q = u then rank id + 1 else if (f.instr? q).isSome then rank q + 1 else 0
  have hform : rank' u = rank id + 1 := if_pos rfl
  have hold {q : Int} {j : Instr} (hj : f.instr? q = some j) : rank' q = rank q + 1 := by
    have hq : q ≠ u := by
      rintro rfl
      cases h.fresh.symm.trans hj
    simp [rank', hq, hj]
  have hnew {v : Value} {q : Int} (hv : f.NewCast g v) (he : v = .instr q) : rank' q = 0 := by
    obtain ⟨_, j, rfl, hq, hj, hcast⟩ := hv
    cases he
    obtain ⟨j', hj', hop, -⟩ := h.form
    have hqu : q ≠ u := by
      rintro rfl
      cases hj.symm.trans hj'
      rw [hop, (kind_of_narrowed i.op hi.op_mem).2] at hcast
      cases hcast
    simp [rank', hqu, hq]
  have hreplaced {c d : Int} {v : Value} {j : Instr} (hj : f.instr? c = some j)
      (hlive : j.isErased = false) (hcmp : j.op = .icmp) (hv : v ∈ j.operands)
      (he : replaced id wide v = .instr d) : rank' d < rank c + 1 := by
    unfold replaced at he
    split at he
    · next hid =>
      subst hid
      have hlt := (hrank hj hlive hcmp hv).1
      rcases h.wide with ⟨-, rfl⟩ | hwide
      · cases he
        omega
      · rw [hnew hwide he]
        exact Nat.succ_pos _
    · subst he
      obtain ⟨hlt, k, hk⟩ := hrank hj hlive hcmp hv
      rw [hold hk]
      omega
  refine ⟨rank', fun c d hlive hcd => ?_⟩
  obtain ⟨j, hj, hcmp, hd⟩ := hcd
  obtain ⟨_, hj', hlive⟩ := isLive_iff.mp hlive
  cases hj.symm.trans hj'
  rcases h.compare_cases hj hlive hcmp with rfl | ⟨-, j', hj', hlive', hcmp', hops⟩
  · obtain ⟨j', hj', hop, -, -, hops⟩ := h.form
    cases hj.symm.trans hj'
    have hop : i.op = .icmp := hop.symm.trans hcmp
    rw [hform]
    obtain ⟨v, hv, hcast | ⟨-, -, he⟩⟩ := exists_mem_of_forall₂ (hops hop).flip hd
    · rw [hnew hcast rfl]
      exact Nat.succ_pos _
    · exact hreplaced hi.instr hi.live hop hv he.symm
  · rw [hold hj']
    obtain ⟨v, hv, he⟩ := List.mem_map.mp (hops ▸ hd)
    exact hreplaced hj' hlive' hcmp' hv he

end Narrow

end RegPressure
