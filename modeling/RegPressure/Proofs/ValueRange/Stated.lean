import RegPressure.Proofs.Pass.Assumptions
import RegPressure.Proofs.ValueRange.Bearing
import RegPressure.Proofs.ValueRange.Remembered

namespace RegPressure

open Checked

namespace ValueRange

variable {n : Nat} {c : Int64}

/-! ### The facts of what is stated -/

/-- An assumption whose condition compares the result of an instruction with a number. -/
theorem factOf?_statement {g : Func} (id : Int) {p q : Int} {i cmp j : Instr} {t : Option Ty}
    (hop : i.op = .call) (hcallee : i.callee = assumeCallee) (hi : i.operands = [.instr p])
    (hp : g.instr? p = some cmp) (hcmp : cmp.op = .icmp) (hops : cmp.operands = [.instr q, .int t c])
    (hq : g.instr? q = some j) (hty : j.ty = .int n) :
    ∃ o, factOf? g id i = .ok o ∧ ∀ fact, o = some fact ↔ n ≤ 64 ∧ fact.site = id ∧
      fact.value = .instr q ∧ factRange? cmp.pred c n = some fact.range := by
  have hcomparison : comparison? cmp = .ok (some ⟨.instr q, c, cmp.pred⟩) := by
    rw [comparison?, hops]
    rfl
  have htype : g.typeOf (.instr q) = .ok (some (.int n)) := by
    rw [Func.typeOf, Func.instr_eq_ok.mpr hq, ok_bind, hty]
    rfl
  have hwhole (o : Option Fact) (ho : (if n > Interval.maxBits then none else
      (factRange? cmp.pred c n).map (⟨id, .instr q, ·⟩)) = o) : factOf? g id i = .ok o := by
    subst ho
    rw [factOf?, if_neg (by simp [hop, hcallee]), hi]
    simp only [Func.instr_eq_ok.mpr hp, ok_bind, hcmp, ne_eq, not_true_eq_false, if_false,
      hcomparison, htype]
    split <;> rfl
  by_cases hn : n ≤ 64
  · refine ⟨_, hwhole _ (if_neg (Nat.not_lt.mpr hn)), fun fact => ?_⟩
    rw [Option.map_eq_some_iff, and_iff_right hn]
    constructor
    · rintro ⟨r, hr, rfl⟩
      exact ⟨rfl, rfl, hr⟩
    · rintro ⟨rfl, hvalue, hr⟩
      exact ⟨fact.range, hr, by rw [← hvalue]⟩
  · exact ⟨none, hwhole none (if_pos (Nat.not_le.mp hn)), by simp [hn]⟩

end ValueRange

namespace Assumption.Fact

open ValueRange

def assumesLeast (s : Fact) : Int := s.first + 2

def assumesMost (s : Fact) : Int := s.first + 3

theorem assumesLeast_mem (s : Fact) : s.assumesLeast ∈ s.numbers := by
  simp [numbers, assumesLeast]

theorem assumesMost_mem (s : Fact) : s.assumesMost ∈ s.numbers := by
  simp [numbers, assumesMost]

structure Says (s : Fact) (fact : ValueRange.Fact) : Prop where
  value : fact.value = .instr s.call
  bound : ∃ n, s.instr.ty = .int n ∧ n ≤ 64 ∧
    (fact.site = s.assumesLeast ∧ factRange? "sge" s.bounds.min n = some fact.range ∨
      fact.site = s.assumesMost ∧ factRange? "sle" s.bounds.max n = some fact.range)

theorem says_least_iff {s : Fact} {n : Nat} (hty : s.instr.ty = .int n) (fact : ValueRange.Fact) :
    fact.site = s.assumesLeast ∧ s.Says fact ↔ n ≤ 64 ∧ fact.site = s.assumesLeast ∧
      fact.value = .instr s.call ∧ factRange? "sge" s.bounds.min n = some fact.range := by
  constructor
  · rintro ⟨hsite, hvalue, m, hm, hn, ⟨-, hr⟩ | ⟨hsite', -⟩⟩
    · cases hty.symm.trans hm
      exact ⟨hn, hsite, hvalue, hr⟩
    · rw [hsite, assumesLeast, assumesMost] at hsite'
      omega
  · rintro ⟨hn, hsite, hvalue, hr⟩
    exact ⟨hsite, hvalue, n, hty, hn, .inl ⟨hsite, hr⟩⟩

theorem says_most_iff {s : Fact} {n : Nat} (hty : s.instr.ty = .int n) (fact : ValueRange.Fact) :
    fact.site = s.assumesMost ∧ s.Says fact ↔ n ≤ 64 ∧ fact.site = s.assumesMost ∧
      fact.value = .instr s.call ∧ factRange? "sle" s.bounds.max n = some fact.range := by
  constructor
  · rintro ⟨hsite, hvalue, m, hm, hn, ⟨hsite', -⟩ | ⟨-, hr⟩⟩
    · rw [hsite, assumesLeast, assumesMost] at hsite'
      omega
    · cases hty.symm.trans hm
      exact ⟨hn, hsite, hvalue, hr⟩
  · rintro ⟨hn, hsite, hvalue, hr⟩
    exact ⟨hsite, hvalue, n, hty, hn, .inr ⟨hsite, hr⟩⟩

theorem Says.site {s : Fact} {fact : ValueRange.Fact} (h : s.Says fact) :
    fact.site = s.assumesLeast ∨ fact.site = s.assumesMost := by
  obtain ⟨_, -, -, ⟨hsite, -⟩ | ⟨hsite, -⟩⟩ := h.bound
  · exact .inl hsite
  · exact .inr hsite

theorem Says.site_mem {s : Fact} {fact : ValueRange.Fact} (h : s.Says fact) :
    fact.site ∈ s.numbers := by
  rcases h.site with hsite | hsite <;> rw [hsite]
  · exact s.assumesLeast_mem
  · exact s.assumesMost_mem

end Assumption.Fact

namespace Func

open ValueRange

variable {f : Func} {facts : List Assumption.Fact} {s : Assumption.Fact}

structure States (f : Func) (facts : List Assumption.Fact) : Prop where
  old : f.Housed
  housed : (f.stating facts).Housed
  first : facts.map (·.first) =
    (List.range facts.length).map (fun k : Nat => (f.instrs.size + 4 * k : Int))
  nodup : (facts.map (·.call)).Nodup
  call : ∀ s ∈ facts, f.instr? s.call = some s.instr ∧ ∃ b, f.Stands b s.call
  int : ∀ s ∈ facts, ∃ n, s.instr.ty = .int n
  silent : ∀ b id i, f.Stands b id → f.instr? id = some i → i.op = .call → i.callee ≠ assumeCallee

namespace States

variable (h : f.States facts)

include h

theorem instr?_new (hs : s ∈ facts) (j : Nat) (hj : j < 4) :
    (f.stating facts).instr? (s.first + j) = s.instrs[j]? :=
  instr?_stating_new h.first hs hj

/-- What one of the new instructions says: the comparisons nothing, and the assumptions a bound each. -/
theorem exists_factOf?_new (hs : s ∈ facts) {id : Int} (hid : id ∈ s.numbers) {i : Instr}
    (hi : (f.stating facts).instr? id = some i) :
    ∃ o, factOf? (f.stating facts) id i = .ok o ∧
      ∀ fact, o = some fact ↔ fact.site = id ∧ s.Says fact := by
  obtain ⟨n, hty⟩ := h.int s hs
  have hcall : (f.stating facts).instr? s.call = some s.instr := instr?_stating (h.call s hs).1
  have hleast : (f.stating facts).instr? s.first = s.instrs[0]? := by
    simpa using h.instr?_new hs 0 (by decide)
  have hmost : (f.stating facts).instr? (s.first + 1) = s.instrs[1]? := h.instr?_new hs 1 (by decide)
  have hthird : (f.stating facts).instr? (s.first + 2) = s.instrs[2]? := h.instr?_new hs 2 (by decide)
  have hfourth : (f.stating facts).instr? (s.first + 3) = s.instrs[3]? := h.instr?_new hs 3 (by decide)
  have hcomparison (hop : i.op = .icmp) (hsite : id = s.first ∨ id = s.first + 1) :
      ∃ o, factOf? (f.stating facts) id i = .ok o ∧
        ∀ fact, o = some fact ↔ fact.site = id ∧ s.Says fact := by
    refine ⟨none, by rw [factOf?, if_pos (by simp [hop])]; rfl, fun fact => ⟨by rintro ⟨⟩, fun hsaid => ?_⟩⟩
    have hlate := hsaid.2.site
    rw [Assumption.Fact.assumesLeast, Assumption.Fact.assumesMost] at hlate
    omega
  simp only [Assumption.Fact.numbers, List.mem_cons, List.not_mem_nil, or_false] at hid
  rcases hid with rfl | rfl | rfl | rfl
  · rw [hleast] at hi
    cases hi
    exact hcomparison rfl (.inl rfl)
  · rw [hmost] at hi
    cases hi
    exact hcomparison rfl (.inr rfl)
  · rw [hthird] at hi
    have he := Option.some.inj hi
    obtain ⟨o, ho, hfact⟩ := factOf?_statement (i := i) (s.first + 2) (he ▸ rfl) (he ▸ rfl)
      (he ▸ rfl) hleast rfl rfl hcall hty
    exact ⟨o, ho, fun fact => (hfact fact).trans (Assumption.Fact.says_least_iff hty fact).symm⟩
  · rw [hfourth] at hi
    have he := Option.some.inj hi
    obtain ⟨o, ho, hfact⟩ := factOf?_statement (i := i) (s.first + 3) (he ▸ rfl) (he ▸ rfl)
      (he ▸ rfl) hmost rfl rfl hcall hty
    exact ⟨o, ho, fun fact => (hfact fact).trans (Assumption.Fact.says_most_iff hty fact).symm⟩

/-- The facts of the function are what the assumptions say, and no other. -/
theorem exists_factsOf : ∃ told, factsOf (f.stating facts) = .ok told ∧
    ∀ fact, fact ∈ told ↔ ∃ s ∈ facts, s.Says fact := by
  obtain ⟨placed, hplaced⟩ := h.housed.exists_placed
  have hone : ∀ x ∈ placed, ∃ o, factOf? (f.stating facts) x.1 x.2 = .ok o ∧
      ∀ fact, o = some fact → ∃ s ∈ facts, s.Says fact := by
    rintro ⟨id, i⟩ hx
    obtain ⟨hi, b, hb⟩ := mem_placed hplaced hx
    rcases stands_stating.mp hb with hold | ⟨s, hs, -, hid⟩
    · -- What stood there before assumes nothing.
      obtain ⟨j, hj, -⟩ := h.old.home b id (stands_iff.mp hold)
      cases hi.symm.trans (instr?_stating hj)
      refine ⟨none, ?_, by rintro _ ⟨⟩⟩
      rw [factOf?, if_pos]
      · rfl
      · by_cases hop : i.op = .call
        · simp [h.silent b id i hold hj hop]
        · simp [hop]
    · obtain ⟨o, ho, hfact⟩ := h.exists_factOf?_new hs hid hi
      exact ⟨o, ho, fun fact he => ⟨s, hs, ((hfact fact).mp he).2⟩⟩
  obtain ⟨os, hos⟩ := answers_mapM (f := fun x : Int × Instr => factOf? (f.stating facts) x.1 x.2)
    fun x hx => (hone x hx).imp fun _ ho => ho.1
  refine ⟨os.filterMap fun x => x, by rw [factsOf, hplaced, ok_bind, hos]; rfl, fun fact => ?_⟩
  rw [List.mem_filterMap]
  constructor
  · rintro ⟨_, ho, rfl⟩
    obtain ⟨x, hx, hfact⟩ := mem_of_mapM hos ho
    obtain ⟨o, ho', hsaid⟩ := hone x hx
    cases ho'.symm.trans hfact
    exact hsaid fact rfl
  · rintro ⟨s, hs, hsaid⟩
    obtain ⟨-, b, hb⟩ := h.call s hs
    have hstands := stands_stating.mpr (.inr ⟨s, hs, hb, hsaid.site_mem⟩)
    obtain ⟨i, hi, -⟩ := h.housed.home b _ (stands_iff.mp hstands)
    obtain ⟨o, ho, he⟩ := ok_of_mapM hos (mem_placed_of_stands hplaced hstands hi)
    obtain ⟨o', ho', hfact⟩ := h.exists_factOf?_new hs hsaid.site_mem hi
    cases ho'.symm.trans he
    exact ⟨_, ho, (hfact fact).mpr ⟨rfl, hsaid⟩⟩

end States

/-! ### Dominance -/

def Ahead (f : Func) (a c : Int) : Prop :=
  ∃ x y : Nat, f.Stands x a ∧ f.Stands y c ∧
    (x ≠ y ∧ Dominates f.graph.succ f.entryNode x y ∨ x = y ∧ [a, c].Sublist (f.bodyOf x))

theorem graph_stating : (f.stating facts).graph = f.graph := by
  simp [graph, stating, Array.map_map, Function.comp_def]

theorem WellFormed.compute_stating {scope : Option Symbols} (h : f.WellFormed scope) :
    DomInfo.compute (f.stating facts) =
      .ok ⟨f.graph.dominators f.entryNode, f.graph.postDominators⟩ := by
  have hcompute := DomInfo.compute_eq_ok (f := f.stating facts) h.entry_eq.1
    (graph_stating (f := f) ▸ h.entry_eq.2)
  rwa [graph_stating] at hcompute

theorem WellFormed.precedes_stating_iff {scope : Option Symbols} {d : DomInfo} {a c : Int}
    (h : f.WellFormed scope) (hg : (f.stating facts).Housed)
    (hd : DomInfo.compute (f.stating facts) = .ok d) (ha : ∃ b, (f.stating facts).Stands b a)
    (hc : ∃ b, (f.stating facts).Stands b c) :
    (f.stating facts).Precedes d a c ↔ (f.stating facts).Ahead a c := by
  cases h.compute_stating.symm.trans hd
  have hdom {x y : Nat} := DomTree.dominates_iff h.mirrored h.entry_eq.2 (a := x) (b := y)
  constructor
  · intro hprec
    obtain ⟨_, ha⟩ := ha
    obtain ⟨x, rfl, -⟩ := ha.nat
    obtain ⟨_, hc⟩ := hc
    obtain ⟨y, rfl, -⟩ := hc.nat
    refine ⟨x, y, ha, hc, ((hg.precedes_iff ha hc).mp hprec).imp_left fun hxy => ⟨hxy.1, ?_⟩⟩
    rw [graph_stating]
    exact hdom.mp hxy.2
  · rintro ⟨x, y, ha, hc, hxy⟩
    rw [graph_stating] at hxy
    exact (hg.precedes_iff ha hc).mpr (hxy.imp_left fun hxy => ⟨hxy.1, hdom.mpr hxy.2⟩)

end Func

namespace ValueRange

/-! ### What is answered for a call -/

theorem instrValue_call {k : Context} {range : Value → Option Int → RangeM Interval} {i : Instr}
    (hop : i.op = .call) (id : Int) (bits : Nat) :
    instrValue k range id i bits = pure (.full bits) := by
  simp [instrValue, hop, binary?, resize?]

section Call

variable {k : Context} {id : Int} {i : Instr} {n : Nat} {m : Memo}
  (hi : k.func.instr? id = some i) (hop : i.op = .call) (hty : i.ty = .int n)

structure KeepsUnknown (id : Int) (n : Nat) (m m' : Memo) : Prop where
  busy : m'.busy = m.busy
  known : ∀ r, m'.get? id = some r → m.get? id = some r ∨ r = .full n

instance : Std.Refl (KeepsUnknown id n) := ⟨fun _ => ⟨rfl, fun _ h => .inl h⟩⟩

instance : IsTrans Memo (KeepsUnknown id n) where
  trans _ _ _ h h' := ⟨h'.busy.trans h.busy, fun r hr => (h'.known r hr).elim (h.known r) .inr⟩

include hi hop hty

theorem keepsUnknown_instrRange {p : Int} {j : Instr} {bits : Nat} (depth : Nat)
    (hj : k.func.instr? p = some j) (htyj : j.ty = .int bits) :
    Moves (KeepsUnknown id n) (instrRange k depth p bits) := by
  refine moves_instrRange (fun depth p j bits m m₁ r hj htyj _ _ hrun hmoved => ?_) depth hj htyj
  refine ⟨?_, fun q hq => ?_⟩
  · change m₁.busy.erase p = m.busy
    rw [hmoved.busy]
    exact List.erase_cons_head ..
  · rcases Memo.get?_set (Func.lt_of_instr? hj).1 (Func.lt_of_instr? hi).1 hq with ⟨rfl, rfl⟩ | hq
    · cases hi.symm.trans hj
      cases hty.symm.trans htyj
      rw [instrValue_call hop] at hrun
      cases hrun
      exact .inr rfl
    · exact hmoved.known q hq

theorem History.unknown (hm : History k m) :
    m.busy = [] ∧ ∀ r, m.get? id = some r → r = .full n := by
  have hempty : (Memo.empty k.func).busy = [] ∧
      ∀ r, (Memo.empty k.func).get? id = some r → r = .full n := by
    refine ⟨rfl, fun r hr => ?_⟩
    rw [Memo.get?_empty] at hr
    cases hr
  induction hm with
  | fresh => exact hempty
  | invalidated => exact hempty
  | asked hm hask ih =>
    have hmoves := moves_rangeBy (R := KeepsUnknown id n)
      fun _ _ _ hj htyj => keepsUnknown_instrRange hi hop hty k.func.instrs.size hj htyj
    have hmoved := hmoves _ _ _ _ _ hask
    exact ⟨hmoved.busy.trans ih.1, fun r hr => (hmoved.known r hr).elim (ih.2 r) fun he => he⟩

/-- A call is answered for by the facts that bear on it alone. -/
theorem History.rangeAt_call (hm : History k m) (site : Option Int) :
    (rangeAt k (.instr id) site).run' m = narrowBy k (.instr id) site (.full n) := by
  obtain ⟨hbusy, hknown⟩ := hm.unknown hi hop hty
  have htype : k.func.typeOf (.instr id) = .ok (some (.int n)) := by
    rw [Func.typeOf, Func.instr_eq_ok.mpr hi, Checked.ok_bind, hty]
    rfl
  have hcall : ∃ m', (instrRange k k.func.instrs.size id n).run m = .ok (.full n, m') := by
    cases hget : m.get? id with
    | some r => exact ⟨m, by rw [run_instrRange_known hget, hknown r hget]⟩
    | none =>
      obtain ⟨depth, hdepth⟩ : ∃ depth, k.func.instrs.size = depth + 1 :=
        Nat.exists_eq_add_one.mpr (by have := Func.lt_of_instr? hi; omega)
      refine ⟨(m.enter id).finish id (.full n), ?_⟩
      rw [hdepth, run_instrRange_succ hi hget (by simp [hbusy]), instrValue_call hop]
      rfl
  obtain ⟨m', hcall⟩ := hcall
  rw [rangeAt, rangeBy, htype, StateT.run'_eq]
  change Prod.fst <$> (instrRange k k.func.instrs.size id n >>= fun r =>
    (liftM (narrowBy k (.instr id) site r) : RangeM Interval)).run m = _
  rw [StateT.run_bind, hcall, Checked.ok_bind]
  cases narrowBy k (.instr id) site (.full n) <;> rfl

end Call

end ValueRange

namespace Assumption.Fact

open ValueRange

variable {s : Fact} {n : Nat} {x : Int}

structure InWidth (s : Fact) (n : Nat) : Prop where
  ty : s.instr.ty = .int n
  pos : 1 ≤ n
  small : n ≤ 64
  min : (Ty.int n).Holds s.bounds.min.toInt
  max : (Ty.int n).Holds s.bounds.max.toInt
  ordered : s.bounds.min.toInt ≤ s.bounds.max.toInt

theorem InWidth.least_iff (h : s.InWidth n) (hx : (Ty.int n).Holds x) :
    (∀ fact, s.Says fact → fact.site = s.assumesLeast → fact.range.Has x) ↔
      s.bounds.min.toInt ≤ x := by
  rw [← has_factRange?_sge h.pos h.small h.min hx]
  constructor
  · intro hall r hr
    exact hall ⟨s.assumesLeast, .instr s.call, r⟩ ⟨rfl, n, h.ty, h.small, .inl ⟨rfl, hr⟩⟩ rfl
  · intro hall fact hsaid hsite
    exact hall _ ((says_least_iff h.ty fact).mp ⟨hsite, hsaid⟩).2.2.2

theorem InWidth.most_iff (h : s.InWidth n) (hx : (Ty.int n).Holds x) :
    (∀ fact, s.Says fact → fact.site = s.assumesMost → fact.range.Has x) ↔
      x ≤ s.bounds.max.toInt := by
  rw [← has_factRange?_sle h.pos h.small h.max hx]
  constructor
  · intro hall r hr
    exact hall ⟨s.assumesMost, .instr s.call, r⟩ ⟨rfl, n, h.ty, h.small, .inr ⟨rfl, hr⟩⟩ rfl
  · intro hall fact hsaid hsite
    exact hall _ ((says_most_iff h.ty fact).mp ⟨hsite, hsaid⟩).2.2.2

end Assumption.Fact

namespace ValueRange

variable {f : Func} {facts : List Assumption.Fact} {s : Assumption.Fact} {k : Context} {d : DomInfo}
  {n : Nat} {c : Int}

structure Context.Tells (k : Context) (d : DomInfo) (facts : List Assumption.Fact) : Prop where
  dom : k.dom = some d
  told : ∀ fact, fact ∈ k.facts ↔ ∃ s ∈ facts, s.Says fact
  nodup : (facts.map (·.call)).Nodup

theorem Context.Tells.bears_iff (h : k.Tells d facts) (hs : s ∈ facts) (fact : Fact) :
    fact ∈ k.facts ∧ fact.value.sameAs (.instr s.call) = true ↔ s.Says fact := by
  rw [h.told]
  constructor
  · rintro ⟨⟨t, ht, hsaid⟩, hsame⟩
    rw [hsaid.value] at hsame
    have hcall : t.call = s.call := by simpa [Value.sameAs] using hsame
    rwa [← List.inj_on_of_nodup_map h.nodup ht hs hcall]
  · intro hsaid
    exact ⟨⟨s, hs, hsaid⟩, by simp [hsaid.value, Value.sameAs]⟩

/-- What is left of a call's numbers at an instruction: those between the bounds that are behind. -/
theorem Context.Tells.narrowBy_has (h : k.Tells d facts) (hs : s ∈ facts) (hw : s.InWidth n)
    (hdoms : ∀ fact ∈ k.facts, Checked.Answers (d.instrDominates k.func fact.site c)) :
    ∃ r, narrowBy k (.instr s.call) (some c) (.full n) = .ok r ∧ r.bits = n ∧
      ∀ x, r.Has x ↔ (Ty.int n).Holds x ∧
        (k.func.Precedes d s.assumesLeast c → s.bounds.min.toInt ≤ x) ∧
        (k.func.Precedes d s.assumesMost c → x ≤ s.bounds.max.toInt) := by
  have hwidth : n ≤ 256 := hw.small.trans (by decide)
  have hfull {x : Int} := Interval.has_full hw.pos hwidth (x := x)
  -- A number of the width is in all the facts if and only if it is between the bounds behind.
  have hboth (x : Int) (hx : (Ty.int n).Holds x) :
      (∀ fact ∈ k.facts, Bears k d (.instr s.call) c n fact → fact.range.Has x) ↔
        (k.func.Precedes d s.assumesLeast c → s.bounds.min.toInt ≤ x) ∧
        (k.func.Precedes d s.assumesMost c → x ≤ s.bounds.max.toInt) := by
    have hbits (fact : Fact) (hsaid : s.Says fact) : fact.range.bits = n := by
      obtain ⟨m, hm, -, hr⟩ := hsaid.bound
      cases hw.ty.symm.trans hm
      rcases hr with ⟨-, hr⟩ | ⟨-, hr⟩
      · exact (of_factRange? hw.pos hw.small hr).bits
      · exact (of_factRange? hw.pos hw.small hr).bits
    have hbears (fact : Fact) : fact ∈ k.facts ∧ Bears k d (.instr s.call) c n fact ↔
        s.Says fact ∧ k.func.Precedes d fact.site c := by
      constructor
      · rintro ⟨hmem, hbears⟩
        exact ⟨(h.bears_iff hs fact).mp ⟨hmem, hbears.value⟩, hbears.precedes⟩
      · rintro ⟨hsaid, hprec⟩
        obtain ⟨hmem, hvalue⟩ := (h.bears_iff hs fact).mpr hsaid
        exact ⟨hmem, hvalue, hbits fact hsaid, hprec⟩
    rw [← hw.least_iff hx, ← hw.most_iff hx]
    constructor
    · intro hall
      constructor
      · intro hprec fact hsaid hsite
        have hmem := (hbears fact).mpr ⟨hsaid, hsite ▸ hprec⟩
        exact hall fact hmem.1 hmem.2
      · intro hprec fact hsaid hsite
        have hmem := (hbears fact).mpr ⟨hsaid, hsite ▸ hprec⟩
        exact hall fact hmem.1 hmem.2
    · rintro ⟨hleast, hmost⟩ fact hmem hb
      obtain ⟨hsaid, hprec⟩ := (hbears fact).mp ⟨hmem, hb⟩
      obtain hsite | hsite := hsaid.site
      · exact hleast (hsite ▸ hprec) fact hsaid hsite
      · exact hmost (hsite ▸ hprec) fact hsaid hsite
  obtain ⟨r, hr, hbits, hhas⟩ := ValueRange.narrowBy_has (v := .instr s.call) (r := .full n) h.dom
    hdoms (hfull.mpr hw.min) ((hboth _ hw.min).mpr ⟨fun _ => Int.le_refl _, fun _ => hw.ordered⟩)
  refine ⟨r, hr, hbits, fun x => (hhas x).trans ?_⟩
  rw [hfull]
  exact and_congr_right (hboth x)

end ValueRange

theorem Assumption.call_of_boundsOf? {t : BoundsTable} {i : Instr} {bounds : Bounds}
    (h : boundsOf? t i = some bounds) : i.op = .call ∧ ∃ n, i.ty = .int n := by
  simp only [boundsOf?, Option.ite_none_right_eq_some, Bool.and_eq_true, decide_eq_true_eq] at h
  obtain ⟨⟨⟨hop, -⟩, hint⟩, -⟩ := h
  refine ⟨hop, ?_⟩
  cases hty : i.ty with
  | int n => exact ⟨n, rfl⟩
  | _ => simp [hty, Ty.isInt] at hint

open ValueRange

variable {scope : Option Symbols} {f : Func}

/-- Stating bounds in a well-formed function that assumes nothing leaves one that assumes what is stated
and nothing else. -/
theorem Func.exists_states (table : BoundsTable) (h : f.verify scope = .ok [])
    (hsilent : ∀ b id i, f.Stands b id → f.instr? id = some i → i.op = .call →
      i.callee ≠ assumeCallee) :
    ∃ facts, f.assumeBounds table = .ok (f.stating facts, !facts.isEmpty) ∧ f.States facts ∧
      ∀ b id i bounds, f.Stands b id → f.instr? id = some i →
        Assumption.boundsOf? table i = some bounds →
        ∃ s ∈ facts, s.call = id ∧ s.instr = i ∧ s.bounds = bounds := by
  have hf := verify_eq_nil.mp h
  obtain ⟨placed, hplaced, facts, hfacts, hnodup, hfirst, -, hresult⟩ := assumeBounds_exact table h
  have hmem {x : Int × Instr × Bounds} : (∃ s ∈ facts, (s.call, s.instr, s.bounds) = x) ↔
      (x.1, x.2.1) ∈ placed ∧ Assumption.boundsOf? table x.2.1 = some x.2.2 := by
    rw [← List.mem_map, hfacts, List.mem_filterMap]
    constructor
    · rintro ⟨y, hy, hx⟩
      obtain ⟨bounds, hbounds, rfl⟩ := Option.map_eq_some_iff.mp hx
      exact ⟨hy, hbounds⟩
    · rintro ⟨hy, hbounds⟩
      exact ⟨_, hy, Option.map_eq_some_iff.mpr ⟨_, hbounds, rfl⟩⟩
  have hcall {s : Assumption.Fact} (hs : s ∈ facts) := hmem.mp ⟨s, hs, rfl⟩
  refine ⟨facts, hresult, ⟨hf.housed, hf.housed.assumeBounds hresult, hfirst, hnodup, ?_, ?_, hsilent⟩,
    ?_⟩
  · intro s hs
    exact mem_placed hplaced (hcall hs).1
  · intro s hs
    exact (Assumption.call_of_boundsOf? (hcall hs).2).2
  · intro b id i bounds hb hi hbounds
    obtain ⟨s, hs, hx⟩ :=
      (hmem (x := (id, i, bounds))).mpr ⟨mem_placed_of_stands hplaced hb hi, hbounds⟩
    simp only [Prod.mk.injEq] at hx
    exact ⟨s, hs, hx⟩

/-- What is answered for the call at an instruction: the bounds where both assumptions are ahead of it,
and nothing where neither is. -/
structure Assumption.Fact.Answered (s : Assumption.Fact) (k : Context) (m : Memo) (n : Nat) : Prop where
  behind : ∀ c, k.func.Ahead s.assumesLeast c → k.func.Ahead s.assumesMost c →
    (rangeAt k (.instr s.call) (some c)).run' m = .ok ⟨n, s.bounds.min.toInt, s.bounds.max.toInt⟩
  elsewhere : ∀ site, (∀ c, site = some c → (∃ b, k.func.Stands b c) ∧
      ¬k.func.Ahead s.assumesLeast c ∧ ¬k.func.Ahead s.assumesMost c) →
    (rangeAt k (.instr s.call) site).run' m = .ok (.full n)

/-- What was stated of a call is what an analysis answers, whatever it was asked before. -/
theorem Func.States.answered {facts : List Assumption.Fact} {s : Assumption.Fact} {k : Context}
    {d : DomInfo} {m : Memo} {n : Nat} (h : f.States facts) (hf : f.WellFormed scope)
    (hd : DomInfo.compute (f.stating facts) = .ok d) (hk : k.func = f.stating facts)
    (htells : k.Tells d facts) (hs : s ∈ facts) (hop : s.instr.op = .call) (hw : s.InWidth n)
    (hm : History k m) : s.Answered k m n := by
  obtain ⟨hi, b, hb⟩ := h.call s hs
  have hanswer := hm.rangeAt_call (hk ▸ Func.instr?_stating hi) hop hw.ty
  -- Everything that is asked about stands in a block.
  have hnew : ∀ id ∈ s.numbers, (f.stating facts).Stands b id := fun id hid =>
    stands_stating.mpr (.inr ⟨s, hs, hb, hid⟩)
  have hleast := hnew _ s.assumesLeast_mem
  have hmost := hnew _ s.assumesMost_mem
  have hsite (fact : ValueRange.Fact) (hfact : fact ∈ k.facts) :
      ∃ y, (f.stating facts).Stands y fact.site := by
    obtain ⟨t, ht, hsaid⟩ := (htells.told fact).mp hfact
    obtain ⟨-, y, hy⟩ := h.call t ht
    exact ⟨y, stands_stating.mpr (.inr ⟨t, ht, hy, hsaid.site_mem⟩)⟩
  have hnarrow {c : Int} (hc : ∃ y, (f.stating facts).Stands y c) :
      ∃ r, narrowBy k (.instr s.call) (some c) (.full n) = .ok r ∧ r.bits = n ∧
        ∀ x, r.Has x ↔ (Ty.int n).Holds x ∧
          (k.func.Ahead s.assumesLeast c → s.bounds.min.toInt ≤ x) ∧
          (k.func.Ahead s.assumesMost c → x ≤ s.bounds.max.toInt) := by
    have hdoms : ∀ fact ∈ k.facts, Checked.Answers (d.instrDominates k.func fact.site c) := by
      intro fact hfact
      obtain ⟨y, hy⟩ := hsite fact hfact
      rw [hk]
      exact h.housed.answers_instrDominates d hy hc
    have hnarrowed := htells.narrowBy_has hs hw hdoms
    rw [hk] at hnarrowed ⊢
    rwa [hf.precedes_stating_iff h.housed hd ⟨b, hleast⟩ hc,
      hf.precedes_stating_iff h.housed hd ⟨b, hmost⟩ hc] at hnarrowed
  have hfull {x : Int} := Interval.has_full hw.pos (hw.small.trans (by decide)) (x := x)
  constructor
  · intro c hcleast hcmost
    obtain ⟨-, y, -, hc, -⟩ := hk ▸ hcleast
    obtain ⟨r, hr, hbits, hhas⟩ := hnarrow ⟨y, hc⟩
    rw [hanswer, hr]
    refine congrArg _ (Interval.eq_of_has (x := s.bounds.min.toInt) ?_ hbits fun x => ?_)
    · exact (hhas _).mpr ⟨hw.min, fun _ => Int.le_refl _, fun _ => hw.ordered⟩
    · refine (hhas x).trans ⟨fun hx => ⟨hx.2.1 hcleast, hx.2.2 hcmost⟩, fun hx => ⟨?_, fun _ => hx.1,
        fun _ => hx.2⟩⟩
      exact ⟨hw.min.1.trans hx.1, Int.lt_of_le_of_lt hx.2 hw.max.2⟩
  · intro site hnone
    rw [hanswer]
    cases site with
    | none => rfl
    | some c =>
      obtain ⟨hc, hcleast, hcmost⟩ := hnone c rfl
      obtain ⟨r, hr, hbits, hhas⟩ := hnarrow (hk ▸ hc)
      rw [hr]
      refine congrArg _ (Interval.eq_of_has (x := s.bounds.min.toInt) ?_ hbits fun x => ?_)
      · exact (hhas _).mpr ⟨hw.min, fun hc => absurd hc hcleast, fun hc => absurd hc hcmost⟩
      · rw [hhas, hfull]
        exact and_iff_left ⟨fun hc => absurd hc hcleast, fun hc => absurd hc hcmost⟩

/-- Where both assumptions of a call are behind, its interval is the stated one, whatever the analysis
was asked before; where neither is, nothing is known of it. -/
theorem assumeBounds_rangeAt (table : BoundsTable) (h : f.verify scope = .ok [])
    (hsilent : ∀ b id i, f.Stands b id → f.instr? id = some i → i.op = .call →
      i.callee ≠ assumeCallee) :
    ∃ facts d k, f.assumeBounds table = .ok (f.stating facts, !facts.isEmpty) ∧
      DomInfo.compute (f.stating facts) = .ok d ∧
      Context.of (f.stating facts) (some d) = .ok k ∧
      ∀ b id i bounds n, f.Stands b id → f.instr? id = some i →
        Assumption.boundsOf? table i = some bounds → i.ty = .int n → 1 ≤ n → n ≤ 64 →
        bounds.min ≤ bounds.max → (Ty.int n).Holds bounds.min.toInt →
        (Ty.int n).Holds bounds.max.toInt →
        ∃ s ∈ facts, s.call = id ∧ s.instr = i ∧ s.bounds = bounds ∧
          (∀ j : Nat, j < 4 → (f.stating facts).instr? (s.first + j) = s.instrs[j]?) ∧
          ∀ m, History k m → s.Answered k m n := by
  have hf := Func.verify_eq_nil.mp h
  obtain ⟨facts, hresult, hstates, hfact⟩ := Func.exists_states table h hsilent
  obtain ⟨told, htold, hmem⟩ := hstates.exists_factsOf
  obtain ⟨d, hd⟩ : ∃ d, DomInfo.compute (f.stating facts) = .ok d := ⟨_, hf.compute_stating⟩
  refine ⟨facts, d, ⟨f.stating facts, some d, told⟩, hresult, hd, ?_, ?_⟩
  · simp only [Context.of, Option.isSome_some, if_true, htold]
    rfl
  intro b id i bounds n hb hi hbounds hty hn hn' hle hmin hmax
  obtain ⟨s, hs, rfl, rfl, rfl⟩ := hfact b id i bounds hb hi hbounds
  refine ⟨s, hs, rfl, rfl, rfl, fun j => hstates.instr?_new hs j, fun m hm => ?_⟩
  exact hstates.answered hf hd rfl ⟨rfl, hmem, hstates.nodup⟩ hs
    (Assumption.call_of_boundsOf? hbounds).1
    ⟨hty, hn, hn', hmin, hmax, Int64.le_iff_toInt_le.mp hle⟩ hm

def readsThenReturns : Func where
  name := "f"
  ret := .i32
  blocks := #[{ name := "entry", instrs := [0, 1], succs := [1] },
    { name := "exit", instrs := [2], preds := [0] }]
  instrs := #[
    { op := .call, ty := .i32, name := "x", callee := "llvm.nvvm.read.ptx.sreg.tid.x",
      home := some 0 },
    { op := .br, ty := .void, targets := [1], home := some 0 },
    { op := .ret, ty := .void, operands := [.instr 0], home := some 1 }]
  entry := some 0

theorem readsThenReturns_answered : readsThenReturns.verify none = .ok [] ∧ ∃ facts d k,
    readsThenReturns.assumeBounds .specialRegisters =
      .ok (readsThenReturns.stating facts, !facts.isEmpty) ∧
    Context.of (readsThenReturns.stating facts) (some d) = .ok k ∧
    (rangeAt k (.instr 0) (some 2)).run' (.empty k.func) = .ok ⟨32, 0, 1023⟩ ∧
    (rangeAt k (.instr 0) none).run' (.empty k.func) = .ok (.full 32) := by
  have hverified : readsThenReturns.verify none = .ok [] := by decide +kernel
  have hf := Func.verify_eq_nil.mp hverified
  have hsilent : ∀ b id i, readsThenReturns.Stands b id → readsThenReturns.instr? id = some i →
      i.op = .call → i.callee ≠ assumeCallee := by
    intro b id i _ hi _
    have hall : ∀ j ∈ readsThenReturns.instrs, j.callee ≠ assumeCallee := by decide
    exact hall i (Func.mem_of_instr? hi)
  obtain ⟨facts, d, k, hresult, hd, hk, hanswered⟩ :=
    assumeBounds_rangeAt .specialRegisters hverified hsilent
  obtain ⟨s, hs, hcall, -, hbounds, -, hm⟩ := hanswered 0 0 _ ⟨0, 1023⟩ 32 (by decide) rfl
    (by decide +kernel) rfl (by decide) (by decide) (by decide) (by decide) (by decide)
  obtain ⟨hfunc, -, -⟩ := Context.of_eq hk
  have hm := hm _ .fresh
  have hdom : Dominates readsThenReturns.graph.succ readsThenReturns.entryNode 0 1 :=
    (DomTree.dominates_iff hf.mirrored hf.entry_eq.2).mp (by decide +kernel)
  have hahead (a : Int) (ha : a ∈ s.numbers) : k.func.Ahead a 2 := by
    rw [hfunc]
    refine ⟨0, 1, Func.stands_stating.mpr (.inr ⟨s, hs, by rw [hcall]; decide, ha⟩),
      Func.stands_stating.mpr (.inl (by decide)), .inl ⟨by decide, ?_⟩⟩
    rwa [Func.graph_stating]
  refine ⟨hverified, facts, d, k, hresult, hk, ?_, ?_⟩
  · have hbehind := hm.behind 2 (hahead _ s.assumesLeast_mem) (hahead _ s.assumesMost_mem)
    rw [hcall, hbounds] at hbehind
    exact hbehind
  · have helsewhere := hm.elsewhere none (by rintro _ ⟨⟩)
    rwa [hcall] at helsewhere

end RegPressure
