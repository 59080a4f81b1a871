import Mathlib.Data.Fintype.Pigeonhole
import Mathlib.Data.Int.Interval
import Mathlib.Order.WellFounded
import RegPressure.Proofs.Faultless.Ranges
import RegPressure.Proofs.ValueRange.Soundness

namespace RegPressure.ValueRange

open Relation (ReflTransGen TransGen)

variable {α β : Type} {s : Symbols} {f : Func} {k : Context} {v : Value} {site : Option Int}
  {p id : Int} {i : Instr} {bits depth : Nat} {m m' : Memo} {busy : List Int} {sure : Prop} {a : α}

def sources (i : Instr) : List Value :=
  if (binary? i.op).isSome || (resize? i.op).isSome || i.op = .phi then i.operands
  else if i.op = .select then i.operands.drop 1
  else []

def Feeds (f : Func) (p id : Int) : Prop :=
  ∃ i bits, f.instr? id = some i ∧ i.ty = .int bits ∧ bits ≤ Interval.maxBits ∧
    .instr p ∈ sources i

/-- No instruction on which this one depends depends on itself. -/
def Acyclic (f : Func) (id : Int) : Prop :=
  ∀ p, ReflTransGen (Feeds f) p id → ¬ TransGen (Feeds f) p p

/-- What an analysis may remember after questions that it answered. -/
inductive History (k : Context) : Memo → Prop
  | fresh : History k (.empty k.func)
  | asked {v : Value} {site : Option Int} {m m' : Memo} {r : Interval} (hm : History k m)
      (h : (rangeAt k v site).run m = .ok (r, m')) : History k m'
  | invalidated {m : Memo} (hm : History k m) : History k (.empty k.func)

/-! ### Dependence -/

theorem mem_operands_of_mem_sources (h : v ∈ sources i) : v ∈ i.operands := by
  unfold sources at h
  split at h
  · exact h
  · split at h
    · exact List.mem_of_mem_drop h
    · cases h

theorem Feeds.exists_instr (h : f.Solid s) (hp : Feeds f p id) : ∃ i, f.instr? p = some i := by
  obtain ⟨i, -, hi, -, -, hmem⟩ := hp
  exact h.refers id i hi (.instr p) (mem_operands_of_mem_sources hmem)

theorem not_transGen_of_acc (h : Acc (Feeds f) id) : ¬ TransGen (Feeds f) id id :=
  h.transGen.rec fun _ _ ih hx => ih _ hx hx

theorem acc_of_reflTransGen (h : Acc (Feeds f) id) (hp : ReflTransGen (Feeds f) p id) :
    Acc (Feeds f) p := by
  induction hp using ReflTransGen.head_induction_on with
  | refl => exact h
  | head hab _ ih => exact ih.inv hab

theorem acyclic_of_not_feeds (h : ∀ p, ¬ Feeds f p id) : Acyclic f id := by
  intro p hp hcircle
  rcases hp.cases_tail with rfl | ⟨q, -, hq⟩
  · obtain ⟨q, -, hq⟩ := TransGen.tail'_iff.mp hcircle
    exact h q hq
  · exact h q hq

/-- There are only so many instructions, so that what has no circle below it has an end. -/
theorem Acyclic.acc (h : f.Solid s) (hid : Acyclic f id) : Acc (Feeds f) id := by
  by_contra hacc
  obtain ⟨chain, rfl, hchain⟩ := not_acc_iff_exists_descending_chain.mp hacc
  have hbelow : ∀ a n, TransGen (Feeds f) (chain (a + n + 1)) (chain a) := by
    intro a n
    induction n with
    | zero => exact .single (hchain a)
    | succ n ih => exact ih.head (hchain (a + n + 1))
  have hthere : ∀ n, chain (n + 1) ∈ Set.Ico (0 : Int) f.instrs.size := fun n =>
    have ⟨_, hi⟩ := (hchain n).exists_instr h
    Func.lt_of_instr? hi
  obtain ⟨a, b, hne, hab⟩ := Finite.exists_ne_map_eq_of_infinite fun n =>
    (⟨chain (n + 1), hthere n⟩ : Set.Ico (0 : Int) f.instrs.size)
  wlog hlt : a < b generalizing a b
  · exact this b a hne.symm hab.symm (by omega)
  obtain ⟨n, rfl⟩ := Nat.exists_eq_add_of_lt hlt
  have heq : chain (a + 1) = chain (a + n + 1 + 1) := congrArg Subtype.val hab
  refine hid (chain (a + 1)) ?_ ?_
  · simpa using (hbelow 0 a).to_reflTransGen
  · have hcircle := hbelow (a + 1) n
    rwa [show a + 1 + n + 1 = a + n + 1 + 1 by omega, ← heq] at hcircle

/-! ### Computations that answer the same from every memory -/

def firstRange (k : Context) (id : Int) (bits : Nat) : Interval :=
  ((instrRange k k.func.instrs.size id bits).run' (.empty k.func)).toOption.getD default

/-- What is remembered of an instruction on no circle is what a new analysis works out. -/
def Memo.Faithful (k : Context) (m : Memo) : Prop :=
  ∀ id i bits r, Acc (Feeds k.func) id → k.func.instr? id = some i → i.ty = .int bits →
    m.get? id = some r → r = firstRange k id bits

def Yields (k : Context) (busy : List Int) (sure : Prop) (x : RangeM α) (a : α) : Prop :=
  ∀ m, m.Faithful k → m.busy = busy →
    ∃ r m', x.run m = .ok (r, m') ∧ m'.Faithful k ∧ m'.busy = busy ∧ (sure → r = a)

theorem Memo.faithful_empty : (Memo.empty k.func).Faithful k := by
  intro id i bits r _ _ _ h
  rw [Memo.get?_empty] at h
  cases h

namespace Yields

theorem pure {r : α} (h : sure → r = a) : Yields k busy sure (Pure.pure r) a :=
  fun m hm hb => ⟨r, m, rfl, hm, hb, h⟩

theorem bind {x : RangeM α} {g : α → RangeM β} {b : β} (hx : Yields k busy sure x a)
    (hg : ∀ r, (sure → r = a) → Yields k busy sure (g r) b) : Yields k busy sure (x >>= g) b := by
  intro m hm hb
  obtain ⟨r, m₁, hx, hm₁, hb₁, hr⟩ := hx m hm hb
  obtain ⟨q, m₂, hg, h⟩ := hg r hr m₁ hm₁ hb₁
  exact ⟨q, m₂, by simp [hx, ← hg, Checked.ok_bind], h⟩

theorem lift {x : Checked α} (hx : Checked.Answers x) (h : sure → x = .ok a) :
    Yields k busy sure (liftM x : RangeM α) a := by
  obtain ⟨r, rfl⟩ := hx
  exact fun m hm hb => ⟨r, m, rfl, hm, hb, fun hs => Except.ok.inj (h hs)⟩

theorem lift_bind {x : Checked α} {g : α → RangeM β} {b : β} (hx : x = .ok a)
    (hg : Yields k busy sure (g a) b) : Yields k busy sure (liftM x >>= g) b := by
  subst hx
  exact fun m hm hb => hg m hm hb

theorem weaken {sure' : Prop} {x : RangeM α} (hx : Yields k busy sure x a) (h : sure' → sure) :
    Yields k busy sure' x a := by
  intro m hm hb
  obtain ⟨r, m', hx, hm', hb', hr⟩ := hx m hm hb
  exact ⟨r, m', hx, hm', hb', fun hs => hr (h hs)⟩

theorem congr {b : α} {x : RangeM α} (hx : Yields k busy sure x a) (h : sure → a = b) :
    Yields k busy sure x b := by
  intro m hm hb
  obtain ⟨r, m', hx, hm', hb', hr⟩ := hx m hm hb
  exact ⟨r, m', hx, hm', hb', fun hs => (hr hs).trans (h hs)⟩

end Yields

/-! ### One instruction -/

/-- A context about a solid function, with assumptions that its instructions make. -/
structure Context.Solid (s : Symbols) (k : Context) : Prop where
  func : k.func.Solid s
  sturdy : k.Sturdy (some s)

namespace Context.Solid

variable (h : k.Solid s)

include h

/-- The interval of a value is settled by that of the instruction that it is. -/
theorem exists_rangeBy (w : Int → Nat → Interval) (hv : k.func.Refers s v)
    (hsite : ∀ t, site = some t → ∃ b, k.func.Stands b t) :
    ∃ r, ∀ (busy : List Int) (sure : Prop) (instr : Int → Nat → RangeM Interval),
      (∀ id i bits, v = .instr id → k.func.instr? id = some i → i.ty = .int bits →
        Yields k busy sure (instr id bits) (w id bits)) →
      Yields k busy sure (rangeBy k instr v site) r := by
  obtain ⟨ty, hty⟩ := hv.answers_typeOf
  -- The interval before it is narrowed does not depend on what is remembered.
  have hnarrow (a : Interval) : ∃ r, ∀ (busy : List Int) (sure : Prop) (x : RangeM Interval),
      Yields k busy sure x a →
      Yields k busy sure (do narrowBy k v site (← x)) r := by
    obtain ⟨r, hr⟩ := h.sturdy.answers_narrowBy hsite v a
    exact ⟨r, fun busy sure x hx => hx.bind fun q hq =>
      .lift (h.sturdy.answers_narrowBy hsite v q) fun hs => by rw [hq hs, hr]⟩
  unfold rangeBy
  rcases ty with _ | ty
  · exact ⟨.full 64, fun busy sure instr _ => .lift_bind hty (.pure fun _ => rfl)⟩
  cases ty with
  | int bits =>
    cases v with
    | instr id =>
      obtain ⟨i, hi⟩ := hv
      have hresult : i.ty = .int bits := by
        simpa [Func.typeOf, Func.instr_eq_ok.mpr hi, Checked.ok_bind] using hty
      obtain ⟨r, hr⟩ := hnarrow (w id bits)
      exact ⟨r, fun busy sure instr hinstr => .lift_bind hty <|
        hr busy sure _ (hinstr id i bits rfl hi hresult)⟩
    | int _ c =>
      obtain ⟨r, hr⟩ := hnarrow (if bits = 1 && c ≠ 0 then .const 1 (-1) else .const bits c)
      exact ⟨r, fun busy sure instr _ => .lift_bind hty <| hr busy sure _ (.pure fun _ => rfl)⟩
    | _ =>
      obtain ⟨r, hr⟩ := hnarrow (.full bits)
      exact ⟨r, fun busy sure instr _ => .lift_bind hty <| hr busy sure _ (.pure fun _ => rfl)⟩
  | _ => exact ⟨.full 64, fun busy sure instr _ => .lift_bind hty (.pure fun _ => rfl)⟩

/-- The union over the incoming values is settled by those of them that are instructions. -/
theorem exists_phiRange (w : Int → Nat → Interval) (hi : k.func.instr? id = some i) (bits : Nat)
    (vs : List Value) (hvs : ∀ v ∈ vs, v ∈ i.operands) {n : Nat}
    (hn : n + vs.length ≤ i.targets.length) (sofar : Option Interval) :
    ∃ r, ∀ (busy : List Int) (sure : Prop) (instr : Int → Nat → RangeM Interval)
      (sofar' : Option Interval), (sure → sofar' = sofar) →
      (∀ p j bits, .instr p ∈ vs → k.func.instr? p = some j → j.ty = .int bits →
        Yields k busy sure (instr p bits) (w p bits)) →
      Yields k busy sure (phiRange k (rangeBy k instr) i bits vs n sofar') r := by
  induction vs generalizing n sofar with
  | nil =>
    exact ⟨sofar.getD (.full bits), fun busy sure instr sofar' hs _ => .pure fun h => by rw [hs h]⟩
  | cons v vs ih =>
    rw [List.length_cons] at hn
    obtain ⟨t, site, ht, hsite, hstands⟩ :=
      h.sturdy.exists_incoming hi (h.func.live hi) (n := n) (by omega)
    obtain ⟨r, hr⟩ := h.exists_rangeBy w
      (h.func.refers id i hi v (hvs v (List.mem_cons_self ..))) hstands
    obtain ⟨q, hq⟩ := ih (fun v hv => hvs v (List.mem_cons_of_mem _ hv)) (n := n + 1) (by omega)
      (some ((sofar.map (·.union r)).getD r))
    refine ⟨if r.isFull then .full bits else q, fun busy sure instr sofar' hs hinstr => ?_⟩
    refine .lift_bind ht (.lift_bind hsite ?_)
    refine (hr busy sure instr fun p j bits hp => ?_).bind fun r' hr' => ?_
    · exact hinstr p j bits (by simp [hp])
    · split
      · next hfull => exact .pure fun h => by rw [← hr' h, if_pos hfull]
      · next hfull =>
        refine (hq busy sure instr _ (fun h => by rw [hr' h, hs h]) fun p j bits hp => ?_).congr
          fun h => by rw [← hr' h, if_neg hfull]
        exact hinstr p j bits (List.mem_cons_of_mem _ hp)

theorem exists_operandValue (w : Int → Nat → Interval) (hi : k.func.instr? id = some i)
    (hfeeds : ∀ p, .instr p ∈ sources i → Feeds k.func p id) {n : Nat} (hn : n < i.operands.length)
    (hsource : i.operands[n] ∈ sources i) :
    ∃ r, ∀ (busy : List Int) (sure : Prop) (instr : Int → Nat → RangeM Interval),
      (∀ p j bits, Feeds k.func p id → k.func.instr? p = some j → j.ty = .int bits →
        Yields k busy sure (instr p bits) (w p bits)) →
      Yields k busy sure (do rangeBy k instr (← element i.operands n) (some id)) r := by
  have hstands : ∀ t, some id = some t → ∃ b, k.func.Stands b t := by
    rintro t ⟨⟩
    exact h.func.stands id i hi
  obtain ⟨r, hr⟩ := h.exists_rangeBy w (h.func.refers id i hi _ (List.getElem_mem hn)) hstands
  refine ⟨r, fun busy sure instr hinstr => .lift_bind (element_eq_ok.mpr
    (List.getElem?_eq_getElem hn)) (hr busy sure instr fun p j bits hp => ?_)⟩
  exact hinstr p j bits (hfeeds p (hp ▸ hsource))

/-- The interval of an instruction is settled by those of the instructions that feed it. -/
theorem exists_instrValue (w : Int → Nat → Interval) (hi : k.func.instr? id = some i)
    (hty : i.ty = .int bits) :
    ∃ r, ∀ (busy : List Int) (sure : Prop) (instr : Int → Nat → RangeM Interval),
      (∀ p j bits, Feeds k.func p id → k.func.instr? p = some j → j.ty = .int bits →
        Yields k busy sure (instr p bits) (w p bits)) →
      Yields k busy sure (instrValue k (rangeBy k instr) id i bits) r := by
  have hc := h.func.complete id i hi
  by_cases hbits : bits > Interval.maxBits
  · refine ⟨.full bits, fun busy sure instr _ => ?_⟩
    rw [instrValue, if_pos (by simp [hbits])]
    exact .pure fun _ => rfl
  -- Only the operands that `sources` lists are asked for, and each of them feeds the instruction.
  have hfeeds : ∀ p, .instr p ∈ sources i → Feeds k.func p id := fun p hp =>
    ⟨i, bits, hi, hty, by omega, hp⟩
  have hop {n : Nat} := h.exists_operandValue w hi hfeeds (n := n)
  have hwhole : (decide (bits > Interval.maxBits) || !i.ty.isInt) = false := by
    simp [hbits, hty, Ty.isInt]
  simp only [instrValue, hwhole, Bool.false_eq_true, if_false]
  cases hb : binary? i.op with
  | some g =>
    have hsrc : sources i = i.operands := by simp [sources, hb]
    have hlen := length_of_binary? hc hb
    obtain ⟨x, hx⟩ := hop (n := 0) (by omega) (by simp [hsrc])
    obtain ⟨y, hy⟩ := hop (n := 1) (by omega) (by simp [hsrc])
    exact ⟨g x y, fun busy sure instr hinstr => (hx busy sure instr hinstr).bind fun x' hx' =>
      (hy busy sure instr hinstr).bind fun y' hy' => .pure fun h => by rw [hx' h, hy' h]⟩
  | none =>
    cases hz : resize? i.op with
    | some g =>
      have hsrc : sources i = i.operands := by simp [sources, hz]
      have hlen := length_of_resize? hc hz
      obtain ⟨x, hx⟩ := hop (n := 0) (by omega) (by simp [hsrc])
      exact ⟨g x bits, fun busy sure instr hinstr =>
        (hx busy sure instr hinstr).bind fun x' hx' => .pure fun h => by rw [hx' h]⟩
    | none =>
      cases ho : i.op with
      | select =>
        have hsrc : sources i = i.operands.drop 1 := by simp [sources, ho, binary?, resize?]
        simp only [Instr.Complete, ho] at hc
        have hmem {n : Nat} (hn : n + 1 < i.operands.length) : i.operands[n + 1] ∈ sources i := by
          rw [hsrc, List.mem_iff_getElem]
          exact ⟨n, by rw [List.length_drop]; omega, by simp⟩
        obtain ⟨x, hx⟩ := hop (n := 1) (by omega) (hmem _)
        obtain ⟨y, hy⟩ := hop (n := 2) (by omega) (hmem _)
        exact ⟨x.union y, fun busy sure instr hinstr =>
          (hx busy sure instr hinstr).bind fun x' hx' =>
            (hy busy sure instr hinstr).bind fun y' hy' => .pure fun h => by rw [hx' h, hy' h]⟩
      | phi =>
        have hsrc : sources i = i.operands := by simp [sources, ho]
        simp only [Instr.Complete, ho] at hc
        obtain ⟨r, hr⟩ := h.exists_phiRange w hi bits i.operands (fun _ hv => hv) (n := 0)
          (by omega) none
        exact ⟨r, fun busy sure instr hinstr => hr busy sure instr none (fun _ => rfl)
          fun p j bits hp => hinstr p j bits (hfeeds p (hsrc ▸ hp))⟩
      | _ => exact ⟨.full bits, fun busy sure instr _ => .pure fun _ => rfl⟩

end Context.Solid

/-! ### Instructions in progress -/

structure Room (k : Context) (depth : Nat) (busy : List Int) : Prop where
  nodup : busy.Nodup
  there : ∀ q ∈ busy, 0 ≤ q ∧ q < k.func.instrs.size
  size : k.func.instrs.size ≤ depth + busy.length

namespace Room

theorem start : Room k k.func.instrs.size [] := ⟨.nil, by simp, by simp⟩

theorem push (h : Room k (depth + 1) busy) (hi : k.func.instr? id = some i) (hid : id ∉ busy) :
    Room k depth (id :: busy) where
  nodup := List.nodup_cons.mpr ⟨hid, h.nodup⟩
  there := List.forall_mem_cons.mpr ⟨Func.lt_of_instr? hi, h.there⟩
  size := by have := h.size; rw [List.length_cons]; omega

theorem length_le (h : Room k depth busy) : busy.length ≤ k.func.instrs.size := by
  have hcard := (List.toFinset_card_of_nodup h.nodup).symm.trans_le <|
    Finset.card_le_card (t := Finset.Ico (0 : Int) k.func.instrs.size) fun q hq =>
      Finset.mem_Ico.mpr (h.there q (List.mem_toFinset.mp hq))
  simpa using hcard

theorem mem_of_zero (h : Room k 0 busy) (hi : k.func.instr? id = some i) : id ∈ busy := by
  by_contra hid
  have hsize := h.size
  have hpush : Room k 0 (id :: busy) :=
    ⟨List.nodup_cons.mpr ⟨hid, h.nodup⟩, List.forall_mem_cons.mpr ⟨Func.lt_of_instr? hi, h.there⟩,
      by rw [List.length_cons]; omega⟩
  have hlen := hpush.length_le
  rw [List.length_cons] at hlen
  omega

end Room

theorem Yields.run_instrRange {a : Interval} (hi : k.func.instr? id = some i)
    (hx : Yields k (id :: busy) sure (instrValue k (rangeBy k (instrRange k depth)) id i bits) a)
    (hm : m.Faithful k) (hb : m.busy = busy) (hid : id ∉ busy) (hget : m.get? id = none) :
    ∃ r m', (instrRange k (depth + 1) id bits).run m = .ok (r, Memo.set m' id r) ∧
      m'.Faithful k ∧ m'.busy = busy ∧ (sure → r = a) := by
  subst hb
  obtain ⟨r, m', hrun, hm', hb', hr⟩ := hx { m with busy := id :: m.busy } hm rfl
  refine ⟨r, { m' with busy := m'.busy.erase id }, ?_, hm', by simp [hb'], hr⟩
  have hbusy : m.busy.contains id = false := by simpa using hid
  rw [instrRange]
  simp only [StateT.run_bind, StateT.run_get, pure_bind, hget, hbusy, Bool.false_eq_true, if_false,
    StateT.run_modify, Func.instr_eq_ok.mpr hi]
  change ((instrValue k (rangeBy k (instrRange k depth)) id i bits).run
    { m with busy := id :: m.busy } >>= fun q => _) = _
  rw [hrun]
  rfl

theorem run_instrRange_known {r : Interval} (hget : m.get? id = some r) :
    (instrRange k depth id bits).run m = .ok (r, m) := by
  unfold instrRange
  simp only [StateT.run_bind, StateT.run_get, pure_bind, hget]
  rfl

theorem run_instrRange_busy (hget : m.get? id = none) (hid : id ∈ m.busy) :
    (instrRange k depth id bits).run m = .ok (.full bits, m) := by
  have hbusy : m.busy.contains id = true := by simpa using hid
  unfold instrRange
  simp only [StateT.run_bind, StateT.run_get, pure_bind, hget, hbusy, if_true]
  rfl

theorem Memo.Faithful.set {r : Interval} (hm : m.Faithful k) (hid : 0 ≤ id)
    (hr : ∀ i bits, Acc (Feeds k.func) id → k.func.instr? id = some i → i.ty = .int bits →
      r = firstRange k id bits) : (m.set id r).Faithful k := by
  intro x i bits q hx hi hty hq
  rcases Memo.get?_set hid (Func.lt_of_instr? hi).1 hq with ⟨rfl, rfl⟩ | hq
  · exact hr i bits hx hi hty
  · exact hm x i bits q hx hi hty hq

section

variable (h : k.Solid s)

include h

/-- An instruction on no circle has one interval, whatever is remembered and in progress above it:
that which a new analysis works out. -/
theorem Context.Solid.yields_firstRange (hid : Acc (Feeds k.func) id)
    (hi : k.func.instr? id = some i) (hty : i.ty = .int bits) (hroom : Room k depth busy)
    (hfree : ∀ q ∈ busy, ¬ ReflTransGen (Feeds k.func) q id) :
    Yields k busy True (instrRange k depth id bits) (firstRange k id bits) := by
  induction hid generalizing i bits depth busy with
  | intro id hacc ih =>
    obtain ⟨r, hr⟩ := h.exists_instrValue (firstRange k) hi hty
    -- Entering the instruction closes no circle: it depends on none, and nothing in progress leads
    -- to it.
    have hvalue : ∀ depth busy, Room k (depth + 1) busy →
        (∀ q ∈ busy, ¬ ReflTransGen (Feeds k.func) q id) →
        Yields k (id :: busy) True (instrValue k (rangeBy k (instrRange k depth)) id i bits) r := by
      intro depth busy hroom hfree
      have hnot : id ∉ busy := fun hmem => hfree id hmem .refl
      refine hr _ _ _ fun p j bits hp hj hjty => ?_
      refine ih p hp hj hjty (hroom.push hi hnot) (List.forall_mem_cons.mpr ⟨?_, ?_⟩)
      · exact fun hback => not_transGen_of_acc (.intro id hacc) (.tail' hback hp)
      · exact fun q hq hback => hfree q hq (hback.tail hp)
    have hrun : ∀ depth (m : Memo), m.Faithful k → Room k depth m.busy →
        (∀ q ∈ m.busy, ¬ ReflTransGen (Feeds k.func) q id) → m.get? id = none →
        ∃ m' : Memo, (instrRange k depth id bits).run m = .ok (r, m'.set id r) ∧ m'.Faithful k ∧
          m'.busy = m.busy := by
      intro depth m hm hroom hfree hget
      have hnot : id ∉ m.busy := fun hmem => hfree id hmem .refl
      cases depth with
      | zero => exact absurd (hroom.mem_of_zero hi) hnot
      | succ depth =>
        obtain ⟨r', m', hx, hm', hb', hr'⟩ :=
          (hvalue depth m.busy hroom hfree).run_instrRange hi hm rfl hnot hget
        cases hr' trivial
        exact ⟨m', hx, hm', hb'⟩
    have hfirst : firstRange k id bits = r := by
      obtain ⟨m', hx, -⟩ := hrun k.func.instrs.size (.empty k.func) Memo.faithful_empty .start
        (by simp [Memo.empty]) (Memo.get?_empty id)
      rw [firstRange, StateT.run'_eq, hx]
      rfl
    rw [hfirst]
    intro m hm hb
    subst hb
    cases hget : m.get? id with
    | some q =>
      have hq := (hm id i bits q (.intro id hacc) hi hty hget).trans hfirst
      exact ⟨q, m, run_instrRange_known hget, hm, rfl, fun _ => hq⟩
    | none =>
      obtain ⟨m', hx, hm', hb'⟩ := hrun depth m hm hroom hfree hget
      refine ⟨r, _, hx, hm'.set (Func.lt_of_instr? hi).1 fun j bits' _ hj hjty => ?_, hb',
        fun _ => rfl⟩
      cases hi.symm.trans hj
      cases hty.symm.trans hjty
      exact hfirst.symm

/-- A memory stays faithful. Below an instruction on no circle there is none on a circle, so that as
long as those in progress are, none of them is met again there. -/
theorem Context.Solid.yields_instrRange (hi : k.func.instr? id = some i) (hty : i.ty = .int bits)
    (hroom : Room k depth busy) (hbusy : ∀ q ∈ busy, ¬ Acc (Feeds k.func) q) :
    Yields k busy (Acc (Feeds k.func) id) (instrRange k depth id bits) (firstRange k id bits) := by
  induction depth generalizing id i bits busy with
  | zero =>
    have hmem := hroom.mem_of_zero hi
    intro m hm hb
    subst hb
    cases hget : m.get? id with
    | some r => exact ⟨r, m, run_instrRange_known hget, hm, rfl, fun h => absurd h (hbusy id hmem)⟩
    | none =>
      exact ⟨_, m, run_instrRange_busy hget hmem, hm, rfl, fun h => absurd h (hbusy id hmem)⟩
  | succ depth ih =>
    by_cases hid : Acc (Feeds k.func) id
    · exact (h.yields_firstRange hid hi hty hroom fun q hq hback =>
        hbusy q hq (acc_of_reflTransGen hid hback)).weaken fun _ => trivial
    intro m hm hb
    cases hget : m.get? id with
    | some r => exact ⟨r, m, run_instrRange_known hget, hm, hb, fun h => absurd h hid⟩
    | none =>
      by_cases hmem : id ∈ busy
      · subst hb
        exact ⟨_, m, run_instrRange_busy hget hmem, hm, rfl, fun h => absurd h hid⟩
      obtain ⟨a, ha⟩ := h.exists_instrValue (firstRange k) hi hty
      have hvalue : Yields k (id :: busy) False
          (instrValue k (rangeBy k (instrRange k depth)) id i bits) a :=
        ha _ _ _ fun p j bits _ hj hjty =>
          (ih hj hjty (hroom.push hi hmem) (List.forall_mem_cons.mpr ⟨hid, hbusy⟩)).weaken
            False.elim
      obtain ⟨r, m', hx, hm', hb', -⟩ := hvalue.run_instrRange hi hm hb hmem hget
      exact ⟨r, _, hx, hm'.set (Func.lt_of_instr? hi).1 fun _ _ h => absurd h hid, hb',
        fun h => absurd h hid⟩

end

/-! ### Histories -/

/-- Only the interval of an instruction is remembered. -/
theorem run_rangeBy {instr : Int → Nat → RangeM Interval} {r : Interval}
    (h : (rangeBy k instr v site).run m = .ok (r, m')) :
    m' = m ∨ ∃ id i bits q, k.func.instr? id = some i ∧ i.ty = .int bits ∧
      (instr id bits).run m = .ok (q, m') := by
  have hlift {x : Checked Interval} {m₁ : Memo}
      (hx : (liftM x : RangeM Interval).run m₁ = .ok (r, m')) : m' = m₁ := by
    cases x with
    | error e => cases hx
    | ok a =>
      cases hx
      rfl
  unfold rangeBy at h
  cases hty : k.func.typeOf v with
  | error e =>
    rw [hty] at h
    cases h
  | ok ty =>
    rw [hty] at h
    rcases ty with _ | ty
    · cases h
      exact .inl rfl
    cases ty with
    | int bits =>
      cases v with
      | instr id =>
        replace h : (instr id bits >>= fun q => liftM (narrowBy k (.instr id) site q)).run m =
          .ok (r, m') := h
        rw [StateT.run_bind, Checked.bind_eq_ok] at h
        obtain ⟨⟨q, m₁⟩, hrun, h⟩ := h
        cases hlift h
        simp only [Func.typeOf, Checked.bind_eq_ok, Func.instr_eq_ok, Checked.pure_eq_ok,
          Option.some.injEq] at hty
        obtain ⟨i, hi, hty⟩ := hty
        exact .inr ⟨id, i, bits, q, hi, hty, hrun⟩
      | _ => exact .inl (hlift h)
    | _ =>
      cases h
      exact .inl rfl

theorem History.faithful (h : k.Solid s) (hm : History k m) : m.Faithful k ∧ m.busy = [] := by
  induction hm with
  | fresh => exact ⟨Memo.faithful_empty, rfl⟩
  | invalidated => exact ⟨Memo.faithful_empty, rfl⟩
  | asked hm hask ih =>
    rcases run_rangeBy hask with rfl | ⟨id, i, bits, q, hi, hty, hrun⟩
    · exact ih
    · obtain ⟨r, m₁, hx, hm₁, hb₁, -⟩ :=
        h.yields_instrRange hi hty .start (by simp) _ ih.1 ih.2
      cases hx.symm.trans hrun
      exact ⟨hm₁, hb₁⟩

theorem Context.Solid.exists_rangeAt (h : k.Solid s) (hv : k.func.Refers s v)
    (hsite : ∀ t, site = some t → ∃ b, k.func.Stands b t)
    (hacyclic : ∀ id, v = .instr id → Acyclic k.func id) :
    ∃ r, (rangeAt k v site).run' (Memo.empty k.func) = .ok r ∧
      ∀ m, History k m → (rangeAt k v site).run' m = .ok r := by
  obtain ⟨r, hr⟩ := h.exists_rangeBy (firstRange k) hv hsite
  have hyields : Yields k [] True (rangeAt k v site) r := hr _ _ _ fun id i bits hid hi hty =>
    (h.yields_instrRange hi hty .start (by simp)).weaken fun _ => (hacyclic id hid).acc h.func
  have hall : ∀ m, History k m → (rangeAt k v site).run' m = .ok r := by
    intro m hm
    obtain ⟨hm, hb⟩ := hm.faithful h
    obtain ⟨r', m', hx, -, -, hr'⟩ := hyields m hm hb
    rw [StateT.run'_eq, hx, hr' trivial]
    rfl
  exact ⟨r, hall _ .fresh, hall⟩

end RegPressure.ValueRange

namespace RegPressure

open ValueRange

/-- In a function that reading accepts, with or without the assumptions in it, the interval of a
value at an instruction, or anywhere, is there and does not depend on what the analysis was asked
before, if no instruction on which the value depends depends on itself. -/
theorem rangeAt_history_independent {file : String} {src : Bytes} {p : Parsed}
    (h : parse file src = .ok p) (he : p.errors = []) {f : Func} (hf : f ∈ p.module.funcs)
    (o : Option DomInfo) :
    ∃ k, Context.of f o = .ok k ∧ ∀ v site, f.Refers p.module.symbols v →
      (∀ t, site = some t → ∃ i, f.instr? t = some i) → (∀ id, v = .instr id → Acyclic f id) →
      ∃ r, (rangeAt k v site).run' (.empty f) = .ok r ∧
        ∀ m, History k m → (rangeAt k v site).run' m = .ok r := by
  have hsolid := ((read_of_parse h he).funcs f hf).solid
  obtain ⟨k, hk, rfl, hsturdy⟩ := Context.Sturdy.exists_of o hsolid.sturdy
  refine ⟨k, hk, fun v site hv hsite hacyclic => ?_⟩
  refine (Context.Solid.mk hsolid hsturdy).exists_rangeAt hv (fun t ht => ?_) hacyclic
  obtain ⟨i, hi⟩ := hsite t ht
  exact hsolid.stands t i hi

def maskedLoop : Bytes := Bytes.ofString
  "func @f(%c: i1, %x: i32) -> i32 \x7b\na:\n  %y = and i32 %x, 15\n  br b\n" ++ Bytes.ofString
  "b:\n  %p = phi i32 [ 0, a ], [ %q, b ]\n  %q = and i32 %p, 15\n  condbr %c, b, d\n" ++
    Bytes.ofString "d:\n  ret i32 %q\n\x7d\n"

theorem run_maskedLoop : ∃ p f k m i, parse "f.mir" maskedLoop = .ok p ∧ p.errors = [] ∧
    f ∈ p.module.funcs ∧ (∃ d, Context.of f (some d) = .ok k) ∧ k.func = f ∧
    (f.instr? 0 = some i ∧ sources i = [.arg 1, .int (some .i32) 15]) ∧
    (rangeAt k (.instr 0) none).run' (.empty f) = .ok ⟨32, 0, 15⟩ ∧
    (rangeAt k (.instr 2) none).run' (.empty f) = .ok ⟨32, 0, 15⟩ ∧
    (rangeAt k (.instr 3) none).run (.empty f) = .ok (⟨32, 0, 15⟩, m) ∧
    (rangeAt k (.instr 2) none).run' m = .ok (.full 32) := by
  have hrun : ((parse "f.mir" maskedLoop).toOption.bind fun p => p.module.funcs.head?.bind fun f =>
      (DomInfo.compute f >>= fun d => Context.of f (some d)).toOption.bind fun k =>
        ((rangeAt k (.instr 3) none).run (.empty f)).toOption.map fun (r, m) =>
          (p.errors.isEmpty, (f.instr? 0).map sources,
            [((rangeAt k (.instr 0) none).run' (.empty f)).toOption,
              ((rangeAt k (.instr 2) none).run' (.empty f)).toOption, some r,
              ((rangeAt k (.instr 2) none).run' m).toOption])) =
      some (true, some [.arg 1, .int (some .i32) 15],
        [some ⟨32, 0, 15⟩, some ⟨32, 0, 15⟩, some ⟨32, 0, 15⟩, some (.full 32)]) := by
    decide +kernel
  simp only [Option.bind_eq_some_iff, Option.map_eq_some_iff, Checked.toOption_eq_some,
    Checked.bind_eq_ok, Prod.mk.injEq, List.cons.injEq, Option.some.injEq] at hrun
  obtain ⟨p, hp, f, hf, k, ⟨d, -, hk⟩, ⟨r, m⟩, hm, he, ⟨i, hi, hsrc⟩, hy, hc, rfl, hc', -⟩ := hrun
  exact ⟨p, f, k, m, i, hp, List.isEmpty_iff.mp he, List.mem_of_mem_head? hf, ⟨d, hk⟩,
    (Context.of_eq hk).1, ⟨hi, hsrc⟩, hy, hc, hm, hc'⟩

/-- Asked first, the counter lies between nought and fifteen. Asked after its mask, it is unknown:
what was worked out for it while the mask was in progress stays. -/
theorem maskedLoop_remembers_cut : ∃ p f k m, parse "f.mir" maskedLoop = .ok p ∧ p.errors = [] ∧
    f ∈ p.module.funcs ∧ (∃ d, Context.of f (some d) = .ok k) ∧ History k m ∧
    (rangeAt k (.instr 2) none).run' (.empty f) = .ok ⟨32, 0, 15⟩ ∧
    (rangeAt k (.instr 2) none).run' m = .ok (.full 32) := by
  obtain ⟨p, f, k, m, -, hp, he, hf, hk, rfl, -, -, hc, hm, hc'⟩ := run_maskedLoop
  exact ⟨p, _, k, m, hp, he, hf, hk, .asked .fresh hm, hc, hc'⟩

/-- The mask outside the loop keeps its interval whatever is asked. -/
theorem maskedLoop_outside : ∃ p f k, parse "f.mir" maskedLoop = .ok p ∧ p.errors = [] ∧
    f ∈ p.module.funcs ∧ (∃ d, Context.of f (some d) = .ok k) ∧
    ∀ m, History k m → (rangeAt k (.instr 0) none).run' m = .ok ⟨32, 0, 15⟩ := by
  obtain ⟨p, f, k, m, i, hp, he, hf, ⟨d, hk⟩, -, ⟨hi, hsrc⟩, hfirst, -⟩ := run_maskedLoop
  obtain ⟨k', hk', hall⟩ := rangeAt_history_independent hp he hf (some d)
  cases hk.symm.trans hk'
  have hacyclic : Acyclic f 0 := acyclic_of_not_feeds fun q ⟨j, _, hj, _, _, hmem⟩ => by
    cases hi.symm.trans hj
    simp [hsrc] at hmem
  obtain ⟨r, hr, hall⟩ := hall (.instr 0) none ⟨i, hi⟩ nofun fun id hid => by
    cases hid
    exact hacyclic
  cases hr.symm.trans hfirst
  exact ⟨p, f, k, hp, he, hf, ⟨d, hk⟩, hall⟩

end RegPressure
