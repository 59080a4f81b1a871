import RegPressure.Proofs.ValueRange.History

namespace RegPressure.ValueRange

variable {α β : Type} {k : Context} {v : Value} {site : Option Int} {id : Int} {i : Instr}
  {bits n : Nat} {m m' : Memo} {r : Interval} {R : Memo → Memo → Prop}

def Moves (R : Memo → Memo → Prop) (x : RangeM α) : Prop :=
  ∀ m a m', x.run m = .ok (a, m') → R m m'

def Memo.enter (m : Memo) (id : Int) : Memo := { m with busy := id :: m.busy }

/-- The instruction is done, and this is remembered of it. -/
def Memo.finish (m : Memo) (id : Int) (r : Interval) : Memo :=
  Memo.set { m with busy := m.busy.erase id } id r

section Steps

variable [Std.Refl R]

theorem moves_pure (a : α) : Moves R (pure a : RangeM α) := by
  intro m b m' h
  cases h
  exact Std.Refl.refl m

theorem moves_lift (x : Checked α) : Moves R (liftM x : RangeM α) := by
  intro m a m' h
  cases x with
  | error e => cases h
  | ok b =>
    cases h
    exact Std.Refl.refl m

variable [IsTrans Memo R]

omit [Std.Refl R] in
theorem Moves.bind {x : RangeM α} {g : α → RangeM β} (hx : Moves R x) (hg : ∀ a, Moves R (g a)) :
    Moves R (x >>= g) := by
  intro m b m' h
  rw [StateT.run_bind, Checked.bind_eq_ok] at h
  obtain ⟨⟨a, m₁⟩, hrun, h⟩ := h
  exact IsTrans.trans _ _ _ (hx m a m₁ hrun) (hg a m₁ b m' h)

theorem moves_lift_bind (x : Checked α) {g : α → RangeM β} (hg : ∀ a, Moves R (g a)) :
    Moves R (liftM x >>= g) :=
  (moves_lift x).bind hg

end Steps

variable [Std.Refl R] {instr : Int → Nat → RangeM Interval}

theorem moves_rangeBy
    (h : ∀ id i bits, k.func.instr? id = some i → i.ty = .int bits → Moves R (instr id bits))
    (v : Value) (site : Option Int) : Moves R (rangeBy k instr v site) := by
  intro m r m' hrun
  rcases run_rangeBy hrun with rfl | ⟨id, i, bits, q, hi, hty, hinstr⟩
  · exact Std.Refl.refl m'
  · exact h id i bits hi hty m q m' hinstr

variable [IsTrans Memo R]

theorem moves_phiRange {range : Value → Option Int → RangeM Interval}
    (h : ∀ v site, Moves R (range v site)) (i : Instr) (bits : Nat) (vs : List Value) (n : Nat)
    (sofar : Option Interval) : Moves R (phiRange k range i bits vs n sofar) := by
  induction vs generalizing n sofar with
  | nil => exact moves_pure _
  | cons v vs ih =>
    refine moves_lift_bind _ fun t => moves_lift_bind _ fun site => (h v site).bind fun r => ?_
    split
    · exact moves_pure _
    · exact ih _ _

theorem moves_instrValue {range : Value → Option Int → RangeM Interval}
    (h : ∀ v site, Moves R (range v site)) (id : Int) (i : Instr) (bits : Nat) :
    Moves R (instrValue k range id i bits) := by
  have hoperand (n : Nat) : Moves R (do range (← element i.operands n) (some id)) :=
    moves_lift_bind _ fun v => h v _
  unfold instrValue
  split
  · exact moves_pure _
  split
  · exact (hoperand 0).bind fun _ => (hoperand 1).bind fun _ => moves_pure _
  split
  · exact (hoperand 0).bind fun _ => moves_pure _
  split
  · exact (hoperand 1).bind fun _ => (hoperand 2).bind fun _ => moves_pure _
  · exact moves_phiRange h i bits _ 0 none
  · exact moves_pure _

/-- An instruction of which nothing is known is worked out while it is in progress. -/
theorem run_instrRange_succ {depth : Nat} (hi : k.func.instr? id = some i) (hget : m.get? id = none)
    (hbusy : id ∉ m.busy) : (instrRange k (depth + 1) id bits).run m = (do
      let q ← (instrValue k (rangeBy k (instrRange k depth)) id i bits).run (m.enter id)
      return (q.1, q.2.finish id q.1)) := by
  have hcontains : m.busy.contains id = false := by simpa using hbusy
  rw [instrRange]
  simp only [StateT.run_bind, StateT.run_get, pure_bind, hget, hcontains, Bool.false_eq_true,
    if_false, StateT.run_modify, Func.instr_eq_ok.mpr hi]
  rfl

theorem run_instrRange_cases {depth : Nat} (hi : k.func.instr? id = some i)
    (h : (instrRange k depth id bits).run m = .ok (r, m')) :
    m' = m ∨ ∃ depth' m₁, depth = depth' + 1 ∧ m.get? id = none ∧ id ∉ m.busy ∧
      (instrValue k (rangeBy k (instrRange k depth')) id i bits).run (m.enter id) = .ok (r, m₁) ∧
        m' = m₁.finish id r := by
  cases hget : m.get? id with
  | some q =>
    rw [run_instrRange_known hget] at h
    cases h
    exact .inl rfl
  | none =>
    by_cases hbusy : id ∈ m.busy
    · rw [run_instrRange_busy hget hbusy] at h
      cases h
      exact .inl rfl
    cases depth with
    | zero =>
      have hcontains : m.busy.contains id = false := by simpa using hbusy
      unfold instrRange at h
      simp only [StateT.run_bind, StateT.run_get, pure_bind, hget, hcontains, Bool.false_eq_true,
        if_false] at h
      cases h
      exact .inl rfl
    | succ depth =>
      rw [run_instrRange_succ hi hget hbusy] at h
      obtain ⟨⟨q, m₁⟩, hrun, h⟩ := Checked.bind_eq_ok.mp h
      cases h
      exact .inr ⟨depth, m₁, rfl, rfl, hbusy, hrun, rfl⟩

/-- One instruction at a time: if the memory moves in this way when an instruction is worked out in
between, every question moves it so. -/
theorem moves_instrRange
    (hstep : ∀ depth id i bits m m₁ r, k.func.instr? id = some i → i.ty = .int bits →
      m.get? id = none → id ∉ m.busy →
      (instrValue k (rangeBy k (instrRange k depth)) id i bits).run (m.enter id) = .ok (r, m₁) →
      R (m.enter id) m₁ → R m (m₁.finish id r))
    (depth : Nat) (hi : k.func.instr? id = some i) (hty : i.ty = .int bits) :
    Moves R (instrRange k depth id bits) := by
  induction depth generalizing id i bits with
  | zero =>
    intro m r m' h
    rcases run_instrRange_cases hi h with rfl | ⟨_, _, hdepth, -⟩
    · exact Std.Refl.refl m'
    · cases hdepth
  | succ depth ih =>
    intro m r m' h
    rcases run_instrRange_cases hi h with rfl | ⟨_, m₁, ⟨⟩, hget, hbusy, hrun, rfl⟩
    · exact Std.Refl.refl m'
    · have hvalue := moves_instrValue (k := k) (R := R) (moves_rangeBy fun id i bits => ih) id i bits
      exact hstep depth id i bits m m₁ r hi hty hget hbusy hrun (hvalue _ _ _ hrun)

/-! ### Asked again -/

structure Memo.Later (m m' : Memo) : Prop where
  busy : m'.busy = m.busy
  size : m'.known.size = m.known.size
  kept : ∀ id r, m.get? id = some r → m'.get? id = some r

instance : Std.Refl Memo.Later := ⟨fun _ => ⟨rfl, rfl, fun _ _ h => h⟩⟩

instance : IsTrans Memo Memo.Later where
  trans _ _ _ h h' := ⟨h'.busy.trans h.busy, h'.size.trans h.size, fun id r hr =>
    h'.kept id r (h.kept id r hr)⟩

/-- Nothing is in progress, and there is room for every instruction. -/
structure Memo.Idle (f : Func) (m : Memo) : Prop where
  busy : m.busy = []
  size : m.known.size = f.instrs.size

theorem Memo.idle_empty (f : Func) : (Memo.empty f).Idle f := ⟨rfl, Array.size_replicate⟩

theorem Memo.Idle.later {f : Func} (hm : m.Idle f) (h : m.Later m') : m'.Idle f :=
  ⟨h.busy.trans hm.busy, h.size.trans hm.size⟩

theorem Memo.get?_finish_self (hid : id.toNat < m.known.size) : (m.finish id r).get? id = some r := by
  simp [Memo.finish, Memo.set, Memo.get?, hid]

theorem Memo.get?_finish_of_ne {q : Int} (h : id.toNat ≠ q.toNat) :
    (m.finish id r).get? q = m.get? q := by
  simp [Memo.finish, Memo.set, Memo.get?, Array.getElem?_setIfInBounds_ne h]

theorem later_instrRange (depth : Nat) (hi : k.func.instr? id = some i) (hty : i.ty = .int bits) :
    Moves Memo.Later (instrRange k depth id bits) := by
  refine moves_instrRange (fun depth id i bits m m₁ r _ _ hget _ _ h => ?_) depth hi hty
  refine ⟨?_, ?_, fun q r' hq => ?_⟩
  · simp [Memo.finish, Memo.set, h.busy, Memo.enter]
  · simpa [Memo.finish, Memo.set, Memo.enter] using h.size
  · have hne : id.toNat ≠ q.toNat := by
      intro heq
      rw [Memo.get?, heq] at hget
      exact absurd (hq.symm.trans hget) (by simp)
    rw [Memo.get?_finish_of_ne hne]
    exact h.kept q r' hq

def Stable (f : Func) (x : RangeM α) : Prop :=
  ∀ m a m', m.Idle f → x.run m = .ok (a, m') →
    m.Later m' ∧ ∀ m₂, m'.Later m₂ → x.run m₂ = .ok (a, m₂)

namespace Stable

variable {f : Func} {x : RangeM α} {g : α → RangeM β}

theorem pure (a : α) : Stable f (Pure.pure a : RangeM α) := by
  intro m b m' _ h
  cases h
  exact ⟨Std.Refl.refl m, fun _ _ => rfl⟩

theorem throw (e : Fault) : Stable f (MonadExcept.throw e : RangeM α) :=
  fun _ _ _ _ h => by cases h

theorem bind (hx : Stable f x) (hg : ∀ a, Stable f (g a)) : Stable f (x >>= g) := by
  intro m b m' hm h
  rw [StateT.run_bind, Checked.bind_eq_ok] at h
  obtain ⟨⟨a, m₁⟩, hrun, h⟩ := h
  obtain ⟨hlater, hagain⟩ := hx m a m₁ hm hrun
  obtain ⟨hlater', hagain'⟩ := hg a m₁ b m' (hm.later hlater) h
  refine ⟨IsTrans.trans _ _ _ hlater hlater', fun m₂ hm₂ => ?_⟩
  rw [StateT.run_bind, hagain m₂ (IsTrans.trans _ _ _ hlater' hm₂), Checked.ok_bind]
  exact hagain' m₂ hm₂

theorem lift (x : Checked α) : Stable f (liftM x : RangeM α) := by
  cases x with
  | error e => exact fun _ _ _ _ h => by cases h
  | ok a => exact .pure a

theorem lift_bind {x : Checked α} (h : ∀ a, x = .ok a → Stable f (g a)) :
    Stable f (liftM x >>= g) := by
  cases x with
  | error e => exact fun _ _ _ _ h => by cases h
  | ok a => exact h a rfl

theorem ite {p : Prop} [Decidable p] {x y : RangeM α} (hx : Stable f x) (hy : Stable f y) :
    Stable f (if p then x else y) := by
  split
  · exact hx
  · exact hy

theorem allM {p : α → RangeM Bool} {l : List α} (h : ∀ a ∈ l, Stable f (p a)) :
    Stable f (l.allM p) := by
  induction l with
  | nil => exact .pure true
  | cons a l ih =>
    refine (h a (List.mem_cons_self ..)).bind fun b => ?_
    cases b with
    | true => exact ih fun b hb => h b (List.mem_cons_of_mem _ hb)
    | false => exact .pure false

end Stable

theorem stable_instrRange (hi : k.func.instr? id = some i) (hty : i.ty = .int bits) :
    Stable k.func (instrRange k k.func.instrs.size id bits) := by
  intro m r m' hm h
  have hlater := later_instrRange _ hi hty m r m' h
  refine ⟨hlater, fun m₂ hm₂ => run_instrRange_known (hm₂.kept id r ?_)⟩
  obtain ⟨hid, hlt⟩ := Func.lt_of_instr? hi
  cases hget : m.get? id with
  | some q =>
    rw [run_instrRange_known hget] at h
    cases h
    exact hget
  | none =>
    obtain ⟨depth, hdepth⟩ : ∃ depth, k.func.instrs.size = depth + 1 :=
      Nat.exists_eq_succ_of_ne_zero (by omega)
    rw [hdepth, run_instrRange_succ hi hget (by simp [hm.busy])] at h
    obtain ⟨⟨q, m₁⟩, -, h⟩ := Checked.bind_eq_ok.mp h
    cases h
    have hsize : m₁.known.size = k.func.instrs.size := by
      simpa [Memo.finish, Memo.set] using hlater.size.trans hm.size
    have hroom : id.toNat < m₁.known.size := by omega
    exact Memo.get?_finish_self hroom

theorem stable_rangeAt (v : Value) (site : Option Int) : Stable k.func (rangeAt k v site) := by
  have hnarrow (r : Interval) : Stable k.func (liftM (narrowBy k v site r) : RangeM Interval) :=
    .lift _
  refine .lift_bind fun ty hty => ?_
  split
  · next bits =>
    cases v with
    | instr id =>
      simp only [Func.typeOf, Checked.bind_eq_ok, Func.instr_eq_ok, Checked.pure_eq_ok,
        Option.some.injEq] at hty
      obtain ⟨i, hi, hty⟩ := hty
      exact (stable_instrRange hi hty).bind hnarrow
    | _ => exact (Stable.pure _).bind hnarrow
  · exact .pure _

end RegPressure.ValueRange
