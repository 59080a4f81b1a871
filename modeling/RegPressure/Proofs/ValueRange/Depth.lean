import RegPressure.Proofs.ValueRange.Remembered
import Mathlib.Logic.Function.Iterate

namespace RegPressure.ValueRange

variable {α β : Type} {k : Context} {v : Value} {site : Option Int} {id : Int} {i : Instr}
  {bits depth : Nat} {m m' : Memo} {busy : List Int} {inner inner' : Int → Nat → RangeM Interval}

def workOut (k : Context) (inner : Int → Nat → RangeM Interval) (id : Int) (bits : Nat) :
    RangeM Interval := do
  modify (·.enter id)
  let r ← instrValue k (rangeBy k inner) id (← k.func.instr id) bits
  modify (·.finish id r)
  return r

/-- One call for the interval of an instruction's result. `inner` stands for the calls that it makes
in its turn, and nothing bounds how deep these go. -/
def instrCall (k : Context) (inner : Int → Nat → RangeM Interval) (id : Int) (bits : Nat) :
    RangeM Interval := do
  let m ← get
  (m.get? id).elim (if m.busy.contains id then pure (.full bits) else workOut k inner id bits) pure

theorem run_instrCall_known {r : Interval} (hget : m.get? id = some r) :
    (instrCall k inner id bits).run m = .ok (r, m) := by
  simp only [instrCall, StateT.run_bind, StateT.run_get, pure_bind, hget]
  rfl

theorem run_instrCall_busy (hget : m.get? id = none) (hbusy : id ∈ m.busy) :
    (instrCall k inner id bits).run m = .ok (.full bits, m) := by
  have hcontains : m.busy.contains id = true := by simpa using hbusy
  simp only [instrCall, StateT.run_bind, StateT.run_get, pure_bind, hget, hcontains, if_true]
  rfl

theorem run_instrCall_new (hget : m.get? id = none) (hbusy : id ∉ m.busy) :
    (instrCall k inner id bits).run m = (workOut k inner id bits).run m := by
  have hcontains : m.busy.contains id = false := by simpa using hbusy
  simp only [instrCall, StateT.run_bind, StateT.run_get, pure_bind, hget, hcontains,
    Bool.false_eq_true, if_false]
  rfl

theorem run_workOut (hi : k.func.instr? id = some i) : (workOut k inner id bits).run m = (do
    let q ← (instrValue k (rangeBy k inner) id i bits).run (m.enter id)
    return (q.1, q.2.finish id q.1)) := by
  rw [workOut, Func.instr_eq_ok.mpr hi]
  rfl

theorem run_instrRange_eq (hi : k.func.instr? id = some i) (m : Memo) :
    (instrRange k (depth + 1) id bits).run m =
      (instrCall k (instrRange k depth) id bits).run m := by
  cases hget : m.get? id with
  | some r => rw [run_instrRange_known hget, run_instrCall_known hget]
  | none =>
    by_cases hbusy : id ∈ m.busy
    · rw [run_instrRange_busy hget hbusy, run_instrCall_busy hget hbusy]
    · rw [run_instrRange_succ hi hget hbusy, run_instrCall_new hget hbusy, run_workOut hi]

/-! ### Two computations that run alike -/

def Alike (busy : List Int) (x y : RangeM α) : Prop :=
  ∀ m, m.busy = busy → x.run m = y.run m ∧ ∀ a m', x.run m = .ok (a, m') → m'.busy = busy

theorem agree_of_unchanged {x y : RangeM α} {a : α} (hx : x.run m = .ok (a, m))
    (hy : y.run m = .ok (a, m)) :
    x.run m = y.run m ∧ ∀ b m', x.run m = .ok (b, m') → m'.busy = m.busy := by
  refine ⟨hx.trans hy.symm, fun b m' h => ?_⟩
  cases hx.symm.trans h
  rfl

namespace Alike

theorem pure (a : α) : Alike busy (Pure.pure a : RangeM α) (Pure.pure a) := by
  rintro m rfl
  exact agree_of_unchanged rfl rfl

theorem lift (x : Checked α) : Alike busy (liftM x : RangeM α) (liftM x) := by
  rintro m rfl
  cases x with
  | error e => exact ⟨rfl, fun b m' h => by cases h⟩
  | ok a => exact agree_of_unchanged rfl rfl

theorem bind {x y : RangeM α} {g h : α → RangeM β} (hx : Alike busy x y)
    (hg : ∀ a, Alike busy (g a) (h a)) : Alike busy (x >>= g) (y >>= h) := by
  intro m hm
  obtain ⟨heq, hkeep⟩ := hx m hm
  rw [StateT.run_bind, StateT.run_bind, ← heq]
  cases hrun : x.run m with
  | error e => exact ⟨rfl, fun b m' hb => by cases hb⟩
  | ok q => exact hg q.1 q.2 (hkeep q.1 q.2 hrun)

theorem lift_bind (x : Checked α) {g h : α → RangeM β} (hg : ∀ a, Alike busy (g a) (h a)) :
    Alike busy (liftM x >>= g) (liftM x >>= h) :=
  (lift x).bind hg

end Alike

theorem alike_rangeBy
    (h : ∀ id i bits, k.func.instr? id = some i → Alike busy (inner id bits) (inner' id bits))
    (v : Value) (site : Option Int) :
    Alike busy (rangeBy k inner v site) (rangeBy k inner' v site) := by
  unfold rangeBy
  cases hty : k.func.typeOf v with
  | error e => exact fun m hm => ⟨rfl, fun a m' ha => by cases ha⟩
  | ok ty =>
    refine (Alike.lift (.ok ty)).bind fun ty => ?_
    split
    · cases v with
      | instr id =>
        simp only [Func.typeOf, Checked.bind_eq_ok, Func.instr_eq_ok] at hty
        obtain ⟨i, hi, -⟩ := hty
        exact (h id i _ hi).bind fun r => .lift _
      | _ => exact (Alike.pure _).bind fun r => .lift _
    · exact .pure _

section Steps

variable {range range' : Value → Option Int → RangeM Interval}
  (h : ∀ v site, Alike busy (range v site) (range' v site))

include h

theorem alike_phiRange (i : Instr) (bits : Nat) (vs : List Value) (n : Nat)
    (sofar : Option Interval) :
    Alike busy (phiRange k range i bits vs n sofar) (phiRange k range' i bits vs n sofar) := by
  induction vs generalizing n sofar with
  | nil => exact .pure _
  | cons v vs ih =>
    refine .lift_bind _ fun t => .lift_bind _ fun site => (h v site).bind fun r => ?_
    split
    · exact .pure _
    · exact ih _ _

theorem alike_instrValue (id : Int) (i : Instr) (bits : Nat) :
    Alike busy (instrValue k range id i bits) (instrValue k range' id i bits) := by
  have hoperand (n : Nat) : Alike busy (do range (← element i.operands n) (some id))
      (do range' (← element i.operands n) (some id)) :=
    .lift_bind _ fun v => h v _
  unfold instrValue
  split
  · exact .pure _
  split
  · exact (hoperand 0).bind fun _ => (hoperand 1).bind fun _ => .pure _
  split
  · exact (hoperand 0).bind fun _ => .pure _
  split
  · exact (hoperand 1).bind fun _ => (hoperand 2).bind fun _ => .pure _
  · exact alike_phiRange h i bits _ 0 none
  · exact .pure _

end Steps

theorem alike_instrCall (hi : k.func.instr? id = some i)
    (h : id ∉ busy → ∀ q j bits, k.func.instr? q = some j →
      Alike (id :: busy) (inner q bits) (inner' q bits)) :
    Alike busy (instrCall k inner id bits) (instrCall k inner' id bits) := by
  rintro m rfl
  cases hget : m.get? id with
  | some r => exact agree_of_unchanged (run_instrCall_known hget) (run_instrCall_known hget)
  | none =>
    by_cases hbusy : id ∈ m.busy
    · exact agree_of_unchanged (run_instrCall_busy hget hbusy) (run_instrCall_busy hget hbusy)
    · obtain ⟨heq, hkeep⟩ :=
        alike_instrValue (k := k) (alike_rangeBy (h hbusy)) id i bits (m.enter id) rfl
      rw [run_instrCall_new hget hbusy, run_instrCall_new hget hbusy, run_workOut hi,
        run_workOut hi, ← heq]
      refine ⟨rfl, fun a m' ha => ?_⟩
      obtain ⟨⟨q, m₁⟩, hrun, ha⟩ := Checked.bind_eq_ok.mp ha
      cases ha
      simp [Memo.finish, Memo.set, hkeep q m₁ hrun]

theorem alike_instrRange (deeper : Int → Nat → RangeM Interval) (hroom : Room k depth busy)
    (hi : k.func.instr? id = some i) (bits : Nat) :
    Alike busy (instrRange k depth id bits) ((instrCall k)^[depth + 1] deeper id bits) := by
  induction depth generalizing id i bits busy with
  | zero =>
    have hmem := hroom.mem_of_zero hi
    rintro m rfl
    rw [Function.iterate_one]
    cases hget : m.get? id with
    | some r => exact agree_of_unchanged (run_instrRange_known hget) (run_instrCall_known hget)
    | none => exact agree_of_unchanged (run_instrRange_busy hget hmem) (run_instrCall_busy hget hmem)
  | succ depth ih =>
    rw [Function.iterate_succ_apply']
    intro m hm
    rw [run_instrRange_eq hi m]
    refine alike_instrCall hi (fun hid q j bits hj => ?_) m hm
    exact ih (hroom.push hi hid) hj bits

/-! ### A whole question -/

theorem alike_rangeAt (deeper : Int → Nat → RangeM Interval) {n : Nat}
    (hn : k.func.instrs.size < n) (v : Value) (site : Option Int) :
    Alike [] (rangeAt k v site) (rangeBy k ((instrCall k)^[n] deeper) v site) := by
  obtain ⟨j, rfl⟩ := Nat.exists_eq_add_of_le (Nat.succ_le_of_lt hn)
  rw [Function.iterate_add_apply]
  exact alike_rangeBy (fun id i bits hi => alike_instrRange _ .start hi bits) v site

/-- A question about a value answers, and what is remembered afterwards does not depend on the
instruction at which the value was asked for. Only that instruction can be missing. -/
theorem Context.Solid.exists_later {s : Symbols} (h : k.Solid s) {ty : Option Ty}
    (hty : k.func.typeOf v = .ok ty) (m : Memo) :
    ∃ m', m.Later m' ∧ ∀ site, ∃ y : Checked Interval,
      (rangeAt k v site).run m = (do return (← y, m')) ∧
        ((∀ t, site = some t → ∃ b, k.func.Stands b t) → Checked.Answers y) := by
  unfold rangeAt rangeBy
  rw [hty]
  rcases ty with _ | ty
  · exact ⟨m, Std.Refl.refl m, fun site => ⟨pure (.full 64), rfl, fun _ => Checked.answers_pure _⟩⟩
  cases ty with
  | int bits =>
    cases v with
    | instr id =>
      simp only [Func.typeOf, Checked.bind_eq_ok, Func.instr_eq_ok, Checked.pure_eq_ok,
        Option.some.injEq] at hty
      obtain ⟨i, hi, hty⟩ := hty
      obtain ⟨⟨r, m'⟩, hrun⟩ :=
        h.sturdy.answers_instrRange hi (h.func.live hi) k.func.instrs.size bits m
      refine ⟨m', later_instrRange _ hi hty m r m' hrun, fun site => ?_⟩
      refine ⟨narrowBy k (.instr id) site r, ?_, fun hsite => h.sturdy.answers_narrowBy hsite _ r⟩
      change (instrRange k k.func.instrs.size id bits >>= fun r =>
        liftM (narrowBy k (.instr id) site r)).run m = _
      rw [StateT.run_bind, hrun]
      rfl
    | _ => exact ⟨m, Std.Refl.refl m, fun site =>
        ⟨narrowBy k _ site _, rfl, fun hsite => h.sturdy.answers_narrowBy hsite _ _⟩⟩
  | _ => exact ⟨m, Std.Refl.refl m, fun site => ⟨pure (.full 64), rfl, fun _ =>
      Checked.answers_pure _⟩⟩

end RegPressure.ValueRange

namespace RegPressure

open ValueRange

/-- In a function that reading accepts, whatever its instructions depend on, and with or without the
assumptions in it, every question for an interval ends while nothing is in progress: calls that are
one more deep than there are instructions are never made, so that it does not matter what they would
do. A question about something that is not a value of the function is refused. Any other leaves
nothing in progress and all that was remembered as it was, and has an answer unless it asks at an
instruction that is not there. -/
theorem rangeAt_ends {file : String} {src : Bytes} {p : Parsed} (h : parse file src = .ok p)
    (he : p.errors = []) {f : Func} (hf : f ∈ p.module.funcs) (o : Option DomInfo) :
    ∃ k, Context.of f o = .ok k ∧ ∀ m, m.busy = [] → ∀ v,
      (∀ n > f.instrs.size, ∀ deeper site,
        (rangeBy k ((instrCall k)^[n] deeper) v site).run m = (rangeAt k v site).run m) ∧
      (∀ e, f.typeOf v = .error e → ∀ site, (rangeAt k v site).run m = .error e) ∧
      ∀ ty, f.typeOf v = .ok ty → ∃ m', m'.busy = [] ∧
        (∀ id r, m.get? id = some r → m'.get? id = some r) ∧
        ∀ site, ∃ y : Checked Interval, (rangeAt k v site).run m = (do return (← y, m')) ∧
          ((∀ t, site = some t → ∃ i, f.instr? t = some i) → Checked.Answers y) := by
  have hsolid := ((read_of_parse h he).funcs f hf).solid
  obtain ⟨k, hk, rfl, hsturdy⟩ := Context.Sturdy.exists_of o hsolid.sturdy
  refine ⟨k, hk, fun m hm v => ⟨fun n hn deeper site => ?_, fun e hv site => ?_, fun ty hv => ?_⟩⟩
  · exact (alike_rangeAt deeper hn v site m hm).1.symm
  · unfold rangeAt rangeBy
    rw [hv]
    rfl
  · obtain ⟨m', hlater, hsites⟩ := (Context.Solid.mk hsolid hsturdy).exists_later hv m
    refine ⟨m', hlater.busy.trans hm, hlater.kept, fun site => ?_⟩
    obtain ⟨y, hy, hanswers⟩ := hsites site
    refine ⟨y, hy, fun hsite => hanswers fun t ht => ?_⟩
    obtain ⟨i, hi⟩ := hsite t ht
    exact hsolid.stands t i hi

def spinning : Bytes := Bytes.ofString
  "func @f() -> i32 \x7b\na:\n  %x = add i32 %y, 1\n  %y = mul i32 %x, 3\n  ret i32 %y\n\x7d\n"

/-- Asked for the product, a new analysis enters both instructions, meets the product again and
comes back with nothing in progress. -/
theorem spinning_ends : ∃ p f k, parse "f.mir" spinning = .ok p ∧ p.errors = [] ∧
    f ∈ p.module.funcs ∧ (f.instr? 0).map (·.operands) = some [.instr 1, .int (some .i32) 1] ∧
    (f.instr? 1).map (·.operands) = some [.instr 0, .int (some .i32) 3] ∧
    Context.of f none = .ok k ∧
    ∃ r m, (rangeAt k (.instr 1) none).run (.empty f) = .ok (r, m) ∧ m.busy = [] ∧
      ∀ deeper, (rangeBy k ((instrCall k)^[f.instrs.size + 1] deeper) (.instr 1) none).run
        (.empty f) = .ok (r, m) := by
  have hparse : ((parse "f.mir" spinning).toOption.bind fun p => p.module.funcs.head?.map fun f =>
      (p.errors.isEmpty, (f.instr? 0).map (·.operands), (f.instr? 1).map (·.operands),
        (f.typeOf (.instr 1)).toOption)) =
      some (true, some [.instr 1, .int (some .i32) 1], some [.instr 0, .int (some .i32) 3],
        some (some .i32)) := by
    decide +kernel
  simp only [Option.bind_eq_some_iff, Option.map_eq_some_iff, Checked.toOption_eq_some,
    Prod.mk.injEq] at hparse
  obtain ⟨p, hp, f, hf, he, hx, hy, hty⟩ := hparse
  have he := List.isEmpty_iff.mp he
  have hf := List.mem_of_mem_head? hf
  obtain ⟨k, hk, hall⟩ := rangeAt_ends hp he hf none
  obtain ⟨hdeeper, -, hanswers⟩ := hall (.empty f) rfl (.instr 1)
  obtain ⟨m, hbusy, -, hsites⟩ := hanswers _ hty
  obtain ⟨y, hrun, hy'⟩ := hsites none
  obtain ⟨r, rfl⟩ := hy' fun t ht => by cases ht
  exact ⟨p, f, k, hp, he, hf, by simpa using hx, by simpa using hy, hk, r, m, hrun, hbusy,
    fun deeper => (hdeeper _ (Nat.lt_succ_self _) deeper none).trans hrun⟩

end RegPressure
