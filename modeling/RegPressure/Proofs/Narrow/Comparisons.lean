import RegPressure.Proofs.Narrow.Endings
import RegPressure.Proofs.Narrow.Faultless
import RegPressure.Proofs.ValueRange.Remembered

namespace RegPressure

open Relation

namespace Func

variable {f : Func} {c d : Int}

/-- Comparison `c` has the result of `d` among its operands. -/
def Compares (f : Func) (c d : Int) : Prop :=
  ∃ i, f.instr? c = some i ∧ i.op = .icmp ∧ .instr d ∈ i.operands

end Func

namespace ValueRange.RangeM

variable {α : Type} {g g' : α → RangeM Bool} {a : α} {l before after : List α} {m m' : Memo}
  {q : Bool × Memo}

theorem run_allM_cons : ((a :: l).allM g).run m = (do
    let p ← (g a).run m
    if p.1 then (l.allM g).run p.2 else .ok (false, p.2)) := by
  rw [List.allM, StateT.run_bind]
  congr 1
  funext p
  cases p.1 <;> rfl

theorem run_allM_cons_eq_ok : ((a :: l).allM g).run m = .ok q ↔ ∃ p, (g a).run m = .ok p ∧
    (if p.1 then (l.allM g).run p.2 else .ok (false, p.2)) = .ok q := by
  rw [run_allM_cons, Checked.bind_eq_ok]

theorem run_allM_mono (h : ∀ a ∈ l, ∀ m q, (g a).run m = .ok q → (g' a).run m = .ok q)
    (hq : (l.allM g).run m = .ok q) : (l.allM g').run m = .ok q := by
  induction l generalizing m with
  | nil => exact hq
  | cons a l ih =>
    obtain ⟨p, hp, hq⟩ := run_allM_cons_eq_ok.mp hq
    refine run_allM_cons_eq_ok.mpr ⟨p, h a (List.mem_cons_self ..) m p hp, ?_⟩
    split at hq
    · next hp => exact (if_pos hp).trans (ih (fun b hb => h b (List.mem_cons_of_mem _ hb)) hq)
    · next hp => exact (if_neg hp).trans hq

theorem exists_run_of_append (h : ((before ++ after).allM g).run m = .ok q) :
    ∃ p, (before.allM g).run m = .ok p := by
  induction before generalizing m with
  | nil => exact ⟨(true, m), rfl⟩
  | cons b before ih =>
    obtain ⟨p, hp, h⟩ := run_allM_cons_eq_ok.mp h
    by_cases ht : p.1 = true
    · rw [if_pos ht] at h
      obtain ⟨r, hr⟩ := ih h
      exact ⟨r, run_allM_cons_eq_ok.mpr ⟨p, hp, (if_pos ht).trans hr⟩⟩
    · exact ⟨_, run_allM_cons_eq_ok.mpr ⟨p, hp, if_neg ht⟩⟩

theorem exists_run_of_before (h : ((before ++ a :: after).allM g).run m = .ok q)
    (hb : (before.allM g).run m = .ok (true, m')) : ∃ p, (g a).run m' = .ok p := by
  induction before generalizing m with
  | nil =>
    cases hb
    obtain ⟨p, hp, -⟩ := run_allM_cons_eq_ok.mp h
    exact ⟨p, hp⟩
  | cons b before ih =>
    obtain ⟨p, hp, hb⟩ := run_allM_cons_eq_ok.mp hb
    obtain ⟨p', hp', h⟩ := run_allM_cons_eq_ok.mp h
    cases hp.symm.trans hp'
    by_cases ht : p.1 = true
    · rw [if_pos ht] at hb h
      exact ih h hb
    · rw [if_neg ht] at hb
      cases hb

theorem exists_run_eq_error {e : Fault} (h : (l.allM g).run m = .error e) : ∃ before a after m',
    l = before ++ a :: after ∧ (before.allM g).run m = .ok (true, m') ∧ (g a).run m' = .error e := by
  induction l generalizing m with
  | nil => cases h
  | cons a l ih =>
    rw [run_allM_cons] at h
    rcases Checked.bind_eq_error.mp h with h | ⟨p, hp, h⟩
    · exact ⟨[], a, l, m, rfl, rfl, h⟩
    · split at h
      · next ht =>
        obtain ⟨before, b, after, m', rfl, hb, he⟩ := ih h
        refine ⟨a :: before, b, after, m', rfl, ?_, he⟩
        exact run_allM_cons_eq_ok.mpr ⟨p, hp, (if_pos ht).trans hb⟩
      · cases h

end ValueRange.RangeM

namespace Narrow

open ValueRange RangeM

variable {k : Context} {w : Int} {v : Value} {id site site' : Int} {i : Instr} {m m' m₂ : Memo}
  {depth depth' : Nat} {q : Bool × Memo}

/-! ### Depth and memory -/

theorem canNarrow_compare (hi : k.func.instr? id = some i) (hop : i.op = .icmp) :
    canNarrow k w (depth + 1) (.instr id) site = i.operands.allM fun v => canNarrow k w depth v id := by
  funext m
  simp only [canNarrow, Func.instr_eq_ok.mpr hi]
  exact congrFun (if_pos hop) m

theorem canNarrow_other (h : ∀ i, k.func.instr? id = some i → i.op ≠ .icmp) :
    canNarrow k w (depth + 1) (.instr id) site = canNarrow k w (depth' + 1) (.instr id) site := by
  cases hinstr : k.func.instr id with
  | error e => simp only [canNarrow, hinstr]; rfl
  | ok i =>
    have hop : i.op ≠ .icmp := h i (Func.instr_eq_ok.mp hinstr)
    simp only [canNarrow, hinstr]
    exact (if_neg hop).trans (if_neg hop).symm

theorem run_canNarrow_succ (h : (canNarrow k w depth v site).run m = .ok q) :
    (canNarrow k w (depth + 1) v site).run m = .ok q := by
  induction depth generalizing v site m q with
  | zero => cases h
  | succ depth ih =>
    cases v with
    | instr id =>
      by_cases hcmp : ∃ i, k.func.instr? id = some i ∧ i.op = .icmp
      · obtain ⟨i, hi, hop⟩ := hcmp
        rw [canNarrow_compare hi hop] at h ⊢
        exact run_allM_mono (fun _ _ _ _ => ih) h
      · rw [canNarrow_other fun i hi hop => hcmp ⟨i, hi, hop⟩, h]
    | _ => exact h

theorem halts_canNarrow_other (h : ∀ i, k.func.instr? id = some i → i.op ≠ .icmp) :
    Halts (canNarrow k w (depth + 1) (.instr id) site) := by
  rw [canNarrow]
  refine halts_lift_bind (Func.halts_instr id) fun i hi => ?_
  rw [if_neg (h i (Func.instr_eq_ok.mp hi))]
  refine halts_ite (halts_pure false) ?_
  exact (halts_rangeAt _ _).bind fun _ => halts_ite halts_isLocal (halts_pure false)

theorem run_canNarrow_mono (hle : depth ≤ depth') (h : (canNarrow k w depth v site).run m = .ok q) :
    (canNarrow k w depth' v site).run m = .ok q := by
  induction hle with
  | refl => exact h
  | step _ ih => exact run_canNarrow_succ ih

theorem stable_operandsFit (unsigned : Bool) : Stable k.func (operandsFit k w id i unsigned) :=
  .allM fun v _ => (stable_rangeAt v _).bind fun _ => .pure _

theorem stable_isLocal : Stable k.func (isLocal k w id i) := by
  unfold isLocal
  split
  case h_9 =>
    refine .lift_bind fun v _ => ?_
    split <;> exact .pure _
  all_goals first | exact .pure _ | exact stable_operandsFit _

theorem stable_canNarrow (depth : Nat) (v : Value) (site : Int) :
    Stable k.func (canNarrow k w depth v site) := by
  induction depth generalizing v site with
  | zero => exact .throw .endless
  | succ depth ih =>
    cases v with
    | instr id =>
      rw [canNarrow]
      refine .lift_bind fun i _ => .ite (.allM fun v _ => ih v id) (.ite (.pure false) ?_)
      exact (stable_rangeAt _ _).bind fun _ => .ite stable_isLocal (.pure false)
    | _ => exact .pure false

/-! ### Questions that lead to others -/

def Asks (k : Context) (w : Int) (s t : Memo × Int) : Prop :=
  ∃ i before after depth, k.func.instr? s.2 = some i ∧ i.op = .icmp ∧
    i.operands = before ++ .instr t.2 :: after ∧
    (before.allM fun v => canNarrow k w depth v s.2).run s.1 = .ok (true, t.1)

/-- The question for a value leads to one that leads to itself. -/
def Circular (k : Context) (w : Int) (m : Memo) (v : Value) : Prop :=
  ∃ id s, v = .instr id ∧ ReflTransGen (Asks k w) (m, id) s ∧ TransGen (Asks k w) s s

def Ends (k : Context) (w : Int) (depth : Nat) (s : Memo × Int) : Prop :=
  ∃ site q, (canNarrow k w depth (.instr s.2) site).run s.1 = .ok q

variable {s t : Memo × Int}

namespace Asks

theorem compares (h : Asks k w s t) : k.func.Compares s.2 t.2 := by
  obtain ⟨i, before, after, -, hi, hop, hops, -⟩ := h
  exact ⟨i, hi, hop, by simp [hops]⟩

theorem later (h : Asks k w s t) (hs : s.1.Idle k.func) : s.1.Later t.1 := by
  obtain ⟨i, before, after, depth, -, -, -, hrun⟩ := h
  exact (Stable.allM (fun v _ => stable_canNarrow depth v s.2) _ _ _ hs hrun).1

theorem again (h : Asks k w s t) (hs : s.1.Idle k.func) (hm : t.1.Later m) :
    Asks k w (m, s.2) (m, t.2) := by
  obtain ⟨i, before, after, depth, hi, hop, hops, hrun⟩ := h
  have hstable := Stable.allM (fun v _ => stable_canNarrow depth v s.2) _ _ _ hs hrun
  exact ⟨i, before, after, depth, hi, hop, hops, hstable.2 m hm⟩

/-- What a question leads to needs an answer at a smaller depth. -/
theorem ends (h : Asks k w s t) (he : Ends k w depth s) : ∃ depth' < depth, Ends k w depth' t := by
  obtain ⟨i, before, after, depth', hi, hop, hops, hrun⟩ := h
  obtain ⟨site, q, hq⟩ := he
  cases depth with
  | zero => cases hq
  | succ depth =>
    rw [canNarrow_compare hi hop, hops] at hq
    -- The operands before are looked at in both cases, and with the same result.
    obtain ⟨p, hp⟩ := exists_run_of_append hq
    have hmore := run_allM_mono (fun v _ _ _ => run_canNarrow_mono (Nat.le_max_left depth depth')) hp
    have hmore' := run_allM_mono (fun v _ _ _ => run_canNarrow_mono (Nat.le_max_right depth depth'))
      hrun
    cases hmore.symm.trans hmore'
    obtain ⟨r, hr⟩ := exists_run_of_before hq hp
    exact ⟨depth, Nat.lt_succ_self depth, s.2, r, hr⟩

end Asks

theorem ends_of_transGen (h : TransGen (Asks k w) s t) (he : Ends k w depth s) :
    ∃ depth' < depth, Ends k w depth' t := by
  induction h with
  | single h => exact h.ends he
  | tail _ h ih =>
    obtain ⟨depth', hlt, he⟩ := ih
    obtain ⟨depth'', hlt', he⟩ := h.ends he
    exact ⟨depth'', hlt'.trans hlt, he⟩

theorem not_ends_of_transGen (h : TransGen (Asks k w) s s) : ¬ Ends k w depth s := by
  induction depth using Nat.strongRecOn with
  | ind depth ih =>
    intro he
    obtain ⟨depth', hlt, he⟩ := ends_of_transGen h he
    exact ih depth' hlt he

theorem Circular.not_ends (h : Circular k w m v) : (canNarrow k w depth v site).run m ≠ .ok q := by
  intro hq
  obtain ⟨id, s, rfl, hs, hcircle⟩ := h
  have hends : Ends k w depth (m, id) := ⟨site, q, hq⟩
  rcases reflTransGen_iff_eq_or_transGen.mp hs with rfl | hs
  · exact not_ends_of_transGen hcircle hends
  · obtain ⟨depth', -, hends⟩ := ends_of_transGen hs hends
    exact not_ends_of_transGen hcircle hends

theorem transGen_again (h : TransGen (Asks k w) s t) (hs : s.1.Idle k.func) (hm : t.1.Later m) :
    TransGen (Asks k w) (m, s.2) (m, t.2) := by
  have hlater {u : Memo × Int} (h : TransGen (Asks k w) s u) : s.1.Later u.1 := by
    induction h with
    | single h => exact h.later hs
    | tail _ h ih => exact IsTrans.trans _ _ _ ih (h.later (hs.later ih))
  induction h with
  | single h => exact .single (h.again hs hm)
  | tail hst h ih =>
    have hidle := hs.later (hlater hst)
    exact (ih (IsTrans.trans _ _ _ (h.later hidle) hm)).tail (h.again hidle hm)

theorem compare_of_endless
    (h : (canNarrow k w (depth + 1) (.instr id) site).run m = .error .endless) :
    ∃ i, k.func.instr? id = some i ∧ i.op = .icmp := by
  by_contra hother
  exact halts_canNarrow_other (fun i hi hop => hother ⟨i, hi, hop⟩) m h

/-- A question without an answer, with depth for all instructions, leads to one that leads to itself:
were the comparisons being asked for all different, the depth would not run out. -/
theorem exists_circle_of_endless {stack : List Int} (hroom : Room k depth stack)
    (hs : s.1.Idle k.func) (hstack : ∀ c ∈ stack, ∃ m, m.Idle k.func ∧ TransGen (Asks k w) (m, c) s)
    (h : (canNarrow k w (depth + 1) (.instr s.2) site).run s.1 = .error .endless) :
    ∃ t, ReflTransGen (Asks k w) s t ∧ TransGen (Asks k w) t t := by
  induction depth generalizing s site stack with
  | zero =>
    obtain ⟨i, hi, -⟩ := compare_of_endless h
    obtain ⟨m, hm, hback⟩ := hstack s.2 (hroom.mem_of_zero hi)
    have hcircle := transGen_again (m := s.1) hback hm (Std.Refl.refl _)
    exact ⟨s, .refl, hcircle⟩
  | succ depth ih =>
    obtain ⟨i, hi, hop⟩ := compare_of_endless h
    by_cases hmem : s.2 ∈ stack
    · obtain ⟨m, hm, hback⟩ := hstack s.2 hmem
      have hcircle := transGen_again (m := s.1) hback hm (Std.Refl.refl _)
      exact ⟨s, .refl, hcircle⟩
    rw [canNarrow_compare hi hop] at h
    obtain ⟨before, v, after, m', hops, hrun, h⟩ := exists_run_eq_error h
    cases v with
    | instr d =>
      have hask : Asks k w s (m', d) := ⟨i, before, after, _, hi, hop, hops, hrun⟩
      have hstack' : ∀ c ∈ s.2 :: stack, ∃ m, m.Idle k.func ∧ TransGen (Asks k w) (m, c) (m', d) := by
        refine List.forall_mem_cons.mpr ⟨⟨s.1, hs, .single hask⟩, fun c hc => ?_⟩
        obtain ⟨m, hm, hback⟩ := hstack c hc
        exact ⟨m, hm, hback.tail hask⟩
      obtain ⟨t, ht, hcircle⟩ := ih (hroom.push hi hmem) (hs.later (hask.later hs)) hstack' h
      exact ⟨t, .head hask ht, hcircle⟩
    | _ => cases h

theorem circular_of_endless (hm : m.Idle k.func)
    (h : (canNarrow k w (k.func.instrs.size + 1) v site).run m = .error .endless) :
    Circular k w m v := by
  cases v with
  | instr id =>
    obtain ⟨t, ht, hcircle⟩ := exists_circle_of_endless (s := (m, id)) .start hm (by simp) h
    exact ⟨id, t, rfl, ht, hcircle⟩
  | _ => cases h

section Sturdy

variable {scope : Option Symbols} (h : k.Sturdy scope)

include h

theorem run_canNarrow_iff (hv : k.func.Present v) (hsite : ∃ b, k.func.Stands b site)
    (hm : m.Idle k.func) :
    ((∃ q, ∀ depth > k.func.instrs.size, (canNarrow k w depth v site).run m = .ok q) ↔
        ¬ Circular k w m v) ∧
      ((∀ depth, (canNarrow k w depth v site).run m = .error .endless) ↔ Circular k w m v) := by
  by_cases hcircle : Circular k w m v
  · have hendless : ∀ depth, (canNarrow k w depth v site).run m = .error .endless := by
      intro depth
      cases hrun : (canNarrow k w depth v site).run m with
      | ok q => exact absurd hrun hcircle.not_ends
      | error e => rw [safe_canNarrow h depth hv.live hsite m e hrun]
    refine ⟨⟨fun ⟨q, hq⟩ => ?_, fun hno => absurd hcircle hno⟩, fun _ => hcircle, fun _ => hendless⟩
    exact absurd (hq _ (Nat.lt_succ_self _)) hcircle.not_ends
  · obtain ⟨q, hq⟩ : ∃ q, (canNarrow k w (k.func.instrs.size + 1) v site).run m = .ok q := by
      cases hrun : (canNarrow k w (k.func.instrs.size + 1) v site).run m with
      | ok q => exact ⟨q, rfl⟩
      | error e =>
        rw [safe_canNarrow h _ hv.live hsite m e hrun] at hrun
        exact absurd (circular_of_endless hm hrun) hcircle
    refine ⟨⟨fun _ => hcircle, fun _ => ⟨q, fun depth hdepth => run_canNarrow_mono hdepth hq⟩⟩,
      fun hall => ?_, fun hyes => absurd hyes hcircle⟩
    cases hq.symm.trans (hall _)

end Sturdy

theorem Circular.compares (h : Circular k w m v) :
    ∃ id c, v = .instr id ∧ ReflTransGen k.func.Compares id c ∧ TransGen k.func.Compares c c := by
  obtain ⟨id, s, rfl, hs, hback⟩ := h
  exact ⟨id, s.2, rfl, hs.lift Prod.snd fun _ _ => Asks.compares,
    hback.lift Prod.snd fun _ _ => Asks.compares⟩

theorem run_canNarrow_self {rest : List Value} (hi : k.func.instr? id = some i) (hop : i.op = .icmp)
    (hops : i.operands = .instr id :: rest) (w : Int) (depth : Nat) (site : Int) (m : Memo) :
    (canNarrow k w depth (.instr id) site).run m = .error .endless := by
  induction depth generalizing site m with
  | zero => rfl
  | succ depth ih =>
    rw [canNarrow_compare hi hop, hops, run_allM_cons, ih]
    rfl

end Narrow

open Narrow ValueRange

/-- In a function that reading accepts, with whatever is remembered, the question whether a value can
be had at a width has an answer, the same at every depth beyond the number of instructions, if and
only if it does not lead to a comparison that leads to itself. If it does, it has no answer at any
depth. The comparisons on such a circle use each other. -/
theorem convertible_ends_iff {file : String} {src : Bytes} {p : Parsed} {f : Func}
    (h : parse file src = .ok p) (he : p.errors = []) (hf : f ∈ p.module.funcs) (o : Option DomInfo) :
    ∃ k, Context.of f o = .ok k ∧ ∀ (w : Int) (v : Value) (site : Int) (m : Memo),
      f.Refers p.module.symbols v → (∃ i, f.instr? site = some i) → m.Idle f →
      ((∃ q, ∀ depth > f.instrs.size, (canNarrow k w depth v site).run m = .ok q) ↔
          ¬ Circular k w m v) ∧
        ((∀ depth, (canNarrow k w depth v site).run m = .error .endless) ↔ Circular k w m v) ∧
        (Circular k w m v → ∃ id c, v = .instr id ∧ ReflTransGen f.Compares id c ∧
          TransGen f.Compares c c) := by
  have hsolid := ((read_of_parse h he).funcs f hf).solid
  obtain ⟨k, hk, rfl, hsturdy⟩ := Context.Sturdy.exists_of o hsolid.sturdy
  refine ⟨k, hk, fun w v site m hv hsite hm => ?_⟩
  obtain ⟨i, hi⟩ := hsite
  obtain ⟨hends, hendless⟩ :=
    run_canNarrow_iff (w := w) hsturdy (hsolid.present hv) (hsolid.stands site i hi) hm
  exact ⟨hends, hendless, Circular.compares⟩

def comparedTwice : Bytes := Bytes.ofString
  ("func @f(%p: i32) -> i1 \x7b\na:\n  %x = and i32 %p, 15\n  %b = icmp slt i32 %x, %x\n" ++
    "  %c = icmp eq i1 %b, %b\n  ret i1 %c\n\x7d\n")

theorem comparedTwice_ends : ∃ p f k q, parse "f.mir" comparedTwice = .ok p ∧ p.errors = [] ∧
    f ∈ p.module.funcs ∧ (∃ d, Context.of f (some d) = .ok k) ∧
    ¬ Circular k 16 (.empty f) (.instr 2) ∧ q.1 = true ∧
    ∀ depth > f.instrs.size, (canNarrow k 16 depth (.instr 2) 2).run (.empty f) = .ok q := by
  have hrun : ((parse "f.mir" comparedTwice).toOption.bind fun p => p.module.funcs.head?.bind fun f =>
      (DomInfo.compute f >>= fun d => Context.of f (some d)).toOption.bind fun k =>
        ((canNarrow k 16 8 (.instr 2) 2).run (.empty f)).toOption.map fun q =>
          (p.errors.isEmpty, f.instrs.size, (f.instr? 2).isSome, q.1)) = some (true, 4, true, true) := by
    decide +kernel
  simp only [Option.bind_eq_some_iff, Option.map_eq_some_iff, Checked.toOption_eq_some,
    Checked.bind_eq_ok, Prod.mk.injEq] at hrun
  obtain ⟨p, hp, f, hf, k, ⟨d, -, hk⟩, q, hq, he, hsize, hthere, htrue⟩ := hrun
  have he : p.errors = [] := List.isEmpty_iff.mp he
  have hf : f ∈ p.module.funcs := List.mem_of_mem_head? hf
  have hthere : ∃ i, f.instr? 2 = some i := Option.isSome_iff_exists.mp hthere
  obtain ⟨k', hk', hall⟩ := convertible_ends_iff hp he hf (some d)
  cases hk.symm.trans hk'
  obtain ⟨hends, hendless, -⟩ := hall 16 (.instr 2) 2 (.empty f) hthere hthere (Memo.idle_empty f)
  have hfree : ¬ Circular k 16 (.empty f) (.instr 2) := by
    intro hcircle
    cases hq.symm.trans (hendless.mpr hcircle 8)
  obtain ⟨r, hr⟩ := hends.mpr hfree
  cases hq.symm.trans (hr 8 (by omega))
  exact ⟨p, f, k, q, hp, he, hf, ⟨d, hk⟩, hfree, htrue, hr⟩

def comparedToItself : Bytes := Bytes.ofString
  "func @f() -> i1 \x7b\na:\n  %a = icmp eq i1 %a, %a\n  ret i1 %a\n\x7d\n"

/-- A comparison with itself is accepted, and whatever the width and the memory are, there is no
depth at which it is known whether it can be had. -/
theorem comparedToItself_endless : ∃ p f k, parse "f.mir" comparedToItself = .ok p ∧ p.errors = [] ∧
    f ∈ p.module.funcs ∧ (∃ d, DomInfo.compute f = .ok d ∧ Context.of f (some d) = .ok k) ∧
    f.Refers p.module.symbols (.instr 0) ∧
    ∀ w depth m, (canNarrow k w depth (.instr 0) 0).run m = .error .endless := by
  have hrun : ((parse "f.mir" comparedToItself).toOption.bind fun p =>
      p.module.funcs.head?.bind fun f => (DomInfo.compute f).toOption.bind fun d =>
        (Context.of f (some d)).toOption.bind fun k => (k.func.instr? 0).map fun i =>
          (p.errors.isEmpty, (f.instr? 0).isSome, i.op, i.operands)) =
      some (true, true, .icmp, [.instr 0, .instr 0]) := by decide +kernel
  simp only [Option.bind_eq_some_iff, Option.map_eq_some_iff, Checked.toOption_eq_some,
    Prod.mk.injEq] at hrun
  obtain ⟨p, hp, f, hf, d, hd, k, hk, i, hi, he, hthere, hop, hops⟩ := hrun
  exact ⟨p, f, k, hp, List.isEmpty_iff.mp he, List.mem_of_mem_head? hf, ⟨d, hd, hk⟩,
    Option.isSome_iff_exists.mp hthere, fun w depth m => run_canNarrow_self hi hop hops w depth 0 m⟩

end RegPressure
