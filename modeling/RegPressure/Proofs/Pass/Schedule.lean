import RegPressure.Pass.Pipeline
import Mathlib.Algebra.Order.Ring.Nat
import Mathlib.Data.List.Nodup
import Mathlib.Data.List.Perm.Basic
import Mathlib.Logic.Function.Basic
import Mathlib.Tactic.Common

namespace RegPressure

/-- Numbered jobs on something that they share. Between two steps of a job others may do theirs. -/
structure Jobs (ω σ ε : Type) where
  start : Nat → σ
  /-- What a job does next: it goes on, or it ends, with an error or without one. -/
  next : σ → ω → (σ ⊕ Option ε) × ω

inductive Worker (σ ε : Type)
  /-- Waits for a number. -/
  | idle
  | handed (i : Nat)
  | busy (i : Nat) (job : σ)
  /-- The job failed, and this is not counted yet. -/
  | failing (i : Nat) (e : ε)
  /-- The failure is counted, and the error is not kept yet. -/
  | counted (i : Nat) (e : ε)
  | gone

/-- The pool while it works: how many numbers were handed over, whether more may come, the workers, the
counters, and a slot for the error of each job. -/
structure Crew (ω σ ε : Type) where
  shared : ω
  fed : Nat := 0
  feeding : Bool := true
  cancelled : Bool := false
  workers : List (Worker σ ε)
  executed : Nat
  failed : Nat
  errors : Nat → Option ε := fun _ => none

inductive JobEvent (ε : Type)
  | began (i : Nat)
  | ended (i : Nat) (result : Option ε)

variable {ω σ ε : Type}

namespace Worker

def handedOf : Worker σ ε → List Nat
  | handed i => [i]
  | _ => []

def busyOf : Worker σ ε → List Nat
  | busy i _ => [i]
  | _ => []

def uncountedOf : Worker σ ε → List (Nat × ε)
  | failing i e => [(i, e)]
  | _ => []

def unkeptOf : Worker σ ε → List (Nat × ε)
  | failing i e | counted i e => [(i, e)]
  | _ => []

end Worker

namespace JobEvent

def began? : JobEvent ε → Option Nat
  | began i => some i
  | ended _ _ => none

def ended? : JobEvent ε → Option (Nat × Option ε)
  | began _ => none
  | ended i r => some (i, r)

end JobEvent

namespace Crew

/-- One step of the feeder, of a worker or of whoever cancels, and what can be told from it about a
job. -/
inductive Step (jobs : Jobs ω σ ε) (n : Nat) : Crew ω σ ε → Option (JobEvent ε) → Crew ω σ ε → Prop
  | hand {s l r} (hw : s.workers = l ++ .idle :: r) (hopen : s.feeding = true) (hlt : s.fed < n) :
    Step jobs n s none { s with fed := s.fed + 1, workers := l ++ .handed s.fed :: r }
  | begin {s l r i} (hw : s.workers = l ++ .handed i :: r) :
    Step jobs n s (some (.began i))
      { s with executed := s.executed + 1, workers := l ++ .busy i (jobs.start i) :: r }
  | work {s l r i job job' x} (hw : s.workers = l ++ .busy i job :: r)
    (hnext : jobs.next job s.shared = (.inl job', x)) :
    Step jobs n s none { s with shared := x, workers := l ++ .busy i job' :: r }
  | succeed {s l r i job x} (hw : s.workers = l ++ .busy i job :: r)
    (hnext : jobs.next job s.shared = (.inr none, x)) :
    Step jobs n s (some (.ended i none)) { s with shared := x, workers := l ++ .idle :: r }
  | fail {s l r i job e x} (hw : s.workers = l ++ .busy i job :: r)
    (hnext : jobs.next job s.shared = (.inr (some e), x)) :
    Step jobs n s (some (.ended i (some e))) { s with shared := x, workers := l ++ .failing i e :: r }
  | count {s l r i e} (hw : s.workers = l ++ .failing i e :: r) :
    Step jobs n s none { s with failed := s.failed + 1, workers := l ++ .counted i e :: r }
  | keep {s l r i e} (hw : s.workers = l ++ .counted i e :: r) :
    Step jobs n s none
      { s with errors := Function.update s.errors i (some e), workers := l ++ .idle :: r }
  /-- No number is left, or the feeder notices that all was cancelled. -/
  | close {s} (hopen : s.feeding = true) (hstop : s.fed = n ∨ s.cancelled = true) :
    Step jobs n s none { s with feeding := false }
  | leave {s l r} (hw : s.workers = l ++ .idle :: r) (hclosed : s.feeding = false) :
    Step jobs n s none { s with workers := l ++ .gone :: r }
  | cancel {s} (hc : s.cancelled = false) : Step jobs n s none { s with cancelled := true }

/-- A pool of `workers` workers as it sets out to run `n` jobs; no more workers start than there are
jobs. -/
def start (pool : Pool) (workers n : Nat) (shared : ω) : Crew ω σ ε where
  shared
  workers := List.replicate (min workers n) .idle
  executed := pool.executed
  failed := pool.failed

/-- Some steps one after the other, and what they tell. -/
inductive Runs (jobs : Jobs ω σ ε) (n : Nat) (s : Crew ω σ ε) : List (JobEvent ε) → Crew ω σ ε → Prop
  | refl : Runs jobs n s [] s
  | step {t s' event s''} (h : Runs jobs n s t s') (hs : Step jobs n s' event s'') :
    Runs jobs n s (t ++ event.toList) s''

def Finished (s : Crew ω σ ε) : Prop := s.feeding = false ∧ ∀ w ∈ s.workers, w = .gone

def answer (stop : ε) (n : Nat) (s : Crew ω σ ε) : List ε :=
  if n = 0 then []
  else (if s.cancelled then [stop] else []) ++ (List.range n).filterMap s.errors

def handed (s : Crew ω σ ε) : List Nat := s.workers.flatMap Worker.handedOf

def busy (s : Crew ω σ ε) : List Nat := s.workers.flatMap Worker.busyOf

def uncounted (s : Crew ω σ ε) : List (Nat × ε) := s.workers.flatMap Worker.uncountedOf

def unkept (s : Crew ω σ ε) : List (Nat × ε) := s.workers.flatMap Worker.unkeptOf

end Crew

def begunIn (t : List (JobEvent ε)) : List Nat := t.filterMap JobEvent.began?

def endedIn (t : List (JobEvent ε)) : List (Nat × Option ε) := t.filterMap JobEvent.ended?

@[simp] theorem begunIn_append (t u : List (JobEvent ε)) : begunIn (t ++ u) = begunIn t ++ begunIn u :=
  List.filterMap_append

@[simp] theorem begunIn_nil : begunIn ([] : List (JobEvent ε)) = [] := rfl

@[simp] theorem begunIn_began (i : Nat) : begunIn [(.began i : JobEvent ε)] = [i] := rfl

@[simp] theorem begunIn_ended (i : Nat) (r : Option ε) : begunIn [.ended i r] = [] := rfl

@[simp] theorem endedIn_nil : endedIn ([] : List (JobEvent ε)) = [] := rfl

@[simp] theorem endedIn_began (i : Nat) : endedIn [(.began i : JobEvent ε)] = [] := rfl

@[simp] theorem endedIn_ended (i : Nat) (r : Option ε) : endedIn [.ended i r] = [(i, r)] := rfl

@[simp] theorem endedIn_append (t u : List (JobEvent ε)) : endedIn (t ++ u) = endedIn t ++ endedIn u :=
  List.filterMap_append

namespace Crew

structure Ledger (pool : Pool) (workers n : Nat) (t : List (JobEvent ε)) (s : Crew ω σ ε) : Prop where
  begun : ∀ i, (begunIn t).count i + s.handed.count i = (List.range s.fed).count i
  ended : ∀ i, ((endedIn t).map Prod.fst).count i + s.busy.count i = (begunIn t).count i
  executed : s.executed = pool.executed + (begunIn t).length
  failed : s.failed + s.uncounted.length = pool.failed + (endedIn t).countP (·.2.isSome)
  errors : ∀ i e, (i, some e) ∈ endedIn t ↔ s.errors i = some e ∨ (i, e) ∈ s.unkept
  fed : s.fed ≤ n
  closed : s.feeding = false → s.fed = n ∨ s.cancelled = true
  gone : .gone ∈ s.workers → s.feeding = false
  length : s.workers.length = min workers n

variable {jobs : Jobs ω σ ε} {pool : Pool} {workers n : Nat} {t : List (JobEvent ε)} {s s' : Crew ω σ ε}
  {event : Option (JobEvent ε)}

theorem ledger_start (pool : Pool) (workers n : Nat) (shared : ω) :
    (start pool workers n shared : Crew ω σ ε).Ledger pool workers n [] := by
  have hnone : ∀ {β : Type} (k : Worker σ ε → List β), k .idle = [] →
      (List.replicate (min workers n) Worker.idle).flatMap k = [] := by
    intro β k hk
    rw [List.flatMap_eq_nil_iff]
    intro w hw
    rw [List.eq_of_mem_replicate hw, hk]
  have hhanded := hnone Worker.handedOf rfl
  have hbusy := hnone Worker.busyOf rfl
  have huncounted := hnone Worker.uncountedOf rfl
  have hunkept := hnone Worker.unkeptOf rfl
  constructor <;>
    simp [start, handed, busy, uncounted, unkept, hhanded, hbusy, huncounted, hunkept]

namespace Ledger

variable (h : s.Ledger pool workers n t) (hs : Step jobs n s event s')

include h hs

theorem begun_step (i : Nat) :
    (begunIn (t ++ event.toList)).count i + s'.handed.count i = (List.range s'.fed).count i := by
  have hi := h.begun i
  cases hs <;> simp_all [handed, Worker.handedOf, List.range_succ, List.count_cons] <;> omega

theorem ended_step (i : Nat) : ((endedIn (t ++ event.toList)).map Prod.fst).count i +
    s'.busy.count i = (begunIn (t ++ event.toList)).count i := by
  have hi := h.ended i
  cases hs <;> simp_all [busy, Worker.busyOf, List.count_cons] <;> omega

theorem executed_step : s'.executed = pool.executed + (begunIn (t ++ event.toList)).length := by
  have hi := h.executed
  cases hs <;> simp_all
  omega

theorem failed_step : s'.failed + s'.uncounted.length =
    pool.failed + (endedIn (t ++ event.toList)).countP (·.2.isSome) := by
  have hi := h.failed
  cases hs <;> simp_all [uncounted, Worker.uncountedOf] <;> omega

omit hs in
theorem count_le_one (i : Nat) : (begunIn t).count i + s.handed.count i ≤ 1 := by
  rw [h.begun i]
  exact List.nodup_iff_count_le_one.mp List.nodup_range i

omit hs in
theorem nodup : ((endedIn t).map Prod.fst).Nodup := by
  rw [List.nodup_iff_count_le_one]
  intro i
  have hcount := h.count_le_one i
  have hended := h.ended i
  omega

omit hs in
theorem lt_of_count_pos {i : Nat} (hi : 0 < (begunIn t).count i + s.handed.count i) : i < n := by
  rw [h.begun i, List.count_pos_iff, List.mem_range] at hi
  exact Nat.lt_of_lt_of_le hi h.fed

omit hs in
theorem of_handed {l r : List (Worker σ ε)} {i : Nat} (hw : s.workers = l ++ .handed i :: r) :
    i < n ∧ i ∉ begunIn t := by
  have hcount := h.count_le_one i
  have hhanded : 0 < s.handed.count i := by
    rw [List.count_pos_iff, handed, hw]
    simp [Worker.handedOf]
  refine ⟨h.lt_of_count_pos (Nat.add_pos_right _ hhanded), fun hmem => ?_⟩
  have := List.count_pos_iff.mpr hmem
  omega

omit hs in
theorem of_busy {l r : List (Worker σ ε)} {i : Nat} {job : σ} (hw : s.workers = l ++ .busy i job :: r) :
    i < n ∧ i ∈ begunIn t ∧ (∀ result, (i, result) ∉ endedIn t) ∧
      ∀ j job', .busy j job' ∈ l ++ r → j ≠ i := by
  have hcount := h.count_le_one i
  have hended := h.ended i
  have hbusy : s.busy.count i = ((l ++ r).flatMap Worker.busyOf).count i + 1 := by
    rw [busy, hw, List.flatMap_append, List.flatMap_cons, List.flatMap_append, List.count_append,
      List.count_append, List.count_append, Worker.busyOf, List.count_singleton_self]
    omega
  have hbegun : 0 < (begunIn t).count i := by omega
  refine ⟨h.lt_of_count_pos (Nat.add_pos_left hbegun _), List.count_pos_iff.mp hbegun,
    fun result hmem => ?_, ?_⟩
  · have : 0 < ((endedIn t).map Prod.fst).count i :=
      List.count_pos_iff.mpr (List.mem_map.mpr ⟨_, hmem, rfl⟩)
    omega
  · rintro j job' hmem rfl
    have : 0 < ((l ++ r).flatMap Worker.busyOf).count j :=
      List.count_pos_iff.mpr (List.mem_flatMap.mpr ⟨_, hmem, by simp [Worker.busyOf]⟩)
    omega

omit hs in
theorem ended_unique {i : Nat} {x y : Option ε} (hx : (i, x) ∈ endedIn t) (hy : (i, y) ∈ endedIn t) :
    x = y :=
  (Prod.mk.inj (List.inj_on_of_nodup_map h.nodup hx hy rfl)).2

theorem errors_step (i : Nat) (e : ε) : (i, some e) ∈ endedIn (t ++ event.toList) ↔
    s'.errors i = some e ∨ (i, e) ∈ s'.unkept := by
  have hi := h.errors i e
  cases hs with
  | @keep l r j x hw =>
    have hkept := h.errors j x
    simp only [unkept, hw, List.flatMap_append, List.flatMap_cons, Worker.unkeptOf, List.mem_append,
      List.mem_singleton, Option.toList_none, List.append_nil, List.nil_append] at hi hkept ⊢
    by_cases hij : i = j
    · subst hij
      have hx : (i, some x) ∈ endedIn t := hkept.mpr (.inr (.inr (.inl trivial)))
      rw [Function.update_self]
      constructor
      · intro he
        exact .inl (h.ended_unique hx he)
      · rintro (he | he | he)
        · rwa [← he]
        · exact hi.mpr (.inr (.inl he))
        · exact hi.mpr (.inr (.inr (.inr he)))
    · rw [Function.update_of_ne hij, hi]
      simp [hij]
  | _ => simp_all [unkept, Worker.unkeptOf, -List.mem_flatMap] <;> tauto

theorem step : s'.Ledger pool workers n (t ++ event.toList) := by
  refine ⟨h.begun_step hs, h.ended_step hs, h.executed_step hs, h.failed_step hs, h.errors_step hs,
    ?_, ?_, ?_, ?_⟩
  · have hfed := h.fed
    cases hs <;> first | exact hfed | exact ‹s.fed < n›
  · have hclosed := h.closed
    cases hs <;> simp_all
  · have hgone := h.gone
    cases hs <;> simp_all
  · have hlength := h.length
    cases hs <;> simp_all

end Ledger

theorem ledger {shared : ω} (hr : Runs jobs n (start pool workers n shared) t s) :
    s.Ledger pool workers n t := by
  induction hr with
  | refl => exact ledger_start pool workers n shared
  | step _ hs ih => exact ih.step hs

theorem Finished.flatMap_eq_nil {β : Type} (hs : s.Finished) (k : Worker σ ε → List β)
    (hk : k .gone = []) : s.workers.flatMap k = [] := by
  rw [List.flatMap_eq_nil_iff]
  intro w hw
  rw [hs.2 w hw, hk]

/-- The jobs that were begun have all ended, and they are the first ones. -/
theorem Ledger.complete (h : s.Ledger pool workers n t) (hs : s.Finished) :
    (begunIn t).Perm (List.range s.fed) ∧
      (endedIn t).Perm ((List.range s.fed).map fun i => (i, s.errors i)) := by
  have hhanded : s.handed = [] := hs.flatMap_eq_nil _ rfl
  have hbusy : s.busy = [] := hs.flatMap_eq_nil _ rfl
  have hunkept : s.unkept = [] := hs.flatMap_eq_nil _ rfl
  have hbegun : (begunIn t).Perm (List.range s.fed) := by
    rw [List.perm_iff_count]
    intro i
    rw [← h.begun i, hhanded, List.count_nil, Nat.add_zero]
  refine ⟨hbegun, ?_⟩
  have hended : ((endedIn t).map Prod.fst).Perm (List.range s.fed) := by
    refine .trans ?_ hbegun
    rw [List.perm_iff_count]
    intro i
    rw [← h.ended i, hbusy, List.count_nil, Nat.add_zero]
  -- What was kept for a job is how it ended.
  have hresult : ∀ p ∈ endedIn t, p = (p.1, s.errors p.1) := by
    rintro ⟨i, result⟩ hp
    suffices he : result = s.errors i by rw [he]
    cases result with
    | none =>
      cases herr : s.errors i with
      | none => rfl
      | some e => exact h.ended_unique hp ((h.errors i e).mpr (.inl herr))
    | some e =>
      rcases (h.errors i e).mp hp with he | he
      · exact he.symm
      · rw [hunkept] at he
        cases he
  have hmap : endedIn t = ((endedIn t).map Prod.fst).map fun i => (i, s.errors i) := by
    rw [List.map_map]
    exact (List.map_id' _).symm.trans (List.map_congr_left hresult)
  rw [hmap]
  exact hended.map _

theorem range_filterMap_of_none {k : Nat} (hk : k ≤ n) {result : Nat → Option ε}
    (hnone : ∀ i, k ≤ i → result i = none) :
    (List.range n).filterMap result = (List.range k).filterMap result := by
  obtain ⟨d, rfl⟩ := Nat.exists_eq_add_of_le hk
  rw [List.range_add, List.filterMap_append, List.filterMap_map, List.append_right_eq_self,
    List.filterMap_eq_nil_iff]
  intro i _
  exact hnone _ (Nat.le_add_right k i)

/-- How a run of the pool ends: it began the first `k` jobs, each once, and each came to an end; the
answer holds their errors in the order of the numbers, and the counters have gone up by as much. Only a
run that was cancelled leaves jobs out. -/
structure Settled (pool : Pool) (n : Nat) (stop : ε) (t : List (JobEvent ε)) (s : Crew ω σ ε) (k : Nat)
    (result : Nat → Option ε) : Prop where
  le : k ≤ n
  all : s.cancelled = false → k = n
  begun : (begunIn t).Perm (List.range k)
  ended : (endedIn t).Perm ((List.range k).map fun i => (i, result i))
  executed : s.executed = pool.executed + k
  failed : s.failed = pool.failed + ((List.range k).filterMap result).length
  answer : s.answer stop n =
    (if n ≠ 0 ∧ s.cancelled = true then [stop] else []) ++ (List.range k).filterMap result

theorem Ledger.settled (h : s.Ledger pool workers n t) (hs : s.Finished) (stop : ε) :
    s.Settled pool n stop t s.fed s.errors := by
  obtain ⟨hbegun, hended⟩ := h.complete hs
  have huncounted : s.uncounted = [] := hs.flatMap_eq_nil _ rfl
  have hunkept : s.unkept = [] := hs.flatMap_eq_nil _ rfl
  have hnone : ∀ i, s.fed ≤ i → s.errors i = none := by
    intro i hi
    cases herr : s.errors i with
    | none => rfl
    | some e =>
      obtain ⟨j, hj, he⟩ := List.mem_map.mp (hended.mem_iff.mp ((h.errors i e).mpr (.inl herr)))
      have := List.mem_range.mp hj
      have := (Prod.mk.inj he).1
      omega
  refine ⟨h.fed, fun hc => ?_, hbegun, hended, ?_, ?_, ?_⟩
  · refine (h.closed hs.1).resolve_right ?_
    rw [hc]
    decide
  · rw [h.executed, hbegun.length_eq, List.length_range]
  · have hfailed := h.failed
    rw [huncounted, List.length_nil, Nat.add_zero, hended.countP_eq, List.countP_map] at hfailed
    rw [hfailed, List.length_filterMap_eq_countP]
    rfl
  · unfold answer
    rw [range_filterMap_of_none h.fed hnone]
    by_cases hn : n = 0
    · have hfed : s.fed = 0 := by
        have := h.fed
        omega
      rw [if_pos hn, if_neg (fun hc => hc.1 hn), hfed]
      rfl
    · simp [hn]

/-- As long as the pool has a worker, something can always happen until the run has finished. -/
theorem Ledger.exists_step (h : s.Ledger pool workers n t) (hworkers : 0 < workers)
    (hs : ¬ s.Finished) (jobs : Jobs ω σ ε) :
    ∃ event s', Step jobs n s event s' ∧ s'.cancelled = s.cancelled := by
  by_cases hactive : ∃ w ∈ s.workers, w ≠ .idle ∧ w ≠ .gone
  · -- A worker that has a job can always go on.
    obtain ⟨w, hw, hidle, hgone⟩ := hactive
    obtain ⟨l, r, hlr⟩ := List.append_of_mem hw
    cases w with
    | idle => exact absurd rfl hidle
    | gone => exact absurd rfl hgone
    | handed i => exact ⟨_, _, .begin hlr, rfl⟩
    | failing i e => exact ⟨_, _, .count hlr, rfl⟩
    | counted i e => exact ⟨_, _, .keep hlr, rfl⟩
    | busy i job =>
      cases hnext : jobs.next job s.shared with
      | mk after x =>
        cases after with
        | inl job' => exact ⟨_, _, .work hlr hnext, rfl⟩
        | inr result =>
          cases result with
          | none => exact ⟨_, _, .succeed hlr hnext, rfl⟩
          | some e => exact ⟨_, _, .fail hlr hnext, rfl⟩
  · -- All that are left wait. They leave once the feed is closed, and before that one of them is
    -- there to take the next number.
    have hcalm : ∀ w ∈ s.workers, w ≠ .gone → w = .idle := by
      intro w hw hgone
      by_contra hidle
      exact hactive ⟨w, hw, hidle, hgone⟩
    cases hopen : s.feeding with
    | false =>
      obtain ⟨w, hw, hgone⟩ : ∃ w ∈ s.workers, w ≠ .gone := by
        by_contra hall
        push Not at hall
        exact hs ⟨hopen, hall⟩
      obtain ⟨l, r, hlr⟩ := List.append_of_mem hw
      rw [hcalm w hw hgone] at hlr
      exact ⟨_, _, .leave hlr hopen, rfl⟩
    | true =>
      by_cases hfed : s.fed = n
      · exact ⟨_, _, .close hopen (.inl hfed), rfl⟩
      · have hlt : s.fed < n := Nat.lt_of_le_of_ne h.fed hfed
        have hlength := h.length
        obtain ⟨w, hw⟩ := List.exists_mem_of_length_pos (l := s.workers) (by omega)
        obtain ⟨l, r, hlr⟩ := List.append_of_mem hw
        have hgone : w ≠ .gone := by
          rintro rfl
          rw [h.gone hw] at hopen
          cases hopen
        rw [hcalm w hw hgone] at hlr
        exact ⟨_, _, .hand hlr hopen hlt, rfl⟩

theorem exists_finished (hworkers : 0 < workers) {shared : ω}
    (hacc : Acc (fun s' s => ∃ event, Step jobs n s event s') s)
    (hr : Runs jobs n (start pool workers n shared) t s) :
    ∃ t' s', Runs jobs n (start pool workers n shared) t' s' ∧ s'.Finished ∧
      s'.cancelled = s.cancelled := by
  induction hacc generalizing t with
  | intro s _ ih =>
    by_cases hs : s.Finished
    · exact ⟨t, s, hr, hs, rfl⟩
    · obtain ⟨event, s', hstep, hsame⟩ := (ledger hr).exists_step hworkers hs jobs
      obtain ⟨t', s'', hr', hs', hc⟩ := ih s' ⟨event, hstep⟩ (.step hr hstep)
      exact ⟨t', s'', hr', hs', hc.trans hsame⟩

end Crew

/-! Runs come to an end if the jobs do. -/

def Replaced {α : Type} (R : α → α → Prop) (l' l : List α) : Prop :=
  ∃ a b x y, l = a ++ x :: b ∧ l' = a ++ y :: b ∧ R y x

theorem acc_replaced {α : Type} {R : α → α → Prop} {l : List α} (h : ∀ x ∈ l, Acc R x) :
    Acc (Replaced R) l := by
  induction l with
  | nil =>
    refine Acc.intro _ ?_
    rintro l' ⟨a, b, x, y, hl, -⟩
    simp at hl
  | cons x l ih =>
    have hl := ih fun y hy => h y (List.mem_cons_of_mem _ hy)
    have hx := h x (List.mem_cons_self ..)
    clear ih h
    induction hx generalizing l with
    | intro x hx ihx =>
      have htail := hl
      induction htail with
      | intro l hl' ihl =>
        refine Acc.intro _ ?_
        rintro k ⟨a, b, y, z, hk, rfl, hzy⟩
        cases a with
        | nil =>
          obtain ⟨rfl, rfl⟩ := List.cons.inj hk
          exact ihx z hzy l hl
        | cons c a =>
          obtain ⟨rfl, rfl⟩ := List.cons.inj hk
          exact ihl _ ⟨a, b, y, z, rfl, rfl, hzy⟩ (hl' _ ⟨a, b, y, z, rfl, rfl, hzy⟩)

namespace Jobs

def Proceeds (jobs : Jobs ω σ ε) (job' job : σ) : Prop := ∃ x x', jobs.next job x = (.inl job', x')

def End (jobs : Jobs ω σ ε) : Prop := ∀ i, Acc jobs.Proceeds (jobs.start i)

end Jobs

namespace Worker

def jobOf : Worker σ ε → List σ
  | busy _ job => [job]
  | _ => []

def weight : Worker σ ε → Nat
  | handed _ => 5
  | busy _ _ => 4
  | failing _ _ => 3
  | counted _ _ => 2
  | idle => 1
  | gone => 0

end Worker

namespace Crew

variable {jobs : Jobs ω σ ε} {n : Nat} {s s' : Crew ω σ ε} {event : Option (JobEvent ε)}

def running (s : Crew ω σ ε) : List σ := s.workers.flatMap Worker.jobOf

def potential (n : Nat) (s : Crew ω σ ε) : Nat :=
  6 * (n - s.fed) + (s.workers.map Worker.weight).sum + s.feeding.toNat + (!s.cancelled).toNat

theorem potential_le (hs : Step jobs n s event s') : s'.potential n ≤ s.potential n := by
  cases hs <;> simp_all [potential, Worker.weight]
  omega

theorem step_potential (hs : Step jobs n s event s') :
    (s'.potential n < s.potential n ∧ ∀ job ∈ s'.running, job ∈ s.running ∨ ∃ i, job = jobs.start i) ∨
      s'.potential n = s.potential n ∧ Replaced jobs.Proceeds s'.running s.running := by
  cases hs with
  | @work l r i job job' x hw hnext =>
    refine .inr ⟨by simp [potential, hw, Worker.weight], l.flatMap Worker.jobOf,
      r.flatMap Worker.jobOf, job, job', ?_, ?_, s.shared, x, hnext⟩
    · simp [running, hw, Worker.jobOf]
    · simp [running, Worker.jobOf]
  | begin hw =>
    refine .inl ⟨by simp_all [potential, Worker.weight], fun job hjob => ?_⟩
    simp only [running, hw, List.flatMap_append, List.flatMap_cons, Worker.jobOf, List.mem_append,
      List.mem_singleton, List.nil_append] at hjob ⊢
    rcases hjob with hjob | hjob | hjob
    · exact .inl (.inl hjob)
    · exact .inr ⟨_, hjob⟩
    · exact .inl (.inr hjob)
  | _ =>
    refine .inl ⟨by simp_all [potential, Worker.weight] <;> omega, fun job hjob => .inl ?_⟩
    simp_all [running, Worker.jobOf, -List.mem_flatMap] <;> tauto

theorem acc_of_end (hends : jobs.End) (hjobs : ∀ job ∈ s.running, Acc jobs.Proceeds job) :
    Acc (fun s' s => ∃ event, Step jobs n s event s') s := by
  -- Steps apart from those of a job use up the potential, and only finitely many of a job's lie between.
  induction hk : s.potential n using Nat.strongRecOn generalizing s with
  | _ k ih =>
    have hl := acc_replaced hjobs
    generalize hrunning : s.running = l at hl
    induction hl generalizing s with
    | intro l _ ihl =>
      refine Acc.intro _ ?_
      rintro s' ⟨event, hs⟩
      rcases step_potential hs with ⟨hlt, hstart⟩ | ⟨heq, hreplaced⟩
      · refine ih _ (hk ▸ hlt) (fun job hjob => ?_) rfl
        rcases hstart job hjob with hold | ⟨i, rfl⟩
        · exact hjobs job hold
        · exact hends i
      · refine ihl _ (hrunning ▸ hreplaced) (fun job hjob => ?_) (heq.trans hk) rfl
        obtain ⟨a, b, x, y, hx, hy, hyx⟩ := hreplaced
        rw [hy, List.mem_append, List.mem_cons] at hjob
        rcases hjob with hjob | rfl | hjob
        · exact hjobs job (by simp [hx, hjob])
        · exact (hjobs x (by simp [hx])).inv hyx
        · exact hjobs job (by simp [hx, hjob])

/-- What can be relied on when a pool runs jobs, whatever the schedule and whenever it is cancelled. -/
structure Reliable (jobs : Jobs ω σ ε) (pool : Pool) (workers n : Nat) (shared : ω) : Prop where
  settled : ∀ t s, Runs jobs n (start pool workers n shared) t s → s.Finished →
    ∀ stop, ∃ k result, s.Settled pool n stop t k result
  proceeds : ∀ t s, Runs jobs n (start pool workers n shared) t s → ¬ s.Finished →
    ∃ event s', Step jobs n s event s' ∧ s'.cancelled = s.cancelled
  ends : jobs.End → Acc (fun s' s => ∃ event, Step jobs n s event s') (start pool workers n shared)
  finishes : jobs.End → ∃ t s, Runs jobs n (start pool workers n shared) t s ∧ s.Finished ∧
    s.cancelled = false

theorem running_start (pool : Pool) (workers n : Nat) (shared : ω) :
    (start pool workers n shared : Crew ω σ ε).running = [] := by
  rw [running, List.flatMap_eq_nil_iff]
  intro w hw
  rw [List.eq_of_mem_replicate hw]
  rfl

theorem acc_start (hends : jobs.End) (pool : Pool) (workers : Nat) (shared : ω) :
    Acc (fun s' s => ∃ event, Step jobs n s event s') (start pool workers n shared) := by
  refine acc_of_end hends fun job hjob => ?_
  rw [running_start] at hjob
  cases hjob

theorem reliable (jobs : Jobs ω σ ε) (pool : Pool) {workers : Nat} (hworkers : 0 < workers) (n : Nat)
    (shared : ω) : Reliable jobs pool workers n shared where
  settled _ s hr hs stop := ⟨s.fed, s.errors, (ledger hr).settled hs stop⟩
  proceeds _ _ hr hs := (ledger hr).exists_step hworkers hs jobs
  ends hends := acc_start hends pool workers shared
  finishes hends := exists_finished hworkers (acc_start hends pool workers shared) .refl

end Crew

end RegPressure
