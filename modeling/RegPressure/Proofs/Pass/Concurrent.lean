import RegPressure.Proofs.Pass.Slots
import RegPressure.Proofs.Pass.Pipeline

namespace RegPressure

structure Machine (σ : Type) where
  start : σ
  next : Symbols → σ → Func → (σ ⊕ Outcome) × Func

namespace Machine

variable {σ : Type}

inductive Ends (M : Machine σ) (shared : Symbols) : σ → Func → Func → Outcome → Prop
  | last {job f g out} (h : M.next shared job f = (.inr out, g)) : Ends M shared job f g out
  | more {job f job' g k out} (h : M.next shared job f = (.inl job', g))
    (hrest : Ends M shared job' g k out) : Ends M shared job f k out

def Computes (M : Machine σ) (run : Option Symbols → Func → Func × Outcome) : Prop :=
  ∀ shared f, M.Ends shared M.start f (run (some shared) f).1 (run (some shared) f).2

def ofRun (run : Option Symbols → Func → Func × Outcome) : Machine Unit where
  start := ()
  next shared _ f := (.inr (run (some shared) f).2, (run (some shared) f).1)

theorem computes_ofRun (run : Option Symbols → Func → Func × Outcome) : (ofRun run).Computes run :=
  fun _ _ => .last rfl

end Machine

structure Tally where
  changes : Nat := 0
  advised : Bool := false

inductive Note
  | changed
  | advised

namespace Tally

def note (t : Tally) : Note → Tally
  | .changed => { t with changes := t.changes + 1 }
  | .advised => { t with advised := true }

instance : RightCommutative note where
  right_comm t a b := by cases a <;> cases b <;> rfl

end Tally

namespace Output

def isAdvised (o : Output) : Bool := o.report.any (·.isAdvised)

def changeNotes (o : Output) : List Note := if o.changed then [.changed] else []

def adviceNotes (o : Output) : List Note := if o.isAdvised then [.advised] else []

def notes (o : Output) : List Note := o.changeNotes ++ o.adviceNotes

theorem foldl_notes (os : List Output) (t : Tally) : (os.flatMap notes).foldl Tally.note t =
    ⟨t.changes + os.countP (·.changed), t.advised || os.any isAdvised⟩ := by
  induction os generalizing t with
  | nil => simp
  | cons o os ih =>
    rw [List.flatMap_cons, List.foldl_append, ih, List.countP_cons, List.any_cons]
    cases hc : o.changed <;> cases ha : o.isAdvised <;>
      simp [notes, changeNotes, adviceNotes, Tally.note, hc, ha] <;> omega

end Output

namespace Pipeline

structure FuncSlot where
  func : Func
  output : Output := default

/-- Where the job of one function is: the pass is at work; then its output is stored, what it tells
is recorded, and its error is given back. -/
inductive Phase (σ : Type)
  | working (job : σ)
  | storing (out : Output) (e : Option String)
  | counting (out : Output) (e : Option String)
  | advising (out : Output) (e : Option String)
  | answering (e : Option String)

variable {σ : Type}

def funcJobs (lang : Lang) (q : Pass) (shared : Symbols) (M : Machine σ) :
    SlotJobs FuncSlot Note (Phase σ) String where
  start _ := .working M.start
  next i
    | .working job, x =>
      match M.next shared job x.func with
      | (.inl job', g) => (.inl (.working job'), { x with func := g }, [])
      | (.inr out, g) => (.inl (.storing (output q i g out) (funcError lang q g out)),
          { x with func := g }, [])
    | .storing o e, x => (.inl (.counting o e), { x with output := o }, [])
    | .counting o e, x => (.inl (.advising o e), x, o.changeNotes)
    | .advising o e, x => (.inl (.answering e), x, o.adviceNotes)
    | .answering e, x => (.inr e, x, [])

variable {shared : Symbols} {M : Machine σ}

/-- Alone, a job leaves what its pass makes of the function, and an output with the notes on it. -/
theorem exists_ends (lang : Lang) (q : Pass) (i : Nat) {job : σ} {f g : Func} {out : Outcome}
    (h : M.Ends shared job f g out) (o : Output) : ∃ notes, notes.flatten = (output q i g out).notes ∧
      (funcJobs lang q shared M).Ends i (.working job) ⟨f, o⟩ notes (funcError lang q g out)
        ⟨g, output q i g out⟩ := by
  induction h with
  | @more job f job' g k out h _ ih =>
    obtain ⟨notes, hnotes, hends⟩ := ih
    refine ⟨[] :: notes, by rw [List.flatten_cons, hnotes, List.nil_append], .more ?_ hends⟩
    simp only [funcJobs, h]
  | @last job f g out h =>
    let J := funcJobs lang q shared M
    have hanswer : ∀ x e, J.Ends i (.answering e) x [[]] e x := fun x e => .last rfl
    have hadvise : ∀ x o e, J.Ends i (.advising o e) x [o.adviceNotes, []] e x :=
      fun x o e => .more rfl (hanswer x e)
    have hcount : ∀ x o e, J.Ends i (.counting o e) x [o.changeNotes, o.adviceNotes, []] e x :=
      fun x o e => .more rfl (hadvise x o e)
    have hstore : ∀ x o e, J.Ends i (.storing o e) x [[], o.changeNotes, o.adviceNotes, []] e
        { x with output := o } := fun x o e => .more rfl (hcount _ o e)
    refine ⟨[[], [], (output q i g out).changeNotes, (output q i g out).adviceNotes, []],
      by simp [Output.notes], .more ?_ (hstore ⟨g, o⟩ (output q i g out) (funcError lang q g out))⟩
    simp only [funcJobs, h]

theorem exists_effects (lang : Lang) (q : Pass) {run : Option Symbols → Func → Func × Outcome}
    (hM : M.Computes run) (shared : Symbols) (f : Nat → Func) (n : Nat) :
    ∃ E : SlotJobs.Effects (funcJobs lang q shared M) n fun i => ⟨f i, default⟩,
      ∀ i, E.final i = ⟨(runFunc lang q shared run (f i, i)).1.1,
          (runFunc lang q shared run (f i, i)).1.2⟩ ∧
        E.result i = (runFunc lang q shared run (f i, i)).2 ∧
          (E.notes i).flatten = (runFunc lang q shared run (f i, i)).1.2.notes := by
  have hends := fun i => exists_ends lang q i (hM shared (f i)) default
  choose notes hnotes hends using hends
  exact ⟨⟨notes, _, _, fun i _ => hends i⟩, fun i => ⟨rfl, rfl, hnotes i⟩⟩

end Pipeline

namespace Module

def funcAt (m : Module) (i : Nat) : Func := m.funcs[i]?.getD default

theorem zipIdx_funcs (m : Module) :
    m.funcs.zipIdx = (List.range m.funcs.length).map fun i => (m.funcAt i, i) := by
  refine List.ext_getElem (by simp) fun i hi _ => ?_
  simp [funcAt, List.getElem?_eq_getElem (by simpa using hi : i < m.funcs.length)]

end Module

namespace Pipeline

variable {lang : Lang} {workers : Nat} {pool : Pool} {q : Pass} {m : Module} {advised : Bool}

/-- What a pass may leave of a module when a pool of that many workers runs it, by any schedule and for
any machine that does the work of the pass: the step of the pipeline, and what was recorded. -/
inductive PassRuns (lang : Lang) (workers : Nat) (pool : Pool) (q : Pass) (m : Module)
    (advised : Bool) : Step → Tally → Prop
  | onFuncs {run} {σ : Type} {M : Machine σ} {t s} (hwork : q.work = .onFunc run)
    (hM : M.Computes run)
    (hr : Crew.Runs ((funcJobs lang q m.symbols M).jobs Tally.note) m.funcs.length
      (.start pool workers m.funcs.length ⟨fun i => ⟨m.funcAt i, default⟩, ⟨0, advised⟩⟩) t s)
    (hs : s.Finished) (hc : s.cancelled = false) :
    PassRuns lang workers pool q m advised
      { pool := { pool with executed := s.executed, failed := s.failed }
        module := { m with funcs := (List.range m.funcs.length).map fun i => (s.shared.slot i).func }
        outputs := (List.range m.funcs.length).map fun i => (s.shared.slot i).output
        errors := s.answer "context canceled" m.funcs.length }
      s.shared.tally
  /-- A pass on the whole module, and what is no pass, does not use the pool. -/
  | onModule (hwork : ∀ run, q.work ≠ .onFunc run) :
    PassRuns lang workers pool q m advised (runPass lang pool q m)
      (((runPass lang pool q m).outputs.flatMap Output.notes).foldl Tally.note ⟨0, advised⟩)

def funcResults (lang : Lang) (q : Pass) (run : Option Symbols → Func → Func × Outcome) (m : Module) :
    List ((Func × Output) × Option String) :=
  (List.range m.funcs.length).map fun i => runFunc lang q m.symbols run (m.funcAt i, i)

theorem runPass_onFunc {run : Option Symbols → Func → Func × Outcome} (hwork : q.work = .onFunc run) :
    runPass lang pool q m =
      { pool := { pool with
          executed := pool.executed + m.funcs.length
          failed := pool.failed + ((funcResults lang q run m).filterMap (·.2)).length }
        module := { m with funcs := (funcResults lang q run m).map (·.1.1) }
        outputs := (funcResults lang q run m).map (·.1.2)
        errors := (funcResults lang q run m).filterMap (·.2) } := by
  simp only [runPass, hwork, Pool.run, m.zipIdx_funcs, funcResults, List.map_map, List.length_map,
    List.length_range]
  rfl

/-- Whatever the schedule, a pass does what it does without one. -/
theorem PassRuns.eq {step : Step} {tally : Tally}
    (h : PassRuns lang workers pool q m advised step tally) : step = runPass lang pool q m ∧
      tally = ⟨step.outputs.countP (·.changed), advised || step.outputs.any Output.isAdvised⟩ := by
  cases h with
  | onModule hwork =>
    refine ⟨rfl, ?_⟩
    rw [Output.foldl_notes, Nat.zero_add]
  | @onFuncs run σ M t s hwork hM hr hs hc =>
    obtain ⟨E, hE⟩ := exists_effects lang q hM m.symbols m.funcAt m.funcs.length
    -- Each slot holds what its job does alone, whatever the schedule was.
    obtain ⟨hslots, htally⟩ := SlotJobs.outcome E hr hs hc
    have hsettled := (Crew.ledger hr).settled hs "context canceled"
    have hfed := hsettled.all hc
    have hfuncs : ((List.range m.funcs.length).map fun i => (s.shared.slot i).func) =
        (funcResults lang q run m).map (·.1.1) := by
      rw [funcResults, List.map_map]
      refine List.map_congr_left fun i hi => ?_
      rw [(hslots i (List.mem_range.mp hi)).1, (hE i).1]
      rfl
    have houtputs : ((List.range m.funcs.length).map fun i => (s.shared.slot i).output) =
        (funcResults lang q run m).map (·.1.2) := by
      rw [funcResults, List.map_map]
      refine List.map_congr_left fun i hi => ?_
      rw [(hslots i (List.mem_range.mp hi)).1, (hE i).1]
      rfl
    have herrors : (List.range m.funcs.length).filterMap s.errors =
        (funcResults lang q run m).filterMap (·.2) := by
      rw [funcResults, List.filterMap_map]
      refine List.filterMap_congr fun i hi => ?_
      rw [(hslots i (List.mem_range.mp hi)).2, (hE i).2.1]
      rfl
    have hnotes : SlotJobs.pending (List.range m.funcs.length) E.notes =
        ((funcResults lang q run m).map (·.1.2)).flatMap Output.notes := by
      rw [funcResults, List.map_map, List.flatMap_map]
      exact List.flatMap_congr fun i _ => (hE i).2.2
    rw [runPass_onFunc hwork]
    refine ⟨?_, ?_⟩
    · rw [hfuncs, houtputs, hsettled.answer, hsettled.executed, hsettled.failed, hfed, herrors, hc]
      simp
    · rw [htally, hnotes, Output.foldl_notes, Nat.zero_add, houtputs]

theorem exists_passRuns (hworkers : 0 < workers) (lang : Lang) (pool : Pool) (q : Pass) (m : Module)
    (advised : Bool) : ∃ step tally, PassRuns lang workers pool q m advised step tally := by
  by_cases hwork : ∃ run, q.work = .onFunc run
  · obtain ⟨run, hwork⟩ := hwork
    have hM := Machine.computes_ofRun run
    obtain ⟨E, -⟩ := exists_effects lang q hM m.symbols m.funcAt m.funcs.length
    have hr : Crew.Runs ((funcJobs lang q m.symbols (Machine.ofRun run)).jobs Tally.note) m.funcs.length
      (.start pool workers m.funcs.length ⟨fun i => ⟨m.funcAt i, default⟩, ⟨0, advised⟩⟩) [] _ := .refl
    obtain ⟨t, s, hr, hs, hc⟩ := Crew.exists_finished hworkers (SlotJobs.acc_step E hr) hr
    exact ⟨_, _, .onFuncs hwork hM hr hs hc⟩
  · exact ⟨_, _, .onModule fun run hrun => hwork ⟨run, hrun⟩⟩

/-- How a run that nobody cancels may go on, pass by pass; the flag tells whether advice was recorded. -/
inductive Goes (lang : Lang) (workers : Nat) (verifyEach : Bool) :
    List Pass → Pool → PassStats → Module → RunResult → Bool →
      (Pool × PassStats) × Module × RunResult → Bool → Prop
  | done {pool stats m r advised} :
    Goes lang workers verifyEach [] pool stats m r advised ((pool, stats), m, r) advised
  | stop {q ps pool stats m r advised step tally stats' r'}
    (hstep : PassRuns lang workers pool q m advised step tally)
    (hr : settle verifyEach q step tally.changes stats r = (stats', r')) (herr : r'.errors ≠ []) :
    Goes lang workers verifyEach (q :: ps) pool stats m r advised
      ((step.pool, stats'), step.module, r') tally.advised
  | next {q ps pool stats m r advised step tally stats' r' result final}
    (hstep : PassRuns lang workers pool q m advised step tally)
    (hr : settle verifyEach q step tally.changes stats r = (stats', r')) (herr : r'.errors = [])
    (hrest : Goes lang workers verifyEach ps step.pool stats' step.module r' tally.advised result
      final) :
    Goes lang workers verifyEach (q :: ps) pool stats m r advised result final

theorem isAdvised_settle {verifyEach : Bool} {step : Step} {changes : Nat} {stats stats' : PassStats}
    {r r' : RunResult} (hr : settle verifyEach q step changes stats r = (stats', r')) :
    r'.isAdvised = (r.isAdvised || step.outputs.any Output.isAdvised) := by
  cases hr
  exact List.any_append

/-- Whatever the schedule of each pass, a run goes as it goes without one. -/
theorem Goes.eq {verifyEach : Bool} {ps : List Pass} {stats : PassStats} {r : RunResult}
    {result : (Pool × PassStats) × Module × RunResult} {final : Bool}
    (h : Goes lang workers verifyEach ps pool stats m r advised result final)
    (hadvised : advised = r.isAdvised) :
    result = runAll lang verifyEach (fun _ => false) ps pool stats m r ∧ final = result.2.2.isAdvised := by
  induction h with
  | done => exact ⟨rfl, hadvised⟩
  | stop hstep hr herr =>
    obtain ⟨rfl, rfl⟩ := hstep.eq
    rw [runAll_cons rfl hr, if_neg (by simpa using herr)]
    exact ⟨rfl, by rw [hadvised, isAdvised_settle hr]⟩
  | next hstep hr herr hrest ih =>
    obtain ⟨rfl, rfl⟩ := hstep.eq
    rw [runAll_cons rfl hr, if_pos (by simp [herr])]
    exact ih (by rw [hadvised, isAdvised_settle hr])

theorem exists_goes (hworkers : 0 < workers) (lang : Lang) (verifyEach : Bool) (ps : List Pass)
    (pool : Pool) (stats : PassStats) (m : Module) (r : RunResult) (advised : Bool) :
    ∃ result final, Goes lang workers verifyEach ps pool stats m r advised result final := by
  induction ps generalizing pool stats m r advised with
  | nil => exact ⟨_, _, .done⟩
  | cons q ps ih =>
    obtain ⟨step, tally, hstep⟩ := exists_passRuns hworkers lang pool q m advised
    by_cases herr : (settle verifyEach q step tally.changes stats r).2.errors = []
    · obtain ⟨result, final, hrest⟩ := ih step.pool
        (settle verifyEach q step tally.changes stats r).1 step.module
        (settle verifyEach q step tally.changes stats r).2 tally.advised
      exact ⟨result, final, .next hstep rfl herr hrest⟩
    · exact ⟨_, _, .stop hstep rfl herr⟩

/-- The schedule of the pool decides nothing: not what a run of a pipeline gives, and not whether a
function pass gets done. -/
structure ScheduleFree (lang : Lang) (workers : Nat) (line : Pipeline) (m : Module) : Prop where
  result : ∀ pool stats m' r final,
    Goes lang workers line.verifyEach line.passes line.pool line.stats m {} false
      ((pool, stats), m', r) final ↔
        ({ line with pool, stats }, m', r) = line.run lang (fun _ => false) m ∧ final = r.isAdvised
  ends : ∀ (q : Pass) (run : Option Symbols → Func → Func × Outcome) (σ : Type) (M : Machine σ)
    (pool : Pool) (t : List (JobEvent String)) (s : Crew (Slots FuncSlot Tally) (Nat × Phase σ) String),
    M.Computes run →
      Crew.Runs ((funcJobs lang q m.symbols M).jobs Tally.note) m.funcs.length
        (.start pool workers m.funcs.length ⟨fun i => ⟨m.funcAt i, default⟩, {}⟩) t s →
          Acc (fun s' s => ∃ event, Crew.Step ((funcJobs lang q m.symbols M).jobs Tally.note)
            m.funcs.length s event s') s

theorem eq_run_iff {line : Pipeline} {stats : PassStats} {m' : Module} {r : RunResult} :
    ({ line with pool, stats }, m', r) = line.run lang (fun _ => false) m ↔ ((pool, stats), m', r) =
      runAll lang line.verifyEach (fun _ => false) line.passes line.pool line.stats m {} := by
  unfold run
  generalize runAll lang line.verifyEach (fun _ => false) line.passes line.pool line.stats m {} = result
  obtain ⟨⟨pool', stats'⟩, m'', r''⟩ := result
  simp only [Prod.mk.injEq, Pipeline.mk.injEq, true_and]

theorem scheduleFree (hworkers : 0 < workers) (lang : Lang) (line : Pipeline) (m : Module) :
    line.ScheduleFree lang workers m where
  result pool stats m' r final := by
    rw [eq_run_iff]
    constructor
    · intro h
      exact h.eq rfl
    · rintro ⟨heq, rfl⟩
      obtain ⟨result, final, h⟩ := exists_goes hworkers lang line.verifyEach line.passes line.pool
        line.stats m {} false
      obtain ⟨hresult, hfinal⟩ := h.eq rfl
      rw [← heq] at hresult
      subst hresult
      rw [hfinal] at h
      exact h
  ends q run σ M pool t s hM hr := by
    obtain ⟨E, -⟩ := exists_effects lang q hM m.symbols m.funcAt m.funcs.length
    exact SlotJobs.acc_step E hr

end Pipeline

/-- However many workers a pool has and however they take turns, it runs each job once and gives the
errors in the order of the jobs, of the first jobs only if it is cancelled; and a pipeline of passes
that keep to their functions gives what it gives when one function is worked on after the other. -/
theorem pool_schedule_independent {workers : Nat} (hworkers : 0 < workers) :
    (∀ (ω σ ε : Type) (jobs : Jobs ω σ ε) (pool : Pool) (n : Nat) (shared : ω),
      Crew.Reliable jobs pool workers n shared) ∧
    ∀ (lang : Lang) (line : Pipeline) (m : Module), line.ScheduleFree lang workers m :=
  ⟨fun _ _ _ jobs pool n shared => Crew.reliable jobs pool hworkers n shared,
    fun lang line m => line.scheduleFree hworkers lang m⟩

def halfFail : Jobs Unit Nat Nat where
  start i := i
  next i _ := (.inr (if i % 2 = 0 then some i else none), ())

theorem two_workers_run_three_jobs : 0 < 2 ∧ ∃ t s,
    Crew.Runs halfFail 3 (.start {} 2 3 ()) t s ∧ s.Finished ∧ s.cancelled = false ∧
      (begunIn t).Perm [0, 1, 2] ∧ s.executed = 3 := by
  obtain ⟨hpool, -⟩ := pool_schedule_independent (by decide : 0 < 2)
  have hreliable := hpool Unit Nat Nat halfFail {} 3 ()
  obtain ⟨t, s, hr, hs, hc⟩ := hreliable.finishes fun i => Acc.intro _ fun _ ⟨_, _, h⟩ => by cases h
  obtain ⟨k, result, hsettled⟩ := hreliable.settled t s hr hs 0
  have hk := hsettled.all hc
  subst hk
  exact ⟨by decide, t, s, hr, hs, hc, hsettled.begun, hsettled.executed⟩

end RegPressure
