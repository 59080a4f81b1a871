import RegPressure.Pass.Pipeline
import RegPressure.Proofs.Narrow.Intact
import RegPressure.Proofs.Pass.Upkeep
import Mathlib.Data.List.Basic

namespace RegPressure.Pipeline

variable {lang : Lang} {pool : Pool} {q : Pass} {m : Module}

section OnFunc

variable {run : Option Symbols → Func → Func × Outcome} (hwork : q.work = .onFunc run)

include hwork

theorem module_runPass : (runPass lang pool q m).module =
    { m with funcs := m.funcs.map fun f => (run (some m.symbols) f).1 } := by
  conv_rhs => rw [← List.zipIdx_map_fst 0 m.funcs, List.map_map]
  simp only [runPass, hwork, Pool.run, List.map_map]
  rfl

theorem errors_runPass : (runPass lang pool q m).errors = m.funcs.filterMap fun f =>
    funcError lang q (run (some m.symbols) f).1 (run (some m.symbols) f).2 := by
  conv_rhs => rw [← List.zipIdx_map_fst 0 m.funcs, List.filterMap_map]
  simp only [runPass, hwork, Pool.run, List.filterMap_map]
  rfl

theorem changes_runPass : (runPass lang pool q m).outputs.countP (·.changed) =
    m.funcs.countP fun f => (run (some m.symbols) f).2.finding.changed := by
  conv_rhs => rw [← List.zipIdx_map_fst 0 m.funcs, List.countP_map]
  simp only [runPass, hwork, Pool.run, List.map_map, List.countP_map]
  rfl

end OnFunc

def settle (verifyEach : Bool) (q : Pass) (step : Step) (changes : Nat) (stats : PassStats)
    (r : RunResult) : PassStats × RunResult :=
  ({ stats with passes := stats.passes + 1 }.count q.name changes,
    { outputs := r.outputs ++ step.outputs
      changed := r.changed || changes > 0
      errors :=
        if !step.errors.isEmpty then step.errors
        else if verifyEach && changes > 0 then verifyAfter q step.module
        else [] })

section Settle

variable {verifyEach : Bool} {step : Step} {changes : Nat} {stats stats' : PassStats} {r r' : RunResult}

theorem changed_of_settle (hr : settle verifyEach q step changes stats r = (stats', r')) :
    r'.changed = (r.changed || changes > 0) := by
  cases hr
  rfl

theorem errors_of_settle (hr : settle verifyEach q step 0 stats r = (stats', r')) :
    r'.errors = step.errors := by
  cases hr
  cases step.errors <;> simp

theorem errors_of_settle_failed (hr : settle verifyEach q step changes stats r = (stats', r'))
    (h : step.errors ≠ []) : r'.errors = step.errors := by
  cases hr
  exact if_pos (by simpa using h)

theorem errors_of_settle_valid (hr : settle verifyEach q step changes stats r = (stats', r'))
    (h : step.errors = []) (hvalid : verifyAfter q step.module = []) : r'.errors = [] := by
  cases hr
  simp [h, hvalid]

end Settle

theorem runAll_cancelled {verifyEach : Bool} {cancelled : Nat → Bool} {ps : List Pass} {stats : PassStats}
    {r : RunResult} (hc : cancelled 0 = true) : runAll lang verifyEach cancelled (q :: ps) pool stats m r =
      ((pool, stats), m, { r with errors := ["context canceled"] }) := if_pos hc

theorem runAll_cons {verifyEach : Bool} {cancelled : Nat → Bool} {ps : List Pass}
    {stats stats' : PassStats} {r r' : RunResult} (hc : cancelled 0 = false)
    (hr : settle verifyEach q (runPass lang pool q m)
      ((runPass lang pool q m).outputs.countP (·.changed)) stats r = (stats', r')) :
    runAll lang verifyEach cancelled (q :: ps) pool stats m r =
      if r'.errors.isEmpty then
        runAll lang verifyEach (fun n => cancelled (n + 1)) ps (runPass lang pool q m).pool stats'
          (runPass lang pool q m).module r'
      else (((runPass lang pool q m).pool, stats'), (runPass lang pool q m).module, r') := by
  obtain ⟨rfl, rfl⟩ := Prod.mk.inj hr
  exact if_neg (by simp [hc])

end RegPressure.Pipeline

namespace RegPressure

theorem Template.head?_fill {template : String} {c : Char} (h : template.toList.head? = some c)
    (hc : c ≠ '%') (args : List Arg) : (fill template args).toList.head? = some c := by
  unfold fill
  split
  · exact h
  · rw [String.toList_ofList]
    cases ht : template.toList with
    | nil =>
      rw [ht] at h
      cases h
    | cons x rest =>
      rw [ht] at h
      cases h
      unfold fillChars
      split <;> simp_all

namespace Pass

variable {m : Module} {s : PassSettings} {q : Pass}

structure Upkeep (q : Pass) : Prop where
  onFunc : ∀ run, q.work = .onFunc run → ∀ scope f,
    (∀ e, (run scope f).2.error = some e → ∃ x, e = .fault x) ∧
      ((run scope f).2.error = none → f.Intact scope → (run scope f).1.Intact scope)
  onModule : ∀ run, q.work = .onModule run → ∀ m,
    (∀ e, (run m).2.error = some e → ∃ x, e = .fault x) ∧
      ((run m).2.error = none → m.Intact → (run m).1.Intact)
  works : q.work ≠ .nothing

theorem error_ofChecked {x : Checked Finding} {e : PassError}
    (h : (Outcome.ofChecked x).error = some e) : ∃ y, e = .fault y := by
  cases x with
  | ok finding => cases h
  | error y =>
    cases h
    exact ⟨y, rfl⟩

theorem upkeep_ofQuery (name : String) (query : Option Symbols → Func → Checked Finding) :
    (ofQuery name query).Upkeep where
  onFunc run hrun scope f := by
    cases hrun
    exact ⟨fun _ => error_ofChecked, fun _ h => h⟩
  onModule run hrun := by cases hrun
  works := nofun

theorem upkeep_ofChange {change : Module → Checked (Module × Finding)} (name : String)
    (h : ∀ m m' finding, change m = .ok (m', finding) → m.Intact → m'.Intact) :
    (ofChange name change).Upkeep where
  onFunc run hrun := by cases hrun
  onModule run hrun m := by
    cases hrun
    cases hm : change m with
    | ok r =>
      simp only [hm]
      exact ⟨by simp, fun _ => h m r.1 r.2 hm⟩
    | error x =>
      simp only [hm]
      exact ⟨fun e he => ⟨x, (Option.some.inj he).symm⟩, by simp⟩
  works := nofun

theorem upkeep_narrowWidths (s : PassSettings) : (narrowWidths s).Upkeep where
  onFunc run hrun scope f := by
    cases hrun
    refine ⟨fun _ => error_ofChecked, fun hnone hf => ?_⟩
    dsimp only [Edit.apply] at hnone ⊢
    cases hn : (narrow scope s.widths).run f with
    | ok changed g => exact Narrow.narrow_keeps hf hn
    | error x g =>
      rw [hn] at hnone
      cases hnone
  onModule run hrun := by cases hrun
  works := nofun

theorem upkeep_of_mem (hq : q ∈ all s) : q.Upkeep := by
  simp only [all, List.mem_cons, List.not_mem_nil, or_false] at hq
  rcases hq with rfl | rfl | rfl | rfl | rfl | rfl
  · exact upkeep_ofQuery _ _
  · refine upkeep_ofChange _ fun m m' finding he hm => ?_
    obtain ⟨⟨m', changed⟩, ha, he⟩ := Checked.bind_eq_ok.mp he
    cases he
    obtain ⟨r, hr, hintact⟩ := hm.exists_assumeBounds _
    cases ha.symm.trans hr
    exact hintact
  · exact upkeep_ofQuery _ _
  · exact upkeep_ofQuery _ _
  · exact upkeep_narrowWidths s
  · refine upkeep_ofChange _ fun m m' finding he hm => ?_
    obtain ⟨⟨m', renames⟩, hc, he⟩ := Checked.bind_eq_ok.mp he
    cases he
    obtain ⟨r, hr, hintact⟩ := hm.exists_clean
    cases hc.symm.trans hr
    exact hintact

end Pass

namespace Pipeline

variable {lang : Lang} {m : Module} {q : Pass}

def invalidAfter : String := "module invalid after pass "

theorem errorText_fault (pass target : String) (isFunc : Bool) (x : Fault) :
    ¬ invalidAfter.toList <+: (errorText lang pass target isFunc (.fault x)).toList := by
  have hhead : (errorText lang pass target isFunc (.fault x)).toList.head? = some 'p' :=
    Template.head?_fill (by cases lang <;> decide) (by decide) _
  rintro ⟨t, ht⟩
  rw [← ht] at hhead
  cases hhead

theorem runPass_keeps (lang : Lang) (pool : Pool) (hq : q.Upkeep) (h : m.Intact) :
    (∀ e ∈ (runPass lang pool q m).errors, ¬ invalidAfter.toList <+: e.toList) ∧
      ((runPass lang pool q m).errors = [] → (runPass lang pool q m).module.Intact) := by
  cases hwork : q.work with
  | nothing => exact absurd hwork hq.works
  | onModule run =>
    obtain ⟨hfault, hkeeps⟩ := hq.onModule run hwork m
    simp only [runPass, hwork]
    refine ⟨fun e he => ?_, fun hnone => hkeeps ?_ h⟩
    · obtain ⟨y, hy, rfl⟩ := Option.map_eq_some_iff.mp (Option.mem_toList.mp he)
      obtain ⟨x, rfl⟩ := hfault y hy
      exact errorText_fault _ _ _ _
    · exact Option.map_eq_none_iff.mp (Option.toList_eq_nil_iff.mp hnone)
  | onFunc run =>
    rw [errors_runPass hwork, module_runPass hwork]
    refine ⟨fun e he => ?_, fun hnone g hg => ?_⟩
    · obtain ⟨f, -, he⟩ := List.mem_filterMap.mp he
      obtain ⟨y, hy, rfl⟩ := Option.map_eq_some_iff.mp he
      obtain ⟨x, rfl⟩ := (hq.onFunc run hwork _ f).1 y hy
      exact errorText_fault _ _ _ _
    · obtain ⟨f, hf, rfl⟩ := List.mem_map.mp hg
      have hfine := Option.map_eq_none_iff.mp (List.filterMap_eq_nil_iff.mp hnone f hf)
      exact (hq.onFunc run hwork _ f).2 hfine (h f hf)

theorem runAll_keeps (lang : Lang) (verifyEach : Bool) (cancelled : Nat → Bool) {passes : List Pass}
    (pool : Pool) (stats : PassStats) {r : RunResult} (hpasses : ∀ q ∈ passes, q.Upkeep) (h : m.Intact)
    (hr : r.errors = []) :
    (∀ e ∈ (runAll lang verifyEach cancelled passes pool stats m r).2.2.errors,
      ¬ invalidAfter.toList <+: e.toList) ∧
      ((runAll lang verifyEach cancelled passes pool stats m r).2.2.errors = [] →
        (runAll lang verifyEach cancelled passes pool stats m r).2.1.Intact) := by
  induction passes generalizing cancelled pool stats m r with
  | nil => exact ⟨by simp [runAll, hr], fun _ => h⟩
  | cons q passes ih =>
    obtain ⟨hclear, hkeeps⟩ := runPass_keeps lang pool (hpasses q (List.mem_cons_self ..)) h
    cases hc : cancelled 0 with
    | true =>
      rw [runAll_cancelled hc]
      refine ⟨fun e he => ?_, nofun⟩
      rw [List.mem_singleton.mp he]
      decide
    | false =>
      obtain ⟨stats', r', hset⟩ : ∃ stats' r', settle verifyEach q (runPass lang pool q m)
          ((runPass lang pool q m).outputs.countP (·.changed)) stats r = (stats', r') := ⟨_, _, rfl⟩
      rw [runAll_cons hc hset]
      by_cases herr : (runPass lang pool q m).errors = []
      · have hm := hkeeps herr
        have hr' : r'.errors = [] := errors_of_settle_valid hset herr (by rw [verifyAfter, hm.verify])
        rw [if_pos (by simp [hr'])]
        exact ih _ _ _ (fun p hp => hpasses p (List.mem_cons_of_mem _ hp)) hm hr'
      · have hr' := errors_of_settle_failed hset herr
        rw [if_neg (by simpa [hr'] using herr), hr']
        exact ⟨hclear, fun h => absurd h herr⟩

end Pipeline

/-- Whatever passes of the tool run one after the other on a module that was read, with whatever
settings, no error says that one of them broke a rule; and if the run ends without an error, then
all functions pass the check. -/
theorem passes_keep_wellFormed {file : String} {src : Bytes} {p : Parsed} (h : parse file src = .ok p)
    (he : p.errors = []) (s : PassSettings) (line : Pipeline)
    (hpasses : ∀ q ∈ line.passes, q ∈ Pass.all s) (lang : Lang) (cancelled : Nat → Bool) :
    (∀ e ∈ (Pipeline.run lang cancelled line p.module).2.2.errors,
      ¬ "module invalid after pass ".toList <+: e.toList) ∧
    ((Pipeline.run lang cancelled line p.module).2.2.errors = [] →
      ∀ f ∈ (Pipeline.run lang cancelled line p.module).2.1.funcs,
        f.verify (some (Pipeline.run lang cancelled line p.module).2.1.symbols) = .ok []) := by
  have hintact : p.module.Intact := fun f hf => ((read_of_parse h he).funcs f hf).intact
  have hrun := Pipeline.runAll_keeps lang line.verifyEach cancelled line.pool line.stats
    (fun q hq => Pass.upkeep_of_mem (hpasses q hq)) hintact (r := {}) rfl
  obtain ⟨hclear, hkeeps⟩ := hrun
  exact ⟨hclear, fun hnone f hf => Func.verify_eq_nil.mpr (hkeeps hnone f hf).wellFormed⟩

def masking : Bytes := Bytes.ofString
  "declare @llvm.nvvm.read.ptx.sreg.tid.z() -> i32\nfunc @f(%x: i16) -> i32 \x7b\na:\n" ++
    Bytes.ofString "  %t = call i32 @llvm.nvvm.read.ptx.sreg.tid.z()\n  %w$ = sext i16 %x to i32\n  br b\n" ++
    Bytes.ofString "b:\n  %p = phi i32 [ %w$, a ], [ %v, b ]\n  %v = and i32 %p, %t\n" ++
    Bytes.ofString "  %c = icmp slt i32 %v, %t\n  condbr %c, b, d\nd:\n  ret i32 %v\n\x7d\n"

def maskingPasses : Pipeline where
  passes := [.narrowWidths {}, .assumeBounds {}, .cleanNames, .narrowWidths {}]

theorem masking_stays_wellFormed : ∃ p, parse "f.mir" masking = .ok p ∧ p.errors = [] ∧
    ∃ line m r, Pipeline.run .english (fun _ => false) maskingPasses p.module = (line, m, r) ∧ r.errors = [] ∧
      r.outputs.map (fun o : Output => o.changed) = [false, true, true, true] ∧
      ∀ f ∈ m.funcs, f.verify (some m.symbols) = .ok [] := by
  have hread : ((parse "f.mir" masking).toOption.map fun p =>
      let r := (Pipeline.run .english (fun _ => false) maskingPasses p.module).2.2
      (p.errors.isEmpty, r.errors, r.outputs.map fun o : Output => o.changed)) =
        some (true, [], [false, true, true, true]) := by decide +kernel
  cases hp : parse "f.mir" masking with
  | error e =>
    rw [hp] at hread
    cases hread
  | ok p =>
    rw [hp] at hread
    simp only [Except.toOption, Option.map_some, Option.some.injEq, Prod.mk.injEq] at hread
    obtain ⟨he, herrors, hchanged⟩ := hread
    have he : p.errors = [] := List.isEmpty_iff.mp he
    obtain ⟨-, hfuncs⟩ := passes_keep_wellFormed hp he {} maskingPasses
      (by simp [maskingPasses, Pass.all]) .english fun _ => false
    exact ⟨p, rfl, he, _, _, _, rfl, herrors, hchanged, hfuncs herrors⟩

end RegPressure
