import RegPressure.Proofs.Faultless.Advice
import RegPressure.Proofs.Faultless.Accepted
import RegPressure.Proofs.Pass.Pipeline

namespace RegPressure

open Checked

namespace Rename

variable {isBad : String → Bool} {func : String} {taken names : List String}

theorem clean_of_changes (h : changes isBad func names (clean isBad taken names) = []) :
    clean isBad taken names = names := by
  induction names generalizing taken with
  | nil => rfl
  | cons n ns ih =>
    unfold clean at h ⊢
    split
    · next hbad =>
      rw [if_pos hbad] at h
      simp [changes, hbad] at h
    · next hgood =>
      rw [if_neg hgood] at h
      have hrest : changes isBad func ns (clean isBad taken ns) = [] := by
        simpa [changes, hgood] using h
      rw [ih hrest]

end Rename

theorem Symbols.clean_of_nil {s : Symbols} (h : s.clean.2 = []) : s.clean.1 = s := by
  have hself : ∀ gs : List Global, (gs.zip (gs.map (·.name))).map
      (fun p => { p.1 with name := p.2 }) = gs := by
    intro gs
    induction gs with
    | nil => rfl
    | cons g gs ih => rw [List.map_cons, List.zip_cons_cons, List.map_cons, ih]
  dsimp only [Symbols.clean]
  rw [Rename.clean_of_changes h, hself]

namespace Func

variable {scope : Option Symbols} {f g : Func} {table : BoundsTable} {widths : List Int}

theorem clean_of_nil {r : Func × List Rename} (he : f.clean = .ok r) (hnil : r.2 = []) : r.1 = f := by
  simp only [Func.clean, bind_eq_ok, pure_eq_ok] at he
  obtain ⟨placed, hplaced, rfl⟩ := he
  have hself : ∀ l : List (Int × Instr), (∀ x ∈ l, f.instr? x.1 = some x.2) →
      (l.zip (l.map (·.2.name))).foldl
        (fun k x => k.setInstr x.1.1 ({ · with name := x.2 })) f = f := by
    intro l hl
    induction l with
    | nil => rfl
    | cons x l ih =>
      have hx := hl x (List.mem_cons_self ..)
      rw [List.map_cons, List.zip_cons_cons, List.foldl_cons, setInstr_eq_self hx rfl]
      exact ih fun y hy => hl y (List.mem_cons_of_mem _ hy)
  dsimp only at hnil ⊢
  rw [Rename.clean_of_changes hnil]
  exact hself placed fun x hx => (mem_placed hplaced hx).1

theorem assumeBounds_of_false {r : Func × Bool} (he : f.assumeBounds table = .ok r)
    (hnone : r.2 = false) : r.1 = f := by
  simp only [Func.assumeBounds, bind_eq_ok, pure_eq_ok] at he
  obtain ⟨placed, -, k, hk, rfl⟩ := he
  rw [List.isEmpty_iff.mp (Bool.not_eq_eq_eq_not.mp hnone)] at hk
  cases hk
  rfl

theorem narrow_of_false (he : (narrow scope widths).run f = .ok false g) : g = f := by
  have hall : ∀ {d widths steps g}, (Narrow.convertAll scope d widths steps).run f = .ok false g →
      g = f := by
    intro d widths steps g he
    cases steps with
    | zero => exact absurd he Edit.throw_eq_ok.mp
    | succ steps =>
      simp only [Narrow.convertAll, Edit.bind_eq_ok, Edit.ask_eq_ok] at he
      obtain ⟨next, _, ⟨-, rfl⟩, he⟩ := he
      cases next with
      | none => exact (Edit.pure_eq_ok.mp he).2.symm
      | some p =>
        simp only [Edit.bind_eq_ok, Edit.pure_eq_ok] at he
        obtain ⟨_, _, -, _, _, -, hchanged, -⟩ := he
        cases hchanged
  simp only [narrow, Edit.bind_eq_ok, Edit.ask_eq_ok, Edit.get_eq_ok] at he
  obtain ⟨_, _, ⟨-, rfl⟩, _, _, ⟨rfl, rfl⟩, again, k, hk, he⟩ := he
  cases again with
  | false =>
    obtain ⟨-, rfl⟩ := Edit.pure_eq_ok.mp he
    exact hall hk
  | true =>
    simp only [if_true, Edit.bind_eq_ok, Edit.pure_eq_ok] at he
    obtain ⟨_, _, -, _, _, -, hchanged, -⟩ := he
    cases hchanged

end Func

namespace Module

variable {m : Module}

theorem clean_of_nil {r : Module × List Rename} (he : m.clean = .ok r) (hnil : r.2 = []) :
    r.1 = m := by
  simp only [Module.clean, bind_eq_ok, pure_eq_ok] at he
  obtain ⟨funcs, hfuncs, rfl⟩ := he
  obtain ⟨hsymbols, hrenames⟩ := List.append_eq_nil_iff.mp hnil
  have hsame : funcs.map (·.1) = m.funcs := map_of_mapM hfuncs fun f r hr hf =>
    Func.clean_of_nil hf (List.flatMap_eq_nil_iff.mp hrenames r hr)
  rw [Symbols.clean_of_nil hsymbols, hsame]

theorem assumeBounds_of_false {table : BoundsTable} {r : Module × Bool}
    (he : m.assumeBounds table = .ok r) (hnone : r.2 = false) : r.1 = m := by
  simp only [Module.assumeBounds, bind_eq_ok, pure_eq_ok] at he
  obtain ⟨funcs, hfuncs, rfl⟩ := he
  have hsame : funcs.map (·.1) = m.funcs := map_of_mapM hfuncs fun f r hr hf =>
    Func.assumeBounds_of_false hf (Bool.eq_false_iff.mpr (List.any_eq_false.mp hnone r hr))
  dsimp only at hnone ⊢
  rw [hnone, hsame]
  rfl

end Module

namespace Pass

variable {scope : Option Symbols} {m : Module} {s : PassSettings} {q : Pass}

/-- What a pass that reports no change leaves of a function, and its error: the function as it was, or
what narrowing had made of it when it faulted. -/
inductive Leaves (s : PassSettings) (q : Pass) (scope : Option Symbols) (f : Func) :
    Func → Option PassError → Prop
  | same : Leaves s q scope f f none
  | broken (x : Fault) (g : Func) (hq : q.name = (narrowWidths s).name)
    (h : (narrow scope s.widths).run f = .error x g) : Leaves s q scope f g (some (.fault x))

namespace Leaves

variable {f g : Func} {o : Option PassError} {e : PassError}

theorem eq_of_none (h : Leaves s q scope f g none) : g = f := by
  cases h
  rfl

theorem eq_or_faulted (h : Leaves s q scope f g o) :
    g = f ∨ ∃ x, (narrow scope s.widths).run f = .error x g := by
  cases h with
  | same => exact .inl rfl
  | broken x g hq h => exact .inr ⟨x, h⟩

theorem of_error (h : Leaves s q scope f g (some e)) : ∃ x, e = .fault x ∧
    q.name = (narrowWidths s).name ∧ (narrow scope s.widths).run f = .error x g := by
  cases h with
  | broken x g hq h => exact ⟨x, rfl, hq, h⟩

end Leaves

structure Tells (s : PassSettings) (q : Pass) (m : Module) : Prop where
  onFunc : ∀ run, q.work = .onFunc run → ∀ f ∈ m.funcs,
    (run (some m.symbols) f).2.finding.changed = false →
      Leaves s q (some m.symbols) f (run (some m.symbols) f).1 (run (some m.symbols) f).2.error
  onModule : ∀ run, q.work = .onModule run →
    (run m).2.error = none ∧ ((run m).2.finding.changed = false → (run m).1 = m)
  works : q.work ≠ .nothing

theorem tells_ofQuery (name : String) {query : Option Symbols → Func → Checked Finding}
    (h : ∀ f ∈ m.funcs, Answers (query (some m.symbols) f)) : (ofQuery name query).Tells s m where
  onFunc run hrun f hf _ := by
    cases hrun
    obtain ⟨finding, hfinding⟩ := h f hf
    dsimp only
    rw [hfinding]
    exact .same
  onModule run hrun := by cases hrun
  works := by rintro ⟨⟩

theorem tells_ofChange (name : String) {change : Module → Checked (Module × Finding)}
    (h : ∃ r, change m = .ok r ∧ (r.2.changed = false → r.1 = m)) :
    (ofChange name change).Tells s m where
  onFunc run hrun := by cases hrun
  onModule run hrun := by
    cases hrun
    obtain ⟨r, hr, hsame⟩ := h
    dsimp only
    rw [hr]
    exact ⟨rfl, hsame⟩
  works := by rintro ⟨⟩

theorem tells_narrowWidths (s : PassSettings) (m : Module) : (narrowWidths s).Tells s m where
  onFunc run hrun f _ hchanged := by
    cases hrun
    dsimp only [Edit.apply] at hchanged ⊢
    cases hn : (narrow (some m.symbols) s.widths).run f with
    | ok changed g =>
      rw [hn] at hchanged
      cases changed with
      | false =>
        cases Func.narrow_of_false hn
        exact .same
      | true => cases hchanged
    | error x g => exact .broken x g rfl hn
  onModule run hrun := by cases hrun
  works := by rintro ⟨⟩

theorem tells_of_mem (hq : q ∈ all s) (hintact : m.Intact)
    (hsolid : ∀ f ∈ m.funcs, f.Solid m.symbols) : q.Tells s m := by
  simp only [all, List.mem_cons, List.not_mem_nil, or_false] at hq
  rcases hq with rfl | rfl | rfl | rfl | rfl | rfl
  · exact tells_ofQuery _ fun f hf => (hsolid f hf).answers_advise.bind_pure
  · obtain ⟨r, hr, -⟩ := hintact.exists_assumeBounds (BoundsTable.specialRegisters.extend s.ranges)
    refine tells_ofChange _ ⟨_, by rw [hr]; rfl, fun hnone => ?_⟩
    exact Module.assumeBounds_of_false hr hnone
  · exact tells_ofQuery _ fun f hf => (hsolid f hf).answers_liveText _
  · exact tells_ofQuery _ fun f hf => (ValueRange.answers_widthText (hsolid f hf)).bind_pure
  · exact tells_narrowWidths s m
  · obtain ⟨r, hr, -⟩ := hintact.exists_clean
    refine tells_ofChange _ ⟨_, by rw [hr]; rfl, fun hnone => ?_⟩
    exact Module.clean_of_nil hr (List.isEmpty_iff.mp (Bool.not_eq_eq_eq_not.mp hnone))

end Pass

namespace Pipeline

variable {lang : Lang} {pool : Pool} {m : Module} {s : PassSettings} {q : Pass}

/-- What a run has left of a module when a narrowing faulted in it: every function is as it was or as
its own faulted narrowing left it, and nothing but these faults is told. -/
structure Broken (lang : Lang) (s : PassSettings) (m m' : Module) (errors : List String) : Prop where
  name : m'.name = m.name
  symbols : m'.symbols = m.symbols
  funcs : List.Forall₂
    (fun f g => g = f ∨ ∃ x, (narrow (some m.symbols) s.widths).run f = .error x g) m.funcs m'.funcs
  ne_nil : errors ≠ []
  errors : ∀ e ∈ errors, ∃ f ∈ m.funcs, ∃ x g, (narrow (some m.symbols) s.widths).run f = .error x g ∧
    e = errorText lang (Pass.narrowWidths s).name g.name true (.fault x)

theorem runPass_unreported (lang : Lang) (pool : Pool) (hq : q.Tells s m)
    (hnone : (runPass lang pool q m).outputs.countP (·.changed) = 0) :
    ((runPass lang pool q m).module = m ∧ (runPass lang pool q m).errors = []) ∨
      Broken lang s m (runPass lang pool q m).module (runPass lang pool q m).errors := by
  cases hwork : q.work with
  | nothing => exact absurd hwork hq.works
  | onModule run =>
    obtain ⟨herror, hsame⟩ := hq.onModule run hwork
    simp only [runPass, hwork] at hnone ⊢
    refine .inl ⟨hsame ?_, by rw [herror]; rfl⟩
    simpa using List.countP_eq_zero.mp hnone
  | onFunc run =>
    rw [changes_runPass hwork] at hnone
    have hleaves : ∀ f ∈ m.funcs, Pass.Leaves s q (some m.symbols) f (run (some m.symbols) f).1
        (run (some m.symbols) f).2.error := fun f hf =>
      hq.onFunc run hwork f hf (by simpa using List.countP_eq_zero.mp hnone f hf)
    rw [module_runPass hwork, errors_runPass hwork]
    by_cases herrors : (m.funcs.filterMap fun f =>
        funcError lang q (run (some m.symbols) f).1 (run (some m.symbols) f).2) = []
    · have hsame : m.funcs.map (fun f => (run (some m.symbols) f).1) = m.funcs := by
        refine (List.map_congr_left fun f hf => ?_).trans (List.map_id _)
        have hfine := Option.map_eq_none_iff.mp (List.filterMap_eq_nil_iff.mp herrors f hf)
        exact (hfine ▸ hleaves f hf).eq_of_none
      exact .inl ⟨by rw [hsame], herrors⟩
    · refine .inr ⟨rfl, rfl, ?_, herrors, fun e he => ?_⟩
      · rw [List.forall₂_map_right_iff, List.forall₂_same]
        exact fun f hf => (hleaves f hf).eq_or_faulted
      · obtain ⟨f, hf, he⟩ := List.mem_filterMap.mp he
        obtain ⟨y, hy, rfl⟩ := Option.map_eq_some_iff.mp he
        obtain ⟨x, rfl, hname, hfault⟩ := (hy ▸ hleaves f hf).of_error
        exact ⟨f, hf, x, _, hfault, by rw [hname]⟩

theorem changed_runAll {verifyEach : Bool} {cancelled : Nat → Bool} {passes : List Pass}
    {stats : PassStats} {r : RunResult}
    (h : (runAll lang verifyEach cancelled passes pool stats m r).2.2.changed = false) :
    r.changed = false := by
  induction passes generalizing cancelled pool stats m r with
  | nil => exact h
  | cons q passes ih =>
    cases hc : cancelled 0 with
    | true =>
      rw [runAll_cancelled hc] at h
      exact h
    | false =>
      obtain ⟨stats', r', hr⟩ : ∃ stats' r', settle verifyEach q (runPass lang pool q m)
          ((runPass lang pool q m).outputs.countP (·.changed)) stats r = (stats', r') := ⟨_, _, rfl⟩
      have hchanged : r'.changed = false := by
        rw [runAll_cons hc hr] at h
        split at h
        · exact ih h
        · exact h
      rw [changed_of_settle hr] at hchanged
      exact (Bool.or_eq_false_iff.mp hchanged).1

theorem runAll_unreported (verifyEach : Bool) (cancelled : Nat → Bool) {passes : List Pass}
    (pool : Pool) (stats : PassStats) {r : RunResult} (hpasses : ∀ q ∈ passes, q.Tells s m) (hr : r.errors = [])
    (h : (runAll lang verifyEach cancelled passes pool stats m r).2.2.changed = false) :
    ((runAll lang verifyEach cancelled passes pool stats m r).2.1 = m ∧
      ((runAll lang verifyEach cancelled passes pool stats m r).2.2.errors = [] ∨
        (runAll lang verifyEach cancelled passes pool stats m r).2.2.errors = ["context canceled"])) ∨
      Broken lang s m (runAll lang verifyEach cancelled passes pool stats m r).2.1
        (runAll lang verifyEach cancelled passes pool stats m r).2.2.errors := by
  induction passes generalizing cancelled pool stats r with
  | nil => exact .inl ⟨rfl, .inl hr⟩
  | cons q passes ih =>
    cases hc : cancelled 0 with
    | true =>
      rw [runAll_cancelled hc]
      exact .inl ⟨rfl, .inr rfl⟩
    | false =>
      obtain ⟨stats', r', hset⟩ : ∃ stats' r', settle verifyEach q (runPass lang pool q m)
          ((runPass lang pool q m).outputs.countP (·.changed)) stats r = (stats', r') := ⟨_, _, rfl⟩
      rw [runAll_cons hc hset] at h ⊢
      have hchanged : r'.changed = false := by
        split at h
        · exact changed_runAll h
        · exact h
      have hnone : (runPass lang pool q m).outputs.countP (·.changed) = 0 := by
        rw [changed_of_settle hset, Bool.or_eq_false_iff] at hchanged
        simpa using hchanged.2
      rw [hnone] at hset
      rw [errors_of_settle hset] at h ⊢
      obtain ⟨hsame, hnil⟩ | hbroken :=
        runPass_unreported lang pool (hpasses q (List.mem_cons_self ..)) hnone
      · rw [hsame, hnil, if_pos List.isEmpty_nil] at h ⊢
        exact ih _ _ _ (fun p hp => hpasses p (List.mem_cons_of_mem _ hp))
          ((errors_of_settle hset).trans hnil) h
      · rw [if_neg (by simpa using hbroken.ne_nil)]
        rw [← errors_of_settle hset] at hbroken
        exact .inr hbroken

end Pipeline

/-- Whatever passes of the tool run one after the other on a module that was read, with whatever
settings and however the run ends: if it reports no change, then the module is what it was, unless the
run ended because narrowings faulted. Then each function is what it was or what its own faulted narrowing
has made of it, and nothing else has faulted. -/
theorem unchanged_unless_narrowing_faults {file : String} {src : Bytes} {p : Parsed}
    (h : parse file src = .ok p) (he : p.errors = []) (s : PassSettings) (line : Pipeline)
    (hpasses : ∀ q ∈ line.passes, q ∈ Pass.all s) (lang : Lang) (cancelled : Nat → Bool)
    (hchanged : (Pipeline.run lang cancelled line p.module).2.2.changed = false) :
    ((Pipeline.run lang cancelled line p.module).2.1 = p.module ∧
      ((Pipeline.run lang cancelled line p.module).2.2.errors = [] ∨
        (Pipeline.run lang cancelled line p.module).2.2.errors = ["context canceled"])) ∨
      Pipeline.Broken lang s p.module (Pipeline.run lang cancelled line p.module).2.1
        (Pipeline.run lang cancelled line p.module).2.2.errors := by
  have hread := (read_of_parse h he).funcs
  have htells : ∀ q ∈ line.passes, q.Tells s p.module := fun q hq =>
    Pass.tells_of_mem (hpasses q hq) (fun f hf => (hread f hf).intact) fun f hf => (hread f hf).solid
  exact Pipeline.runAll_unreported line.verifyEach cancelled line.pool line.stats htells rfl hchanged

def plainSum : Bytes := Bytes.ofString
  "func @f(%x: i64) -> i64 \x7b\na:\n  %s = add i64 %x, %x\n  ret i64 %s\n\x7d\n"

def allPasses : Pipeline where
  passes := Pass.all {}

theorem plainSum_unchanged : ∃ p, parse "f.mir" plainSum = .ok p ∧ p.errors = [] ∧
    (∀ q ∈ allPasses.passes, q ∈ Pass.all {}) ∧
      (Pipeline.run .english (fun _ => false) allPasses p.module).2.2.changed = false ∧
        (Pipeline.run .english (fun _ => false) allPasses p.module).2.1 = p.module := by
  have hread : ((parse "f.mir" plainSum).toOption.map fun p =>
      let r := (Pipeline.run .english (fun _ => false) allPasses p.module).2.2
      (p.errors.isEmpty, r.changed, r.errors.isEmpty)) = some (true, false, true) := by
    decide +kernel
  cases hp : parse "f.mir" plainSum with
  | error e =>
    rw [hp] at hread
    cases hread
  | ok p =>
    rw [hp] at hread
    simp only [Except.toOption, Option.map_some, Option.some.injEq, Prod.mk.injEq,
      List.isEmpty_iff] at hread
    obtain ⟨he, hchanged, herrors⟩ := hread
    refine ⟨p, rfl, he, fun _ hq => hq, hchanged, ?_⟩
    obtain ⟨hsame, -⟩ | hbroken :=
      unchanged_unless_narrowing_faults hp he {} allPasses (fun _ hq => hq) .english (fun _ => false)
        hchanged
    · exact hsame
    · exact absurd herrors hbroken.ne_nil

def lowSum : Bytes := Bytes.ofString
  "func @f(%x: i64) -> i64 \x7b\na:\n  %v = and i64 %x, 15\n  %r = and i64 undef, 15\n" ++
    Bytes.ofString "  %s = add i64 %v, %r\n  ret i64 %s\n\x7d\n"

def onlyNarrowing : Pipeline where
  passes := [.narrowWidths {}]

/-- The first operation of `lowSum` is narrowed before the second makes the pass fault, and no
change is reported. -/
theorem lowSum_changes_unreported : ∃ p, parse "f.mir" lowSum = .ok p ∧ p.errors = [] ∧
    (∀ q ∈ onlyNarrowing.passes, q ∈ Pass.all {}) ∧
      (Pipeline.run .english (fun _ => false) onlyNarrowing p.module).2.2.changed = false ∧
        (Pipeline.run .english (fun _ => false) onlyNarrowing p.module).2.1.funcs ≠ p.module.funcs := by
  have hread : ((parse "f.mir" lowSum).toOption.map fun p =>
      let r := (Pipeline.run .english (fun _ => false) onlyNarrowing p.module).2
      (p.errors.isEmpty, r.2.changed, decide (r.1.funcs = p.module.funcs))) =
        some (true, false, false) := by decide +kernel
  cases hp : parse "f.mir" lowSum with
  | error e =>
    rw [hp] at hread
    cases hread
  | ok p =>
    rw [hp] at hread
    simp only [Except.toOption, Option.map_some, Option.some.injEq, Prod.mk.injEq, List.isEmpty_iff,
      decide_eq_false_iff_not] at hread
    obtain ⟨he, hchanged, hfuncs⟩ := hread
    exact ⟨p, rfl, he, by simp [onlyNarrowing, Pass.all], hchanged, hfuncs⟩

end RegPressure
