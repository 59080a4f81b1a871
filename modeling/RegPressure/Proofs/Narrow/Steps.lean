import RegPressure.Proofs.IR.Checked
import RegPressure.Proofs.IR.Users
import RegPressure.Proofs.Narrow.Convert

namespace RegPressure.Narrow

variable {scope : Option Symbols} {f f' : Func} {d : DomInfo} {widths : List Int}

theorem isResize_iff {op : Op} : isResize op = true ↔ op = .trunc ∨ op = .sext ∨ op = .zext := by
  cases op <;> decide

/-- The widths that are tried: the given ones, if there are any. -/
def tried (widths : List Int) : List Int := if widths.isEmpty then defaultWidths else widths

structure DeadCast (f : Func) (id : Int) : Prop where
  unused : f.Unused id
  cast : ∃ i, f.instr? id = some i ∧ i.isErased = false ∧ isResize i.op = true

theorem DeadCast.of_erase (hf : f.WellFormed scope) {u id : Int} (he : f.erase u = .ok f')
    (hne : id ≠ u) (h : DeadCast f id) : DeadCast f' id := by
  obtain ⟨hadds, -⟩ := Func.adds_of_erase hf he
  obtain ⟨i, hi, hcast⟩ := h.cast
  refine ⟨fun b c j hc hne hj => ?_, i, by rw [hadds.instr id hne, hi], hcast⟩
  obtain ⟨hc, hcu⟩ := hadds.stands.mp hc
  exact h.unused b c j hc hne (by rw [← hadds.instr c hcu, hj])

/-- The casts that are erased in one round. -/
theorem dead_casts (hf : f.WellFormed scope) {users : Array (List Int)} (husers : f.userMap = .ok users)
    {dead : List Int} (hdead : dead = f.instrIds.filter fun id =>
      (f.instr? id).any (fun i => !i.isErased && isResize i.op) && users.getD id.toNat [] = []) :
    dead.Nodup ∧ ∀ id ∈ dead, DeadCast f id := by
  subst hdead
  refine ⟨Func.nodup_instrIds.filter _, fun id hid => ?_⟩
  obtain ⟨_, hdead⟩ := List.mem_filter.mp hid
  simp only [Bool.and_eq_true, Option.any_eq_true, decide_eq_true_eq, Bool.not_eq_true'] at hdead
  obtain ⟨hcast, hnone⟩ := hdead
  refine ⟨fun b c j hc _ hj hmem => ?_, hcast⟩
  have hlive : j.isErased = false := by simp [Instr.isErased, hf.home_eq hc hj]
  exact Func.userMap_spec husers hj hlive hmem hnone

variable {P : Func → Prop}

section Insert

open Edit

def AllowsInsertion (P : Func → Prop) : Prop :=
  ∀ f g b pos i u, i.name = "" → i.checked = false → P f → f.insertAt b pos i = .ok (g, u) → P g

variable (h : AllowsInsertion P) {i : Instr}

include h

theorem AllowsInsertion.insertAt (hname : i.name = "") (hmark : i.checked = false) (b pos : Int) :
    Keeps P (Edit.insertAt b pos i) :=
  keeps_change fun f g u hf he => h f g b pos i u hname hmark hf he

theorem AllowsInsertion.insertAfter (hname : i.name = "") (hmark : i.checked = false) (pos : Int) :
    Keeps P (Edit.insertAfter pos i) :=
  keeps_change fun f g u hf he => by
    simp only [Func.insertAfter, Checked.bind_eq_ok] at he
    obtain ⟨_, -, _, -, he⟩ := he
    exact h _ _ _ _ _ _ hname hmark hf he

theorem AllowsInsertion.insertBefore (hname : i.name = "") (hmark : i.checked = false) (pos : Int) :
    Keeps P (Edit.insertBefore pos i) :=
  keeps_change fun f g u hf he => by
    simp only [Func.insertBefore, Checked.bind_eq_ok] at he
    obtain ⟨_, -, _, -, he⟩ := he
    exact h _ _ _ _ _ _ hname hmark hf he

omit h in
theorem keeps_refuse {α : Type} (v : Value) (cause : String → Breach) :
    Keeps P (refuse scope v cause : Edit α) :=
  keeps_get.bind fun _ => (keeps_ask _).bind fun _ => keeps_throw _

/-- A resize adds at most a cast, which has no name and no mark. -/
theorem keeps_resize (v : Value) (target : Ty) : Keeps P (resize scope v target) := by
  unfold resize
  refine (keeps_ask _).bind fun t => ?_
  split
  · split
    · exact keeps_pure _
    refine (keeps_ask _).bind fun y => ?_
    obtain ⟨y, m⟩ := y
    dsimp only
    split
    · exact keeps_pure _
    split
    · exact keeps_pure _
    split
    · refine (keeps_ask _).bind fun i => ?_
      split
      · exact (keeps_ask _).bind fun _ => (h.insertAt rfl rfl _ _).bind fun _ => keeps_pure _
      · exact (h.insertAfter rfl rfl _).bind fun _ => keeps_pure _
    · exact keeps_get.bind fun _ => (keeps_ask _).bind fun _ => (h.insertAt rfl rfl _ _).bind fun _ =>
        keeps_pure _
    · exact keeps_refuse _ _
  · exact keeps_refuse _ _

theorem keeps_narrowOperands (i : Instr) (target : Ty) : Keeps P (narrowOperands scope i target) := by
  unfold narrowOperands
  dsimp only
  split
  · exact (keeps_ask _).bind fun _ => (keeps_resize h _ _).bind fun _ => (keeps_ask _).bind fun _ =>
      (keeps_resize h _ _).bind fun _ => keeps_pure _
  · exact (keeps_ask _).bind fun _ => (keeps_ask _).bind fun _ => (keeps_resize h _ _).bind fun _ =>
      (keeps_ask _).bind fun _ => (keeps_resize h _ _).bind fun _ => keeps_pure _
  · exact keeps_mapM fun _ => keeps_resize h _ _

end Insert

section Erase

variable (herase : ∀ g g' id, P g → DeadCast g id → g.erase id = .ok g' → P g')

include herase

theorem erase_all_induction (hwf : ∀ g, P g → g.WellFormed scope) {dead : List Int} (hf : P f)
    (hnodup : dead.Nodup) (hdead : ∀ id ∈ dead, DeadCast f id)
    (he : (dead.forM Edit.erase).run f = .ok () f') : P f' := by
  induction dead generalizing f with
  | nil =>
    obtain ⟨_, rfl⟩ := Edit.pure_eq_ok.mp he
    exact hf
  | cons id dead ih =>
    simp only [List.forM, Edit.bind_eq_ok, Edit.erase_eq_ok] at he
    obtain ⟨_, g, hg, he⟩ := he
    obtain ⟨hnew, hnodup⟩ := List.nodup_cons.mp hnodup
    refine ih (herase f g id hf (hdead id (List.mem_cons_self ..)) hg) hnodup (fun x hx => ?_) he
    exact (hdead x (List.mem_cons_of_mem _ hx)).of_erase (hwf f hf) hg (ne_of_mem_of_not_mem hx hnew)

theorem eraseDeadCasts_induction (hwf : ∀ g, P g → g.WellFormed scope) {rounds : Nat} (hf : P f)
    (he : (eraseDeadCasts rounds).run f = .ok () f') : P f' := by
  induction rounds generalizing f with
  | zero => exact absurd he Edit.throw_eq_ok.mp
  | succ rounds ih =>
    simp only [eraseDeadCasts, Edit.bind_eq_ok, Edit.get_eq_ok, Edit.ask_eq_ok] at he
    obtain ⟨_, _, ⟨rfl, rfl⟩, users, _, ⟨husers, rfl⟩, he⟩ := he
    split at he
    · obtain ⟨_, rfl⟩ := Edit.pure_eq_ok.mp he
      exact hf
    · obtain ⟨_, g, hg, he⟩ := Edit.bind_eq_ok.mp he
      obtain ⟨hnodup, hdead⟩ := dead_casts (hwf f hf) husers rfl
      exact ih (erase_all_induction herase hwf hf hnodup hdead hg) he

end Erase

section Convert

variable (hconvert : ∀ g g' k id w, P g → ValueRange.Context.of g (some d) = .ok k →
  (candidate? k widths).run' (ValueRange.Memo.empty g) = .ok (some (id, w)) →
    (convert scope id w).run g = .ok () g' → P g')

include hconvert

theorem convertAll_induction {steps : Nat} {changed : Bool} (hf : P f)
    (he : (convertAll scope d widths steps).run f = .ok changed f') : P f' := by
  induction steps generalizing f changed with
  | zero => exact absurd he Edit.throw_eq_ok.mp
  | succ steps ih =>
    simp only [convertAll, Edit.bind_eq_ok, Edit.ask_eq_ok, Checked.bind_eq_ok] at he
    obtain ⟨next, _, ⟨⟨k, hk, hnext⟩, rfl⟩, he⟩ := he
    split at he
    · obtain ⟨_, rfl⟩ := Edit.pure_eq_ok.mp he
      exact hf
    · next id w =>
      simp only [Edit.bind_eq_ok, Edit.pure_eq_ok] at he
      obtain ⟨_, g, hg, _, _, hrest, _, rfl⟩ := he
      exact ih (hconvert f g k id w hf hk hnext hg) hrest

end Convert

/-- What one conversion and one erasure keep of well-formed functions is kept. -/
theorem narrow_induction {changed : Bool} (hwf : ∀ g, P g → g.WellFormed scope)
    (hconvert : ∀ g g' k id w, P g → ValueRange.Context.of g (some d) = .ok k →
      (candidate? k (tried widths)).run' (ValueRange.Memo.empty g) = .ok (some (id, w)) →
        (convert scope id w).run g = .ok () g' → P g')
    (herase : ∀ g g' id, P g → DeadCast g id → g.erase id = .ok g' → P g') (hdom : DomInfo.compute f = .ok d) (hf : P f)
    (he : (narrow scope widths).run f = .ok changed f') : P f' := by
  simp only [narrow, Edit.bind_eq_ok, Edit.ask_eq_ok, Edit.get_eq_ok] at he
  obtain ⟨_, _, ⟨hd, rfl⟩, _, _, ⟨rfl, rfl⟩, again, g, hg, he⟩ := he
  rw [hdom] at hd
  cases hd
  have hg := convertAll_induction hconvert hf hg
  split at he
  · simp only [Edit.bind_eq_ok, Edit.get_eq_ok, Edit.pure_eq_ok] at he
    obtain ⟨_, _, ⟨rfl, rfl⟩, _, k, hk, _, rfl⟩ := he
    exact eraseDeadCasts_induction herase hwf hg hk
  · obtain ⟨_, rfl⟩ := Edit.pure_eq_ok.mp he
    exact hg

end RegPressure.Narrow
