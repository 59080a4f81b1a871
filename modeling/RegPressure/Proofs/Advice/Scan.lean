import RegPressure.Advice.Report
import RegPressure.Proofs.IR.Structure
import Mathlib.Data.List.Perm.Subperm

namespace RegPressure

variable {f : Func} {d : DomOracle} {dst : Nat}

def AtHand (f : Func) (d : DomOracle) (dst : Nat) (moved : Int → Prop) (v : Int) : Prop :=
  moved v ∨ ∃ i b, f.instr? v = some i ∧ i.home = some b ∧
    (b = dst ∨ 0 ≤ b ∧ d.dominates b.toNat dst = true)

theorem AtHand.mono {moved moved' : Int → Prop} {v : Int} (h : AtHand f d dst moved v)
    (hm : moved v → moved' v) : AtHand f d dst moved' v :=
  h.imp_left hm

namespace Collect

/-- Some candidate is this instruction. -/
def Holds (admitted : List Candidate) (id : Int) : Prop := ∃ c ∈ admitted, c.instr = id

variable {admitted found more : List Candidate} {vs : List (Int × Reason)} {round : Nat}

theorem any_eq_true {id : Int} : admitted.any (·.instr = id) = true ↔ Holds admitted id := by
  simp [Holds]

theorem holds_iff {id : Int} : Holds admitted id ↔ id ∈ admitted.map (·.instr) :=
  List.mem_map.symm

theorem holds_concat {c : Candidate} {id : Int} :
    Holds (admitted ++ [c]) id ↔ Holds admitted id ∨ c.instr = id := by
  simp [holds_iff, eq_comm]

theorem eq_true_of_operandsAvailable {user : Int} {ops : List Value} {avail : Bool}
    (h : operandsAvailable f d dst admitted user ops = .ok avail) :
    avail = true ↔ ∀ v, Value.instr v ∈ ops → AtHand f d dst (Holds admitted) v := by
  fun_induction operandsAvailable f d dst admitted user ops with
  | case1 =>
    cases h
    simp
  | case2 id rest hany ih =>
    have hhand : AtHand f d dst (Holds admitted) id := .inl (any_eq_true.mp hany)
    simp [ih h, hhand]
  | case3 id rest hany ih =>
    simp only [Checked.bind_eq_ok, Func.instr_eq_ok] at h
    obtain ⟨i, hi, h⟩ := h
    cases hhome : i.home with
    | none => simp [hhome] at h
    | some b =>
      have hhand : AtHand f d dst (Holds admitted) id ↔
          (b = dst || (0 ≤ b && d.dominates b.toNat dst)) = true := by
        simp [AtHand, ← any_eq_true, hany, hi, hhome]
      rw [hhome] at h
      dsimp only at h
      split at h
      · next hb => simp [ih h, hhand.mpr hb]
      · next hb =>
        cases h
        simp [mt hhand.mp hb]
  | case4 v rest hne ih =>
    have hv : ∀ u, Value.instr u ≠ v := fun u he => hne u he.symm
    simp [ih h, hv]

theorem answers_operandsAvailable (admitted : List Candidate) (user : Int) (ops : List Value)
    (hops : ∀ v, Value.instr v ∈ ops → f.isLive v = true) :
    Checked.Answers (operandsAvailable f d dst admitted user ops) := by
  induction ops with
  | nil => exact Checked.answers_pure _
  | cons v ops ih =>
    have hrest := ih fun x hx => hops x (List.mem_cons_of_mem _ hx)
    cases v with
    | instr id =>
      obtain ⟨i, hi, hlive⟩ := Func.isLive_iff.mp (hops id (List.mem_cons_self ..))
      obtain ⟨b, hb⟩ : ∃ b, i.home = some b := by
        rwa [Instr.isErased, Option.isNone_eq_false_iff, Option.isSome_iff_exists] at hlive
      unfold operandsAvailable
      refine Checked.answers_ite (fun _ => hrest) fun _ => ?_
      simp only [Func.instr_eq_ok.mpr hi, Checked.ok_bind, hb]
      exact Checked.answers_ite (fun _ => hrest) fun _ => Checked.answers_pure _
    | _ => exact hrest

structure Ready (f : Func) (d : DomOracle) (dst : Nat) (admitted : List Candidate)
    (x : Int × Reason) : Prop where
  movable : x.2.isMovable = true
  fresh : ¬ Holds admitted x.1
  operands : ∃ i, f.instr? x.1 = some i ∧
    ∀ v, Value.instr v ∈ i.operands → AtHand f d dst (Holds admitted) v

theorem scan_cons {x : Int × Reason} (h : scan f d dst round (x :: vs) admitted = .ok found) :
    Ready f d dst admitted x ∧
        scan f d dst round vs (admitted ++ [⟨x.1, x.2, round⟩]) = .ok found ∨
      ¬ Ready f d dst admitted x ∧ scan f d dst round vs admitted = .ok found := by
  obtain ⟨id, reason⟩ := x
  simp only [scan, Checked.bind_eq_ok, Func.instr_eq_ok] at h
  obtain ⟨i, hi, h⟩ := h
  split at h
  · next hskip =>
    refine .inr ⟨fun hr => ?_, h⟩
    simp only [hr.movable, Bool.not_true, Bool.false_or, any_eq_true] at hskip
    exact hr.fresh hskip
  · next hskip =>
    simp only [Bool.or_eq_true, Bool.not_eq_true', not_or, Bool.not_eq_false, any_eq_true] at hskip
    obtain ⟨avail, ha, h⟩ := Checked.bind_eq_ok.mp h
    have havail := eq_true_of_operandsAvailable ha
    cases avail with
    | true => exact .inl ⟨⟨hskip.1, hskip.2, i, hi, havail.mp rfl⟩, h⟩
    | false =>
      refine .inr ⟨fun hr => ?_, h⟩
      obtain ⟨j, hj, hops⟩ := hr.operands
      cases hi.symm.trans hj
      cases havail.mpr hops

theorem scan_keeps {P : List Candidate → Prop}
    (hstep : ∀ admitted round, ∀ x ∈ vs, P admitted → Ready f d dst admitted x →
      P (admitted ++ [⟨x.1, x.2, round⟩]))
    (hP : P admitted) (h : scan f d dst round vs admitted = .ok found) : P found := by
  induction vs generalizing admitted with
  | nil =>
    cases h
    exact hP
  | cons x vs ih =>
    have hrest := fun a r y hy => hstep a r y (List.mem_cons_of_mem x hy)
    rcases scan_cons h with ⟨hr, h⟩ | ⟨-, h⟩
    · exact ih hrest (hstep admitted round x (List.mem_cons_self ..) hP hr) h
    · exact ih hrest hP h

theorem prefix_of_scan (h : scan f d dst round vs admitted = .ok found) : admitted <+: found :=
  scan_keeps (P := (admitted <+: ·)) (fun _ _ _ _ hp _ => hp.trans (List.prefix_append ..))
    List.prefix_rfl h

theorem not_ready_of_scan (h : scan f d dst round vs admitted = .ok admitted) :
    ∀ x ∈ vs, ¬ Ready f d dst admitted x := by
  induction vs with
  | nil => simp
  | cons x vs ih =>
    rcases scan_cons h with ⟨-, h⟩ | ⟨hx, h⟩
    · have := (prefix_of_scan h).length_le
      rw [List.length_append, List.length_singleton] at this
      omega
    · exact List.forall_mem_cons.mpr ⟨hx, ih h⟩

def Scannable (f : Func) (vs : List (Int × Reason)) : Prop :=
  ∀ x ∈ vs, ∃ i, f.instr? x.1 = some i ∧ ∀ v, Value.instr v ∈ i.operands → f.isLive v = true

theorem answers_scan (hvs : Scannable f vs) (round : Nat) (admitted : List Candidate) :
    Checked.Answers (scan f d dst round vs admitted) := by
  induction vs generalizing admitted with
  | nil => exact Checked.answers_pure _
  | cons x vs ih =>
    have hrest := ih fun y hy => hvs y (List.mem_cons_of_mem _ hy)
    obtain ⟨i, hi, hops⟩ := hvs x (List.mem_cons_self ..)
    unfold scan
    simp only [Func.instr_eq_ok.mpr hi, Checked.ok_bind]
    refine Checked.answers_ite (fun _ => hrest _) fun _ => ?_
    refine (answers_operandsAvailable admitted x.1 i.operands hops).bind fun _ _ => ?_
    exact Checked.answers_ite (fun _ => hrest _) fun _ => hrest _

theorem answers_scans (hvs : Scannable f vs) (n round : Nat) (admitted : List Candidate) :
    Checked.Answers (scans f d dst vs n round admitted) := by
  induction n generalizing round admitted with
  | zero => exact Checked.answers_pure _
  | succ n ih =>
    refine (answers_scan hvs round admitted).bind fun _ _ => ?_
    exact Checked.answers_ite (fun _ => Checked.answers_pure _) fun _ => ih _ _

/-- Scan after scan admits something, and the last one nothing. -/
inductive Settles (f : Func) (d : DomOracle) (dst : Nat) (vs : List (Int × Reason)) :
    (round : Nat) → (admitted found : List Candidate) → Prop
  | stop {round : Nat} {admitted : List Candidate} :
    scan f d dst round vs admitted = .ok admitted → Settles f d dst vs round admitted admitted
  | again {round : Nat} {admitted more found : List Candidate} :
    scan f d dst round vs admitted = .ok more → admitted.length < more.length →
      Settles f d dst vs (round + 1) more found → Settles f d dst vs round admitted found

namespace Settles

theorem keeps {P : List Candidate → Prop}
    (hstep : ∀ admitted round, ∀ x ∈ vs, P admitted → Ready f d dst admitted x →
      P (admitted ++ [⟨x.1, x.2, round⟩]))
    (h : Settles f d dst vs round admitted found) (hP : P admitted) : P found := by
  induction h with
  | stop => exact hP
  | again hs _ _ ih => exact ih (scan_keeps hstep hP hs)

theorem not_ready (h : Settles f d dst vs round admitted found) :
    ∀ x ∈ vs, ¬ Ready f d dst found x := by
  induction h with
  | stop hs => exact not_ready_of_scan hs
  | again _ _ _ ih => exact ih

end Settles

structure Admitted (vs : List (Int × Reason)) (admitted : List Candidate) : Prop where
  nodup : (admitted.map (·.instr)).Nodup
  mem : ∀ c ∈ admitted, (c.instr, c.reason) ∈ vs
  movable : ∀ c ∈ admitted, c.reason.isMovable = true

namespace Admitted

theorem nil (vs : List (Int × Reason)) : Admitted vs [] := by
  constructor <;> simp

theorem push (h : Admitted vs admitted) (round : Nat) {x : Int × Reason} (hx : x ∈ vs)
    (hr : Ready f d dst admitted x) : Admitted vs (admitted ++ [⟨x.1, x.2, round⟩]) where
  nodup := by
    rw [List.map_append, List.map_singleton]
    refine List.nodup_append.mpr ⟨h.nodup, by simp, fun y hy z hz => ?_⟩
    rw [List.mem_singleton.mp hz]
    exact ne_of_mem_of_not_mem hy (mt holds_iff.mpr hr.fresh)
  mem := List.forall_mem_append.mpr ⟨h.mem, by simpa using hx⟩
  movable := List.forall_mem_append.mpr ⟨h.movable, by simpa using hr.movable⟩

theorem scan (h : Admitted vs admitted) (hs : Collect.scan f d dst round vs admitted = .ok found) :
    Admitted vs found :=
  scan_keeps (fun _ round _ hx h hr => h.push round hx hr) h hs

theorem length_le (h : Admitted vs admitted) : admitted.length ≤ vs.length := by
  have hsub : admitted.map (·.instr) ⊆ vs.map (·.1) := by
    intro id hid
    obtain ⟨c, hc, rfl⟩ := List.mem_map.mp hid
    exact List.mem_map_of_mem (h.mem c hc)
  simpa using (List.subperm_of_subset h.nodup hsub).length_le

end Admitted

/-- Each scan but the last admits an instruction that was not admitted before, so the number of
instructions bounds the scans. -/
theorem settles_of_scans (n : Nat) (hadm : Admitted vs admitted)
    (hn : vs.length < n + admitted.length) (h : scans f d dst vs n round admitted = .ok found) :
    Settles f d dst vs round admitted found := by
  induction n generalizing round admitted with
  | zero =>
    have := hadm.length_le
    omega
  | succ n ih =>
    simp only [scans, Checked.bind_eq_ok] at h
    obtain ⟨more, hmore, h⟩ := h
    have hprefix := prefix_of_scan hmore
    have hle := hprefix.length_le
    split at h
    · next hlen =>
      cases h
      rw [← hprefix.eq_of_length hlen.symm] at hmore
      exact .stop hmore
    · exact .again hmore (by omega) (ih (hadm.scan hmore) (by omega) h)

end Collect

end RegPressure
