import RegPressure.Config.Basic
import RegPressure.Proofs.Narrow.Candidate
import RegPressure.Proofs.Narrow.Steps

namespace RegPressure

namespace Narrow

variable {scope : Option Symbols} {f f' g : Func} {d : DomInfo} {widths : List Int}

theorem Narrowable.erase_cast {u : Int} {i : Instr} (h : Narrowable scope d widths f)
    (hunused : f.Unused u) (hi : f.instr? u = some i) (hop : isResize i.op = true)
    (he : f.erase u = .ok f') : Narrowable scope d widths f' ∧ Alike f f' := by
  have hcast := isResize_iff.mp hop
  obtain ⟨_, b, hb⟩ := Func.adds_of_erase h.proper.wf he
  refine h.erase he hunused ?_ fun j hj W hW hD s rest hs hrest => ?_
  · rw [Func.opOf_eq hi]
    rcases hcast with he | he | he <;> (rw [he]; exact .inl rfl)
  · rw [hi] at hj
    cases hj
    exact hD.exists_result h.proper.typed hb hi hcast s

theorem Narrowable.convert_candidate {k : ValueRange.Context} {id w : Int}
    (h : Narrowable scope d widths f) (hwidths : ∀ w ∈ widths, 0 < w ∧ w < 64)
    (hk : ValueRange.Context.of f (some d) = .ok k)
    (hnext : (candidate? k widths).run' (ValueRange.Memo.empty f) = .ok (some (id, w)))
    (he : (convert scope id w).run f = .ok () f') : Narrowable scope d widths f' ∧ Alike f f' := by
  have hcandidate := candidate?_ensures h hk (fun w hw => (hwidths w hw).1) (ValueRange.Memo.empty f)
    ValueRange.Memo.good_empty
  simp only [StateT.run', Checked.map_eq_ok] at hnext
  obtain ⟨⟨r, m⟩, hm, rfl⟩ := hnext
  rw [hm] at hcandidate
  obtain ⟨hmem, b, hb, hn⟩ := hcandidate.2 id w rfl
  obtain ⟨h0, h64⟩ := hwidths w hmem
  exact convert_spec h ⟨by omega, by omega⟩ (by omega) hb hn he

theorem narrow_spec {changed : Bool} (h : Narrowable scope d (tried widths) f)
    (hdom : DomInfo.compute f = .ok d) (hwidths : ∀ w ∈ tried widths, 0 < w ∧ w < 64)
    (he : (narrow scope widths).run f = .ok changed f') :
    Narrowable scope d (tried widths) f' ∧ Alike f f' := by
  refine narrow_induction (P := fun g => Narrowable scope d (tried widths) g ∧ Alike f g)
    (fun g hg => hg.1.proper.wf) (fun g g' k id w hg hk hnext hg' => ?_)
    (fun g g' id hg hdead hg' => ?_) hdom ⟨h, .refl f⟩ he
  · obtain ⟨h', halike⟩ := hg.1.convert_candidate hwidths hk hnext hg'
    exact ⟨h', hg.2.trans halike⟩
  · obtain ⟨i, hi, -, hop⟩ := hdead.cast
    obtain ⟨h', halike⟩ := hg.1.erase_cast hdead.unused hi hop hg'
    exact ⟨h', hg.2.trans halike⟩

end Narrow

open Narrow

theorem Config.tried_of_accepted {c : Config} (h : c.problem? = none) :
    ∀ w ∈ tried c.settings.widths, 0 < w ∧ w < 64 := by
  have hgiven : ∀ w ∈ c.settings.widths, 0 < w ∧ w < 64 := by
    intro w hw
    obtain ⟨x, hx, rfl⟩ := List.mem_map.mp hw
    unfold problem? at h
    split at h
    · cases h
    split at h
    · cases h
    cases hfind : c.widths.find? fun w => w ≤ 0 || w ≥ 64 with
    | some y => simp [hfind] at h
    | none =>
      have hrange := List.find?_eq_none.mp hfind x hx
      simp only [Bool.or_eq_true, decide_eq_true_eq, not_or, Int64.le_iff_toInt_le, ge_iff_le] at hrange
      exact ⟨not_le.mp hrange.1, not_le.mp hrange.2⟩
  unfold tried
  split
  · decide
  · exact hgiven

/-- Narrowing changes nothing that can be seen of the runs of a function: branches, memory accesses
and calls with their operands, and what is returned. Two things must not be in it: a sign extension
of a true bit, and a right shift that works on numbers of one of the widths only, but by that width
or more. -/
theorem narrow_preserves_runs {c : Config} {f f' : Func} {d : DomInfo} {changed : Bool}
    (haccepted : c.problem? = none) (hverify : f.verify scope = .ok [])
    (hdom : DomInfo.compute f = .ok d) (hssa : f.InSsaForm d fun b => d.dom.isReachable b = true)
    (htyped : f.WellTyped) (hbits : ExtendsNoTrueBit f) (hshifts : ShiftsBelow (tried c.settings.widths) f)
    (he : (narrow scope c.settings.widths).run f = .ok changed f') (W : World) (hW : W.Fits f)
    (hD : W.Definite) (seen : List Event) : (∃ s, Runs W f' seen s) ↔ ∃ s, Runs W f seen s := by
  have hproper : f.Proper scope d := ⟨⟨Func.verify_eq_nil.mp hverify, hdom⟩, hssa, htyped⟩
  have hspec := narrow_spec ⟨hproper, hbits, hshifts⟩ hdom (Config.tried_of_accepted haccepted) he
  exact hspec.2.runs W hW hD seen

def shifting (c : Int64) : Func where
  name := "shifting"
  params := [⟨"x", some (.int 16)⟩]
  ret := .i32
  blocks := #[{ name := "start", instrs := [0, 1, 2] }]
  instrs := #[{ home := some 0, op := .sext, ty := .i32, operands := [.arg 0] },
    { home := some 0, op := .ashr, ty := .i32, operands := [.instr 0, .int (some .i32) c] },
    { home := some 0, op := .ret, operands := [.instr 1] }]
  entry := some 0

namespace shifting

def dominance : DomInfo := ⟨(shifting 0).graph.dominators 0, (shifting 0).graph.postDominators⟩

/-- The shift at sixteen bits. -/
def narrowed (c : Int64) : Instr :=
  { home := some 0, op := .ashr, ty := .int 16, operands := [.arg 0, .int (some (.int 16)) c] }

theorem fits (c : Int64) {x : Int} (hx : (Ty.int 16).Holds x) : (World.quiet x).Fits (shifting c) := by
  refine ⟨fun n p t hp ht => ?_, fun t x hx => hx ▸ t.holds_zero⟩
  obtain ⟨hn, rfl⟩ := List.getElem?_eq_some_iff.mp hp
  obtain rfl : n = 0 := by simpa [shifting] using hn
  cases ht
  exact hx

theorem returns {c : Int64} (hc : (BitVec.ofInt 32 c.toInt).toNat < 32) (x : Int) :
    ∃ s, Runs (.quiet x) (shifting c) [.ret { op := .ret }
      [(((BitVec.ofInt 16 x).signExtend 32).sshiftRight (BitVec.ofInt 32 c.toInt).toNat).toInt]] s := by
  let wide := (BitVec.ofInt 16 x).signExtend 32
  let amount := (BitVec.ofInt 32 c.toInt).toNat
  let s₀ : State := ⟨0, [0, 1, 2], fun _ => 0, fun _ => 0, none, fun _ => 0⟩
  let s₁ := s₀.after [1, 2] 0 wide.toInt
  let s₂ := s₁.after [2] 1 (wide.sshiftRight amount).toInt
  have h₁ : Runs (.quiet x) (shifting c) [] s₁ := by
    have hreads : List.Forall₂ (Reads (.quiet x) s₀.env) [.arg 0] [x] := .cons rfl .nil
    exact .step (.start ⟨rfl, rfl, rfl⟩) (.on (s := s₀) rfl rfl (.compute rfl hreads (.sext rfl rfl rfl)))
  have h₂ : Runs (.quiet x) (shifting c) [] s₂ := by
    have hreads : List.Forall₂ (Reads (.quiet x) s₁.env) [.instr 0, .int (some .i32) c]
        [wide.toInt, constValue (some .i32) c] := .cons (State.env_after ..).symm (.cons rfl .nil)
    refine .step h₁ (.on rfl rfl (.compute rfl hreads (.arith rfl rfl ?_)))
    have hval : constValue (some .i32) c = c.toInt := if_neg (by decide)
    show (if _ then _ else _) = _
    rw [hval, BitVec.ofInt_toInt, if_pos hc]
  exact ⟨_, .step h₂ (.ret rfl rfl rfl (.cons (State.env_after ..).symm .nil))⟩

theorem not_result {c : Int64} (hc : 16 ≤ (BitVec.ofInt 16 c.toInt).toNat) {f : Func} {s : State} {x y : Int}
    {e : Option Event} : ¬ Result (.quiet x) f s (narrowed c) e y := by
  intro h
  have hpure : (narrowed c).op.isPure = true := rfl
  obtain ⟨_, vals, hvals, hgives | ⟨hgo, _⟩⟩ := (result_iff hpure).mp h
  · obtain ⟨a, b, r, rfl, _, hr⟩ := (gives_arith rfl rfl).mp hgives
    have hval : constValue (some (.int 16)) c = c.toInt := if_neg (by decide)
    have hb : b = c.toInt := by
      cases hvals with
      | cons _ hvals =>
        cases hvals with
        | cons hb _ => exact hb.trans hval
    subst hb
    exact absurd (if_neg (by omega)) (hr ▸ Option.some_ne_none r)
  · exact hgo

end shifting

open shifting

theorem shifting_little_preserves_runs : ∃ f', (narrow none [16]).run (shifting 3) = .ok true f' ∧
    f'.instr? 3 = some (narrowed 3) ∧ ∃ s, Runs (.quiet 800) f' [.ret { op := .ret } [100]] s := by
  have hnarrow : (match (narrow none [16]).run (shifting 3) with
      | .ok b f => b && f.instr? 3 = some (narrowed 3)
      | .error _ _ => false) = true := by decide +kernel
  split at hnarrow
  · next b f' he =>
    simp only [Bool.and_eq_true, decide_eq_true_eq] at hnarrow
    obtain ⟨rfl, hi⟩ := hnarrow
    have haccepted : ({ widths := [16] } : Config).problem? = none := by decide +kernel
    have hdom : DomInfo.compute (shifting 3) = .ok dominance := by decide +kernel
    have hssa : (shifting 3).InSsaForm dominance fun b => dominance.dom.isReachable b = true :=
      Func.inSsaForm_of_holds (by decide +kernel) (by decide +kernel)
    have hpreserves := narrow_preserves_runs haccepted (by decide +kernel) hdom hssa
      (Func.wellTyped_of_holds (by decide +kernel)) (extendsNoTrueBit_of_holds (by decide +kernel))
      (shiftsBelow_of_holds (by decide +kernel)) he (.quiet 800) (fits 3 (by decide)) (World.quiet_definite _)
    exact ⟨f', he, hi, (hpreserves _).mpr (returns (c := 3) (by decide) 800)⟩
  · cases hnarrow

/-- Shifted by twenty, it is not returned any more: the narrow shift has no result. -/
theorem shifting_far_loses_return : ({ widths := [16] } : Config).problem? = none ∧
    (shifting 20).verify none = .ok [] ∧ DomInfo.compute (shifting 20) = .ok dominance ∧
    ((shifting 20).InSsaForm dominance fun b => dominance.dom.isReachable b = true) ∧
    (shifting 20).WellTyped ∧ (World.quiet 800).Fits (shifting 20) ∧ (World.quiet 800).Definite ∧
    ∃ f', (narrow none ({ widths := [16] } : Config).settings.widths).run (shifting 20) = .ok true f' ∧
      (∃ s, Runs (.quiet 800) (shifting 20) [.ret { op := .ret } [0]] s) ∧
        ¬ ∃ s, Runs (.quiet 800) f' [.ret { op := .ret } [0]] s := by
  have hnarrow : (match (narrow none [16]).run (shifting 20) with
      | .ok b f => b && f.bodyOf f.entryNode = [3, 4, 2] && f.instr? 3 = some (narrowed 20)
      | .error _ _ => false) = true := by decide +kernel
  refine ⟨by decide +kernel, by decide +kernel, by decide +kernel, ?_, ?_, fits 20 (by decide),
    World.quiet_definite _, ?_⟩
  · exact Func.inSsaForm_of_holds (by decide +kernel) (by decide +kernel)
  · exact Func.wellTyped_of_holds (by decide +kernel)
  · split at hnarrow
    · next b f' he =>
      simp only [Bool.and_eq_true, decide_eq_true_eq] at hnarrow
      obtain ⟨⟨rfl, hbody⟩, hi⟩ := hnarrow
      refine ⟨f', he, returns (c := 20) (by decide) 800, ?_⟩
      rintro ⟨s, hs⟩
      have hnone := hs.stuck hbody hi rfl fun _ _ _ => not_result (c := 20) (by decide)
      cases hnone.1
    · cases hnarrow

end RegPressure
