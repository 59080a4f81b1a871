import RegPressure.Proofs.Ssa.ResultTypes
import RegPressure.Proofs.ValueRange.Constants

namespace RegPressure

variable {W : World} {f : Func} {s t : State} {i : Instr} {id : Int} {rest : List Int}

/-- A run goes over these instructions without an event. -/
inductive RunsOver (W : World) (f : Func) : List Int → State → State → Prop
  | nil {s : State} : RunsOver W f [] s s
  | cons {id : Int} {ids : List Int} {s t u : State} : s.rest.head? = some id → Step W f s none t →
      RunsOver W f ids t u → RunsOver W f (id :: ids) s u

theorem runsOver_singleton (hrest : s.rest = id :: rest) : RunsOver W f [id] s t ↔ Step W f s none t := by
  constructor
  · rintro (_ | ⟨-, hstep, _ | _⟩)
    exact hstep
  · exact fun hstep => .cons (by rw [hrest]; rfl) hstep .nil

theorem runsOver_pair {id' : Int} (hrest : s.rest = id :: rest) : RunsOver W f [id, id'] s t ↔
    ∃ u, Step W f s none u ∧ u.rest.head? = some id' ∧ Step W f u none t := by
  constructor
  · rintro (_ | ⟨-, hfirst, _ | ⟨hhead, hsecond, _ | _⟩⟩)
    exact ⟨_, hfirst, hhead, hsecond⟩
  · rintro ⟨u, hfirst, hhead, hsecond⟩
    exact .cons (by rw [hrest]; rfl) hfirst (.cons hhead hsecond .nil)

theorem step_of_isPure {cs : List Int} (hW : ¬ W.resumes) (hrest : s.rest = id :: rest)
    (hi : f.instr? id = some i) (hpure : i.op.isPure = true)
    (hreads : ∀ vals, List.Forall₂ (Reads W s.env) i.operands vals ↔ vals = cs) :
    Step W f s none t ↔ ∃ x, Gives W (f.widthOf i) i cs x ∧ t = s.after rest id x := by
  constructor
  · intro h
    cases h with
    | on hid hj hx =>
      rw [hrest] at hid
      cases hid
      cases hi.symm.trans hj
      obtain ⟨-, vals, hvals, hgives | ⟨hresumes, -⟩⟩ := (result_iff hpure).mp hx
      · cases (hreads vals).mp hvals
        exact ⟨_, hgives, rfl⟩
      · exact absurd hresumes hW
  · rintro ⟨x, hgives, rfl⟩
    exact .on hrest hi (.compute hpure ((hreads cs).mpr rfl) hgives)

def numberOf (signed : Bool) (w : Nat) (bits : Int) : Int :=
  if signed then (BitVec.ofInt w bits).toInt else (BitVec.ofInt w bits).toNat

section Numbers

variable {signed : Bool} {w m : Nat} {c : Int}

theorem ofInt_numberOf (signed : Bool) (w : Nat) (bits : Int) :
    BitVec.ofInt w (numberOf signed w bits) = BitVec.ofInt w bits := by
  cases signed with
  | true => exact BitVec.ofInt_toInt
  | false =>
    have h : BitVec.ofInt w ((BitVec.ofInt w bits).toNat : Int) = BitVec.ofInt w bits := by
      rw [BitVec.ofInt_natCast, BitVec.ofNat_toNat, BitVec.setWidth_eq]
    exact h

theorem numberOf_congr {b : Int} (h : BitVec.ofInt w b = BitVec.ofInt w c) :
    numberOf signed w b = numberOf signed w c := by
  rw [numberOf, numberOf, h]

theorem toNat_of_numberOf {n : Nat} (h : numberOf signed w c = n) :
    (BitVec.ofInt w c).toNat = n := by
  cases signed with
  | true =>
    have h : (BitVec.ofInt w c).toInt = n := h
    have hnat := Interval.toNat_eq_toInt (x := BitVec.ofInt w c) (by omega)
    omega
  | false => exact Int.ofNat.inj h

theorem toNat_ofInt_trunc {n : Nat} (h : numberOf signed m c = n) (hw : w ≤ m) :
    (BitVec.ofInt w (BitVec.ofInt w c).toInt).toNat = n % 2 ^ w := by
  rw [BitVec.ofInt_toInt, ← setWidth_ofInt hw, BitVec.toNat_setWidth, toNat_of_numberOf h]

theorem toNat_ofInt_zext {n : Nat} (h : numberOf signed m c = n) :
    (BitVec.ofInt w ((BitVec.ofInt m c).zeroExtend w).toInt).toNat = n % 2 ^ w := by
  rw [BitVec.ofInt_toInt, BitVec.toNat_setWidth, toNat_of_numberOf h]

end Numbers

namespace Ssa

/-- What a shift by `n` places gives: a product with a power of two as far as the type has room for it,
or a quotient rounded down. -/
def Arith.shifted (a : Arith) (signed : Bool) (w : Nat) (x : Int) (n : Nat) : Int :=
  if a = .shl then numberOf signed w (x * 2 ^ n) else x / 2 ^ n

/-- A shift has a result if the amount is below the width, and then it is the shift by that amount. -/
theorem Arith.arith_of_isShift {a : Arith} {op : Op} {signed : Bool} (ha : a.isShift = true)
    (hop : a.wordOp? (!signed) = some op) {w : Nat} (u c : Int) :
    op.isArith = true ∧
    ((BitVec.ofInt w c).toNat < w → ∃ r, op.arith (BitVec.ofInt w u) (BitVec.ofInt w c) = some r) ∧
    ∀ r, op.arith (BitVec.ofInt w u) (BitVec.ofInt w c) = some r → (BitVec.ofInt w c).toNat < w ∧
      numberOf signed w r.toInt =
        a.shifted signed w (numberOf signed w u) (BitVec.ofInt w c).toNat := by
  generalize BitVec.ofInt w c = amount
  cases a with
  | shl =>
    cases hop
    refine ⟨rfl, fun h => ⟨_, if_pos h⟩, fun r hr => ?_⟩
    obtain ⟨hlt, hr⟩ := Option.ite_none_right_eq_some.mp hr
    cases hr
    refine ⟨hlt, ?_⟩
    have hpow : BitVec.ofInt w (2 ^ amount.toNat) = BitVec.twoPow w amount.toNat := by
      apply BitVec.eq_of_toNat_eq
      rw [BitVec.toNat_twoPow, BitVec.toNat_ofInt]
      norm_cast
    have hbits : BitVec.ofInt w (numberOf signed w u * 2 ^ amount.toNat) =
        BitVec.ofInt w (BitVec.ofInt w u <<< amount.toNat).toInt := by
      rw [BitVec.ofInt_toInt, BitVec.ofInt_mul, ofInt_numberOf, hpow,
        BitVec.shiftLeft_eq_mul_twoPow]
    rw [Arith.shifted, if_pos rfl, numberOf, numberOf, hbits]
  | shr =>
    cases signed with
    | true =>
      cases hop
      refine ⟨rfl, fun h => ⟨_, if_pos h⟩, fun r hr => ?_⟩
      obtain ⟨hlt, hr⟩ := Option.ite_none_right_eq_some.mp hr
      cases hr
      refine ⟨hlt, ?_⟩
      have hright : (BitVec.ofInt w ((BitVec.ofInt w u).sshiftRight amount.toNat).toInt).toInt =
          (BitVec.ofInt w u).toInt / 2 ^ amount.toNat := by
        rw [BitVec.ofInt_toInt, BitVec.toInt_sshiftRight, Int.shiftRight_eq_div_pow]
        norm_cast
      exact hright
    | false =>
      cases hop
      refine ⟨rfl, fun h => ⟨_, if_pos h⟩, fun r hr => ?_⟩
      obtain ⟨hlt, hr⟩ := Option.ite_none_right_eq_some.mp hr
      cases hr
      refine ⟨hlt, ?_⟩
      have hright : ((BitVec.ofInt w (BitVec.ofInt w u >>> amount.toNat).toInt).toNat : Int) =
          (BitVec.ofInt w u).toNat / 2 ^ amount.toNat := by
        rw [BitVec.ofInt_toInt, BitVec.toNat_ushiftRight, Nat.shiftRight_eq_div_pow]
        norm_cast
      exact hright
  | _ => cases ha

end Ssa

/-- All runs over the instructions of a shift end behind them with the shifted number in the last one, and
there are some if and only if the amount is below the width. -/
structure ShiftRuns (W : World) (f : Func) (ids : List Int) (s : State) (rest : List Int) (last : Int)
    (a : Ssa.Arith) (signed : Bool) (w : Nat) (x : Int) (n : Nat) : Prop where
  defined : (∃ t, RunsOver W f ids s t) ↔ n < w
  result : ∀ t, RunsOver W f ids s t →
    t.rest = rest ∧ numberOf signed w (t.env last) = a.shifted signed w x n

section Steps

variable {a : Ssa.Arith} {signed : Bool} {w m : Nat} {u c : Int} {vx vy : Value}

/-- What is left of a run that shifts: it passes if and only if the amount is below the width. -/
theorem step_shift_iff (hW : ¬ W.resumes) (hrest : s.rest = id :: rest) (hi : f.instr? id = some i)
    (hshift : a.isShift = true) (hop : a.wordOp? (!signed) = some i.op) (hty : i.ty = .int w)
    (hoperands : i.operands = [vx, vy]) (hu : ∀ z, Reads W s.env vx z ↔ z = u)
    (hc : ∀ z, Reads W s.env vy z ↔ z = c) :
    ((∃ t, Step W f s none t) ↔ (BitVec.ofInt w c).toNat < w) ∧
      ∀ t, Step W f s none t → t.rest = rest ∧ numberOf signed w (t.env id) =
        a.shifted signed w (numberOf signed w u) (BitVec.ofInt w c).toNat := by
  obtain ⟨harith, hexists, hresult⟩ := Ssa.Arith.arith_of_isShift hshift hop (w := w) u c
  have hreads : ∀ vals, List.Forall₂ (Reads W s.env) i.operands vals ↔ vals = [u, c] := by
    simp [hoperands, List.forall₂_cons_left_iff, hu, hc]
  have hstep : ∀ t, Step W f s none t ↔
      ∃ r, i.op.arith (BitVec.ofInt w u) (BitVec.ofInt w c) = some r ∧
        t = s.after rest id r.toInt := by
    intro t
    rw [step_of_isPure hW hrest hi (Op.isPure_of_isArith harith) hreads]
    simp only [gives_arith harith hty]
    constructor
    · rintro ⟨_, ⟨a, b, r, hvals, rfl, hr⟩, rfl⟩
      cases hvals
      exact ⟨r, hr, rfl⟩
    · rintro ⟨r, hr, rfl⟩
      exact ⟨_, ⟨_, _, r, rfl, rfl, hr⟩, rfl⟩
  constructor
  · constructor
    · rintro ⟨t, ht⟩
      obtain ⟨r, hr, -⟩ := (hstep t).mp ht
      exact (hresult r hr).1
    · intro hlt
      obtain ⟨r, hr⟩ := hexists hlt
      exact ⟨_, (hstep _).mpr ⟨r, hr, rfl⟩⟩
  · intro t ht
    obtain ⟨r, hr, rfl⟩ := (hstep t).mp ht
    exact ⟨rfl, by rw [State.env_after]; exact (hresult r hr).2⟩

theorem step_cast_iff {n : Nat} (hW : ¬ W.resumes) (hrest : s.rest = id :: rest)
    (hi : f.instr? id = some i) (hty : i.ty = .int w)
    (hop : i.op = if w < m then .trunc else .zext) (hoperands : i.operands = [vy])
    (hv : f.typeOf vy = .ok (some (.int m))) (hc : ∀ z, Reads W s.env vy z ↔ z = c)
    (hn : numberOf signed m c = n) :
    ∃ z, (∀ t, Step W f s none t ↔ t = s.after rest id z) ∧ (BitVec.ofInt w z).toNat = n % 2 ^ w := by
  have hreads : ∀ vals, List.Forall₂ (Reads W s.env) i.operands vals ↔ vals = [c] := by
    simp [hoperands, List.forall₂_cons_left_iff, hc]
  by_cases hlt : w < m
  · rw [if_pos hlt] at hop
    refine ⟨_, fun t => ?_, toNat_ofInt_trunc hn hlt.le⟩
    rw [step_of_isPure hW hrest hi (by rw [hop]; rfl) hreads]
    simp [gives_trunc hop hty]
  · rw [if_neg hlt] at hop
    have hwidth : f.widthOf i = some m := by
      simp [Func.widthOf, hoperands, hv]
    refine ⟨_, fun t => ?_, toNat_ofInt_zext hn⟩
    rw [step_of_isPure hW hrest hi (by rw [hop]; rfl) hreads, hwidth]
    simp [gives_zext hop hty]

end Steps

namespace Ssa

variable {t : SourceTy} {signed : Bool} {w : Nat}

theorem width_of_integer (h : t.basicKind? = some (.integer signed w)) : w ∈ [8, 16, 32, 64] := by
  have hall : ∀ e ∈ basicTypes, ∀ b n, e.2 = .integer b n → n ∈ [8, 16, 32, 64] := by
    simp [basicTypes]
  unfold SourceTy.basicKind? at h
  split at h
  · next b _ => exact hall _ b.known signed w (Option.some.inj h)
  · cases h

theorem bounds_of_integer (h : t.basicKind? = some (.integer signed w)) : 1 < w ∧ w ≤ 64 := by
  have hw := width_of_integer h
  simp only [List.mem_cons, List.not_mem_nil, or_false] at hw
  omega

theorem ofInt_word {m : Nat} {n : Int} (h : InRange signed m n) (hm : m ≤ 64) (hw : w ≤ 64) :
    BitVec.ofInt w (Literal.word n).toInt = BitVec.ofInt w n := by
  by_cases hfits : Word.Fits n
  · rw [toInt_word hfits]
  · have h0 : 0 ≤ n := by
      cases signed with
      | true => exact absurd (fits_of_holds hm h) hfits
      | false => exact h.1
    have hword : Literal.word n = .ofInt n := by
      rw [Literal.word, Word.ofInt?]
      split
      · rfl
      · exact congrArg Int64.ofInt (Int.natAbs_of_nonneg h0)
    have hlow : (BitVec.ofInt 64 (Int64.ofInt n).toInt).setWidth w =
        (BitVec.ofInt 64 n).setWidth w :=
      congrArg (BitVec.setWidth w) BitVec.ofInt_toInt
    rwa [hword, ← setWidth_ofInt hw, ← setWidth_ofInt hw]

theorem numberOf_of_inRange {n : Int} (hw : 1 ≤ w) (h : InRange signed w n) :
    numberOf signed w n = n := by
  cases signed with
  | true => exact ofInt_toInt_of_holds hw h
  | false =>
    obtain ⟨hlo, hhi⟩ : 0 ≤ n ∧ n < 2 ^ w := h
    have hn : ((BitVec.ofInt w n).toNat : Int) = n := by
      rw [BitVec.toNat_ofInt, Int.toNat_of_nonneg (Int.emod_nonneg _ (by positivity))]
      exact Int.emod_eq_of_lt hlo (by exact_mod_cast hhi)
    exact hn

theorem toNat_shiftAmount {l : Literal} {m n : Nat} (hl : l.orZero t = .int n)
    (hn : InRange signed m n) (hm : m ≤ 64) (hw : w ≤ 64) :
    (BitVec.ofInt w l.shiftAmount.toInt).toNat = n % 2 ^ w := by
  have hamount : l.shiftAmount = Literal.word n := by
    cases l with
    | int k =>
      cases hl
      rfl
    | nil =>
      have hzero : (n : Int) = 0 := by
        rw [Literal.orZero] at hl
        split at hl <;> cases hl <;> rfl
      rw [hzero]
      rfl
    | _ => cases hl
  rw [hamount, ofInt_word hn hm hw, BitVec.ofInt_natCast, BitVec.toNat_ofNat]

theorem shiftRows_value {types : Array SourceTy} {k m : Nat}
    (hy : ((Operand.value k).ty types).basicKind? = some (.integer signed m)) (op : Op) (x : Operand)
    (n : Nat) : shiftRows types op (.int w) x (.value k) n =
      if m = w then [sourceRow op [x, .value k]]
      else [sourceRow (if w < m then .trunc else .zext) [.value k],
        ⟨op, [.source x, .fixed (.instr n)]⟩] := by
  have hbits : ((Operand.value k).ty types).lower.bits = m := by
    rw [lower_of_integer hy]
    rfl
  simp only [shiftRows, hbits]
  rfl

/-- An operand of an integer type is this number: a literal that means it, or a numbered value with
these bits. -/
def Operand.HasNumber (values : Array (Option Value)) (W : World) (env : Env) (signed : Bool) (w : Nat) :
    Operand → Int → Prop
  | .const t l, n => l.orZero t = .int n ∧ InRange signed w n
  | .value k, n =>
    ∃ v c, values[k]? = some (some v) ∧ Reads W env v c ∧ numberOf signed w c = n
  | _, _ => False

namespace Procedure

variable {p : Procedure} {before after : List Step}

theorem records_types (p : Procedure) (steps : List Step) :
    (steps.foldl Outline.step p.start).records.types = p.types := by
  induction steps using List.reverseRecOn with
  | nil => rfl
  | append_singleton steps s ih =>
    rw [List.foldl_append, ← ih]
    simp only [List.foldl_cons, List.foldl_nil, Outline.step]
    cases s.result <;> rfl

theorem rows_append (p : Procedure) (steps more : List Step) :
    ∃ rows, ((steps ++ more).foldl Outline.step p.start).rows =
      (steps.foldl Outline.step p.start).rows ++ rows := by
  induction more using List.reverseRecOn with
  | nil => exact ⟨[], by simp⟩
  | append_singleton more s ih =>
    obtain ⟨rows, hrows⟩ := ih
    exact ⟨rows ++ _, by
      rw [← List.append_assoc, List.foldl_append, List.foldl_cons, List.foldl_nil, Outline.step, hrows,
        List.append_assoc]⟩

def rowsAt (p : Procedure) (before : List Step) (s : Step) : List Row :=
  s.rows (before.foldl Outline.step p.start).records (p.extent before)

theorem extent_step (p : Procedure) (before : List Step) (s : Step) :
    p.extent (before ++ [s]) = p.extent before + (p.rowsAt before s).length := by
  rw [extent, List.foldl_append, List.foldl_cons, List.foldl_nil, Outline.step, List.length_append]
  rfl

theorem extent_mono (p : Procedure) {steps more : List Step} (h : steps <+: more) :
    p.extent steps ≤ p.extent more := by
  obtain ⟨rest, rfl⟩ := h
  obtain ⟨rows, hrows⟩ := p.rows_append steps rest
  rw [extent, extent, hrows, List.length_append]
  exact Nat.le_add_right ..

theorem outline_rowsAt {s : Step} (hsteps : p.steps = before ++ s :: after) {j : Nat} {row : Row}
    (h : (p.rowsAt before s)[j]? = some row) : p.outline.rows[p.extent before + j]? = some row := by
  have hj := (List.getElem?_eq_some_iff.mp h).1
  obtain ⟨rows, hrows⟩ := p.rows_append (before ++ [s]) after
  have hnow : ((before ++ [s]).foldl Outline.step p.start).rows =
      (before.foldl Outline.step p.start).rows ++ p.rowsAt before s := by
    rw [List.foldl_append]
    rfl
  rw [outline, hsteps, List.append_cons, hrows, hnow, List.append_assoc, extent,
    List.getElem?_append_right (Nat.le_add_right ..), Nat.add_sub_cancel_left,
    List.getElem?_append_left hj, h]

theorem Defines.extent_le {s : Step} (hsteps : p.steps = before ++ s :: after) {k n : Nat}
    (h : p.Defines p.steps k n) (hk : p.extent before ≤ k) : p.extent (before ++ [s]) ≤ k + 1 := by
  obtain ⟨front, t, back, hsplit, -, -, -, hlast⟩ := h
  have hlast : k + 1 = p.extent (front ++ [t]) := hlast
  have hbefore : before <+: p.steps := ⟨s :: after, hsteps.symm⟩
  have hnow : before ++ [s] <+: p.steps := ⟨after, by simp [hsteps]⟩
  have hfront : front ++ [t] <+: p.steps := ⟨back, by simp [hsplit]⟩
  rcases Nat.lt_or_ge front.length before.length with hlt | hge
  · have hprefix := List.prefix_of_prefix_length_le hfront hbefore (by simpa [Nat.succ_le_iff] using hlt)
    have := p.extent_mono hprefix
    omega
  · have hprefix := List.prefix_of_prefix_length_le hnow hfront (by simpa using hge)
    rw [hlast]
    exact p.extent_mono hprefix

section Finished

variable {globals : List Global} {callees : List Decl} {f : Func} {s : Step}

theorem instr_of_rowsAt (hf : p.finish (p.draft globals callees) = .ok (.ok f))
    (hsteps : p.steps = before ++ s :: after) {j : Nat} {row : Row}
    (h : (p.rowsAt before s)[j]? = some row) :
    ∃ i, f.instr? (p.extent before + j : Nat) = some i ∧
      row.Holds p.outline.records.values (p.draft globals callees).globals i := by
  obtain ⟨i, hi, hrow⟩ := Row.exists_holds ((p.finish_operands globals callees).2 f hf).1
    (outline_rowsAt hsteps h)
  refine ⟨i, ?_, hrow⟩
  rw [Func.instr?, if_neg (by omega)]
  exact hi

theorem ty_of_rowsAt (hp : p.Typed) (hf : p.finish (p.draft globals callees) = .ok (.ok f))
    (hsteps : p.steps = before ++ s :: after) (hgives : s.gives = true) {j : Nat}
    (h : j < (p.rowsAt before s).length) {i : Instr}
    (hi : f.instr? (p.extent before + j : Nat) = some i) : i.ty = s.ty.lower := by
  refine ty_of_finish hp hf hsteps hgives (Nat.le_add_right ..) ?_ (k := p.extent before + j) ?_
  · rw [extent_step]
    omega
  · rw [Func.instr?, if_neg (by omega)] at hi
    exact hi

variable {a : Arith} {x y : Operand} {signed : Bool} {w : Nat}

theorem rowsAt_shift (before : List Step) (ha : s.action = .binary (some (.arith a)) x y) (hshift : a.isShift = true)
    (hx : (x.ty p.types).basicKind? = some (.integer signed w)) :
    ∃ op, a.wordOp? (!signed) = some op ∧
      p.rowsAt before s = shiftRows p.types op s.ty.lower x y (p.extent before) := by
  have hinteger : (x.ty p.types).isInteger = true := by
    rw [SourceTy.isInteger, hx]
  have hunsigned : (x.ty p.types).isUnsigned = !signed := by
    rw [SourceTy.isUnsigned, hx]
    cases signed <;> rfl
  obtain ⟨op, hop⟩ : ∃ op, a.wordOp? (!signed) = some op := by
    cases a with
    | shl => exact ⟨_, rfl⟩
    | shr => exact ⟨_, rfl⟩
    | _ => cases hshift
  refine ⟨op, hop, ?_⟩
  unfold rowsAt Step.rows
  simp only [ha, records_types, arithRows, hinteger, hunsigned, hop, hshift, Bool.true_or, if_true]

theorem exists_reads_iff {W : World} {env : Env} {n : Int} {v : Value} {gs : List Global}
    (h : x.HasNumber p.outline.records.values W env signed w n)
    (hx : (x.ty p.types).basicKind? = some (.integer signed w))
    (hv : x.recorded? p.outline.records.values gs = some v) :
    ∃ c, (∀ z, Reads W env v z ↔ z = c) ∧ numberOf signed w c = n := by
  cases x with
  | const t l =>
    obtain ⟨hl, hn⟩ := h
    have hw := width_of_integer hx
    cases (value_of_integer hx hl).symm.trans (Option.some.inj hv)
    refine ⟨(Literal.word n).toInt, fun z => ?_, ?_⟩
    · rw [Reads, constValue, if_neg]
      intro hbit
      cases hbit
      simp at hw
    · have hw' : 1 ≤ w ∧ w ≤ 64 := by
        simp only [List.mem_cons, List.not_mem_nil, or_false] at hw
        omega
      exact (numberOf_congr (ofInt_word hn hw'.2 hw'.2)).trans (numberOf_of_inRange hw'.1 hn)
  | value k =>
    obtain ⟨u, c, hu, hc, hn⟩ := h
    rw [Operand.recorded?, hu] at hv
    cases hv
    have hconst : v.isConst = false := by
      obtain ⟨-, rfl⟩ | ⟨m, rfl, -⟩ := p.arg_or_defined p.steps hu <;> rfl
    exact ⟨c, fun z => ⟨fun hz => reads_unique hconst hz hc, fun hz => hz ▸ hc⟩, hn⟩
  | _ => exact absurd h id

theorem hasNumber_after {W : World} {st : State} {id z n : Int} {rest : List Int}
    (h : x.HasNumber p.outline.records.values W st.env signed w n)
    (hid : ∀ m k : Nat, (m : Int) = id → ¬ p.Defines p.steps m k) :
    x.HasNumber p.outline.records.values W (st.after rest id z).env signed w n := by
  cases x with
  | value k =>
    obtain ⟨v, c, hv, hc, hn⟩ := h
    refine ⟨v, c, hv, (reads_congr fun q hq => ?_).mp hc, hn⟩
    subst hq
    obtain ⟨-, hv⟩ | ⟨m, hv, hm⟩ := p.arg_or_defined p.steps hv
    · cases hv
    · cases hv
      have hne : (m : Int) ≠ id := fun he => hid m k he hm
      exact (Function.update_of_ne hne ..).symm
  | _ => exact h

/-- The numbers of the instructions that a step becomes. -/
def numbersOf (p : Procedure) (before : List Step) (s : Step) : List Int :=
  (List.range (p.rowsAt before s).length).map fun j => ((p.extent before + j : Nat) : Int)

section Shift

variable {op : Op} {W : World} {st : State} {rest : List Int} {X : Int} {n : Nat} (hp : p.Typed)
  (hf : p.finish (p.draft globals callees) = .ok (.ok f)) (hsteps : p.steps = before ++ s :: after)
  (hgives : s.gives = true) (hlower : s.ty.lower = .int w)
  (hx : (x.ty p.types).basicKind? = some (.integer signed w)) (hshift : a.isShift = true)
  (hop : a.wordOp? (!signed) = some op) (hW : ¬ W.resumes)

include hp hf hsteps hgives hlower hx hshift hop hW

theorem row_shift_iff {j : Nat} {q : Part} (hrow : (p.rowsAt before s)[j]? = some ⟨op, [.source x, q]⟩)
    (hrest : st.rest = ((p.extent before + j : Nat) : Int) :: rest)
    (hX : x.HasNumber p.outline.records.values W st.env signed w X)
    (hq : ∀ v, q.value? p.outline.records.values (p.draft globals callees).globals = some v →
      ∃ c, (∀ z, Reads W st.env v z ↔ z = c) ∧ (BitVec.ofInt w c).toNat = n) :
    ((∃ t, RegPressure.Step W f st none t) ↔ n < w) ∧
      ∀ t, RegPressure.Step W f st none t → t.rest = rest ∧
        numberOf signed w (t.env (p.extent before + j : Nat)) = a.shifted signed w X n := by
  obtain ⟨i, hi, hiop, hoperands⟩ := instr_of_rowsAt hf hsteps hrow
  obtain ⟨vx, vy, hvs⟩ : ∃ vx vy, i.operands = [vx, vy] :=
    List.length_eq_two.mp (by simpa using congrArg List.length hoperands)
  rw [hvs] at hoperands
  simp only [List.map_cons, List.map_nil, List.cons.injEq, and_true] at hoperands
  obtain ⟨u, hu, rfl⟩ := exists_reads_iff hX hx hoperands.1.symm
  obtain ⟨c, hc, rfl⟩ := hq vy hoperands.2.symm
  have hty : i.ty = .int w :=
    (ty_of_rowsAt hp hf hsteps hgives (List.getElem?_eq_some_iff.mp hrow).1 hi).trans hlower
  exact step_shift_iff hW hrest hi hshift (hiop ▸ hop) hty hvs hu hc

theorem shiftRuns_single {q : Part} (hrows : p.rowsAt before s = [⟨op, [.source x, q]⟩])
    (hrest : st.rest = p.numbersOf before s ++ rest)
    (hX : x.HasNumber p.outline.records.values W st.env signed w X)
    (hq : ∀ v, q.value? p.outline.records.values (p.draft globals callees).globals = some v →
      ∃ c, (∀ z, Reads W st.env v z ↔ z = c) ∧ (BitVec.ofInt w c).toNat = n) :
    ShiftRuns W f (p.numbersOf before s) st rest (p.extent (before ++ [s]) - 1 : Nat) a signed w X
      n := by
  have hids : p.numbersOf before s = [((p.extent before + 0 : Nat) : Int)] := by
    rw [numbersOf, hrows]
    rfl
  rw [hids] at hrest ⊢
  obtain ⟨hdefined, hresult⟩ := row_shift_iff hp hf hsteps hgives hlower hx hshift hop hW
    (by rw [hrows]; rfl) hrest hX hq
  simp only [← runsOver_singleton hrest] at hdefined hresult
  refine ⟨hdefined, fun t ht => ?_⟩
  rw [extent_step, hrows]
  exact hresult t ht

/-- A shift by an amount of another width takes a cast first. -/
theorem shiftRuns_cast {sy : Bool} {m k : Nat}
    (hy : ((Operand.value k).ty p.types).basicKind? = some (.integer sy m))
    (hrows : p.rowsAt before s = [sourceRow (if w < m then .trunc else .zext) [.value k],
      ⟨op, [.source x, .fixed (.instr (p.extent before))]⟩])
    (hrest : st.rest = p.numbersOf before s ++ rest)
    (hX : x.HasNumber p.outline.records.values W st.env signed w X)
    (hn : (Operand.value k).HasNumber p.outline.records.values W st.env sy m n) :
    ShiftRuns W f (p.numbersOf before s) st rest (p.extent (before ++ [s]) - 1 : Nat) a signed w X
      (n % 2 ^ w) := by
  have hids : p.numbersOf before s =
      [((p.extent before : Nat) : Int), ((p.extent before + 1 : Nat) : Int)] := by
    rw [numbersOf, hrows]
    rfl
  rw [hids] at hrest ⊢
  obtain ⟨i, hi, hiop, hoperands⟩ := instr_of_rowsAt hf hsteps (j := 0) (by rw [hrows]; rfl)
  have hty : i.ty = .int w :=
    (ty_of_rowsAt hp hf hsteps hgives (by rw [hrows]; exact Nat.zero_lt_two) hi).trans hlower
  obtain ⟨v, hvs⟩ : ∃ v, i.operands = [v] :=
    List.length_eq_one_iff.mp (by simpa [sourceRow] using congrArg List.length hoperands)
  rw [hvs] at hoperands
  have hv : (Operand.value k).recorded? p.outline.records.values (p.draft globals callees).globals =
      some v := (List.cons.inj hoperands).1.symm
  obtain ⟨c, hc, hnum⟩ := exists_reads_iff hn hy hv
  have htype : f.typeOf v = .ok (some (.int m)) := by
    rw [typeOf_of_finish hp hf (Option.join_eq_some_iff.mp hv), lower_of_integer hy]
  obtain ⟨z, hz, hlow⟩ := step_cast_iff hW hrest hi hty hiop hvs htype hc hnum
  -- The cast defines no value of the source, so the operand that is shifted stays.
  have hinner : ∀ m k : Nat, (m : Int) = (p.extent before : Nat) → ¬ p.Defines p.steps m k := by
    intro m k hm hdef
    have hle := hdef.extent_le hsteps (by omega)
    rw [extent_step, hrows, List.length_cons, List.length_singleton] at hle
    omega
  have hamount : ∀ v, (Part.fixed (.instr (p.extent before))).value? p.outline.records.values
      (p.draft globals callees).globals = some v →
      ∃ c, (∀ y, Reads W (st.after (((p.extent before + 1 : Nat) : Int) :: rest) (p.extent before) z).env
        v y ↔ y = c) ∧ (BitVec.ofInt w c).toNat = n % 2 ^ w := by
    intro v hv
    cases hv
    exact ⟨z, fun y => by rw [Reads, State.env_after], hlow⟩
  obtain ⟨hdefined, hresult⟩ := row_shift_iff hp hf hsteps hgives hlower hx hshift hop hW (j := 1)
    (by rw [hrows]; rfl) rfl (hasNumber_after hX hinner) hamount
  have hruns : ∀ t, RunsOver W f [((p.extent before : Nat) : Int), ((p.extent before + 1 : Nat) : Int)]
      st t ↔ RegPressure.Step W f
        (st.after (((p.extent before + 1 : Nat) : Int) :: rest) (p.extent before) z) none t := by
    intro t
    rw [runsOver_pair hrest]
    constructor
    · rintro ⟨u, hu, -, hstep⟩
      rwa [(hz u).mp hu] at hstep
    · exact fun hstep => ⟨_, (hz _).mpr rfl, rfl, hstep⟩
  simp only [← hruns] at hdefined hresult
  refine ⟨hdefined, fun t ht => ?_⟩
  rw [extent_step, hrows]
  exact hresult t ht

end Shift

/-- The amount that counts is in the low bits of the count, as many as the type has. -/
theorem shiftRuns {sy : Bool} {m : Nat} (hp : p.Typed)
    (hf : p.finish (p.draft globals callees) = .ok (.ok f)) (hsteps : p.steps = before ++ s :: after)
    (ha : s.action = .binary (some (.arith a)) x y) (hshift : a.isShift = true)
    (hx : (x.ty p.types).basicKind? = some (.integer signed w))
    (hy : (y.ty p.types).basicKind? = some (.integer sy m)) {W : World} (hW : ¬ W.resumes)
    {st : State} {rest : List Int} (hrest : st.rest = p.numbersOf before s ++ rest) {X : Int} {n : Nat}
    (hX : x.HasNumber p.outline.records.values W st.env signed w X)
    (hn : y.HasNumber p.outline.records.values W st.env sy m n) :
    ShiftRuns W f (p.numbersOf before s) st rest (p.extent (before ++ [s]) - 1 : Nat) a signed w X
      (n % 2 ^ w) := by
  obtain ⟨op, hop, hrows⟩ := rowsAt_shift before ha hshift hx
  have hgives : s.gives = true := by
    rw [Step.gives, ha]
  have hlower : s.ty.lower = .int w := by
    have h := hp s (by simp [hsteps])
    rw [Step.Typed, ha] at h
    exact h.trans (lower_of_integer hx)
  rw [hlower] at hrows
  have hw := bounds_of_integer hx
  cases y with
  | const ty l =>
    refine shiftRuns_single hp hf hsteps hgives hlower hx hshift hop hW hrows hrest hX fun v hv => ?_
    cases hv
    refine ⟨l.shiftAmount.toInt, fun z => ?_,
      toNat_shiftAmount hn.1 hn.2 (bounds_of_integer hy).2 hw.2⟩
    rw [Reads, constValue, if_neg]
    intro hbit
    cases hbit
    exact absurd hw.1 (Nat.lt_irrefl 1)
  | value k =>
    rw [shiftRows_value hy] at hrows
    by_cases hsame : m = w
    · subst hsame
      rw [if_pos rfl] at hrows
      refine shiftRuns_single hp hf hsteps hgives hlower hx hshift hop hW hrows hrest hX fun v hv => ?_
      have hv : (Operand.value k).recorded? p.outline.records.values (p.draft globals callees).globals =
          some v := hv
      obtain ⟨c, hc, hnum⟩ := exists_reads_iff hn hy hv
      refine ⟨c, hc, ?_⟩
      have hnat := toNat_of_numberOf hnum
      rw [← hnat, Nat.mod_eq_of_lt (BitVec.isLt _)]
    · rw [if_neg hsame] at hrows
      exact shiftRuns_cast hp hf hsteps hgives hlower hx hshift hop hW hy hrows hrest hX hn
  | _ => exact absurd hn id

/-- The number of the result of the step after these. -/
def resultNumber (p : Procedure) (before : List Step) : Nat :=
  p.params.length + (before.filterMap (·.result)).length

theorem values_append (p : Procedure) (steps more : List Step) {k : Nat} {v : Option Value}
    (h : (steps.foldl Outline.step p.start).records.values[k]? = some v) :
    ((steps ++ more).foldl Outline.step p.start).records.values[k]? = some v := by
  induction more using List.reverseRecOn with
  | nil => rwa [List.append_nil]
  | append_singleton more s ih =>
    rw [← List.append_assoc, List.foldl_append]
    simp only [List.foldl_cons, List.foldl_nil, Outline.step]
    cases s.result with
    | none => exact ih
    | some r =>
      dsimp only
      rwa [Array.getElem?_push_lt (Array.getElem?_eq_some_iff.mp ih).1, ← Array.getElem?_eq_getElem]

theorem recorded_result (hsteps : p.steps = before ++ s :: after) (hresult : s.result.isSome = true)
    (hgives : s.gives = true) : p.outline.records.values[p.resultNumber before]? =
      some (some (.instr (p.extent (before ++ [s]) - 1 : Nat))) := by
  obtain ⟨r, hr⟩ := Option.isSome_iff_exists.mp hresult
  rw [outline, hsteps, List.append_cons]
  refine p.values_append (before ++ [s]) after ?_
  rw [List.foldl_append, List.foldl_cons, List.foldl_nil, extent_step, resultNumber, ← p.size_values]
  simp only [Outline.step, hr, Step.definition?, hgives, if_true, Option.map_some,
    Array.getElem?_push_size]
  rfl

theorem result_hasNumber_iff (hsteps : p.steps = before ++ s :: after)
    (hresult : s.result.isSome = true) (hgives : s.gives = true) {W : World} {env : Env} {r : Int} :
    (Operand.value (p.resultNumber before)).HasNumber p.outline.records.values W env signed w r ↔
      numberOf signed w (env (p.extent (before ++ [s]) - 1 : Nat)) = r := by
  constructor
  · rintro ⟨v, c, hv, hc, rfl⟩
    cases (recorded_result hsteps hresult hgives).symm.trans hv
    rw [show c = _ from hc]
  · exact fun h => ⟨_, _, recorded_result hsteps hresult hgives, rfl, h⟩

/-- Where runs go on after defined results only, a run passes a shift if and only if the low bits of the
count, as many as the type of the first operand has, are below the width of that type, and it shifts by
as much as they say. It passes with the right result if this shift is the same as the one by the whole
count, and so for every count below the width. -/
theorem lowered_shift_iff {sy : Bool} {m : Nat} (hp : p.Typed)
    (hf : p.finish (p.draft globals callees) = .ok (.ok f)) (hsteps : p.steps = before ++ s :: after)
    (ha : s.action = .binary (some (.arith a)) x y) (hshift : a.isShift = true)
    (hresult : s.result.isSome = true)
    (hx : (x.ty p.types).basicKind? = some (.integer signed w))
    (hy : (y.ty p.types).basicKind? = some (.integer sy m)) {W : World} (hW : ¬ W.resumes)
    {st : State} {rest : List Int} (hrest : st.rest = p.numbersOf before s ++ rest) {X : Int} {n : Nat}
    (hX : x.HasNumber p.outline.records.values W st.env signed w X)
    (hn : y.HasNumber p.outline.records.values W st.env sy m n) :
    ((∃ t, RunsOver W f (p.numbersOf before s) st t) ↔ n % 2 ^ w < w) ∧
    (∀ t, RunsOver W f (p.numbersOf before s) st t → t.rest = rest ∧
      (Operand.value (p.resultNumber before)).HasNumber p.outline.records.values W t.env signed w
        (a.shifted signed w X (n % 2 ^ w))) ∧
    ((∃ t, RunsOver W f (p.numbersOf before s) st t ∧
        (Operand.value (p.resultNumber before)).HasNumber p.outline.records.values W t.env signed w
          (a.shifted signed w X n)) ↔
      n % 2 ^ w < w ∧ a.shifted signed w X (n % 2 ^ w) = a.shifted signed w X n) ∧
    (n < w → ∃ t, RunsOver W f (p.numbersOf before s) st t ∧
      (Operand.value (p.resultNumber before)).HasNumber p.outline.records.values W t.env signed w
        (a.shifted signed w X n)) := by
  have hgives : s.gives = true := by
    rw [Step.gives, ha]
  obtain ⟨hdefined, hruns⟩ := shiftRuns hp hf hsteps ha hshift hx hy hW hrest hX hn
  simp only [result_hasNumber_iff hsteps hresult hgives]
  have hright : (∃ t, RunsOver W f (p.numbersOf before s) st t ∧
      numberOf signed w (t.env (p.extent (before ++ [s]) - 1 : Nat)) = a.shifted signed w X n) ↔
      n % 2 ^ w < w ∧ a.shifted signed w X (n % 2 ^ w) = a.shifted signed w X n := by
    constructor
    · rintro ⟨t, ht, hval⟩
      exact ⟨hdefined.mp ⟨t, ht⟩, (hruns t ht).2.symm.trans hval⟩
    · rintro ⟨hlt, heq⟩
      obtain ⟨t, ht⟩ := hdefined.mpr hlt
      exact ⟨t, ht, (hruns t ht).2.trans heq⟩
  refine ⟨hdefined, hruns, hright, fun hlt => hright.mpr ?_⟩
  rw [Nat.mod_eq_of_lt (hlt.trans Nat.lt_two_pow_self)]
  exact ⟨hlt, rfl⟩

end Finished

theorem param_hasNumber {W : World} {env : Env} {i : Nat} {signed : Bool} {w : Nat} {n : Int}
    (hi : i < p.params.length) (h : numberOf signed w (W.args i) = n) :
    (Operand.value i).HasNumber p.outline.records.values W env signed w n := by
  refine ⟨.arg i, W.args i, p.values_append [] p.steps ?_, rfl, h⟩
  simp [start, hi]

def shifting (a : Arith) (number count : String) : Procedure where
  name := "f"
  fullName := "p.f"
  file := "f.go"
  pos := ⟨1, 6⟩
  params := [⟨"x", .ofName number⟩, ⟨"n", .ofName count⟩]
  results := .ofName number
  blocks := [{
    succs := []
    preds := []
    steps := [
      { action := .binary (some (.arith a)) (.value 0) (.value 1)
        result := some ⟨"t0", .ofName number⟩ },
      { action := .ret [.value 2] }] }]

def theShift (a : Arith) (number : String) : Step where
  action := .binary (some (.arith a)) (.value 0) (.value 1)
  result := some ⟨"t0", .ofName number⟩

def shiftWorld (x n : Int) : World := { World.quiet 0 with args := fun i => if i = 0 then x else n }

def atStart (ids : List Int) : State where
  block := 0
  rest := ids
  env _ := 0
  entered _ := 0
  source := none
  pick _ := 0

theorem shifting_typed (a : Arith) (number count : String) : (shifting a number count).Typed := by
  intro s hs
  obtain rfl | rfl : s = _ ∨ s = _ := by simpa [shifting, steps] using hs
  · rfl
  · trivial

theorem exists_finish {d : Draft} (h : ((p.finish d).toOption.bind (·.toOption)).isSome = true) :
    ∃ f, p.finish d = .ok (.ok f) := by
  obtain ⟨f, hf⟩ := Option.isSome_iff_exists.mp h
  obtain ⟨r, hr, hrf⟩ := Option.bind_eq_some_iff.mp hf
  cases r with
  | error refusal => cases hrf
  | ok g => exact ⟨g, Checked.toOption_eq_some.mp hr⟩

/-- An octet is shifted to the right by three, where the count is cut to an octet first. -/
theorem octet_shifted_by_three : ∃ f t,
    (shifting .shr "int8" "uint32").finish ((shifting .shr "int8" "uint32").draft [] []) =
      .ok (.ok f) ∧
    RunsOver (shiftWorld (-100) 3) f [0, 1] (atStart [0, 1, 2]) t ∧
    (Operand.value 2).HasNumber (shifting .shr "int8" "uint32").outline.records.values
      (shiftWorld (-100) 3) t.env true 8 (-13) := by
  obtain ⟨f, hf⟩ := exists_finish (p := shifting .shr "int8" "uint32")
    (d := (shifting .shr "int8" "uint32").draft [] []) (by decide +kernel)
  have hids : (shifting .shr "int8" "uint32").numbersOf [] (theShift .shr "int8") = [0, 1] := by
    decide +kernel
  have hsteps : (shifting .shr "int8" "uint32").steps =
      [] ++ theShift .shr "int8" :: [{ action := .ret [.value 2] }] := rfl
  have hx : (SourceTy.ofName "int8").basicKind? = some (.integer true 8) := by decide
  have hy : (SourceTy.ofName "uint32").basicKind? = some (.integer false 32) := by decide
  have hW : ¬ (shiftWorld (-100) 3).resumes := id
  have hrest : (atStart [0, 1, 2]).rest =
      (shifting .shr "int8" "uint32").numbersOf [] (theShift .shr "int8") ++ [2] := by
    rw [hids]
    rfl
  obtain ⟨-, -, -, hright⟩ := lowered_shift_iff (n := 3) (shifting_typed .shr "int8" "uint32") hf hsteps
    rfl rfl rfl hx hy hW hrest (param_hasNumber (by decide) rfl) (param_hasNumber (by decide) (by decide))
  obtain ⟨t, ht, hval⟩ := hright (by decide)
  rw [hids] at ht
  exact ⟨f, t, hf, ht, hval⟩

theorem shifting_runs {number count : String} {signed sy : Bool} {w m n : Nat} {X : Int} {f : Func}
    (hf : (shifting .shl number count).finish ((shifting .shl number count).draft [] []) =
      .ok (.ok f))
    (hids : (shifting .shl number count).numbersOf [] (theShift .shl number) = [0, 1])
    (hx : (SourceTy.ofName number).basicKind? = some (.integer signed w))
    (hy : (SourceTy.ofName count).basicKind? = some (.integer sy m))
    (hX : numberOf signed w X = X) (hn : numberOf sy m n = n) :
    ShiftRuns (shiftWorld X n) f [0, 1] (atStart [0, 1, 2]) [2] 1 .shl signed w X (n % 2 ^ w) := by
  have hsteps : (shifting .shl number count).steps =
      [] ++ theShift .shl number :: [{ action := .ret [.value 2] }] := rfl
  have hW : ¬ (shiftWorld X n).resumes := id
  have hrest : (atStart [0, 1, 2]).rest =
      (shifting .shl number count).numbersOf [] (theShift .shl number) ++ [2] := by
    rw [hids]
    rfl
  have hruns := shiftRuns (shifting_typed .shl number count) hf hsteps rfl rfl hx hy hW hrest
    (param_hasNumber Nat.zero_lt_two hX) (param_hasNumber Nat.one_lt_two hn)
  have hlast : (shifting .shl number count).extent ([] ++ [theShift .shl number]) = 2 := by
    have hlength := congrArg List.length hids
    rw [numbersOf, List.length_map, List.length_range] at hlength
    rw [extent_step, hlength]
    rfl
  rwa [hids, hlast] at hruns

/-- A word is shifted by forty, which no run passes, and an octet by two hundred fifty-six, which leaves it
as it is. The right result is zero both times. -/
theorem counts_beyond_width :
    (∃ f, (shifting .shl "int32" "uint8").finish ((shifting .shl "int32" "uint8").draft [] []) =
        .ok (.ok f) ∧
      (¬ ∃ t, RunsOver (shiftWorld 1 40) f [0, 1] (atStart [0, 1, 2]) t) ∧
      Arith.shl.shifted true 32 1 40 = 0) ∧
    ∃ f t, (shifting .shl "int8" "uint32").finish ((shifting .shl "int8" "uint32").draft [] []) =
        .ok (.ok f) ∧
      RunsOver (shiftWorld 1 256) f [0, 1] (atStart [0, 1, 2]) t ∧ numberOf true 8 (t.env 1) = 1 ∧
      Arith.shl.shifted true 8 1 256 = 0 := by
  constructor
  · obtain ⟨f, hf⟩ := exists_finish (p := shifting .shl "int32" "uint8")
      (d := (shifting .shl "int32" "uint8").draft [] []) (by decide +kernel)
    have hx : (SourceTy.ofName "int32").basicKind? = some (.integer true 32) := by decide
    have hy : (SourceTy.ofName "uint8").basicKind? = some (.integer false 8) := by decide
    have hruns := shifting_runs (X := 1) (n := 40) hf (by decide +kernel) hx hy (by decide) (by decide)
    exact ⟨f, hf, fun h => absurd (hruns.defined.mp h) (by decide), by decide⟩
  · obtain ⟨f, hf⟩ := exists_finish (p := shifting .shl "int8" "uint32")
      (d := (shifting .shl "int8" "uint32").draft [] []) (by decide +kernel)
    have hx : (SourceTy.ofName "int8").basicKind? = some (.integer true 8) := by decide
    have hy : (SourceTy.ofName "uint32").basicKind? = some (.integer false 32) := by decide
    have hruns := shifting_runs (X := 1) (n := 256) hf (by decide +kernel) hx hy (by decide) (by decide)
    obtain ⟨t, ht⟩ := hruns.defined.mpr (by decide)
    exact ⟨f, t, hf, ht, (hruns.result t ht).2, by decide⟩

end Procedure

end Ssa

end RegPressure
