import RegPressure.Memory.Alias
import RegPressure.Proofs.IR.Layout
import RegPressure.Proofs.IR.Structure
import Mathlib.Data.List.Perm.Subperm

namespace RegPressure.Memory

variable {f : Func} {root v : Value} {ids : List Int} {id : Int} {i : Instr}

def exactInner : (indices : List Value) → Ty → Option Int
  | [], _ => some 0
  | v :: rest, t => do
    let c ← v.intConst?
    match t with
    | .struct ts =>
      let start ← if c.toInt < 0 then none else Ty.exactStart 0 ts c.toInt.toNat
      let field ← ts[c.toInt.toNat]?
      return start + (← exactInner rest field)
    | .array _ elem | .vector _ elem =>
      let size ← elem.exactSize
      return c.toInt * size + (← exactInner rest elem)
    | _ => none

def exactGep (i : Instr) : Option Int :=
  match i.operands.drop 1 with
  | [] => some 0
  | first :: rest => do
    let t ← i.elem
    let size ← t.exactSize
    let c ← first.intConst?
    return c.toInt * size + (← exactInner rest t)

def exactStep (i : Instr) : Option Int := if i.op = .gep then exactGep i else some 0

/-- What the instructions of a chain add in all. -/
def exactOffset (f : Func) : List Int → Option Int
  | [] => some 0
  | id :: ids => do
    let step ← (f.instr? id).bind exactStep
    return step + (← exactOffset f ids)

theorem ofInt_mul_toInt (c : Int64) (n : Int) :
    c * (UInt64.ofInt n).toInt64 = Int64.ofInt (c.toInt * n) := by
  rw [toInt64_ofInt, Int64.ofInt_mul, Int64.ofInt_toInt]

theorem innerOffset_eq (indices : List Value) (t : Ty) :
    innerOffset indices t = (exactInner indices t).map Int64.ofInt := by
  induction indices generalizing t with
  | nil => rfl
  | cons v rest ih =>
    unfold innerOffset exactInner
    cases v.intConst? with
    | none => rfl
    | some c =>
      cases t with
      | struct ts =>
        simp only [Ty.fieldOffset, Option.bind_eq_bind, Option.bind_some]
        by_cases hc : c.toInt < 0
        · simp [hc]
        · simp only [hc, if_false, show ({} : Ty.Extent) = .cut 0 1 from rfl, Ty.offsetFrom_eq]
          cases Ty.exactStart 0 ts c.toInt.toNat with
          | none => rfl
          | some start =>
            cases ts[c.toInt.toNat]? with
            | none => rfl
            | some field =>
              simp only [Option.map_some, Option.bind_some, ih, toInt64_ofInt]
              cases exactInner rest field with
              | none => rfl
              | some k => simp [Int64.ofInt_add]
      | array n elem | vector n elem =>
        simp only [Ty.storeSize_eq, Option.bind_eq_bind, Option.bind_some]
        cases elem.exactSize with
        | none => rfl
        | some size =>
          simp only [Option.map_some, Option.bind_some, ih, ofInt_mul_toInt]
          cases exactInner rest elem with
          | none => rfl
          | some k => simp [Int64.ofInt_add]
      | _ => rfl

theorem gepOffset_eq (i : Instr) : gepOffset i = (exactGep i).map Int64.ofInt := by
  unfold gepOffset exactGep
  cases i.operands.drop 1 with
  | nil => rfl
  | cons first rest =>
    cases i.elem with
    | none => rfl
    | some t =>
      simp only [Ty.storeSize_eq, Option.bind_eq_bind, Option.bind_some]
      cases t.exactSize with
      | none => rfl
      | some size =>
        cases first.intConst? with
        | none => rfl
        | some c =>
          simp only [Option.map_some, Option.bind_some, innerOffset_eq, ofInt_mul_toInt]
          cases exactInner rest t with
          | none => rfl
          | some k => simp [Int64.ofInt_add]

theorem exactInner_of_variable {indices : List Value} (t : Ty) (hv : v ∈ indices)
    (hvar : v.intConst? = none) : exactInner indices t = none := by
  induction indices generalizing t with
  | nil => simp at hv
  | cons w rest ih =>
    unfold exactInner
    rcases List.mem_cons.mp hv with rfl | hv
    · rw [hvar]
      rfl
    · cases w.intConst? with
      | none => rfl
      | some c => cases t <;> simp [ih _ hv]

theorem exactGep_of_variable (hv : v ∈ i.operands.drop 1) (hvar : v.intConst? = none) :
    exactGep i = none := by
  unfold exactGep
  cases h : i.operands.drop 1 with
  | nil => simp [h] at hv
  | cons first rest =>
    rw [h] at hv
    rcases List.mem_cons.mp hv with rfl | hv
    · simp [hvar]
    · simp [exactInner_of_variable _ hv hvar]

/-- The address `v` is made from `root` by these casts and address computations, the last one
first. -/
inductive LeadsTo (f : Func) (root : Value) : Value → List Int → Prop
  | here : LeadsTo f root root []
  | step {id : Int} {i : Instr} {v : Value} {ids : List Int} : f.instr? id = some i →
      i.op = .gep ∨ i.op = .bitcast → i.operands[0]? = some v → LeadsTo f root v ids →
        LeadsTo f root (.instr id) (id :: ids)

/-- The value is there, and no cast or address computation makes it. -/
def IsRoot (f : Func) (v : Value) : Prop :=
  ∀ id, v = .instr id → ∃ i, f.instr? id = some i ∧ i.op ≠ .gep ∧ i.op ≠ .bitcast

theorem decomposeWithin_root (hroot : IsRoot f root) (n : Nat) (start : Int64) (known : Bool) :
    decomposeWithin f n ⟨root, start, known⟩ = .ok ⟨root, start, known⟩ := by
  cases n with
  | zero => rfl
  | succ n =>
    unfold decomposeWithin
    split
    · next id hid =>
      obtain ⟨i, hi, hgep, hcast⟩ := hroot id hid
      rw [Func.instr_eq_ok.mpr hi, Checked.ok_bind]
      split
      · next hop => exact absurd hop hcast
      · next hop => exact absurd hop hgep
      · rfl
    · rfl

theorem decomposeWithin_step (hi : f.instr? id = some i) (hop : i.op = .gep ∨ i.op = .bitcast)
    (hv : i.operands[0]? = some v) (n : Nat) (start : Int64) (known : Bool) :
    decomposeWithin f (n + 1) ⟨.instr id, start, known⟩ =
      match exactStep i with
      | some k => decomposeWithin f n ⟨v, start + Int64.ofInt k, known⟩
      | none => decomposeWithin f n ⟨v, start, false⟩ := by
  have hel : element i.operands 0 = .ok v := element_eq_ok.mpr hv
  rw [decomposeWithin]
  simp only [Func.instr_eq_ok.mpr hi, Checked.ok_bind]
  rcases hop with hop | hop
  · simp only [hop, hel, Checked.ok_bind, gepOffset_eq, exactStep, if_true]
    cases exactGep i <;> rfl
  · have hstep : exactStep i = some 0 := by simp [exactStep, hop]
    simp only [hop, hel, Checked.ok_bind, hstep]
    exact congrArg (fun x => decomposeWithin f n ⟨v, x, known⟩) (Int64.add_zero start).symm

namespace LeadsTo

theorem unique (hroot : IsRoot f root) {ids' : List Int} (h : LeadsTo f root v ids)
    (h' : LeadsTo f root v ids') : ids = ids' := by
  have hend : ∀ {id i}, root = .instr id → f.instr? id = some i →
      ¬ (i.op = .gep ∨ i.op = .bitcast) := by
    intro id i he hi hop
    obtain ⟨j, hj, hgep, hcast⟩ := hroot id he
    cases hi.symm.trans hj
    exact hop.elim hgep hcast
  induction h generalizing ids' with
  | here =>
    generalize hv : root = v at h'
    cases h' with
    | here => rfl
    | step hi hop => exact absurd hop (hend hv hi)
  | step hi hop hv _ ih =>
    cases h' with
    | here => exact absurd hop (hend rfl hi)
    | step hi' _ hv' h' =>
      cases hi.symm.trans hi'
      cases hv.symm.trans hv'
      rw [ih h']

/-- A chain goes on from each of its members. -/
theorem rest (h : LeadsTo f root v ids) (hid : id ∈ ids) :
    ∃ k, LeadsTo f root (.instr id) (id :: k) ∧ k.length < ids.length := by
  induction h with
  | here => simp at hid
  | @step id' i v ids hi hop hv h ih =>
    rcases List.mem_cons.mp hid with rfl | hid
    · exact ⟨ids, .step hi hop hv h, Nat.lt_succ_self _⟩
    · obtain ⟨k, hk, hlt⟩ := ih hid
      exact ⟨k, hk, Nat.lt_succ_of_lt hlt⟩

/-- A chain that comes to an end never comes back to a member. -/
theorem nodup (hroot : IsRoot f root) (h : LeadsTo f root v ids) : ids.Nodup := by
  induction h with
  | here => exact List.nodup_nil
  | @step id i v ids hi hop hv h ih =>
    refine List.nodup_cons.mpr ⟨fun hid => ?_, ih⟩
    obtain ⟨k, hk, hlt⟩ := h.rest hid
    cases hk.unique hroot (.step hi hop hv h)
    exact Nat.lt_irrefl _ hlt

theorem length_le (hroot : IsRoot f root) (h : LeadsTo f root v ids) :
    ids.length ≤ f.instrs.size := by
  have hsub : ids ⊆ f.instrIds := by
    intro id hid
    obtain ⟨k, hk, -⟩ := h.rest hid
    cases hk with
    | step hi => exact Func.mem_instrIds.mpr ⟨_, hi⟩
  simpa [Func.instrIds] using (List.subperm_of_subset (h.nodup hroot) hsub).length_le

/-- A chain of no more members than there are steps is followed to its end. -/
theorem decomposeWithin_eq (hroot : IsRoot f root) (h : LeadsTo f root v ids) {n : Nat}
    (hn : ids.length ≤ n) (start : Int64) (known : Bool) :
    ∃ off, decomposeWithin f n ⟨v, start, known⟩ =
        .ok ⟨root, off, known && (exactOffset f ids).isSome⟩ ∧
      ∀ k, exactOffset f ids = some k → off = start + Int64.ofInt k := by
  induction h generalizing n start known with
  | here =>
    refine ⟨start, ?_, fun k hk => ?_⟩
    · rw [decomposeWithin_root hroot, exactOffset, Option.isSome_some, Bool.and_true]
    · cases hk
      exact (Int64.add_zero start).symm
  | @step id i v ids hi hop hv _ ih =>
    cases n with
    | zero => simp at hn
    | succ n =>
      have hn := Nat.le_of_succ_le_succ hn
      rw [decomposeWithin_step hi hop hv]
      simp only [exactOffset, hi, Option.bind_some]
      cases exactStep i with
      | none =>
        obtain ⟨off, hoff, -⟩ := ih hn start false
        exact ⟨off, by simpa using hoff, by simp⟩
      | some step =>
        obtain ⟨off, hoff, hk⟩ := ih hn (start + Int64.ofInt step) known
        refine ⟨off, ?_, fun k h => ?_⟩
        · cases h : exactOffset f ids <;> simpa [h] using hoff
        · cases h' : exactOffset f ids with
          | none => simp [h'] at h
          | some m =>
            obtain rfl : step + m = k := by simpa [h'] using h
            rw [hk m h', Int64.ofInt_add, Int64.add_assoc]

theorem decompose_eq (hroot : IsRoot f root) (h : LeadsTo f root v ids) :
    ∃ off, decompose f v = .ok ⟨root, off, (exactOffset f ids).isSome⟩ ∧
      ∀ k, exactOffset f ids = some k → off = Int64.ofInt k := by
  have hlen := Nat.le_succ_of_le (h.length_le hroot)
  obtain ⟨off, hoff, hk⟩ := h.decomposeWithin_eq hroot hlen 0 true
  rw [Bool.true_and] at hoff
  exact ⟨off, hoff, fun k h => by rw [hk k h, Int64.zero_add]⟩

end LeadsTo

theorem exactOffset_of_variable (hid : id ∈ ids) (hi : f.instr? id = some i) (hop : i.op = .gep)
    (hv : v ∈ i.operands.drop 1) (hvar : v.intConst? = none) : exactOffset f ids = none := by
  induction ids with
  | nil => simp at hid
  | cons id' ids ih =>
    unfold exactOffset
    rcases List.mem_cons.mp hid with rfl | hid
    · simp [hi, exactStep, hop, exactGep_of_variable hv hvar]
    · simp [ih hid]

end RegPressure.Memory
