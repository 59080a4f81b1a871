import Mathlib.Logic.Function.Basic
import RegPressure.Proofs.Run.Typing
import RegPressure.ValueRange.Analysis

namespace RegPressure

/-- The result of an integer operation. Division by zero has none, and neither has a shift by the
width or more. -/
def Op.arith (op : Op) {n : Nat} (x y : BitVec n) : Option (BitVec n) :=
  match op with
  | .add => some (x + y)
  | .sub => some (x - y)
  | .mul => some (x * y)
  | .and => some (x &&& y)
  | .or => some (x ||| y)
  | .xor => some (x ^^^ y)
  | .sdiv => if y = 0#n then none else some (x.sdiv y)
  | .udiv => if y = 0#n then none else some (x.udiv y)
  | .srem => if y = 0#n then none else some (x.srem y)
  | .urem => if y = 0#n then none else some (x.umod y)
  | .shl => if y.toNat < n then some (x <<< y.toNat) else none
  | .lshr => if y.toNat < n then some (x >>> y.toNat) else none
  | .ashr => if y.toNat < n then some (x.sshiftRight y.toNat) else none
  | _ => none

def compareBits (pred : String) {n : Nat} (x y : BitVec n) : Bool :=
  match pred with
  | "eq" => x == y
  | "ne" => x != y
  | "slt" => x.slt y
  | "sle" => x.sle y
  | "sgt" => y.slt x
  | "sge" => y.sle x
  | "ult" => x.ult y
  | "ule" => x.ule y
  | "ugt" => y.ult x
  | "uge" => y.ule x
  | _ => false

def Instr.shape (i : Instr) : Instr := { i with home := none, name := "", operands := [], pos := {} }

namespace Instr

variable {i j : Instr} (h : i.shape = j.shape)

include h

theorem op_of_shape : i.op = j.op := show i.shape.op = j.shape.op by rw [h]

theorem ty_of_shape : i.ty = j.ty := show i.shape.ty = j.shape.ty by rw [h]

theorem targets_of_shape : i.targets = j.targets := show i.shape.targets = j.shape.targets by rw [h]

theorem pred_of_shape : i.pred = j.pred := show i.shape.pred = j.shape.pred by rw [h]

theorem callee_of_shape : i.callee = j.callee := show i.shape.callee = j.shape.callee by rw [h]

end Instr

structure World where
  args : Int → Int
  const : Value → Int
  /-- What an operation may give that is not one on integers. The width is that of its first
  operand, if that is an integer. -/
  other : (width : Option Nat) → Instr → List Int → Int → Prop
  /-- Whether a branch may lead to a block. -/
  goes : Instr → List Int → Nat → Prop
  /-- What an undefined operand may be. -/
  undef : Ty → Int → Prop
  /-- Whether a run goes on after an operation without a defined result. -/
  resumes : Prop

/-- Arguments and undefined operands are values of their types. -/
structure World.Fits (W : World) (f : Func) : Prop where
  args : ∀ (n : Nat) p t, f.params[n]? = some p → p.ty = some t → t.Holds (W.args n)
  undef : ∀ t x, W.undef t x → t.Holds x

abbrev Env := Int → Int

def constValue (t : Option Ty) (c : Int64) : Int :=
  if t = some .i1 then if c = 0 then 0 else -1 else c.toInt

/-- An operand may have this value. -/
def Reads (W : World) (env : Env) : Value → Int → Prop
  | .instr id, x => x = env id
  | .arg n, x => x = W.args n
  | .int t c, x => x = constValue t c
  | .undef t, x => ∃ ty, t = some ty ∧ W.undef ty x
  | v, x => x = W.const v

section Reading

variable {W : World} {env env' : Env} {v : Value} {x : Int}

theorem reads_congr (h : ∀ q, v = .instr q → env q = env' q) : Reads W env v x ↔ Reads W env' v x := by
  cases v with
  | instr q =>
    simp only [Reads]
    rw [h q rfl]
  | _ => exact Iff.rfl

theorem forall₂_reads_congr {vs : List Value} {vals : List Int}
    (h : ∀ q, Value.instr q ∈ vs → env q = env' q) :
    List.Forall₂ (Reads W env) vs vals ↔ List.Forall₂ (Reads W env') vs vals := by
  induction vs generalizing vals with
  | nil => simp
  | cons v vs ih =>
    simp only [List.forall₂_cons_left_iff]
    refine exists_congr fun x => exists_congr fun xs => ?_
    have hv : Reads W env v x ↔ Reads W env' v x :=
      reads_congr fun q hq => h q (hq ▸ List.mem_cons_self ..)
    rw [hv, ih fun q hq => h q (List.mem_cons_of_mem _ hq)]

end Reading

def Interpreted (width : Option Nat) (i : Instr) : Bool :=
  match i.op with
  | .trunc | .sext | .zext => i.ty.isInt
  | .icmp => width.isSome
  | .select => true
  | op => op.isArith && i.ty.isInt

theorem interpreted_of_isArith {width : Option Nat} {i : Instr} {n : Nat} (hop : i.op.isArith = true)
    (hty : i.ty = .int n) : Interpreted width i = true := by
  rw [Interpreted, hty]
  generalize i.op = op at hop
  cases op <;> first | rfl | cases hop

/-- The result of an operation without effects. -/
inductive Gives (W : World) (width : Option Nat) (i : Instr) : List Int → Int → Prop
  | arith {n : Nat} {a b : Int} {r : BitVec n} : i.op.isArith = true → i.ty = .int n →
      i.op.arith (BitVec.ofInt n a) (BitVec.ofInt n b) = some r → Gives W width i [a, b] r.toInt
  | trunc {n : Nat} {a : Int} : i.op = .trunc → i.ty = .int n →
      Gives W width i [a] (BitVec.ofInt n a).toInt
  | sext {n m : Nat} {a : Int} : i.op = .sext → i.ty = .int n → width = some m →
      Gives W width i [a] ((BitVec.ofInt m a).signExtend n).toInt
  | zext {n m : Nat} {a : Int} : i.op = .zext → i.ty = .int n → width = some m →
      Gives W width i [a] ((BitVec.ofInt m a).zeroExtend n).toInt
  | icmp {m : Nat} {a b : Int} : i.op = .icmp → width = some m →
      Gives W width i [a, b]
        (if compareBits i.pred (BitVec.ofInt m a) (BitVec.ofInt m b) then -1 else 0)
  | select {c a b : Int} : i.op = .select → Gives W width i [c, a, b] (if c = 0 then b else a)
  | other {vals : List Int} {x : Int} : Interpreted width i = false → i.ty.Holds x →
      W.other width i.shape vals x → Gives W width i vals x

def Undefined (i : Instr) (vals : List Int) : Prop :=
  i.op.isArith = true ∧ ∃ n a b, i.ty = .int n ∧ vals = [a, b] ∧
    i.op.arith (BitVec.ofInt n a) (BitVec.ofInt n b) = none

def Permitted (i : Instr) (vals : List Int) : Prop :=
  i.op = .call → i.callee = ValueRange.assumeCallee → vals.head? ≠ some 0

def Op.hasEffect (op : Op) : Bool := !op.isPure && !op.isTerminator && op != .phi

/-- What can be seen of a run. -/
inductive Event
  | effect (i : Instr) (vals : List Int) (result : Int)
  | jump (i : Instr) (vals : List Int) (target : Nat)
  | ret (i : Instr) (vals : List Int)

/-- A point of a run. `rest` are the instructions of the block that are still to run, and
`entered` holds the values at the time when control came over from block `source`. If phis list that
block more than once, `pick` tells which entry counts. -/
structure State where
  block : Nat
  rest : List Int
  env : Env
  entered : Env
  source : Option Nat
  pick : List Int → Nat

/-- The state after an instruction gave a value. -/
def State.after (s : State) (rest : List Int) (id : Int) (x : Int) : State :=
  { s with rest, env := Function.update s.env id x }

@[simp] theorem State.env_after (s : State) (rest : List Int) (id x : Int) :
    (s.after rest id x).env id = x :=
  Function.update_self ..

def State.enter (s : State) (f : Func) (t : Nat) (pick : List Int → Nat) : State :=
  { block := t, rest := f.bodyOf t, env := s.env, entered := s.env, source := some s.block, pick }

/-- What running an instruction that is no terminator gives, and what can be seen of that. -/
inductive Result (W : World) (f : Func) (s : State) (i : Instr) : Option Event → Int → Prop
  | phi {p : Nat} {v : Value} {x : Int} : i.op = .phi → s.source = some p →
      i.targets[s.pick i.targets]? = some (p : Int) → i.operands[s.pick i.targets]? = some v →
      Reads W s.entered v x → Result W f s i none x
  | compute {vals : List Int} {x : Int} : i.op.isPure = true →
      List.Forall₂ (Reads W s.env) i.operands vals → Gives W (f.widthOf i) i vals x →
      Result W f s i none x
  | undefined {vals : List Int} {x : Int} : W.resumes →
      List.Forall₂ (Reads W s.env) i.operands vals → Undefined i vals → i.ty.Holds x →
      Result W f s i none x
  | effect {vals : List Int} {x : Int} : i.op.hasEffect = true →
      List.Forall₂ (Reads W s.env) i.operands vals → Permitted i vals → i.ty.Holds x →
      Result W f s i (some (.effect i.shape vals x)) x

inductive Step (W : World) (f : Func) : State → Option Event → State → Prop
  | on {s : State} {id : Int} {rest : List Int} {i : Instr} {e : Option Event} {x : Int} :
      s.rest = id :: rest → f.instr? id = some i → Result W f s i e x →
      Step W f s e (s.after rest id x)
  | jump {s : State} {id : Int} {rest : List Int} {i : Instr} {vals : List Int} {t : Nat}
      {pick : List Int → Nat} : s.rest = id :: rest → f.instr? id = some i →
      i.op.isTerminator = true → List.Forall₂ (Reads W s.env) i.operands vals →
      t ∈ f.graph.succ s.block → W.goes i.shape vals t →
      Step W f s (some (.jump i.shape vals t)) (s.enter f t pick)
  | ret {s : State} {id : Int} {rest : List Int} {i : Instr} {vals : List Int} :
      s.rest = id :: rest → f.instr? id = some i → i.op = .ret →
      List.Forall₂ (Reads W s.env) i.operands vals →
      Step W f s (some (.ret i.shape vals)) { s with rest := [] }

structure State.Initial (f : Func) (s : State) : Prop where
  block : s.block = f.entryNode
  rest : s.rest = f.bodyOf f.entryNode
  source : s.source = none

/-- A run up to some point, with what could be seen of it. -/
inductive Runs (W : World) (f : Func) : List Event → State → Prop
  | start {s : State} : s.Initial f → Runs W f [] s
  | step {seen : List Event} {s t : State} {e : Option Event} : Runs W f seen s →
      Step W f s e t → Runs W f (seen ++ e.toList) t

/-- Some run comes to this point. -/
def Reached (W : World) (f : Func) (s : State) : Prop := ∃ seen, Runs W f seen s

end RegPressure

namespace RegPressure

variable {W : World} {f : Func} {s : State} {i : Instr} {w : Option Nat} {n m : Nat}
  {vals : List Int} {e : Option Event} {x : Int}

/-- An operation without effects has a result, or any where it has none. -/
theorem result_iff (hop : i.op.isPure = true) :
    Result W f s i e x ↔ e = none ∧ ∃ vals, List.Forall₂ (Reads W s.env) i.operands vals ∧
      (Gives W (f.widthOf i) i vals x ∨ W.resumes ∧ Undefined i vals ∧ i.ty.Holds x) := by
  constructor
  · intro h
    cases h with
    | phi hphi =>
      rw [hphi] at hop
      cases hop
    | compute _ hvals hgives => exact ⟨rfl, _, hvals, .inl hgives⟩
    | undefined hgo hvals hundef hx => exact ⟨rfl, _, hvals, .inr ⟨hgo, hundef, hx⟩⟩
    | effect heffect => simp [Op.hasEffect, hop] at heffect
  · rintro ⟨rfl, vals, hvals, hgives | ⟨hgo, hundef, hx⟩⟩
    · exact .compute hop hvals hgives
    · exact .undefined hgo hvals hundef hx

theorem result_iff_gives (hop : i.op.isPure = true) (harith : i.op.isArith = false) :
    Result W f s i e x ↔ e = none ∧ ∃ vals, List.Forall₂ (Reads W s.env) i.operands vals ∧
      Gives W (f.widthOf i) i vals x := by
  rw [result_iff hop]
  constructor
  · rintro ⟨rfl, vals, hvals, hgives | ⟨_, hundef, _⟩⟩
    · exact ⟨rfl, vals, hvals, hgives⟩
    · rw [hundef.1] at harith
      cases harith
  · rintro ⟨rfl, vals, hvals, hgives⟩
    exact ⟨rfl, vals, hvals, .inl hgives⟩

theorem gives_arith (hop : i.op.isArith = true) (hty : i.ty = .int n) :
    Gives W w i vals x ↔ ∃ a b r, vals = [a, b] ∧ x = BitVec.toInt r ∧
      i.op.arith (BitVec.ofInt n a) (BitVec.ofInt n b) = some r := by
  constructor
  · intro h
    cases h with
    | arith _ hm hr =>
      rw [hty] at hm
      cases hm
      exact ⟨_, _, _, rfl, rfl, hr⟩
    | other hother =>
      rw [interpreted_of_isArith hop hty] at hother
      cases hother
    | trunc h | sext h | zext h | icmp h | select h =>
      rw [h] at hop
      cases hop
  · rintro ⟨a, b, r, rfl, rfl, hr⟩
    exact .arith hop hty hr

theorem gives_trunc (hop : i.op = .trunc) (hty : i.ty = .int n) :
    Gives W w i vals x ↔ ∃ a, vals = [a] ∧ x = (BitVec.ofInt n a).toInt := by
  constructor
  · intro h
    cases h with
    | trunc _ hm =>
      rw [hty] at hm
      cases hm
      exact ⟨_, rfl, rfl⟩
    | arith h =>
      rw [hop] at h
      cases h
    | other h =>
      rw [Interpreted, hop, hty] at h
      cases h
    | sext h | zext h | icmp h | select h => simp [hop] at h
  · rintro ⟨a, rfl, rfl⟩
    exact .trunc hop hty

theorem gives_sext (hop : i.op = .sext) (hty : i.ty = .int n) :
    Gives W (some m) i vals x ↔ ∃ a, vals = [a] ∧ x = ((BitVec.ofInt m a).signExtend n).toInt := by
  constructor
  · intro h
    cases h with
    | sext _ hm hw =>
      rw [hty] at hm
      cases hm
      cases hw
      exact ⟨_, rfl, rfl⟩
    | arith h =>
      rw [hop] at h
      cases h
    | other h =>
      rw [Interpreted, hop, hty] at h
      cases h
    | trunc h | zext h | icmp h | select h => simp [hop] at h
  · rintro ⟨a, rfl, rfl⟩
    exact .sext hop hty rfl

theorem gives_zext (hop : i.op = .zext) (hty : i.ty = .int n) :
    Gives W (some m) i vals x ↔ ∃ a, vals = [a] ∧ x = ((BitVec.ofInt m a).zeroExtend n).toInt := by
  constructor
  · intro h
    cases h with
    | zext _ hm hw =>
      rw [hty] at hm
      cases hm
      cases hw
      exact ⟨_, rfl, rfl⟩
    | arith h =>
      rw [hop] at h
      cases h
    | other h =>
      rw [Interpreted, hop, hty] at h
      cases h
    | trunc h | sext h | icmp h | select h => simp [hop] at h
  · rintro ⟨a, rfl, rfl⟩
    exact .zext hop hty rfl

theorem gives_icmp (hop : i.op = .icmp) :
    Gives W (some m) i vals x ↔ ∃ a b, vals = [a, b] ∧
      x = if compareBits i.pred (BitVec.ofInt m a) (BitVec.ofInt m b) then -1 else 0 := by
  constructor
  · intro h
    cases h with
    | icmp _ hw =>
      cases hw
      exact ⟨_, _, rfl, rfl⟩
    | arith h =>
      rw [hop] at h
      cases h
    | other h =>
      rw [Interpreted, hop] at h
      cases h
    | trunc h | sext h | zext h | select h => simp [hop] at h
  · rintro ⟨a, b, rfl, rfl⟩
    exact .icmp hop rfl

theorem gives_select (hop : i.op = .select) :
    Gives W w i vals x ↔ ∃ c a b, vals = [c, a, b] ∧ x = if c = 0 then b else a := by
  constructor
  · intro h
    cases h with
    | select _ => exact ⟨_, _, _, rfl, rfl⟩
    | arith h =>
      rw [hop] at h
      cases h
    | other h =>
      rw [Interpreted, hop] at h
      cases h
    | trunc h | sext h | zext h | icmp h => simp [hop] at h
  · rintro ⟨c, a, b, rfl, rfl⟩
    exact .select hop

theorem result_phi (hop : i.op = .phi) :
    Result W f s i e x ↔ e = none ∧ ∃ (p : Nat) (v : Value), s.source = some p ∧
      i.targets[s.pick i.targets]? = some (p : Int) ∧ i.operands[s.pick i.targets]? = some v ∧
        Reads W s.entered v x := by
  constructor
  · intro h
    cases h with
    | phi _ hp ht hv hx => exact ⟨rfl, _, _, hp, ht, hv, hx⟩
    | compute hpure =>
      rw [hop] at hpure
      cases hpure
    | undefined _ _ hundef =>
      have harith := hundef.1
      rw [hop] at harith
      cases harith
    | effect heffect =>
      rw [hop] at heffect
      cases heffect
  · rintro ⟨rfl, p, v, hp, ht, hv, hx⟩
    exact .phi hop hp ht hv hx

theorem result_effect (hop : i.op.hasEffect = true) :
    Result W f s i e x ↔ ∃ vals, e = some (.effect i.shape vals x) ∧
      List.Forall₂ (Reads W s.env) i.operands vals ∧ Permitted i vals ∧ i.ty.Holds x := by
  constructor
  · intro h
    cases h with
    | phi hphi => simp [hphi, Op.hasEffect] at hop
    | compute hpure => simp [hpure, Op.hasEffect] at hop
    | undefined _ _ hundef => simp [Op.isPure_of_isArith hundef.1, Op.hasEffect] at hop
    | effect _ hvals hpermit hx => exact ⟨_, rfl, hvals, hpermit, hx⟩
  · rintro ⟨vals, rfl, hvals, hpermit, hx⟩
    exact .effect hop hvals hpermit hx

end RegPressure
