import RegPressure.Proofs.Asm.Operand
import RegPressure.Proofs.Asm.Progress
import RegPressure.Proofs.IR.Structure

namespace RegPressure

/-- What stands in the place of an operand. -/
inductive Slot
  /-- A value in the context of a type. -/
  | plain (ty : Ty)
  /-- A value with a type of its own. -/
  | typed
  /-- The name of a parameter or of a result. -/
  | local
  /-- The number of a field. -/
  | field (n : Int)

def Slot.Holds : Slot → Value → Prop
  | .plain ty, v => v.Fits (some ty)
  | .typed, v => ∃ ty, ty.Readable ∧ v.Fits (some ty)
  | .local, v => (∃ i, v = .arg i) ∨ ∃ id, v = .instr id
  | .field n, v => v = .int (some .i32) (.ofInt n)

def Path : (t : Ty) → (is : List Int) → (u : Ty) → Prop
  | t, [], u => t = u
  | t, i :: is, u => Word.wrap i = i ∧ ∃ v, Grammar.part? t i = some v ∧ Path v is u

theorem Path.readable {t u : Ty} {is : List Int} (h : Path t is u) (ht : t.Readable) :
    u.Readable := by
  induction is generalizing t with
  | nil =>
    cases h
    exact ht
  | cons i is ih =>
    obtain ⟨-, v, hv, h⟩ := h
    exact ih h (Grammar.readable_of_part? hv ht)

namespace Op

def restatesType (op : Op) : Bool :=
  op.isCast || op.isCompare || op == .extractelement || op == .insertelement ||
    op == .extractvalue || op == .switch

def hasElem : Op → Bool
  | .gep | .alloca | .load | .store | .atomicrmw | .cmpxchg => true
  | _ => false

end Op

namespace Instr

/-- What an instruction of a function that gives `ret` has for its operation, if the type behind
the operation is `w`: its operands, its targets and its types. -/
def Layout (ret w : Ty) (i : Instr) (slots : List Slot) (targets : Nat) : Prop :=
  match i.op with
  | .invalid => False
  | .fneg => slots = [.plain i.ty] ∧ targets = 0
  | .icmp => slots = [.plain w, .plain w] ∧ targets = 0 ∧ i.ty = .i1 ∧ i.pred ∈ icmpPreds
  | .fcmp => slots = [.plain w, .plain w] ∧ targets = 0 ∧ i.ty = .i1
  | .select => slots = [.plain .i1, .plain i.ty, .plain i.ty] ∧ targets = 0
  | .gep =>
    ∃ n, slots = .plain .ptr :: List.replicate n .typed ∧ targets = 0 ∧ i.ty = .ptr ∧
      i.elem.isSome = true
  | .extractelement =>
    ∃ n elem, w = .vector n elem ∧ slots = [.plain w, .plain .i32] ∧ targets = 0 ∧ i.ty = elem
  | .insertelement =>
    ∃ n elem, w = .vector n elem ∧ slots = [.plain w, .plain elem, .plain .i32] ∧ targets = 0 ∧
      i.ty = w
  | .shufflevector =>
    ∃ n elem, i.ty = .vector n elem ∧ slots = [.plain i.ty, .plain i.ty, .typed] ∧ targets = 0
  | .extractvalue => ∃ is, slots = .plain w :: is.map .field ∧ targets = 0 ∧ Path w is i.ty
  | .insertvalue =>
    ∃ is u, slots = .plain i.ty :: .typed :: is.map .field ∧ targets = 0 ∧ Path i.ty is u
  | .alloca =>
    (slots = [] ∨ slots = [.plain .i64]) ∧ targets = 0 ∧ i.ty = .ptr ∧ i.elem.isSome = true
  | .load => slots = [.plain .ptr] ∧ targets = 0 ∧ i.elem = some i.ty
  | .store => ∃ ty, i.elem = some ty ∧ slots = [.plain ty, .plain .ptr] ∧ targets = 0 ∧ i.ty = .void
  | .atomicrmw =>
    slots = [.plain .ptr, .plain i.ty] ∧ targets = 0 ∧ i.elem = some i.ty ∧
      i.ordering ≠ .none
  | .cmpxchg =>
    slots = [.plain .ptr, .plain i.ty, .plain i.ty] ∧ targets = 0 ∧ i.elem = some i.ty ∧
      i.ordering ≠ .none
  | .fence => slots = [] ∧ targets = 0 ∧ i.ty = .void ∧ i.ordering ≠ .none
  | .call =>
    ∃ n, slots = (if i.callee = "" then [.local] else []) ++ List.replicate n .typed ∧ targets = 0
  | .phi => ∃ n, slots = List.replicate (n + 1) (.plain i.ty) ∧ targets = n + 1
  | .br => slots = [] ∧ targets = 1 ∧ i.ty = .void
  | .condbr => slots = [.plain .i1] ∧ targets = 2 ∧ i.ty = .void
  | .switch => ∃ n, slots = List.replicate (n + 1) (.plain w) ∧ targets = n + 1 ∧ i.ty = .void
  | .ret =>
    (if ret.isVoid then slots = [] else ∃ ty, ty.Readable ∧ slots = [.plain ty]) ∧ targets = 0 ∧ i.ty = .void
  | .unreachable => slots = [] ∧ targets = 0 ∧ i.ty = .void
  | .add | .sub | .mul | .udiv | .sdiv | .urem | .srem | .shl | .lshr | .ashr | .and | .or | .xor
  | .fadd | .fsub | .fmul | .fdiv | .frem => slots = [.plain i.ty, .plain i.ty] ∧ targets = 0
  | .trunc | .zext | .sext | .fptrunc | .fpext | .fptosi | .fptoui | .sitofp | .uitofp
  | .ptrtoint | .inttoptr | .bitcast => slots = [.plain w] ∧ targets = 0

end Instr

def Draft.Adds (d e : Draft) (slots : List Slot) (n : Nat) : Prop :=
  ∃ vs ts, e.instr = { d.instr with operands := d.instr.operands ++ vs,
                                    targets := d.instr.targets ++ ts } ∧
    List.Forall₂ Slot.Holds slots vs ∧ ts.length = n

namespace Draft

variable {ns : Names} {d e g : Draft} {slots slots' : List Slot} {m n : Nat} {v : Value}
  {later : Option Token} {x : Token}

theorem adds_refl (d : Draft) : d.Adds d [] 0 := ⟨[], [], by simp, .nil, rfl⟩

theorem Adds.trans (h : d.Adds e slots n) (k : e.Adds g slots' m) :
    d.Adds g (slots ++ slots') (n + m) := by
  obtain ⟨vs, ts, hi, hv, ht⟩ := h
  obtain ⟨vs', ts', hi', hv', ht'⟩ := k
  refine ⟨vs ++ vs', ts ++ ts', by simp [hi', hi], List.rel_append hv hv', by simp [ht, ht']⟩

theorem adds_push {s : Slot} (h : s.Holds v) : d.Adds (d.push v later) [s] 0 :=
  ⟨[v], [], by simp [push], .cons h .nil, rfl⟩

theorem Adds.setTy (h : d.Adds e slots n) (ty : Ty) :
    (d.edit ({ · with ty })).Adds (e.edit ({ · with ty })) slots n := by
  obtain ⟨vs, ts, hi, hv, ht⟩ := h
  exact ⟨vs, ts, by simp [edit, hi], hv, ht⟩

/-- An operand and a target stand in front of `m` more of both. -/
theorem Adds.cons {sl : Slot} (hv : d.Adds e [sl] 0) (ht : e.Adds g [] 1) {g' : Draft}
    (h : g.Adds g' (List.replicate m sl) m) : d.Adds g' (List.replicate (m + 1) sl) (m + 1) := by
  have := (hv.trans ht).trans h
  rwa [Nat.add_comm m 1, List.replicate_add]

theorem adds_aim : d.Adds (d.aim ns x) [] 1 := ⟨[], _, by simp [aim]; rfl, .nil, rfl⟩

def Dressed (d g : Draft) : Prop :=
  g.instr = { d.instr with ty := g.instr.ty, elem := g.instr.elem, pred := g.instr.pred,
                           rmw := g.instr.rmw, callee := g.instr.callee,
                           ordering := g.instr.ordering }

end Draft

namespace Grammar

open DraftReader Draft

variable {ns : Names} {d e : Draft} {s t : Stream} {ty : Ty} {y : Unit} {n : Nat}

theorem adds_addOperand (h : Reads (addOperand ns (some ty)) d s y e t) :
    d.Adds e [.plain ty] 0 := by
  obtain ⟨v, later, hv, rfl⟩ := reads_addOperand.mp h
  exact adds_push (reads_value.mp hv).1.fits

theorem adds_local (hk : s.cur.kind = .local) (h : Reads (addOperand ns (some ty)) d s y e t) :
    d.Adds e [.local] 0 := by
  obtain ⟨v, later, hv, rfl⟩ := reads_addOperand.mp h
  refine adds_push ?_
  cases (reads_value.mp hv).1 with
  | param => exact .inl ⟨_, rfl⟩
  | result => exact .inr ⟨_, rfl⟩
  | later => exact .inr ⟨_, rfl⟩
  | _ => simp_all

theorem i64_readable : Ty.i64.Readable := .int (by decide) (by decide)

theorem i32_readable : Ty.i32.Readable := .int (by decide) (by decide)

theorem i1_readable : Ty.i1.Readable := .int (by decide) (by decide)

theorem adds_addTypedOperand (hty : ty.Readable)
    (h : Reads (addTypedOperand ns (some ty)) d s y e t) : d.Adds e [.typed] 0 := by
  rcases reads_addTypedOperand.mp h with ⟨-, u, w, hu, h⟩ | ⟨-, h⟩
  · obtain ⟨v, later, hv, rfl⟩ := reads_addOperand.mp h
    exact adds_push ⟨u, readable_of_type hu, (reads_value.mp hv).1.fits⟩
  · obtain ⟨v, later, hv, rfl⟩ := reads_addOperand.mp h
    exact adds_push ⟨ty, hty, (reads_value.mp hv).1.fits⟩

theorem adds_addTarget (h : Reads (addTarget ns) d s y e t) : d.Adds e [] 1 := by
  obtain ⟨-, rfl, -⟩ := reads_addTarget.mp h
  exact adds_aim

theorem adds_gepIndices (h : Reads (gepIndices ns n) d s y e t) :
    ∃ m, d.Adds e (List.replicate m .typed) 0 := by
  induction n generalizing d s with
  | zero => simp [gepIndices] at h
  | succ n ih =>
    simp only [gepIndices, DraftReader.reads_bind, reads_lift, DraftReader.reads_ite,
      DraftReader.reads_pure] at h
    obtain ⟨_, _, _, ⟨-, rfl⟩, ⟨-, _, d', u, hv, h⟩ | ⟨-, -, rfl, -⟩⟩ := h
    · obtain ⟨m, hm⟩ := ih h
      exact ⟨m + 1, (adds_addTypedOperand i64_readable hv).trans hm⟩
    · exact ⟨0, adds_refl _⟩

theorem adds_args {params : List (Option Ty)} (hp : ∀ p ∈ params, ∃ u, p = some u ∧ u.Readable)
    (h : Reads (callBody.args ns params n) d s y e t) :
    ∃ m, d.Adds e (List.replicate m .typed) 0 := by
  induction n generalizing d s params with
  | zero => simp [callBody.args] at h
  | succ n ih =>
    have htail : ∀ p ∈ params.tail, ∃ u, p = some u ∧ u.Readable :=
      fun p hm => hp p (List.mem_of_mem_tail hm)
    obtain ⟨ctx, hctx, hread⟩ :
        ∃ ctx, params.head?.getD (some .i64) = some ctx ∧ ctx.Readable := by
      cases params with
      | nil => exact ⟨_, rfl, i64_readable⟩
      | cons p ps => exact hp p (List.mem_cons_self ..)
    simp [callBody.args, hctx] at h
    rcases h with ⟨-, rfl, -⟩ | ⟨-, _, d', u, hv, ⟨-, -, h⟩ | ⟨-, h⟩⟩
    · exact ⟨0, adds_refl _⟩
    all_goals
      obtain ⟨m, hm⟩ := ih htail h
      exact ⟨m + 1, (adds_addTypedOperand hread hv).trans hm⟩

theorem adds_phiBody (h : Reads (phiBody ns ty n) d s y e t) :
    ∃ m, d.Adds e (List.replicate m (.plain ty)) m ∧ 0 < m := by
  induction n generalizing d s with
  | zero => simp [phiBody] at h
  | succ n ih =>
    simp [phiBody] at h
    obtain ⟨-, _, d₁, u₁, hv, -, _, d₂, u₂, ht, -, ⟨-, rfl, -⟩ | ⟨-, h⟩⟩ := h
    · exact ⟨1, (adds_addOperand hv).trans (adds_addTarget ht), Nat.one_pos⟩
    · obtain ⟨m, hm, -⟩ := ih h
      exact ⟨m + 1, (adds_addOperand hv).cons (adds_addTarget ht) hm, m.succ_pos⟩

theorem adds_switchCases (h : Reads (switchCases ns ty n) d s y e t) :
    ∃ m, d.Adds e (List.replicate m (.plain ty)) m := by
  induction n generalizing d s with
  | zero => simp [switchCases] at h
  | succ n ih =>
    simp [switchCases] at h
    rcases h with ⟨-, rfl, -⟩ | ⟨-, _, d₁, u₁, hv, -, _, d₂, u₂, ht, h⟩
    · exact ⟨0, adds_refl _⟩
    · obtain ⟨m, hm⟩ : ∃ m, d₂.Adds e (List.replicate m (.plain ty)) m := by
        rcases h with ⟨-, h⟩ | ⟨-, h⟩
        all_goals exact ih h
      exact ⟨m + 1, (adds_addOperand hv).cons (adds_addTarget ht) hm⟩

theorem adds_indices_go {u : Ty} (h : Reads (indices.go n ty) d s u e t) :
    ∃ is, d.Adds e (is.map .field) 0 ∧ Path ty is u := by
  induction n generalizing d s ty with
  | zero => simp [indices.go] at h
  | succ n ih =>
    simp [indices.go] at h
    rcases h with ⟨-, rfl, rfl, -⟩ | ⟨-, -, h⟩
    · exact ⟨[], adds_refl _, rfl⟩
    · split at h
      · next v hv =>
        obtain ⟨is, hadds, hpath⟩ := ih h
        have hfield : (Slot.field (count s.advance.cur)).Holds _ := rfl
        exact ⟨_ :: is, (adds_push hfield).trans hadds, Word.wrap_clamp _, v, hv, hpath⟩
      · simp at h

theorem adds_indices {u : Ty} (h : Reads (indices ty) d s u e t) :
    ∃ is, d.Adds e (is.map .field) 0 ∧ Path ty is u := by
  simp [indices] at h
  exact adds_indices_go h

def Untyped (v : Value) : Prop := (∃ ty, ty.Readable ∧ v.Fits (some ty)) ∨ v.Fits none

theorem push_of_addTypedOperand (h : Reads (addTypedOperand ns none) d s y e t) :
    ∃ v later, Untyped v ∧ d.push v later = e := by
  rcases reads_addTypedOperand.mp h with ⟨-, u, w, hu, h⟩ | ⟨-, h⟩
  · obtain ⟨v, later, hv, he⟩ := reads_addOperand.mp h
    exact ⟨v, later, .inl ⟨u, readable_of_type hu, (reads_value.mp hv).1.fits⟩, he⟩
  · obtain ⟨v, later, hv, he⟩ := reads_addOperand.mp h
    exact ⟨v, later, .inr (reads_value.mp hv).1.fits, he⟩

theorem typed_retype {v : Value} (hty : ty.Readable) (h : Untyped v) :
    Slot.typed.Holds (retype ty v) := by
  cases v with
  | int c n =>
    cases c with
    | some c =>
      rcases h with h | h
      · exact h
      · obtain ⟨h, -⟩ | hbit := h
        · cases h
        · exact ⟨_, i1_readable, .inr hbit⟩
    | none =>
      simp only [retype]
      split
      · next hf =>
        cases ty <;> simp [Ty.isFloat] at hf
        exact ⟨_, hty, rfl, Binary64.finite_ofInt _⟩
      · next hf =>
        refine ⟨ty, hty, .inl ⟨rfl, ?_⟩⟩
        rintro b ⟨⟩
        exact hf rfl
  | float c x =>
    rcases h with h | h
    · exact h
    · exact ⟨.f64, .f64, h⟩
  | undef c =>
    rcases h with h | h
    · exact h
    · exact ⟨.i64, i64_readable, h⟩
  | _ => exact ⟨.ptr, .ptr, trivial⟩

theorem params_readable (hsym : ∀ x ∈ ns.symbols.decls, ∀ p ∈ x.params, ∃ u, p = some u ∧ u.Readable)
    (name : String) : ∀ p ∈ ((ns.symbols.decl? name).map (·.params)).getD [],
      ∃ u, p = some u ∧ u.Readable := by
  cases hx : ns.symbols.decl? name with
  | none => simp
  | some x => exact hsym x (List.mem_of_find?_eq_some hx)

theorem cur_mem (h : s.cur.kind ≠ .eof) : s.cur ∈ s.rest := by
  cases hr : s.rest with
  | nil => simp [Stream.cur, hr, endToken] at h
  | cons x xs => simp [Stream.cur, hr]

def typeBehind (op : Op) : Reader Ty := do
  if op.isCompare then
    let _ ← Reader.expect .ident
  type

structure Blank (d : Draft) (op : Op) : Prop where
  op : d.instr.op = op
  ty : d.instr.ty = .void
  operands : d.instr.operands = []
  targets : d.instr.targets = []
  pred : d.instr.pred = ""
  rmw : d.instr.rmw = ""
  callee : d.instr.callee = ""
  elem : d.instr.elem = none

/-- The draft `g` is `d` with the fields that the operation sets, as the text at `s` gives them;
`w` is the type behind the operation. -/
structure Shaped (ns : Names) (op : Op) (s : Stream) (d g : Draft) (w : Ty) (slots : List Slot)
    (n : Nat) : Prop where
  dressed : d.Dressed g
  layout : g.instr.Layout ns.ret w slots n
  ty : g.instr.ty.Readable
  elem : if op.hasElem then ∃ u, g.instr.elem = some u ∧ u.Readable
    else g.instr.elem = d.instr.elem
  pred : if op.isCompare then s.cur.kind = .ident ∧ g.instr.pred = s.cur.word
    else g.instr.pred = d.instr.pred
  rmw : if op = .atomicrmw then s.cur.kind = .ident ∧ g.instr.rmw = s.cur.word
    else g.instr.rmw = d.instr.rmw
  callee : g.instr.callee ≠ d.instr.callee →
    op = .call ∧ ∃ x ∈ s.rest, x.kind = .global ∧ x.word = g.instr.callee
  ordering : g.instr.ordering ≠ d.instr.ordering → op = .atomicrmw ∨ op = .cmpxchg ∨ op = .fence
  written : op.restatesType = true → w.Readable ∧ ∃ u, Reader.Reads (typeBehind op) s w u

theorem adds_arith (h : Reads (do
      let t ← liftM type
      setTy t
      addOperand ns (some t)
      comma
      addOperand ns (some t) : DraftReader Unit) d s y e t) :
    ∃ ty, ty.Readable ∧ (d.edit ({ · with ty })).Adds e [.plain ty, .plain ty] 0 := by
  simp at h
  obtain ⟨ty, u, hw, _, _, _, hv₁, -, hv₂⟩ := h
  exact ⟨ty, readable_of_type hw, (adds_addOperand hv₁).trans (adds_addOperand hv₂)⟩

theorem adds_cast (h : Reads (do
      let t ← liftM type
      addOperand ns (some t)
      Reader.expectWord "to"
      setTy (← liftM type) : DraftReader Unit) d s y e t) :
    ∃ w u ty, Reader.Reads type s w u ∧ ty.Readable ∧
      (d.edit ({ · with ty })).Adds e [.plain w] 0 := by
  simp at h
  obtain ⟨w, u, hw, _, d', _, hv, -, ty, hty, rfl⟩ := h
  exact ⟨w, u, ty, hw, readable_of_type hty, (adds_addOperand hv).setTy ty⟩

variable {op : Op}

theorem adds_body (hd : Blank d op) (hp : ∀ x ∈ s.rest, x.kind = .global → x.word ≠ "")
    (hsym : ∀ x ∈ ns.symbols.decls, ∀ p ∈ x.params, ∃ u, p = some u ∧ u.Readable)
    (h : Reads (body ns op) d s y e t) :
    ∃ g w slots n, g.Adds e slots n ∧ Shaped ns op s d g w slots n := by
  obtain ⟨hop, hvoid, ho, ht, -, -, hcallee, -⟩ := hd
  cases op
  case fneg =>
    simp only [body, reads_bind, reads_lift, reads_setTy, ↓existsAndEq, and_true, exists_eq_left',
      exists_const] at h
    obtain ⟨ty, u, hw, hv⟩ := h
    exact ⟨_, ty, _, _, adds_addOperand hv, rfl, by simp [Instr.Layout, Draft.edit, hop],
      readable_of_type hw, rfl, rfl, rfl, absurd rfl, absurd rfl, by rintro ⟨⟩⟩
  case icmp =>
    simp only [body, decide_true, decide_not, Bool.true_and, Bool.not_eq_eq_eq_not, Bool.not_true,
      decide_eq_false_iff_not, ite_not, reads_bind, reads_lift, Reader.reads_expect, reads_edit,
      reads_ite, reads_setTy, reads_comma, ↓existsAndEq, true_and, and_true, exists_const,
      exists_eq_left', Reader.reads_failAt, false_and, exists_false, and_false, or_false] at h
    obtain ⟨hk, hpred, ty, u, hw, _, _, _, hv₁, -, hv₂⟩ := h
    exact ⟨_, ty, _, _, (adds_addOperand hv₁).trans (adds_addOperand hv₂), rfl,
      by simp [Instr.Layout, Draft.edit, hop, hpred], i1_readable, rfl, ⟨hk, rfl⟩, rfl, absurd rfl,
      absurd rfl, fun _ => ⟨readable_of_type hw, u, by simp [typeBehind, Op.isCompare, hk, hw]⟩⟩
  case fcmp =>
    simp only [body, reduceCtorEq, decide_false, decide_not, Bool.false_and, Bool.false_eq_true,
      ↓reduceIte, reads_bind, reads_lift, Reader.reads_expect, reads_edit, reads_setTy, reads_comma,
      ↓existsAndEq, true_and, and_true, exists_const, exists_eq_left'] at h
    obtain ⟨hk, ty, u, hw, _, _, _, hv₁, -, hv₂⟩ := h
    exact ⟨_, ty, _, _, (adds_addOperand hv₁).trans (adds_addOperand hv₂), rfl,
      by simp [Instr.Layout, Draft.edit, hop], i1_readable, rfl, ⟨hk, rfl⟩, rfl, absurd rfl,
      absurd rfl, fun _ => ⟨readable_of_type hw, u, by simp [typeBehind, Op.isCompare, hk, hw]⟩⟩
  case select =>
    simp only [body, reads_bind, reads_lift, reads_setTy, reads_comma, ↓existsAndEq, true_and,
      and_true, exists_const, exists_eq_left'] at h
    obtain ⟨ty, u, hw, _, _, _, hv₁, -, _, _, _, hv₂, -, hv₃⟩ := h
    exact ⟨_, ty, _, _, (adds_addOperand hv₁).trans ((adds_addOperand hv₂).trans
      (adds_addOperand hv₃)), rfl, by simp [Instr.Layout, Draft.edit, hop],
      readable_of_type hw, rfl, rfl, rfl, absurd rfl, absurd rfl, by rintro ⟨⟩⟩
  case gep =>
    simp only [body, monadStateOf_get_eq_get, reads_bind, reads_lift,
      reads_setElem, reads_setTy, reads_comma, reads_stream', ↓existsAndEq, and_true,
      exists_eq_left', true_and, exists_const] at h
    obtain ⟨ty, u, hw, -, _, _, _, hv, h⟩ := h
    obtain ⟨m, hm⟩ := adds_gepIndices h
    exact ⟨_, ty, _, _, (adds_addOperand hv).trans hm, rfl,
      by simp [Instr.Layout, Draft.edit, hop], .ptr, ⟨ty, rfl, readable_of_type hw⟩, rfl, rfl,
      absurd rfl, absurd rfl, by rintro ⟨⟩⟩
  case extractelement =>
    simp only [body, reads_bind, reads_lift, reads_setTy, reads_comma, ↓existsAndEq, true_and,
      and_true, exists_const, exists_eq_left', Prod.exists] at h
    obtain ⟨len, elem, u, hw, _, _, _, hv₁, -, hv₂⟩ := h
    have hw := reads_vectorType.mp hw
    have helem : elem.Readable := by
      cases readable_of_type hw
      assumption
    exact ⟨_, .vector len elem, _, _, (adds_addOperand hv₁).trans (adds_addOperand hv₂), rfl,
      by simp [Instr.Layout, Draft.edit, hop], helem, rfl, rfl, rfl, absurd rfl, absurd rfl,
      fun _ => ⟨readable_of_type hw, u, by simp [typeBehind, Op.isCompare, hw]⟩⟩
  case insertelement =>
    simp only [body, reads_bind, reads_lift, reads_setTy, reads_comma, ↓existsAndEq, true_and,
      and_true, exists_const, exists_eq_left', Prod.exists] at h
    obtain ⟨len, elem, u, hw, _, _, _, hv₁, -, _, _, _, hv₂, -, hv₃⟩ := h
    have hw := reads_vectorType.mp hw
    exact ⟨_, .vector len elem, _, _, (adds_addOperand hv₁).trans ((adds_addOperand hv₂).trans
      (adds_addOperand hv₃)), rfl, by simp [Instr.Layout, Draft.edit, hop], readable_of_type hw,
      rfl, rfl, rfl, absurd rfl, absurd rfl,
      fun _ => ⟨readable_of_type hw, u, by simp [typeBehind, Op.isCompare, hw]⟩⟩
  case shufflevector =>
    simp only [body, reads_bind, reads_lift, reads_setTy, reads_comma, ↓existsAndEq, true_and,
      and_true, exists_const, exists_eq_left', Prod.exists] at h
    obtain ⟨len, elem, u, hw, _, _, _, hv₁, -, _, _, _, hv₂, -, hv₃⟩ := h
    have hw := reads_vectorType.mp hw
    exact ⟨_, .vector len elem, _, _, (adds_addOperand hv₁).trans ((adds_addOperand hv₂).trans
      (adds_addTypedOperand i32_readable hv₃)), rfl, by simp [Instr.Layout, Draft.edit, hop],
      readable_of_type hw, rfl, rfl, rfl, absurd rfl, absurd rfl, by rintro ⟨⟩⟩
  case extractvalue =>
    simp only [body, reads_bind, reads_lift, reads_setTy, exists_eq_right_right, ↓existsAndEq,
      and_true] at h
    obtain ⟨ty, u, hw, _, _, _, hv, field, d', hi, rfl⟩ := h
    obtain ⟨is, hm, hpath⟩ := adds_indices hi
    exact ⟨d.edit ({ · with ty := field }), ty, _, _, ((adds_addOperand hv).trans hm).setTy field,
      rfl, by simp [Instr.Layout, Draft.edit, hop]; exact ⟨is, rfl, hpath⟩,
      hpath.readable (readable_of_type hw), rfl, rfl, rfl, absurd rfl, absurd rfl,
      fun _ => ⟨readable_of_type hw, u, by simp [typeBehind, Op.isCompare, hw]⟩⟩
  case insertvalue =>
    simp only [body, reads_bind, reads_lift, reads_setTy, reads_comma, reads_edit,
      exists_eq_right_right, ↓existsAndEq, true_and, and_true, exists_const, exists_eq_left'] at h
    obtain ⟨ty, u, hw, _, _, _, hv, -, _, _, _, hf, field, d', hi, rfl⟩ := h
    obtain ⟨v, l, hl, rfl⟩ := reads_addOperand.mp hv
    obtain ⟨x, l', hx, rfl⟩ := push_of_addTypedOperand hf
    obtain ⟨is, ⟨vs, ts, hi, hvs, hts⟩, hpath⟩ := adds_indices hi
    rw [List.length_eq_zero_iff] at hts
    refine ⟨d.edit ({ · with ty }), ty, .plain ty :: .typed :: is.map .field, 0,
      ⟨v :: retype field x :: vs, [], ?_, .cons (reads_value.mp hl).1.fits (.cons ?_ hvs), rfl⟩,
      rfl, by simp [Instr.Layout, Draft.edit, hop]; exact ⟨is, rfl, field, hpath⟩,
      readable_of_type hw, rfl, rfl, rfl, absurd rfl, absurd rfl, by rintro ⟨⟩⟩
    · simp [Draft.edit, Draft.push, hi, ho, hts]
    · exact typed_retype (hpath.readable (readable_of_type hw)) hx
  case alloca =>
    simp only [body, reads_bind, reads_lift, reads_setElem, reads_setTy, reads_ite,
      Bool.not_eq_true, reads_pure, true_and, ↓existsAndEq, and_true, Bool.exists_bool,
      Reader.reads_accept_false, Bool.false_eq_true, false_and, false_or, exists_eq_right_right,
      Reader.reads_accept_true, Bool.true_eq_false, or_false, exists_eq_left', exists_const] at h
    obtain ⟨ty, u, hw, ⟨-, rfl, -⟩ | ⟨-, hv⟩⟩ := h
    · exact ⟨_, ty, _, _, adds_refl _, rfl, by simp [Instr.Layout, Draft.edit, hop], .ptr,
        ⟨ty, rfl, readable_of_type hw⟩, rfl, rfl, absurd rfl, absurd rfl, by rintro ⟨⟩⟩
    · exact ⟨_, ty, _, _, adds_addOperand hv, rfl, by simp [Instr.Layout, Draft.edit, hop], .ptr,
        ⟨ty, rfl, readable_of_type hw⟩, rfl, rfl, absurd rfl, absurd rfl, by rintro ⟨⟩⟩
  case load =>
    simp only [body, reads_bind, reads_lift, reads_setTy, reads_setElem, reads_comma, ↓existsAndEq,
      true_and, and_true, exists_const, exists_eq_left'] at h
    obtain ⟨ty, u, hw, -, hv⟩ := h
    exact ⟨_, ty, _, _, adds_addOperand hv, rfl, by simp [Instr.Layout, Draft.edit, hop],
      readable_of_type hw, ⟨ty, rfl, readable_of_type hw⟩, rfl, rfl, absurd rfl, absurd rfl,
      by rintro ⟨⟩⟩
  case store =>
    simp only [body, reads_bind, reads_lift, reads_setElem, reads_comma, ↓existsAndEq, true_and,
      and_true, exists_const, exists_eq_left'] at h
    obtain ⟨ty, u, hw, _, _, _, hv₁, -, hv₂⟩ := h
    exact ⟨_, ty, _, _, (adds_addOperand hv₁).trans (adds_addOperand hv₂), rfl,
      by simp [Instr.Layout, Draft.edit, hop, hvoid], by simpa [Draft.edit, hvoid] using .void,
      ⟨ty, rfl, readable_of_type hw⟩, rfl, rfl, absurd rfl, absurd rfl, by rintro ⟨⟩⟩
  case atomicrmw =>
    simp only [body, reads_bind, reads_lift, Reader.reads_expect, reads_edit, reads_setTy,
      reads_setElem, reads_comma, ↓existsAndEq, true_and, and_true, exists_const, exists_eq_left']
      at h
    obtain ⟨hk, o, _, ho, ty, u, hw, _, _, _, hv₁, -, hv₂⟩ := h
    exact ⟨_, ty, _, _, (adds_addOperand hv₁).trans (adds_addOperand hv₂), rfl,
      by simp [Instr.Layout, Draft.edit, hop, ne_none_of_ordering ho], readable_of_type hw,
      ⟨ty, rfl, readable_of_type hw⟩, rfl, ⟨hk, rfl⟩, absurd rfl, fun _ => .inl rfl,
      by rintro ⟨⟩⟩
  case cmpxchg =>
    simp only [body, reads_bind, reads_lift, reads_edit, reads_setTy, reads_setElem, reads_comma,
      ↓existsAndEq, true_and, and_true, exists_const, exists_eq_left'] at h
    obtain ⟨o, _, ho, ty, u, hw, _, _, _, hv₁, -, _, _, _, hv₂, -, hv₃⟩ := h
    exact ⟨_, ty, _, _, (adds_addOperand hv₁).trans ((adds_addOperand hv₂).trans
      (adds_addOperand hv₃)), rfl,
      by simp [Instr.Layout, Draft.edit, hop, ne_none_of_ordering ho], readable_of_type hw,
      ⟨ty, rfl, readable_of_type hw⟩, rfl, rfl, absurd rfl, fun _ => .inr (.inl rfl),
      by rintro ⟨⟩⟩
  case fence =>
    simp only [body, reads_bind, reads_lift, reads_edit, exists_eq_right_right, ↓existsAndEq,
      and_true] at h
    obtain ⟨o, ho, rfl⟩ := h
    exact ⟨_, .void, _, _, adds_refl _, rfl,
      by simp [Instr.Layout, Draft.edit, hop, hvoid, ne_none_of_ordering ho],
      by simpa [Draft.edit, hvoid] using .void, rfl, rfl, rfl, absurd rfl,
      fun _ => .inr (.inr rfl), by rintro ⟨⟩⟩
  case call =>
    simp [body, callBody] at h
    obtain ⟨ty, u, hw, h⟩ := h
    split at h
    · next hk =>
      simp at h
      obtain ⟨-, _, _, h, -⟩ := h
      obtain ⟨m, hm⟩ := adds_args (params_readable hsym _) h
      have hx := ((forward_type (n := 0)).ok hw).suffix.subset (cur_mem (by simp [hk]))
      exact ⟨_, ty, _, _, hm, rfl,
        by simp [Instr.Layout, Draft.edit, hop, hp _ hx hk],
        readable_of_type hw, rfl, rfl, rfl, fun _ => ⟨rfl, _, hx, hk, rfl⟩, absurd rfl,
        by rintro ⟨⟩⟩
    · next hk =>
      simp at h
      obtain ⟨_, d', _, hv, -, _, _, h, -⟩ := h
      obtain ⟨m, hm⟩ := adds_args (by simp) h
      exact ⟨_, ty, _, _, (adds_local hk hv).trans hm, rfl,
        by simp [Instr.Layout, Draft.edit, hop, hcallee],
        readable_of_type hw, rfl, rfl, rfl, absurd rfl, absurd rfl, by rintro ⟨⟩⟩
    · simp at h
  case phi =>
    simp only [body, monadStateOf_get_eq_get, reads_bind, reads_lift,
      reads_setTy, reads_stream', ↓existsAndEq, and_true, exists_eq_left', exists_const] at h
    obtain ⟨ty, u, hw, h⟩ := h
    obtain ⟨m, hm, hpos⟩ := adds_phiBody h
    obtain ⟨k, rfl⟩ := Nat.exists_eq_add_one_of_ne_zero (Nat.ne_of_gt hpos)
    exact ⟨_, ty, _, _, hm, rfl, by simp [Instr.Layout, Draft.edit, hop],
      readable_of_type hw, rfl, rfl, rfl, absurd rfl, absurd rfl, by rintro ⟨⟩⟩
  case br =>
    simp only [body] at h
    exact ⟨_, .void, _, _, adds_addTarget h, rfl, by simp [Instr.Layout, hop, hvoid],
      by simpa [hvoid] using .void, rfl, rfl, rfl, absurd rfl, absurd rfl, by rintro ⟨⟩⟩
  case condbr =>
    simp only [body, reads_bind, reads_comma, ↓existsAndEq, true_and, and_true, exists_const] at h
    obtain ⟨_, _, _, hv, -, _, _, _, ht₁, -, ht₂⟩ := h
    exact ⟨_, .void, _, _, (adds_addOperand hv).trans ((adds_addTarget ht₁).trans
      (adds_addTarget ht₂)), rfl, by simp [Instr.Layout, hop, hvoid],
      by simpa [hvoid] using .void, rfl, rfl, rfl, absurd rfl, absurd rfl, by rintro ⟨⟩⟩
  case switch =>
    simp only [body, monadStateOf_get_eq_get, bind_pure_comp, reads_bind, reads_lift,
      reads_comma, Reader.reads_expect, reads_stream', reads_map, and_true, exists_and_right,
      ↓existsAndEq, true_and, exists_eq_left', exists_const] at h
    obtain ⟨ty, u, hw, _, _, _, hv, -, _, _, _, ht, -, _, _, h, -⟩ := h
    obtain ⟨m, hm⟩ := adds_switchCases h
    exact ⟨_, ty, _, _, (adds_addOperand hv).cons (adds_addTarget ht) hm, rfl,
      by simp [Instr.Layout, hop, hvoid], by simpa [hvoid] using .void, rfl, rfl, rfl, absurd rfl,
      absurd rfl, fun _ => ⟨readable_of_type hw, u, by simp [typeBehind, Op.isCompare, hw]⟩⟩
  case ret =>
    simp only [body, Bool.not_eq_eq_eq_not, Bool.not_true, reads_ite, reads_bind, reads_lift,
      ↓existsAndEq, and_true, Bool.not_eq_false, reads_pure, true_and] at h
    rcases h with ⟨hr, ty, u, hw, hv⟩ | ⟨hr, rfl, -⟩
    · exact ⟨_, ty, _, _, adds_addOperand hv, rfl,
        by simp [Instr.Layout, hop, hvoid, hr]; exact readable_of_type hw,
        by simpa [hvoid] using .void, rfl, rfl, rfl, absurd rfl, absurd rfl, by rintro ⟨⟩⟩
    · exact ⟨_, .void, _, _, adds_refl _, rfl, by simp [Instr.Layout, hop, hvoid, hr],
        by simpa [hvoid] using .void, rfl, rfl, rfl, absurd rfl, absurd rfl, by rintro ⟨⟩⟩
  case unreachable =>
    simp only [body, reads_pure, true_and] at h
    obtain ⟨rfl, -⟩ := h
    exact ⟨_, .void, _, _, adds_refl _, rfl, by simp [Instr.Layout, hop, hvoid],
      by simpa [hvoid] using .void, rfl, rfl, rfl, absurd rfl, absurd rfl, by rintro ⟨⟩⟩
  case invalid => simp [body, Op.isBinary, Op.isCast] at h
  case trunc | zext | sext | fptrunc | fpext | fptosi | fptoui | sitofp | uitofp | ptrtoint |
      inttoptr | bitcast =>
    obtain ⟨w, u, ty, hw, hty, hadds⟩ := adds_cast h
    exact ⟨_, w, _, _, hadds, rfl, by simp [Instr.Layout, Draft.edit, hop], hty, rfl, rfl, rfl,
      absurd rfl, absurd rfl,
      fun _ => ⟨readable_of_type hw, u, by simp [typeBehind, Op.isCompare, hw]⟩⟩
  all_goals
    obtain ⟨ty, hty, hadds⟩ := adds_arith h
    exact ⟨_, ty, _, _, hadds, rfl, by simp [Instr.Layout, Draft.edit, hop], hty, rfl, rfl, rfl,
      absurd rfl, absurd rfl, by rintro ⟨⟩⟩

end Grammar

end RegPressure
