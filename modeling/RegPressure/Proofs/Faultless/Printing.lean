import RegPressure.Asm.Printer
import RegPressure.Proofs.Faultless.Base

namespace RegPressure.Printer

open Checked

variable {s : Symbols} {f : Func} {v : Value} {id : Int} {i : Instr} {n : Nat}

theorem answers_value (h : f.Refers s v) : Answers (value (some s) f v) := by
  cases v with
  | arg n =>
    obtain ⟨n, rfl, hn⟩ := h
    obtain ⟨p, -, hp⟩ := exists_element hn
    rw [value, Func.valueName, if_pos (by omega), hp]
    exact ⟨_, rfl⟩
  | global n =>
    obtain ⟨n, rfl, hn⟩ := h
    obtain ⟨g, -, hg⟩ := exists_element hn
    rw [value, Func.valueName, if_pos (by omega), hg]
    exact ⟨_, rfl⟩
  | instr id =>
    obtain ⟨i, hi⟩ := h
    exact (Func.answers_instr hi).bind fun _ _ => answers_pure _
  | _ => exact ⟨_, rfl⟩

theorem answers_values {vs : List Value} (h : ∀ v ∈ vs, f.Refers s v) :
    Answers (values (some s) f vs) :=
  (answers_mapM fun v hv => answers_value (h v hv)).bind fun _ _ => answers_pure _

theorem answers_typed (h : f.Refers s v) : Answers (typed (some s) f v) := by
  refine h.answers_typeOf.bind fun t _ => ?_
  cases t with
  | some t => exact (answers_value h).bind fun _ _ => answers_pure _
  | none => exact answers_value h

theorem answers_typeText (h : f.Refers s v) : Answers (typeText f v) :=
  h.answers_typeOf.bind fun _ _ => answers_pure _

theorem answers_blockName {b : Int} {blk : Block} (hb : f.block? b = some blk) :
    Answers (f.blockName b) :=
  Answers.bind ⟨blk, Func.block_eq_ok.mpr hb⟩ fun _ _ => answers_pure _

theorem mem_of_callArgs (hv : v ∈ i.callArgs) : v ∈ i.operands := by
  unfold Instr.callArgs at hv
  split at hv
  · cases hv
  · split at hv
    · exact List.mem_of_mem_drop hv
    · exact hv

section Parts

variable (h : f.Solid s) (hi : f.instr? id = some i)

include h hi

theorem answers_operand {k : Value → Checked String} (hk : ∀ v, f.Refers s v → Answers (k v))
    (hn : n < i.operands.length) : Answers (do k (← element i.operands n)) := by
  obtain ⟨v, hv, -, hrefers⟩ := h.exists_operand hi hn
  exact Answers.bind ⟨v, hv⟩ fun u hu => by
    cases hv.symm.trans hu
    exact hk v hrefers

theorem answers_target (hn : n < i.targets.length) :
    Answers (do f.blockName (← element i.targets n)) := by
  obtain ⟨t, blk, ht, hblk⟩ := h.exists_target hi hn
  exact Answers.bind ⟨t, ht⟩ fun u hu => by
    cases ht.symm.trans hu
    exact answers_blockName hblk

theorem answers_phiEdges (vs : List Value) (hv : ∀ v ∈ vs, f.Refers s v)
    (hn : n + vs.length ≤ i.targets.length) : Answers (phiEdges (some s) f i n vs) := by
  induction vs generalizing n with
  | nil => exact answers_pure _
  | cons v vs ih =>
    rw [List.length_cons] at hn
    refine (answers_value (hv v (List.mem_cons_self ..))).bind fun _ _ => ?_
    obtain ⟨t, blk, ht, hblk⟩ := h.exists_target hi (n := n) (by omega)
    refine Answers.bind ⟨t, ht⟩ fun u hu => ?_
    cases ht.symm.trans hu
    refine (answers_blockName hblk).bind fun _ _ => ?_
    exact (ih (fun v hm => hv v (List.mem_cons_of_mem _ hm)) (by omega)).bind fun _ _ =>
      answers_pure _

theorem answers_switchCases (vs : List Value) (hv : ∀ v ∈ vs, f.Refers s v)
    (hn : n + vs.length ≤ i.targets.length) : Answers (switchCases (some s) f i n vs) := by
  induction vs generalizing n with
  | nil => exact answers_pure _
  | cons v vs ih =>
    rw [List.length_cons] at hn
    refine (answers_value (hv v (List.mem_cons_self ..))).bind fun _ _ => ?_
    obtain ⟨t, blk, ht, hblk⟩ := h.exists_target hi (n := n) (by omega)
    refine Answers.bind ⟨t, ht⟩ fun u hu => ?_
    cases ht.symm.trans hu
    refine (answers_blockName hblk).bind fun _ _ => ?_
    exact (ih (fun v hm => hv v (List.mem_cons_of_mem _ hm)) (by omega)).bind fun _ _ =>
      answers_pure _

theorem answers_body : Answers (body (some s) f i) := by
  have hc := h.complete id i hi
  have hop {n : Nat} (hn : n < i.operands.length) :=
    answers_operand (k := value (some s) f) h hi (fun _ => answers_value) hn
  have hopTy {n : Nat} (hn : n < i.operands.length) :=
    answers_operand (k := typeText f) h hi (fun _ => answers_typeText) hn
  have hopTyped {n : Nat} (hn : n < i.operands.length) :=
    answers_operand (k := typed (some s) f) h hi (fun _ => answers_typed) hn
  have hrefers := h.refers id i hi
  have htarget {n : Nat} (hn : n < i.targets.length) := answers_target h hi hn
  unfold body
  unfold Instr.Complete at hc
  cases hi' : i.op <;> rw [hi'] at hc <;> dsimp only at hc ⊢
  case fneg | load => exact (hop (by omega)).bind_pure
  case icmp | fcmp =>
    exact (hopTy (by omega)).bind fun _ _ => (hop (by omega)).bind fun _ _ =>
      (hop (by omega)).bind_pure
  case select =>
    exact (hop (by omega)).bind fun _ _ => (hop (by omega)).bind fun _ _ =>
      (hop (by omega)).bind_pure
  case gep =>
    refine (hop hc.1).bind fun _ _ => (answers_mapM fun v hv => ?_).bind_pure
    exact answers_typed (hrefers v (List.mem_of_mem_drop hv))
  case extractelement | insertelement | extractvalue =>
    exact (hopTy (by omega)).bind fun _ _ => (answers_values hrefers).bind_pure
  case shufflevector =>
    exact (hop (by omega)).bind fun _ _ => (hop (by omega)).bind fun _ _ =>
      (hopTyped (by omega)).bind_pure
  case insertvalue =>
    refine (hop (by omega)).bind fun _ _ => (hopTyped (by omega)).bind fun _ _ =>
      (answers_mapM fun v hv => ?_).bind_pure
    exact answers_value (hrefers v (List.mem_of_mem_drop hv))
  case alloca =>
    split
    · exact answers_pure _
    · next v _ hv => exact (answers_value (hrefers v (by simp [hv]))).bind_pure
  case store => exact (hop (by omega)).bind fun _ _ => (hop (by omega)).bind_pure
  case atomicrmw | cmpxchg => exact (answers_values hrefers).bind_pure
  case fence => exact answers_pure _
  case call =>
    have hargs : Answers (i.callArgs.mapM (typed (some s) f)) := answers_mapM fun v hv =>
      answers_typed (hrefers v (mem_of_callArgs hv))
    split
    · exact hargs.bind_pure
    · next hcallee => exact (hop (hc.1 (not_not.mp hcallee))).bind fun _ _ => hargs.bind_pure
  case phi => exact (answers_phiEdges h hi i.operands hrefers (by omega)).bind_pure
  case br => exact (htarget (by omega)).bind_pure
  case condbr =>
    exact (hop (by omega)).bind fun _ _ => (htarget (by omega)).bind fun _ _ =>
      (htarget (by omega)).bind_pure
  case switch =>
    refine (hopTy hc.1).bind fun _ _ => (hop hc.1).bind fun _ _ =>
      (htarget (by omega)).bind fun _ _ => ?_
    exact (answers_switchCases h hi _ (fun v hv => hrefers v (List.mem_of_mem_drop hv))
      (by rw [List.length_drop]; omega)).bind_pure
  case ret =>
    split
    · exact answers_pure _
    · next v _ hv =>
      have hv := hrefers v (by simp [hv])
      exact (answers_typeText hv).bind fun _ _ => (answers_value hv).bind_pure
  case unreachable => exact answers_pure _
  case trunc | zext | sext | fptrunc | fpext | fptosi | fptoui | sitofp | uitofp | ptrtoint
      | inttoptr | bitcast =>
    exact (hopTy (by omega)).bind fun _ _ => (hop (by omega)).bind_pure
  all_goals exact (hop (by omega)).bind fun _ _ => (hop (by omega)).bind_pure

theorem answers_instr : Answers (instr (some s) f id i) := (answers_body h hi).bind_pure

end Parts

theorem answers_block (h : f.Solid s) {b : Int} {blk : Block} (hb : f.block? b = some blk) :
    Answers (block (some s) f b blk) := by
  refine (answers_mapM fun id hid => ?_).bind_pure
  obtain ⟨i, hi, -⟩ := h.wellFormed.home_of_stands ⟨blk, hb, hid⟩
  refine (Func.answers_instr hi).bind fun j hj => ?_
  exact answers_instr h (Func.instr_eq_ok.mp hj)

theorem answers_func (h : f.Solid s) : Answers (func (some s) f) := by
  refine (answers_mapIdxM fun n p hp => ?_).bind fun _ _ =>
    (answers_mapIdxM fun n blk hblk => ?_).bind_pure
  · refine (answers_value (v := .arg n) ⟨n, rfl, ?_⟩).bind_pure
    exact (List.getElem?_eq_some_iff.mp hp).1
  · exact answers_block h (Func.block?_ofNat.trans (by simpa using hblk))

theorem answers_module {m : Module} (h : ∀ f ∈ m.funcs, f.Solid m.symbols) :
    Answers (module m) :=
  (answers_mapM fun f hf => answers_func (h f hf)).bind_pure

end RegPressure.Printer
