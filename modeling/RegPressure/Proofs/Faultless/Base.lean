import RegPressure.Liveness
import RegPressure.Proofs.Asm.Total
import RegPressure.Proofs.IR.Intact
import RegPressure.Proofs.IR.Users

namespace RegPressure

variable {α β : Type}

open Checked

theorem exists_element {l : List α} {n : Nat} (h : n < l.length) :
    ∃ a ∈ l, element l n = .ok a :=
  ⟨l[n], List.getElem_mem h, element_eq_ok.mpr (List.getElem?_eq_getElem h)⟩

namespace Func

/-- A constant, or a reference to something that the function has. -/
def Refers (s : Symbols) (f : Func) : Value → Prop
  | .arg i => ∃ n : Nat, i = n ∧ n < f.params.length
  | .global i => ∃ n : Nat, i = n ∧ n < s.globals.length
  | .instr id => ∃ i, f.instr? id = some i
  | _ => True

theorem Has.refers {s : Symbols} {f : Func} {v : Value} (h : f.Has s v) : f.Refers s v := by
  cases v with
  | instr id => exact h.imp fun _ hi => hi.1
  | _ => exact h

/-- All that the function refers to is there, every instruction stands in a block, and none lacks
an operand or a target. -/
structure Solid (s : Symbols) (f : Func) : Prop where
  wellFormed : f.WellFormed (some s)
  stands : ∀ id i, f.instr? id = some i → ∃ b, f.Stands b id
  refers : ∀ id i, f.instr? id = some i → ∀ v ∈ i.operands, f.Refers s v
  complete : ∀ id i, f.instr? id = some i → i.Complete f.ret

theorem Read.solid {tokens : List Token} {s : Symbols} {f : Func} (h : f.Read tokens s) :
    f.Solid s where
  wellFormed := h.wellFormed
  stands := fun _ _ hi => h.stands hi
  refers := fun id i hi v hv => (h.has id i hi v hv).refers
  complete := fun _ _ hi => h.complete hi

/-- What was read without an error is intact. -/
theorem Read.intact {tokens : List Token} {s : Symbols} {f : Func} (h : f.Read tokens s) :
    f.Intact (some s) where
  wellFormed := h.wellFormed
  stands _ _ hi _ := h.stands hi
  void id i hi hop := by
    obtain ⟨w, hw, -⟩ := h.formed id i hi
    obtain ⟨slots, hl, -⟩ := hw.layout
    unfold Instr.Layout at hl
    cases ho : i.op <;> simp only [ho] at hl hop <;> try cases hop
    case ret | br | condbr | unreachable => exact hl.2.2
    case switch =>
      obtain ⟨_, -, -, hty⟩ := hl
      exact hty
  bit id i hi hop := by
    obtain ⟨w, hw, -⟩ := h.formed id i hi
    obtain ⟨slots, hl, -⟩ := hw.layout
    simp only [Instr.Layout, hop] at hl
    exact hl.2.2.1

variable {s : Symbols} {f : Func} {v : Value} {id : Int} {i : Instr}

theorem answers_instr (h : f.instr? id = some i) : Answers (f.instr id) := ⟨i, instr_eq_ok.mpr h⟩

theorem Refers.answers_typeOf (h : f.Refers s v) : Answers (f.typeOf v) := by
  cases v with
  | arg n =>
    obtain ⟨n, rfl, hn⟩ := h
    obtain ⟨p, -, hp⟩ := exists_element hn
    rw [typeOf, if_pos (by omega), hp]
    exact ⟨_, rfl⟩
  | instr id =>
    obtain ⟨i, hi⟩ := h
    exact (answers_instr hi).bind fun _ _ => answers_pure _
  | _ => exact ⟨_, rfl⟩

theorem Refers.answers_global? (h : f.Refers s v) : Answers (global? (some s) v) := by
  cases v with
  | global n =>
    obtain ⟨n, rfl, -⟩ := h
    exact answers_global?_iff.mpr (by rintro - _ ⟨⟩; exact Int.natCast_nonneg n)
  | _ => exact ⟨_, rfl⟩

namespace WellFormed

variable {scope : Option Symbols} (h : f.WellFormed scope)

include h

theorem exists_placed : ∃ l, f.placed = .ok l ∧
    ∀ x ∈ l, f.instr? x.1 = some x.2 ∧ ∃ b, f.Stands b x.1 := by
  obtain ⟨l, hl⟩ : Answers f.placed := by
    refine answers_mapM fun id hid => ?_
    obtain ⟨b, hb⟩ := mem_flatMap_instrs.mp hid
    obtain ⟨i, hi, -⟩ := h.home_of_stands hb
    rw [cell_eq_ok.mpr hi, ok_bind]
    exact answers_pure _
  exact ⟨l, hl, fun x hx => mem_placed hl hx⟩

theorem answers_terminator {b : Int} {blk : Block} (hb : f.block? b = some blk) :
    Answers (f.terminator b) := by
  rw [terminator, block_eq_ok.mpr hb, ok_bind]
  split
  · exact answers_pure none
  · next id hlast =>
    obtain ⟨i, hi, -⟩ := h.home_of_stands ⟨blk, hb, List.mem_of_getLast? hlast⟩
    exact (answers_instr hi).bind_pure

theorem answers_instrDominates (d : DomInfo) {a b x y : Int} (ha : f.Stands x a) (hb : f.Stands y b) :
    Answers (d.instrDominates f a b) := by
  obtain ⟨x, rfl, -⟩ := ha.nat
  obtain ⟨y, rfl, -⟩ := hb.nat
  obtain ⟨blk, hblk, hmem⟩ := hb
  exact ⟨_, h.instrDominates_eq ha hblk hmem⟩

end WellFormed

/-- An operand of which the type can be told, and which is no instruction that has been erased. -/
structure Present (f : Func) (v : Value) : Prop where
  typed : Answers (f.typeOf v)
  live : ∀ id, v = .instr id → f.isLive id = true

namespace Solid

variable (h : f.Solid s)

include h

theorem references (hi : f.instr? id = some i) : f.References (some s) i := by
  obtain ⟨b, hb⟩ := h.stands id i hi
  exact h.wellFormed.references hb hi

theorem home (hi : f.instr? id = some i) : ∃ b, i.home = some b ∧ f.Stands b id := by
  obtain ⟨b, hb⟩ := h.stands id i hi
  exact ⟨b, h.wellFormed.home_eq hb hi, hb⟩

theorem live (hi : f.instr? id = some i) : i.isErased = false := by
  obtain ⟨b, hb, -⟩ := h.home hi
  simp [Instr.isErased, hb]

theorem isLive (hi : f.instr? id = some i) : f.isLive id = true :=
  isLive_iff.mpr ⟨i, hi, h.live hi⟩

/-- The operand of this number is there. -/
theorem exists_operand (hi : f.instr? id = some i) {n : Nat} (hn : n < i.operands.length) :
    ∃ v, element i.operands n = .ok v ∧ v ∈ i.operands ∧ f.Refers s v := by
  obtain ⟨v, hv, hel⟩ := exists_element hn
  exact ⟨v, hel, hv, h.refers id i hi v hv⟩

theorem exists_target (hi : f.instr? id = some i) {n : Nat} (hn : n < i.targets.length) :
    ∃ t blk, element i.targets n = .ok t ∧ f.block? t = some blk := by
  obtain ⟨t, ht, hel⟩ := exists_element hn
  obtain ⟨blk, hblk⟩ := (h.references hi).targets t ht
  exact ⟨t, blk, hel, hblk⟩

/-- What is referred to is there and was not erased. -/
theorem present (hv : f.Refers s v) : f.Present v where
  typed := hv.answers_typeOf
  live := by
    rintro id rfl
    obtain ⟨i, hi⟩ := hv
    exact h.isLive hi

end Solid

/-- What of a function is left after some of its instructions were erased: it stands in blocks, has
the operands and targets that its operations need, and its operands are there. -/
structure Sturdy (scope : Option Symbols) (f : Func) : Prop where
  wellFormed : f.WellFormed scope
  stands : ∀ id i, f.instr? id = some i → i.isErased = false → ∃ b, f.Stands b id
  complete : ∀ id i, f.instr? id = some i → i.isErased = false → ∃ ret, i.Complete ret
  present : ∀ id i, f.instr? id = some i → i.isErased = false → ∀ v ∈ i.operands, f.Present v

theorem Solid.sturdy (h : f.Solid s) : f.Sturdy (some s) where
  wellFormed := h.wellFormed
  stands id i hi _ := h.stands id i hi
  complete id i hi _ := ⟨f.ret, h.complete id i hi⟩
  present id i hi _ v hv := h.present (h.refers id i hi v hv)

namespace Sturdy

variable {scope : Option Symbols} (h : f.Sturdy scope)

include h

theorem references (hi : f.instr? id = some i) (hlive : i.isErased = false) :
    f.References scope i := by
  obtain ⟨b, hb⟩ := h.stands id i hi hlive
  exact h.wellFormed.references hb hi

/-- The operand of this number is there. -/
theorem exists_operand (hi : f.instr? id = some i) (hlive : i.isErased = false) {n : Nat}
    (hn : n < i.operands.length) : ∃ v, element i.operands n = .ok v ∧ v ∈ i.operands ∧ f.Present v := by
  obtain ⟨v, hv, hel⟩ := exists_element hn
  exact ⟨v, hel, hv, h.present id i hi hlive v hv⟩

/-- The target of this number is a block. -/
theorem exists_target (hi : f.instr? id = some i) (hlive : i.isErased = false) {n : Nat}
    (hn : n < i.targets.length) : ∃ t blk, element i.targets n = .ok t ∧ f.block? t = some blk := by
  obtain ⟨t, ht, hel⟩ := exists_element hn
  obtain ⟨blk, hblk⟩ := (h.references hi hlive).targets t ht
  exact ⟨t, blk, hel, hblk⟩

end Sturdy

end Func

end RegPressure

namespace RegPressure

open Checked

variable {s : Symbols} {scope : Option Symbols} {f : Func} {id : Int} {i : Instr}

namespace Func

theorem Sturdy.answers_userMap (h : f.Sturdy scope) : Answers f.userMap :=
  answers_userMap_iff.mpr fun u i hi hlive d hd => (h.present u i hi hlive _ hd).live d rfl

theorem answers_node {b : Int} {blk : Block} (h : f.block? b = some blk) :
    Answers (f.graph.node b) := by
  obtain ⟨n, rfl, hn⟩ := block?_eq_some.mp h
  exact ⟨n, node_eq_ok.mpr ⟨rfl, (Array.getElem?_eq_some_iff.mp hn).1⟩⟩

end Func

namespace LiveSpan

theorem answers_phiBlocks (h : f.References scope i) (hop : i.op = .phi) (v : Int) :
    Answers (phiBlocks f v i) := by
  refine answers_mapM fun x hx => ?_
  have hlen := h.arity hop
  have hn : x.2 < i.targets.length := by
    have := List.snd_lt_of_mem_zipIdx (List.mem_of_mem_filter hx)
    omega
  obtain ⟨t, ht, hel⟩ := exists_element hn
  obtain ⟨blk, hblk⟩ := h.targets t ht
  refine Answers.bind ⟨t, hel⟩ fun u hu => ?_
  cases hel.symm.trans hu
  exact Func.answers_node hblk

theorem answers_wanted (h : f.WellFormed scope) (v home : Int) (us : List Int)
    (hus : ∀ u ∈ us, ∃ b, f.Stands b u) : Answers (wanted f v home us) := by
  induction us with
  | nil => exact answers_pure _
  | cons u us ih =>
    obtain ⟨c, hc⟩ := hus u (List.mem_cons_self ..)
    obtain ⟨i, hi, hhome, hrefs⟩ := h.home_of_stands hc
    have hrest := ih fun x hx => hus x (List.mem_cons_of_mem _ hx)
    refine (Func.answers_instr hi).bind fun j hj => ?_
    cases hi.symm.trans (Func.instr_eq_ok.mp hj)
    refine answers_ite (fun hop => ?_) fun _ => ?_
    · exact (answers_phiBlocks hrefs hop v).bind fun _ _ => hrest.bind_pure
    · refine (answers_mapM fun b hb => ?_).bind fun _ _ => hrest.bind_pure
      obtain ⟨hb, -⟩ : i.home = some b ∧ b ≠ home := by simpa using hb
      cases hhome.symm.trans hb
      obtain ⟨blk, hblk, -⟩ := hc
      exact Func.answers_node hblk

theorem answers_compute (h : f.WellFormed scope) (v home : Int) (us : List Int)
    (hus : ∀ u ∈ us, ∃ b, f.Stands b u) : Answers (compute f v home us) :=
  (answers_wanted h v home us hus).bind_pure

theorem value_of_compute {home : Int} {us : List Int} {span : LiveSpan}
    (he : compute f id home us = .ok span) : span.value = id ∧ span.home = home := by
  simp only [compute, bind_eq_ok, pure_eq_ok] at he
  obtain ⟨⟨starts, ends⟩, -, rfl⟩ := he
  exact ⟨rfl, rfl⟩

end LiveSpan

/-- Liveness of a well-formed function of which every instruction stands in a block. -/
theorem Func.WellFormed.answers_liveSpans (h : f.WellFormed scope)
    (hstands : ∀ id i, f.instr? id = some i → i.isErased = false → ∃ b, f.Stands b id) :
    Answers f.liveSpans := by
  obtain ⟨users, husers⟩ : Answers f.userMap := by
    refine answers_userMap_iff.mpr fun u i hi hlive d hd => ?_
    obtain ⟨b, hb⟩ := hstands u i hi hlive
    exact (h.references hb hi).operands _ hd
  obtain ⟨l, hl, hplaced⟩ := h.exists_placed
  simp only [liveSpans, husers, hl, ok_bind]
  refine (answers_mapM fun x hx => ?_).bind_pure
  have hx := (hplaced x (List.mem_of_mem_filter hx)).1
  rw [cell_of_userMap husers hx, ok_bind]
  refine LiveSpan.answers_compute h _ _ _ fun u hu => ?_
  obtain ⟨j, hj, hlive, -⟩ := mem_users.mp hu
  exact hstands u j hj hlive

theorem Func.Solid.answers_liveSpans (h : f.Solid s) : Answers f.liveSpans :=
  h.wellFormed.answers_liveSpans fun id i hi _ => h.stands id i hi

end RegPressure
