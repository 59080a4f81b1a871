import RegPressure.Proofs.Advice.Records
import RegPressure.Proofs.Faultless.Base

namespace RegPressure

open Checked

variable {s : Symbols} {f : Func} {v : Value} {id : Int} {i : Instr}

namespace Memory

theorem exists_decomposeWithin (h : f.Solid s) (n : Nat) {b : Base} (hb : f.Refers s b.object) :
    ∃ c, decomposeWithin f n b = .ok c ∧ f.Refers s c.object := by
  induction n generalizing b with
  | zero => exact ⟨b, rfl, hb⟩
  | succ n ih =>
    unfold decomposeWithin
    split
    · next id hid =>
      rw [hid] at hb
      obtain ⟨i, hi⟩ := hb
      have hc := h.complete id i hi
      rw [Func.instr_eq_ok.mpr hi, ok_bind]
      split
      · next hop =>
        simp only [Instr.Complete, hop] at hc
        obtain ⟨v, hv, -, hrefers⟩ := h.exists_operand hi (n := 0) (by omega)
        have hv : element i.operands 0 = .ok v := hv
        rw [hv, ok_bind]
        exact ih hrefers
      · next hop =>
        simp only [Instr.Complete, hop] at hc
        obtain ⟨v, hv, -, hrefers⟩ := h.exists_operand hi (n := 0) (by omega)
        have hv : element i.operands 0 = .ok v := hv
        rw [hv, ok_bind]
        split
        · exact ih hrefers
        · exact ih hrefers
      · exact ⟨b, rfl, by rw [hid]; exact ⟨i, hi⟩⟩
    · exact ⟨b, rfl, hb⟩

theorem exists_decompose (h : f.Solid s) (hv : f.Refers s v) :
    ∃ b, decompose f v = .ok b ∧ f.Refers s b.object := exists_decomposeWithin h _ hv

theorem answers_origin (hv : f.Refers s v) : Answers (origin f v) := by
  cases v with
  | instr id =>
    obtain ⟨i, hi⟩ := hv
    exact (Func.answers_instr hi).bind_pure
  | _ => exact answers_pure _

namespace Model

/-- A model of a solid function of a module. -/
structure Solid (s : Symbols) (m : Model) : Prop where
  scope : m.scope = some s
  func : m.func.Solid s

variable {m : Model} (h : m.Solid s)

include h

theorem answers_isImmutable (hv : m.func.Refers s v) : Answers (m.isImmutable v) := by
  obtain ⟨b, hb, hrefers⟩ := exists_decompose h.func hv
  refine Answers.bind ⟨b, hb⟩ fun c hc => ?_
  cases hb.symm.trans hc
  refine (answers_origin hrefers).bind fun o _ => ?_
  split
  · rw [h.scope]
    exact hrefers.answers_global?.bind_pure
  · exact answers_pure _
  · exact answers_pure _

omit h in
theorem answers_isPrivateFrom (alloca : Int) (hv : m.func.Refers s v) (start : Origin) :
    Answers (m.isPrivateFrom alloca v start) := by
  refine answers_ite (fun _ => answers_pure _) fun _ => ?_
  refine answers_ite (fun _ => answers_pure _) fun _ => ?_
  split
  · next id =>
    obtain ⟨i, hi⟩ := hv
    exact (Func.answers_instr hi).bind_pure
  · exact answers_pure _

theorem answers_overlap {a b : Location} (ha : m.func.Refers s a.ptr) (hb : m.func.Refers s b.ptr) :
    Answers (m.overlap a b) := by
  obtain ⟨ba, hba, hra⟩ := exists_decompose h.func ha
  obtain ⟨bb, hbb, hrb⟩ := exists_decompose h.func hb
  obtain ⟨oa, hoa⟩ := answers_origin hra
  obtain ⟨ob, hob⟩ := answers_origin hrb
  unfold overlap
  refine answers_ite (fun _ => answers_pure _) fun _ => ?_
  simp only [hba, hbb, ok_bind]
  refine answers_ite (fun _ => ?_) fun _ => ?_
  · refine answers_ite (fun _ => answers_pure _) fun _ => ?_
    exact answers_ite (fun _ => answers_pure _) fun _ => answers_pure _
  · simp only [hoa, hob, ok_bind]
    refine answers_ite (fun _ => answers_pure _) fun _ => ?_
    -- Either of the two may be private, which answers for each as it does for the other.
    refine Answers.bind ?_ fun _ _ => answers_ite (fun _ => answers_pure _) fun _ => ?_
    · split
      · exact answers_isPrivateFrom _ hrb ob
      · exact answers_pure _
    · refine Answers.bind ?_ fun _ _ => answers_ite (fun _ => answers_pure _) fun _ => answers_pure _
      split
      · exact answers_isPrivateFrom _ hra oa
      · exact answers_pure _

theorem refers_locationOf (hi : m.func.instr? id = some i) :
    m.func.Refers s (locationOf i).ptr := by
  change m.func.Refers s (i.address?.getD (.int none 0))
  cases ha : i.address? with
  | none => trivial
  | some v =>
    refine h.func.refers id i hi v ?_
    unfold Instr.address? at ha
    split at ha
    · exact List.mem_of_getElem? ha
    · exact List.mem_of_getElem? ha
    · exact List.mem_of_getElem? ha
    · exact List.mem_of_getElem? ha
    · cases ha

variable {loc : Location} (hloc : m.func.Refers s loc.ptr)

include hloc

theorem answers_touches (hi : m.func.instr? id = some i) : Answers (m.touches i loc) :=
  (answers_overlap h (refers_locationOf h hi) hloc).bind_pure

theorem answers_callEffect (i : Instr) : Answers (m.callEffect i loc) := by
  obtain ⟨b, hb, hrefers⟩ := exists_decompose h.func hloc
  obtain ⟨o, ho⟩ := answers_origin hrefers
  unfold callEffect
  refine answers_ite (fun _ => answers_pure _) fun _ => ?_
  simp only [hb, ho, ok_bind]
  split
  · exact answers_ite (fun _ => answers_pure _) fun _ => answers_pure _
  · exact answers_pure _

theorem answers_effect (hi : m.func.instr? id = some i) : Answers (m.effect i loc) := by
  have htouches := answers_touches h hloc hi
  unfold effect
  split
  · exact htouches.bind_pure
  · exact htouches.bind_pure
  · refine answers_ite (fun _ => answers_pure _) fun _ => ?_
    exact htouches.bind_pure
  · refine answers_ite (fun _ => answers_pure _) fun _ => ?_
    exact htouches.bind_pure
  · exact answers_pure _
  · exact answers_callEffect h hloc i
  · exact answers_pure _

theorem answers_writtenIn_go (ids : List Int) (hids : ∀ id ∈ ids, ∃ i, m.func.instr? id = some i) :
    Answers (writtenIn.go m loc ids) := by
  induction ids with
  | nil => exact answers_pure _
  | cons id ids ih =>
    obtain ⟨i, hi⟩ := hids id (List.mem_cons_self ..)
    unfold writtenIn.go
    rw [Func.instr_eq_ok.mpr hi, ok_bind]
    refine (answers_effect h hloc hi).bind fun _ _ => answers_ite (fun _ => answers_pure _) fun _ => ?_
    exact ih fun x hx => hids x (List.mem_cons_of_mem _ hx)

theorem answers_writtenIn (region : List Nat) (hr : ∀ b ∈ region, ∃ blk, m.func.block? b = some blk) :
    Answers (m.writtenIn loc region) := by
  induction region with
  | nil => exact answers_pure _
  | cons b region ih =>
    obtain ⟨blk, hblk⟩ := hr b (List.mem_cons_self ..)
    unfold writtenIn
    rw [Func.block_eq_ok.mpr hblk, ok_bind]
    refine (answers_writtenIn_go h hloc blk.instrs fun id hid => ?_).bind fun _ _ => ?_
    · exact (h.func.wellFormed.home_of_stands ⟨blk, hblk, hid⟩).imp fun _ hi => hi.1
    · exact answers_ite (fun _ => answers_pure _) fun _ =>
        ih fun x hx => hr x (List.mem_cons_of_mem _ hx)

end Model

theorem exists_model (h : f.Solid s) :
    ∃ m, Model.of (some s) f = .ok m ∧ m.Solid s ∧ m.func = f := by
  obtain ⟨users, husers⟩ := h.sturdy.answers_userMap
  simp only [Model.of, escapedAllocas, husers, ok_bind]
  exact ⟨_, rfl, ⟨rfl, h⟩, rfl⟩

end Memory

/-! ### Moving instructions -/

section Moves

variable {m : Memory.Model} (h : m.Solid s) {region : List Nat}
  (hregion : ∀ b ∈ region, ∃ blk, m.func.block? b = some blk)

include h hregion

theorem answers_loadVerdict (hi : m.func.instr? id = some i) (hop : i.op = .load) :
    Answers (loadVerdict m.oracle region i) := by
  have hc := h.func.complete id i hi
  simp only [Instr.Complete, hop] at hc
  obtain ⟨v, hv, -, hrefers⟩ := h.func.exists_operand hi (n := 0) (by omega)
  have hv : element i.operands 0 = .ok v := hv
  unfold loadVerdict
  refine answers_ite (fun _ => answers_pure _) fun _ => ?_
  rw [hv, ok_bind]
  refine (Memory.Model.answers_isImmutable h hrefers).bind fun _ _ => ?_
  refine answers_ite (fun _ => answers_pure _) fun _ => ?_
  refine answers_ite (fun _ => answers_pure _) fun _ => ?_
  refine Answers.bind ?_ fun _ _ => answers_ite (fun _ => answers_pure _) fun _ => answers_pure _
  refine answers_ite (fun _ => answers_pure _) fun _ => ?_
  exact Memory.Model.answers_writtenIn h hrefers region hregion

theorem answers_verdict (hi : m.func.instr? id = some i) : Answers (verdict m.oracle region i) := by
  refine answers_ite (fun _ => answers_pure _) fun _ => ?_
  split
  · next hop => exact answers_loadVerdict h hregion hi hop
  all_goals exact answers_pure _

theorem answers_collect (d : DomOracle) {src : Nat} {blk : Block}
    (hsrc : m.func.block? src = some blk) (dst : Nat) :
    Answers (collect m.func d m.oracle region src dst) := by
  rw [collect_eq hsrc]
  exact (h.func.wellFormed.answers_collectAlong_iff hsrc fun _ => Iff.rfl).mpr fun _ _ _ hi =>
    answers_verdict h hregion hi

end Moves

theorem Func.Solid.answers_advise (h : f.Solid s) : Answers (advise (some s) f) := by
  obtain ⟨m, hm, hsolid, rfl⟩ := Memory.exists_model h
  obtain ⟨d, hd⟩ : ∃ d, DomInfo.compute m.func = .ok d := ⟨_, h.wellFormed.compute_eq⟩
  have hblock : ∀ b < m.func.graph.size, ∃ blk, m.func.block? b = some blk := fun b hb => by
    rw [Func.graph_size] at hb
    exact Func.exists_block_of_lt hb
  simp only [advise, hd, hm, ok_bind]
  refine answers_analyze_iff.mpr fun l hl => ?_
  have hlink := Chain.linkSound_of_backLinks hl
  obtain ⟨blk, hblk⟩ := hblock l.1.2 (h.wellFormed.mirrored.succ_lt _ _ hlink.succ)
  refine answers_collect hsolid (fun b hb => hblock b ?_) _ hblk _
  rw [hlink.between_eq] at hb
  exact List.mem_range.mp (List.mem_of_mem_filter hb)

end RegPressure
