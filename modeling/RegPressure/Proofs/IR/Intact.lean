import RegPressure.Proofs.Run.Rewriting

namespace RegPressure.Func

variable {scope : Option Symbols} {f g : Func} {b u id : Int} {l r : List Int} {i : Instr} {v : Value}

structure Grows (g f : Func) : Prop where
  params : f.params = g.params
  instr : ∀ id i, g.instr? id = some i → f.instr? id = some i
  preds : ∀ c blk, g.block? c = some blk → ∃ blk', f.block? c = some blk' ∧ blk'.preds = blk.preds

namespace Grows

theorem refl (g : Func) : g.Grows g := ⟨rfl, fun _ _ => id, fun _ blk hc => ⟨blk, hc, rfl⟩⟩

theorem trans {k : Func} (h : g.Grows f) (h' : f.Grows k) : g.Grows k where
  params := h'.params.trans h.params
  instr id i hi := h'.instr id i (h.instr id i hi)
  preds c blk hc := by
    obtain ⟨blk', hc', hp⟩ := h.preds c blk hc
    obtain ⟨blk'', hc'', hp'⟩ := h'.preds c blk' hc'
    exact ⟨blk'', hc'', hp'.trans hp⟩

theorem resolves (h : g.Grows f) (hv : g.Resolves scope v) : f.Resolves scope v := by
  cases v with
  | instr d =>
    simp only [Resolves, isLive] at hv ⊢
    cases hd : g.instr? d with
    | none => simp [hd] at hv
    | some j =>
      rw [hd] at hv
      rwa [h.instr d j hd]
  | arg n =>
    simp only [Resolves, h.params]
    exact hv
  | _ => exact hv

theorem references (h : g.Grows f) (hi : g.References scope i) : f.References scope i where
  operands v hv := h.resolves (hi.operands v hv)
  targets t ht := by
    obtain ⟨blk, hblk⟩ := hi.targets t ht
    obtain ⟨blk', hblk', -⟩ := h.preds t blk hblk
    exact ⟨blk', hblk'⟩
  arity := hi.arity

end Grows

theorem Inserts.grows (h : g.Inserts u f b l r i) : g.Grows f where
  params := h.params.symm
  instr id j hj := by
    rw [← h.instr id, hj]
    rintro rfl
    rw [h.fresh] at hj
    cases hj
  preds c blk hc := by
    rw [h.block] at hc
    obtain ⟨blk', hc', rfl⟩ := Option.map_eq_some_iff.mp hc
    exact ⟨blk', hc', rfl⟩

/-- Well formed, all that is not erased stands somewhere, a terminator gives nothing and a
comparison a bit. -/
structure Intact (scope : Option Symbols) (f : Func) : Prop where
  wellFormed : f.WellFormed scope
  stands : ∀ id i, f.instr? id = some i → i.isErased = false → ∃ b, f.Stands b id
  void : ∀ id i, f.instr? id = some i → i.op.isTerminator = true → i.ty = .void
  bit : ∀ id i, f.instr? id = some i → i.op = .icmp → i.ty = .i1

/-- Nothing uses what no operand becomes. -/
theorem Rewrites.unused {σ : Value → Value} (h : f.Rewrites σ g) (hσ : ∀ v, σ v ≠ .instr u) :
    g.Unused u := by
  intro c id i' hc _ hi' hmem
  obtain ⟨i, hi, -, -⟩ := h.exists_instr' hi'
  rw [h.operands c id i i' (h.stands.mp hc) hi hi'] at hmem
  obtain ⟨v, -, hv⟩ := List.mem_map.mp hmem
  exact hσ v hv

/-- What erasing makes of the instructions. -/
theorem instr?_of_erase (he : f.erase u = .ok g) : g.instr? id =
    if u = id then (f.instr? id).map fun i => { i with home := none } else f.instr? id := by
  simp only [erase, Checked.bind_eq_ok, Checked.pure_eq_ok] at he
  obtain ⟨n, -, i, -, rfl⟩ := he
  rw [instr?_setInstr, instr?_setBlock]

namespace Intact

theorem exists_stands (h : f.Intact scope) (hid : f.Resolves scope (.instr id)) :
    ∃ b i, f.Stands b id ∧ f.instr? id = some i := by
  simp only [Resolves, isLive] at hid
  cases hi : f.instr? id with
  | none => simp [hi] at hid
  | some i =>
    rw [hi] at hid
    obtain ⟨b, hb⟩ := h.stands id i hi (by simpa using hid)
    exact ⟨b, i, hb, rfl⟩

theorem references (h : f.Intact scope) (hi : f.instr? id = some i) (hlive : i.isErased = false) :
    f.References scope i := by
  obtain ⟨b, hb⟩ := h.stands id i hi hlive
  exact h.wellFormed.references hb hi

theorem inserted (hg : g.Intact scope) (h : g.Inserts u f b l r i) (hrefs : g.References scope i)
    (hedges : i.op = .phi → ∀ blk, g.block? b = some blk → ∀ t ∈ i.targets, t ∈ blk.preds)
    (hbit : i.op = .icmp → i.ty = .i1) : f.Intact scope where
  wellFormed := h.wellFormed hg.wellFormed (h.grows.references hrefs) hedges
  stands id j hj hlive := by
    by_cases hid : id = u
    · exact ⟨b, hid ▸ h.stands_self⟩
    · obtain ⟨c, hc⟩ := hg.stands id j (by rw [h.instr id hid, hj]) hlive
      exact ⟨c, (h.stands.mp hc).1⟩
  void id j hj hop := by
    by_cases hid : id = u
    · subst hid
      rw [h.instr_eq] at hj
      cases hj
      rw [h.not_terminator] at hop
      cases hop
    · exact hg.void id j (by rw [h.instr id hid, hj]) hop
  bit id j hj hop := by
    by_cases hid : id = u
    · subst hid
      rw [h.instr_eq] at hj
      cases hj
      exact hbit hop
    · exact hg.bit id j (by rw [h.instr id hid, hj]) hop

theorem erased (hf : f.Intact scope) (he : f.erase u = .ok g) (hunused : f.Unused u)
    (hterm : (f.opOf u).isTerminator = false) : g.Intact scope := by
  obtain ⟨hadds, -⟩ := adds_of_erase hf.wellFormed he
  -- An erased instruction keeps its operation and its type.
  have hsame : ∀ id j, g.instr? id = some j → ∃ i, f.instr? id = some i ∧ j.op = i.op ∧ j.ty = i.ty ∧
      (j.isErased = false → id ≠ u ∧ i.isErased = false) := by
    intro id j hj
    rw [instr?_of_erase he] at hj
    split at hj
    · obtain ⟨i, hi, rfl⟩ := Option.map_eq_some_iff.mp hj
      exact ⟨i, hi, rfl, rfl, nofun⟩
    · next hne => exact ⟨j, hj, rfl, rfl, fun hlive => ⟨Ne.symm hne, hlive⟩⟩
  refine ⟨hadds.wellFormed_without hf.wellFormed hterm hunused, fun id j hj hlive => ?_,
    fun id j hj hop => ?_, fun id j hj hop => ?_⟩
  · obtain ⟨i, hi, -, -, hne⟩ := hsame id j hj
    obtain ⟨c, hc⟩ := hf.stands id i hi (hne hlive).2
    exact ⟨c, hadds.stands.mpr ⟨hc, (hne hlive).1⟩⟩
  · obtain ⟨i, hi, heq, hty, -⟩ := hsame id j hj
    exact hty.trans (hf.void id i hi (heq ▸ hop))
  · obtain ⟨i, hi, heq, hty, -⟩ := hsame id j hj
    exact hty.trans (hf.bit id i hi (heq ▸ hop))

theorem rewritten {σ : Value → Value} (hf : f.Intact scope) (h : f.Rewrites σ g)
    (hσ : ∀ v, f.Resolves scope v → f.Resolves scope (σ v)) : g.Intact scope where
  wellFormed := h.wellFormed hf.wellFormed fun _ _ _ v hb hi hv =>
    hσ v ((hf.wellFormed.references hb hi).operands v hv)
  stands id j hj hlive := by
    obtain ⟨i, hi, -, hhome⟩ := h.exists_instr' hj
    obtain ⟨b, hb⟩ := hf.stands id i hi (by rwa [Instr.isErased, ← hhome])
    exact ⟨b, h.stands.mpr hb⟩
  void id j hj hop := by
    obtain ⟨i, hi, hshape, -⟩ := h.exists_instr' hj
    exact (Instr.ty_of_shape hshape).trans (hf.void id i hi (Instr.op_of_shape hshape ▸ hop))
  bit id j hj hop := by
    obtain ⟨i, hi, hshape, -⟩ := h.exists_instr' hj
    exact (Instr.ty_of_shape hshape).trans (hf.bit id i hi (Instr.op_of_shape hshape ▸ hop))

theorem renamed (hf : f.Intact scope) (id : Int) (name : String) :
    Intact scope (f.setInstr id ({ · with name })) :=
  hf.rewritten (f.rewrites_rename id name) fun _ hv => hv

end Intact

end RegPressure.Func
