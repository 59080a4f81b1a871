import RegPressure.Proofs.IR.Edges
import RegPressure.Proofs.Ssa.Outline

namespace RegPressure.Ssa

namespace Draft

variable {d : Draft} {body body' : Array Instr} {x : Fixup} {xs : List Fixup}

/-- The place of an operand exists. -/
def Within (body : Array Instr) (x : Fixup) : Prop :=
  ∃ i, body[x.instr]? = some i ∧ x.operand < i.operands.length

theorem putOperand_of_within (h : Within body x) (v : Value) :
    putOperand body x v =
      .ok (body.modify x.instr fun i => { i with operands := i.operands.set x.operand v }) := by
  obtain ⟨i, hi, hx⟩ := h
  rw [putOperand, cell_eq_ok.mpr hi, Checked.ok_bind,
    element_eq_ok.mpr (List.getElem?_eq_getElem hx)]
  rfl

theorem Within.modify {y : Fixup} (h : Within body y) (v : Value) :
    Within (body.modify x.instr fun i => { i with operands := i.operands.set x.operand v }) y := by
  obtain ⟨i, hi, hy⟩ := h
  rw [Within, Array.getElem?_modify, hi]
  split
  · exact ⟨_, rfl, by simpa using hy⟩
  · exact ⟨i, rfl, hy⟩

theorem answers_fill (h : ∀ x ∈ xs, Within body x) : Checked.Answers (d.fill xs body) := by
  induction xs generalizing body with
  | nil => exact ⟨_, rfl⟩
  | cons x xs ih =>
    rw [fill]
    cases d.recorded x.value with
    | error n => exact ⟨_, rfl⟩
    | ok v =>
      dsimp only
      rw [putOperand_of_within (h x List.mem_cons_self), Checked.ok_bind]
      exact ih fun y hy => (h y (List.mem_cons_of_mem x hy)).modify v

structure Patched (d : Draft) (xs : List Fixup) (body body' : Array Instr) : Prop where
  size : body'.size = body.size
  kept : ∀ (k : Nat) i, body[k]? = some i → ∃ ops, body'[k]? = some { i with operands := ops } ∧
    ops.length = i.operands.length ∧ ∀ (j : Nat) v, ops[j]? = some v →
      (∃ n, ⟨k, j, n⟩ ∈ xs ∧ d.recorded n = .ok v) ∨
        (i.operands[j]? = some v ∧ ∀ n, ⟨k, j, n⟩ ∉ xs)

theorem patched_of_fill (hwithin : ∀ x ∈ xs, Within body x)
    (h : d.fill xs body = .ok (.ok body')) : d.Patched xs body body' := by
  -- A place that is filled twice holds what was recorded for the later one; other places keep
  -- theirs.
  induction xs generalizing body with
  | nil =>
    cases h
    exact ⟨rfl, fun k i hi => ⟨_, hi, rfl, fun j v hv => .inr ⟨hv, fun _ => List.not_mem_nil⟩⟩⟩
  | cons x xs ih =>
    rw [fill] at h
    cases hv : d.recorded x.value with
    | error n =>
      rw [hv] at h
      cases h
    | ok v =>
      rw [hv] at h
      dsimp only at h
      rw [putOperand_of_within (hwithin x List.mem_cons_self), Checked.ok_bind] at h
      obtain ⟨hsize, hkept⟩ :=
        ih (fun y hy => (hwithin y (List.mem_cons_of_mem x hy)).modify v) h
      refine ⟨hsize.trans Array.size_modify, fun k i hi => ?_⟩
      have hput : (body.modify x.instr fun i =>
          { i with operands := i.operands.set x.operand v })[k]? =
            some { i with
              operands := if x.instr = k then i.operands.set x.operand v else i.operands } := by
        rw [Array.getElem?_modify, hi]
        split <;> rfl
      obtain ⟨ops, hops, hlength, hall⟩ := hkept k _ hput
      refine ⟨ops, hops, hlength.trans (by dsimp only; split <;> simp), fun j w hw => ?_⟩
      obtain ⟨n, hn, hrecorded⟩ | ⟨hw, hnone⟩ := hall j w hw
      · exact .inl ⟨n, List.mem_cons_of_mem x hn, hrecorded⟩
      · dsimp only at hw
        by_cases hplace : x.instr = k ∧ x.operand = j
        · obtain ⟨rfl, rfl⟩ := hplace
          rw [if_pos rfl] at hw
          obtain ⟨hlt, hget⟩ := List.getElem?_eq_some_iff.mp hw
          rw [List.getElem_set_self] at hget
          exact .inl ⟨x.value, List.mem_cons_self, hget ▸ hv⟩
        · refine .inr ⟨?_, fun n hn => ?_⟩
          · split at hw
            · next hk => rwa [List.getElem?_set_ne fun hj => hplace ⟨hk, hj⟩] at hw
            · exact hw
          · rcases List.mem_cons.mp hn with hx | hn
            · exact hplace ⟨by rw [← hx], by rw [← hx]⟩
            · exact hnone n hn

end Draft

def Part.value? (values : Array (Option Value)) (globals : List Global) : Part → Option Value
  | .fixed v => some v
  | .source x => x.recorded? values globals

/-- An instruction has the operation of its row, and every operand is what is recorded for it. -/
def Row.Holds (values : Array (Option Value)) (globals : List Global) (row : Row) (i : Instr) :
    Prop :=
  i.op = row.op ∧ i.operands.map some = row.parts.map (·.value? values globals)

theorem Row.exists_holds {values : Array (Option Value)} {globals : List Global} {rows : List Row}
    {body : Array Instr} (h : List.Forall₂ (Row.Holds values globals) rows body.toList) {k : Nat}
    {row : Row} (hrow : rows[k]? = some row) :
    ∃ i, body[k]? = some i ∧ row.Holds values globals i := by
  obtain ⟨hlength, hget⟩ := List.forall₂_iff_get.mp h
  obtain ⟨hk, rfl⟩ := List.getElem?_eq_some_iff.mp hrow
  have hk' : k < body.size := by rwa [← Array.length_toList, ← hlength]
  exact ⟨body[k], Array.getElem?_eq_getElem hk', hget k hk hk'⟩

namespace Draft

variable {d : Draft} {c : Records} {rows : List Row} {body : Array Instr}

theorem Meets.within (h : d.Meets c rows) {x : Fixup} (hx : x ∈ d.fixups) : Within d.body x := by
  obtain ⟨row, hrow, hpart⟩ := h.noted x hx
  obtain ⟨i, hi, -, hlength, -⟩ := h.fits x.instr row hrow
  exact ⟨i, hi, hlength ▸ (List.getElem?_eq_some_iff.mp hpart).1⟩

theorem recorded_eq_ok {n : Nat} {v : Value} :
    d.recorded n = .ok v ↔ (Operand.value n).recorded? d.values d.globals = some v := by
  rw [recorded, Operand.recorded?]
  cases d.values[n]?.join <;> simp

theorem Meets.value?_eq (h : d.Meets c rows) {k j : Nat} {row : Row} {i : Instr} {p : Part}
    {v w : Value} (hrow : rows[k]? = some row) (hfits : d.Fits k row i)
    (hp : row.parts[j]? = some p) (hw : i.operands[j]? = some w)
    (hv : (∃ n, ⟨k, j, n⟩ ∈ d.fixups ∧ d.recorded n = .ok v) ∨
      (w = v ∧ ∀ n, ⟨k, j, n⟩ ∉ d.fixups)) : p.value? d.values d.globals = some v := by
  obtain ⟨n, hn, hrecorded⟩ | ⟨rfl, hnone⟩ := hv
  · obtain ⟨row', hrow', hpart⟩ := h.noted _ hn
    cases hrow.symm.trans hrow'
    cases hp.symm.trans hpart
    exact recorded_eq_ok.mp hrecorded
  · have hheld := hfits.2.2 j p w hp hw
    cases p with
    | fixed u => exact congrArg some (Eq.symm hheld)
    | source x =>
      obtain hrecorded | ⟨n, -, hn⟩ := hheld
      · exact hrecorded
      · exact absurd hn (hnone n)

theorem Meets.holds (h : d.Meets c rows) (hfill : d.fill d.fixups d.body = .ok (.ok body)) :
    List.Forall₂ (Row.Holds d.values d.globals) rows body.toList := by
  obtain ⟨hsize, hkept⟩ := patched_of_fill (fun x hx => h.within hx) hfill
  refine List.forall₂_iff_get.mpr ⟨by simp [hsize, h.size], fun k hk hk' => ?_⟩
  have hrow : rows[k]? = some (rows.get ⟨k, hk⟩) := List.getElem?_eq_getElem hk
  generalize rows.get ⟨k, hk⟩ = row at hrow ⊢
  obtain ⟨i, hi, hfits⟩ := h.fits k row hrow
  obtain ⟨ops, hops, hlength, hall⟩ := hkept k i hi
  have hget : body.toList.get ⟨k, hk'⟩ = { i with operands := ops } := by
    rw [← Option.some.injEq, ← hops, ← Array.getElem?_toList]
    exact (List.getElem?_eq_getElem hk').symm
  rw [hget]
  refine ⟨hfits.1, List.ext_getElem? fun j => ?_⟩
  have hsame := hlength.trans hfits.2.1
  rw [List.getElem?_map, List.getElem?_map]
  rcases Nat.lt_or_ge j ops.length with hj | hj
  · have hv := List.getElem?_eq_getElem hj
    have hw := List.getElem?_eq_getElem (hlength ▸ hj)
    have hp := List.getElem?_eq_getElem (hsame ▸ hj)
    rw [hv, hp]
    refine congrArg some (Eq.symm (h.value?_eq hrow hfits hp hw ?_))
    refine (hall j _ hv).imp_right fun ⟨hw', hnone⟩ => ⟨?_, hnone⟩
    exact Option.some.inj (hw.symm.trans hw')
  · rw [List.getElem?_eq_none hj, List.getElem?_eq_none (hsame ▸ hj)]
    rfl

end Draft

namespace Procedure

theorem fill_of_finish {p : Procedure} {d : Draft} {f : Func} (h : p.finish d = .ok (.ok f)) :
    d.fill d.fixups d.body = .ok (.ok f.instrs) := by
  obtain ⟨r, hfill, h⟩ := Checked.bind_eq_ok.mp h
  cases r with
  | error n => cases h
  | ok body =>
    obtain ⟨-, -, h⟩ := Checked.bind_eq_ok.mp h
    obtain ⟨defects, -, h⟩ := Checked.bind_eq_ok.mp h
    cases defects with
    | cons defect defects => cases h
    | nil =>
      cases h
      have hinstrs : (Draft.build body p.blocks.length p.head).rebuildEdges.1.instrs = body :=
        Func.instrs_rebuildEdges _
      exact hfill.trans (congrArg (Except.ok ∘ Except.ok) hinstrs.symm)

/-- Every noted place exists when the steps are drafted. If all of them can be filled in and the
function is well-formed, its instructions are those of the outline, and each of their operands is
what is recorded for it. In the place of a numbered value stands a parameter or the instruction that
defines the value, so nothing is left undefined for want of a definition. -/
theorem finish_operands (p : Procedure) (globals : List Global) (callees : List Decl) :
    Checked.Answers ((p.draft globals callees).fill (p.draft globals callees).fixups
      (p.draft globals callees).body) ∧
    ∀ f, p.finish (p.draft globals callees) = .ok (.ok f) →
      List.Forall₂ (Row.Holds p.outline.records.values (p.draft globals callees).globals)
        p.outline.rows f.instrs.toList ∧
      ∀ (k j n : Nat) row i, p.outline.rows[k]? = some row → f.instrs[k]? = some i →
        row.parts[j]? = some (.source (.value n)) → ∃ v, i.operands[j]? = some v ∧
          ((n < p.params.length ∧ v = .arg n) ∨
            ∃ m : Nat, v = .instr m ∧ p.Defines p.steps m n) := by
  have hd := p.draft_follows globals callees
  generalize p.draft globals callees = d at hd ⊢
  refine ⟨Draft.answers_fill fun x hx => hd.within hx, fun f hf => ?_⟩
  have hholds := hd.holds (fill_of_finish hf)
  rw [hd.values] at hholds
  refine ⟨hholds, fun k j n row i hrow hi hpart => ?_⟩
  obtain ⟨i', hi', -, hoperands⟩ := Row.exists_holds hholds hrow
  cases hi.symm.trans hi'
  have hj := congrArg (·[j]?) hoperands
  simp only [List.getElem?_map, hpart, Option.map_some, Option.map_eq_some_iff] at hj
  obtain ⟨v, hv, hrecorded⟩ := hj
  exact ⟨v, hv, p.arg_or_defined p.steps (Option.join_eq_some_iff.mp hrecorded.symm)⟩

def counting : Procedure where
  name := "count"
  fullName := "p.count"
  file := "count.go"
  pos := ⟨1, 6⟩
  params := [⟨"n", .ofName "int32"⟩]
  results := .ofName "int32"
  blocks := [
    { succs := [1], preds := [], steps := [{ action := .jump }] },
    { succs := [1, 2], preds := [0, 1]
      steps := [
        { action := .phi [.const (.ofName "int32") (.int 0), .value 2]
          result := some ⟨"t0", .ofName "int32"⟩ },
        { action := .binary (some (.arith .add)) (.value 1) (.const (.ofName "int32") (.int 1))
          result := some ⟨"t1", .ofName "int32"⟩ },
        { action := .binary (some (.compare .lt)) (.value 2) (.value 0)
          result := some ⟨"t2", .ofName "bool"⟩ },
        { action := .branch (.value 3) }] },
    { succs := [], preds := [1], steps := [{ action := .ret [.value 1] }] }]

/-- The choice in a loop has the sum that is defined after it. -/
theorem counting_sum_in_choice : ∃ f i, counting.finish (counting.draft [] []) = .ok (.ok f) ∧
    f.instrs[1]? = some i ∧ i.op = .phi ∧ i.operands = [.int (some .i32) 0, .instr 2] := by
  obtain ⟨f, hf⟩ : ∃ f,
      (counting.finish (counting.draft [] [])).toOption.bind (·.toOption) = some f :=
    Option.isSome_iff_exists.mp (by decide +kernel)
  obtain ⟨r, hr, hrf⟩ := Option.bind_eq_some_iff.mp hf
  cases r with
  | error refusal => cases hrf
  | ok g =>
    cases hrf
    have hfinish := Checked.toOption_eq_some.mp hr
    have hrows := ((finish_operands counting [] []).2 f hfinish).1
    have hchoice : counting.outline.rows[1]?.map (fun row => (row.op, row.parts.map
        (·.value? counting.outline.records.values (counting.draft [] []).globals))) =
          some (.phi, [.int (some .i32) 0, .instr 2].map some) := by decide +kernel
    obtain ⟨row, hrow, hrest⟩ := Option.map_eq_some_iff.mp hchoice
    obtain ⟨i, hi, hop, hoperands⟩ := Row.exists_holds hrows hrow
    refine ⟨f, i, hfinish, hi, hop.trans (congrArg Prod.fst hrest), ?_⟩
    exact List.map_injective_iff.mpr (fun _ _ => Option.some.inj)
      (hoperands.trans (congrArg Prod.snd hrest))

end Procedure

end RegPressure.Ssa
