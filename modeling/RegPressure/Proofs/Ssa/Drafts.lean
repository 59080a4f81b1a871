import RegPressure.Proofs.IR.Checked
import RegPressure.Ssa.Instruction

namespace RegPressure.Ssa

inductive Part
  | source (x : Operand)
  | fixed (v : Value)

structure Row where
  op : Op
  parts : List Part

namespace Operand

def ty (types : Array SourceTy) : Operand → SourceTy
  | .value n => types.getD n .invalid
  | .const t _ | .global _ t => t
  | .func _ | .builtin _ => .func

def symbol? (globals : List Global) (name : String) : Option Value :=
  (globals.findIdx? (·.name = name)).map fun (k : Nat) => .global k

def recorded? (values : Array (Option Value)) (globals : List Global) : Operand → Option Value
  | .value n => values[n]?.join
  | .const t l => some (l.value t)
  | .global name _ | .func name => symbol? globals (Symbol.legal name)
  | .builtin name => symbol? globals ("go.builtin." ++ name)

variable {values : Array (Option Value)} {globals : List Global} {x : Operand} {v : Value}

theorem recorded?_push (h : x.recorded? values globals = some v) (w : Option Value) :
    x.recorded? (values.push w) globals = some v := by
  cases x with
  | value n =>
    rw [recorded?, Option.join_eq_some_iff] at h ⊢
    rwa [Array.getElem?_push_lt (Array.getElem?_eq_some_iff.mp h).1,
      ← Array.getElem?_eq_getElem]
  | _ => exact h

theorem symbol?_append {name : String} (h : symbol? globals name = some v) (more : List Global) :
    symbol? (globals ++ more) name = some v := by
  obtain ⟨k, hk, rfl⟩ := Option.map_eq_some_iff.mp h
  exact Option.map_eq_some_iff.mpr ⟨k, by rw [List.findIdx?_append, hk, Option.some_or], rfl⟩

theorem recorded?_append (h : x.recorded? values globals = some v) (more : List Global) :
    x.recorded? values (globals ++ more) = some v := by
  cases x with
  | value n => exact h
  | const t l => exact h
  | _ => exact symbol?_append h more

end Operand

def Part.Held (values : Array (Option Value)) (globals : List Global) (noted : Nat → Prop) :
    Part → Value → Prop
  | .fixed w, v => v = w
  | .source x, v => x.recorded? values globals = some v ∨ ∃ n, x = .value n ∧ noted n

structure Records where
  types : Array SourceTy
  ret : Ty
  values : Array (Option Value)

/-- An instruction has the operation and the operands of its row. -/
def Draft.Fits (d : Draft) (k : Nat) (row : Row) (i : Instr) : Prop :=
  i.op = row.op ∧ i.operands.length = row.parts.length ∧
    ∀ (j : Nat) p v, row.parts[j]? = some p → i.operands[j]? = some v →
      p.Held d.values d.globals (fun n => ⟨k, j, n⟩ ∈ d.fixups) v

/-- The draft has an instruction for each row, and each noted place is that of a numbered value. -/
structure Draft.Meets (d : Draft) (c : Records) (rows : List Row) : Prop where
  types : d.types = c.types
  ret : d.ret = c.ret
  values : d.values = c.values
  size : d.body.size = rows.length
  fits : ∀ (k : Nat) row, rows[k]? = some row → ∃ i, d.body[k]? = some i ∧ d.Fits k row i
  noted : ∀ x ∈ d.fixups, ∃ row, rows[x.instr]? = some row ∧
    row.parts[x.operand]? = some (.source (.value x.value))

def Drafts {α : Type} (c : Records) (rows : List Row) (x : Lowering α) (rows' : List Row) (r : α) :
    Prop :=
  ∀ d, d.Meets c rows → (x.run d).1 = r ∧ (x.run d).2.Meets c rows'

theorem Part.Held.mono {values values' : Array (Option Value)} {globals globals' : List Global}
    {noted noted' : Nat → Prop} {p : Part} {v : Value} (h : p.Held values globals noted v)
    (hrecorded : ∀ x v, Operand.recorded? values globals x = some v →
      Operand.recorded? values' globals' x = some v)
    (hnoted : ∀ n, noted n → noted' n) : p.Held values' globals' noted' v := by
  cases p with
  | fixed w => exact h
  | source x => exact h.imp (hrecorded x v) fun ⟨n, hx, hn⟩ => ⟨n, hx, hnoted n hn⟩

inductive Filled (values : Array (Option Value)) (globals : List Global) :
    Nat → List Operand → List Value → List (Nat × Nat) → Prop
  | nil {k} : Filled values globals k [] [] []
  | recorded {k x xs v vs late} : x.recorded? values globals = some v →
      Filled values globals (k + 1) xs vs late → Filled values globals k (x :: xs) (v :: vs) late
  | late {k n xs v vs late} : Filled values globals (k + 1) xs vs late →
      Filled values globals k (.value n :: xs) (v :: vs) ((k, n) :: late)

namespace Filled

variable {values : Array (Option Value)} {globals : List Global} {k : Nat} {xs : List Operand}
  {vs : List Value} {late : List (Nat × Nat)}

theorem length (h : Filled values globals k xs vs late) : vs.length = xs.length := by
  induction h with
  | nil => rfl
  | recorded _ _ ih => simp [ih]
  | late _ ih => simp [ih]

theorem held (h : Filled values globals k xs vs late) {j : Nat} {x : Operand} {v : Value}
    (hx : xs[j]? = some x) (hv : vs[j]? = some v) :
    (Part.source x).Held values globals (fun n => (k + j, n) ∈ late) v := by
  induction h generalizing j with
  | nil => simp at hx
  | recorded hrecorded _ ih =>
    cases j with
    | zero =>
      cases Option.some.inj hx
      cases Option.some.inj hv
      exact .inl hrecorded
    | succ j => simpa [Nat.add_assoc, Nat.add_comm 1] using ih hx hv
  | @late k m _ _ _ _ _ ih =>
    cases j with
    | zero =>
      cases Option.some.inj hx
      exact .inr ⟨m, rfl, List.mem_cons_self⟩
    | succ j =>
      refine (ih hx hv).mono (fun _ _ => id) fun n hn => List.mem_cons_of_mem _ ?_
      simpa [Nat.add_assoc, Nat.add_comm 1] using hn

theorem noted (h : Filled values globals k xs vs late) {m n : Nat} (hm : (m, n) ∈ late) :
    ∃ j, m = k + j ∧ xs[j]? = some (.value n) := by
  induction h with
  | nil => simp at hm
  | recorded _ _ ih =>
    obtain ⟨j, rfl, hj⟩ := ih hm
    exact ⟨j + 1, by omega, hj⟩
  | late _ ih =>
    rcases List.mem_cons.mp hm with heq | hm
    · cases heq
      exact ⟨0, rfl, rfl⟩
    · obtain ⟨j, rfl, hj⟩ := ih hm
      exact ⟨j + 1, by omega, hj⟩

end Filled

variable {c : Records} {rows rows' rows'' : List Row} {d d' : Draft} {α β : Type}

theorem Drafts.pure (r : α) : Drafts c rows (Pure.pure r) rows r := fun _ h => ⟨rfl, h⟩

theorem Drafts.bind {x : Lowering α} {f : α → Lowering β} {r : α} {s : β}
    (hx : Drafts c rows x rows' r) (hf : Drafts c rows' (f r) rows'' s) :
    Drafts c rows (x >>= f) rows'' s := by
  intro d h
  obtain ⟨hr, hd⟩ := hx d h
  have hrun : (x >>= f).run d = (f (x.run d).1).run (x.run d).2 := rfl
  rw [hrun, hr]
  exact hf _ hd

theorem Drafts.map {x : Lowering α} {r : α} (hx : Drafts c rows x rows' r) (f : α → β) :
    Drafts c rows (f <$> x) rows' (f r) := by
  intro d h
  obtain ⟨rfl, hd⟩ := hx d h
  exact ⟨rfl, hd⟩

namespace Lowering

theorem run_useGlobal (name : String) (ty : Ty) (isConst : Bool) (d : Draft) :
    ∃ v more, (useGlobal name ty isConst).run d = (v, { d with globals := d.globals ++ more }) ∧
      Operand.symbol? (d.globals ++ more) name = some v := by
  cases h : d.globals.findIdx? (·.name = name) with
  | some k =>
    refine ⟨.global k, [], ?_, ?_⟩
    · simp [useGlobal, h]
      rfl
    · simp [Operand.symbol?, h]
  | none =>
    refine ⟨.global d.globals.length, [⟨name, some ty, isConst⟩], ?_, ?_⟩
    · simp [useGlobal, h]
      rfl
    · simp [Operand.symbol?, List.findIdx?_append, h]

/-- Only a numbered value can be missing, and symbols are made as they are needed. -/
theorem run_valueOf (x : Operand) (d : Draft) :
    ∃ r more, (valueOf x).run d = (r, { d with globals := d.globals ++ more }) ∧
      ((∃ v, r = .ok v ∧ x.recorded? d.values (d.globals ++ more) = some v) ∨
        ∃ n, r = .error n ∧ x = .value n) := by
  have hsymbol : ∀ name ty isConst, ∃ (r : Except Nat Value) (more : List Global),
      (Except.ok <$> useGlobal name ty isConst).run d =
        (r, { d with globals := d.globals ++ more }) ∧
        ∃ v, r = .ok v ∧ Operand.symbol? (d.globals ++ more) name = some v := by
    intro name ty isConst
    obtain ⟨v, more, hrun, hv⟩ := run_useGlobal name ty isConst d
    exact ⟨.ok v, more, by rw [StateT.run_map, hrun]; rfl, v, rfl, hv⟩
  cases x with
  | value n =>
    refine ⟨d.recorded n, [], by simp [valueOf]; rfl, ?_⟩
    cases h : d.values[n]?.join with
    | some v => exact .inl ⟨v, by rw [Draft.recorded, h], h⟩
    | none => exact .inr ⟨n, by rw [Draft.recorded, h], rfl⟩
  | const t l => exact ⟨.ok (l.value t), [], by simp [valueOf]; rfl, .inl ⟨_, rfl, rfl⟩⟩
  | global name t =>
    obtain ⟨r, more, hrun, hr⟩ := hsymbol (Symbol.legal name) t.pointee.lower false
    exact ⟨r, more, hrun, .inl hr⟩
  | func name =>
    obtain ⟨r, more, hrun, hr⟩ := hsymbol (Symbol.legal name) .ptr true
    exact ⟨r, more, hrun, .inl hr⟩
  | builtin name =>
    obtain ⟨r, more, hrun, hr⟩ := hsymbol ("go.builtin." ++ name) .ptr true
    exact ⟨r, more, hrun, .inl hr⟩

theorem run_bind {α β : Type} (x : Lowering α) (f : α → Lowering β) (d : Draft) :
    (x >>= f).run d = (f (x.run d).1).run (x.run d).2 := rfl

theorem run_typeOf (x : Operand) (d : Draft) : (typeOf x).run d = (x.ty d.types, d) := by
  cases x <;> rfl

theorem run_placeholder (x : Operand) (d : Draft) :
    (placeholder x).run d = (.undef (some (x.ty d.types).lower), d) := by
  rw [placeholder, run_bind, run_typeOf]
  rfl

theorem run_operandsOf (xs : List Operand) (sofar : List Value) (d : Draft) :
    ∃ vs late more, (operandsOf sofar xs).run d =
        ((sofar ++ vs, late), { d with globals := d.globals ++ more }) ∧
      Filled d.values (d.globals ++ more) sofar.length xs vs late := by
  induction xs generalizing sofar d with
  | nil => exact ⟨[], [], [], by simp [operandsOf]; rfl, .nil⟩
  | cons x xs ih =>
    obtain ⟨r, more, hrun, ⟨v, rfl, hv⟩ | ⟨n, rfl, rfl⟩⟩ := run_valueOf x d
    · obtain ⟨vs, late, more', hrest, hfilled⟩ :=
        ih (sofar ++ [v]) { d with globals := d.globals ++ more }
      simp only [List.append_assoc, List.length_append, List.length_singleton] at hrest hfilled
      refine ⟨v :: vs, late, more ++ more', ?_, .recorded ?_ hfilled⟩
      · rw [operandsOf, run_bind, hrun]
        exact hrest
      · rw [← List.append_assoc]
        exact Operand.recorded?_append hv more'
    · obtain ⟨vs, late, more', hrest, hfilled⟩ :=
        ih (sofar ++ [.undef (some (Operand.ty d.types (.value n)).lower)])
          { d with globals := d.globals ++ more }
      simp only [List.append_assoc, List.length_append, List.length_singleton] at hrest hfilled
      refine ⟨.undef (some (Operand.ty d.types (.value n)).lower) :: vs,
        (sofar.length, n) :: late, more ++ more', ?_, .late hfilled⟩
      rw [operandsOf, run_bind, hrun]
      simp only [run_bind, run_placeholder]
      rw [hrest]
      rfl

end Lowering

theorem Draft.Fits.mono {k : Nat} {row : Row} {i : Instr} (h : d.Fits k row i)
    (hrecorded : ∀ x v, Operand.recorded? d.values d.globals x = some v →
      Operand.recorded? d'.values d'.globals x = some v)
    (hnoted : ∀ n j, ⟨k, j, n⟩ ∈ d.fixups → ⟨k, j, n⟩ ∈ d'.fixups) : d'.Fits k row i :=
  ⟨h.1, h.2.1, fun j p v hp hv => (h.2.2 j p v hp hv).mono hrecorded (hnoted · j)⟩

/-- A row more, for an instruction more. -/
theorem Draft.Meets.push {row : Row} {i : Instr} {more : List Global} {noted : List Fixup}
    (h : d.Meets c rows) (hd : d' = { d with
      globals := d.globals ++ more, body := d.body.push i, fixups := d.fixups ++ noted })
    (hfits : d'.Fits rows.length row i)
    (hnoted : ∀ x ∈ noted, x.instr = rows.length ∧
      row.parts[x.operand]? = some (.source (.value x.value))) : d'.Meets c (rows ++ [row]) where
  types := by rw [hd]; exact h.types
  ret := by rw [hd]; exact h.ret
  values := by rw [hd]; exact h.values
  size := by simp [hd, h.size]
  fits := by
    intro k row' hrow
    rcases getElem?_concat_eq_some.mp hrow with hrow | ⟨rfl, rfl⟩
    · obtain ⟨j, hj, hkept⟩ := h.fits k row' hrow
      refine ⟨j, ?_, hkept.mono ?_ ?_⟩
      · rw [hd, Array.getElem?_push, if_neg, hj]
        exact Nat.ne_of_lt (Array.getElem?_eq_some_iff.mp hj).1
      · rw [hd]
        exact fun x v hv => Operand.recorded?_append hv more
      · rw [hd]
        exact fun n m hn => List.mem_append_left _ hn
    · refine ⟨i, ?_, hfits⟩
      rw [hd, ← h.size]
      exact Array.getElem?_push_size
  noted := by
    intro x hx
    rw [hd] at hx
    rcases List.mem_append.mp hx with hx | hx
    · obtain ⟨row', hrow, hpart⟩ := h.noted x hx
      exact ⟨row', getElem?_concat_eq_some.mpr (.inl hrow), hpart⟩
    · obtain ⟨hinstr, hpart⟩ := hnoted x hx
      exact ⟨row, getElem?_concat_eq_some.mpr (.inr ⟨hinstr, rfl⟩), hpart⟩

/-- The source operands come behind the operands that the instruction has already. -/
theorem Drafts.add (site : Site) (i : Instr) (xs : List Operand) :
    Drafts c rows (Lowering.add site i xs)
      (rows ++ [⟨i.op, i.operands.map .fixed ++ xs.map .source⟩]) rows.length := by
  intro d h
  obtain ⟨vs, late, more, hrun, hfilled⟩ := Lowering.run_operandsOf xs i.operands d
  have hadd : (Lowering.add site i xs).run d =
      (d.body.size,
        { d with
          globals := d.globals ++ more
          body := d.body.push
            { i with home := some site.block, pos := site.pos, operands := i.operands ++ vs }
          fixups := d.fixups ++ late.map fun x => ⟨d.body.size, x.1, x.2⟩ }) := by
    rw [Lowering.add, Lowering.run_bind, hrun]
    rfl
  rw [hadd, h.size]
  refine ⟨rfl, h.push rfl ⟨rfl, by simp [hfilled.length], fun j p v hp hv => ?_⟩ fun x hx => ?_⟩
  · dsimp only at hp hv
    rcases Nat.lt_or_ge j i.operands.length with hj | hj
    · rw [List.getElem?_append_left (by simpa using hj)] at hp hv
      rw [List.getElem?_map, hv] at hp
      cases Option.some.inj hp
      rfl
    · rw [List.getElem?_append_right (by simpa using hj), List.getElem?_map,
        Option.map_eq_some_iff, List.length_map] at hp
      rw [List.getElem?_append_right hj] at hv
      obtain ⟨x, hx, rfl⟩ := hp
      refine (hfilled.held hx hv).mono (fun _ _ => id) fun n hn => ?_
      rw [Nat.add_sub_cancel' hj] at hn
      exact List.mem_append_right _ (List.mem_map.mpr ⟨_, hn, rfl⟩)
  · obtain ⟨⟨m, n⟩, hmem, rfl⟩ := List.mem_map.mp hx
    obtain ⟨j, rfl, hj⟩ := hfilled.noted hmem
    refine ⟨rfl, ?_⟩
    dsimp only
    rw [List.getElem?_append_right (by simp), List.length_map, Nat.add_sub_cancel_left,
      List.getElem?_map, hj]
    rfl

/-- An operand more for the last row. -/
theorem Draft.Meets.extend {row : Row} {p : Part} (h : d.Meets c (rows ++ [row]))
    (more : List Global) (noted : List Fixup) (v : Value) (hd : d' = { d with
      globals := d.globals ++ more
      body := d.body.modify rows.length fun i => { i with operands := i.operands ++ [v] }
      fixups := d.fixups ++ noted })
    (hheld : p.Held d'.values d'.globals
      (fun n => ⟨rows.length, row.parts.length, n⟩ ∈ d'.fixups) v)
    (hnoted : ∀ x ∈ noted, x.instr = rows.length ∧ x.operand = row.parts.length ∧
      p = .source (.value x.value)) :
    d'.Meets c (rows ++ [{ row with parts := row.parts ++ [p] }]) where
  types := by rw [hd]; exact h.types
  ret := by rw [hd]; exact h.ret
  values := by rw [hd]; exact h.values
  size := by simp [hd, h.size]
  -- Only the last row gets a part; what is recorded for the others stays recorded.
  fits := by
    have hrecorded : ∀ x v, Operand.recorded? d.values d.globals x = some v →
        Operand.recorded? d'.values d'.globals x = some v := by
      rw [hd]
      exact fun x v hv => Operand.recorded?_append hv more
    have hkeeps : ∀ x ∈ d.fixups, x ∈ d'.fixups := by
      rw [hd]
      exact fun x hx => List.mem_append_left _ hx
    intro k row' hrow
    rcases getElem?_concat_eq_some.mp hrow with hrow | ⟨rfl, rfl⟩
    · obtain ⟨j, hj, hkept⟩ := h.fits k row' (getElem?_concat_eq_some.mpr (.inl hrow))
      refine ⟨j, ?_, hkept.mono hrecorded fun n m hn => hkeeps _ hn⟩
      have hk : rows.length ≠ k := Nat.ne_of_gt (List.getElem?_eq_some_iff.mp hrow).1
      rw [hd, Array.getElem?_modify, if_neg hk, hj]
    · obtain ⟨i, hi, hop, hlength, hparts⟩ :=
        h.fits rows.length row (getElem?_concat_eq_some.mpr (.inr ⟨rfl, rfl⟩))
      refine ⟨{ i with operands := i.operands ++ [v] }, ?_, hop, by simp [hlength], ?_⟩
      · rw [hd, Array.getElem?_modify, if_pos rfl, hi]
        rfl
      · intro j q w hq hw
        rcases getElem?_concat_eq_some.mp hq with hq | ⟨rfl, rfl⟩ <;>
          rcases getElem?_concat_eq_some.mp hw with hw | ⟨hj, rfl⟩
        · exact (hparts j q w hq hw).mono hrecorded fun n hn => hkeeps _ hn
        · exact absurd (List.getElem?_eq_some_iff.mp hq).1 (by omega)
        · exact absurd (List.getElem?_eq_some_iff.mp hw).1 (by omega)
        · exact hheld
  noted := by
    intro x hx
    rw [hd] at hx
    rcases List.mem_append.mp hx with hx | hx
    · obtain ⟨row', hrow, hpart⟩ := h.noted x hx
      rcases getElem?_concat_eq_some.mp hrow with hrow | ⟨hinstr, rfl⟩
      · exact ⟨row', getElem?_concat_eq_some.mpr (.inl hrow), hpart⟩
      · exact ⟨_, getElem?_concat_eq_some.mpr (.inr ⟨hinstr, rfl⟩),
          getElem?_concat_eq_some.mpr (.inl hpart)⟩
    · obtain ⟨hinstr, hoperand, rfl⟩ := hnoted x hx
      exact ⟨_, getElem?_concat_eq_some.mpr (.inr ⟨hinstr, rfl⟩),
        getElem?_concat_eq_some.mpr (.inr ⟨hoperand, rfl⟩)⟩

namespace Drafts

variable {row : Row}

theorem append (v : Value) :
    Drafts c (rows ++ [row]) (Lowering.append rows.length v)
      (rows ++ [{ row with parts := row.parts ++ [.fixed v] }]) () := by
  intro d h
  refine ⟨rfl, h.extend [] [] v ?_ rfl (by simp)⟩
  simp [Lowering.append]
  rfl

/-- An index is recorded already, or its place behind the operands so far is noted. -/
theorem appendIndex (x : Operand) :
    Drafts c (rows ++ [row]) (Lowering.appendIndex rows.length x)
      (rows ++ [{ row with parts := row.parts ++ [.source x] }]) () := by
  intro d h
  obtain ⟨i, hi, -, hlength, -⟩ :=
    h.fits rows.length row (getElem?_concat_eq_some.mpr (.inr ⟨rfl, rfl⟩))
  obtain ⟨r, more, hrun, ⟨v, rfl, hv⟩ | ⟨n, rfl, rfl⟩⟩ := Lowering.run_valueOf x d
  · refine ⟨rfl, h.extend more [] v ?_ (.inl ?_) (by simp)⟩
    · rw [Lowering.appendIndex, Lowering.run_bind, hrun]
      simp [Lowering.append]
      rfl
    · rw [Lowering.appendIndex, Lowering.run_bind, hrun]
      exact hv
  · have hplace : (d.body.getD rows.length default).operands.length = row.parts.length := by
      simp [Array.getD_eq_getD_getElem?, hi, hlength]
    have happ : (Lowering.appendIndex rows.length (.value n)).run d =
        ((), { d with
          globals := d.globals ++ more
          body := d.body.modify rows.length fun i => { i with
            operands := i.operands ++ [.undef (some (Operand.ty d.types (.value n)).lower)] }
          fixups := d.fixups ++ [⟨rows.length, row.parts.length, n⟩] }) := by
      rw [Lowering.appendIndex, Lowering.run_bind, hrun, ← hplace]
      rfl
    rw [happ]
    refine ⟨rfl, h.extend more [⟨rows.length, row.parts.length, n⟩] _ rfl (.inr ⟨n, rfl, ?_⟩) ?_⟩
    · simp
    · rintro x hx
      cases List.mem_singleton.mp hx
      exact ⟨rfl, rfl, rfl⟩

theorem addWith (site : Site) (i : Instr) (x : Operand) (n : Int64) :
    Drafts c rows (Lowering.addWith site i x n)
      (rows ++ [⟨i.op, i.operands.map .fixed ++ [.source x, .fixed (.int (some i.ty) n)]⟩])
      rows.length := by
  have happ : Drafts c (rows ++ [⟨i.op, i.operands.map .fixed ++ [.source x]⟩])
      (Lowering.append rows.length (.int (some i.ty) n)) _ () := append _
  rw [List.append_assoc] at happ
  exact (Drafts.add site i [x]).bind (happ.bind (.pure _))

theorem typeOf (x : Operand) : Drafts c rows (Lowering.typeOf x) rows (x.ty c.types) := by
  intro d h
  rw [Lowering.run_typeOf, h.types]
  exact ⟨rfl, h⟩

theorem typesOf (xs : List Operand) :
    Drafts c rows (xs.mapM fun x => return some (← Lowering.typeOf x).lower) rows
      (xs.map fun x => some (x.ty c.types).lower) := by
  induction xs with
  | nil => exact .pure _
  | cons x xs ih =>
    rw [List.mapM_cons]
    refine .bind (r := some (x.ty c.types).lower) ((typeOf x).bind (.pure _)) ?_
    exact ih.bind (.pure _)

theorem useCallee (callee : Decl) : Drafts c rows (Lowering.useCallee callee) rows () := by
  intro d h
  refine ⟨rfl, ?_⟩
  by_cases hknown : d.callees.any (·.name = callee.name)
  · have hrun : ((Lowering.useCallee callee).run d).2 = d := if_pos hknown
    rwa [hrun]
  · have hrun : ((Lowering.useCallee callee).run d).2 =
        { d with callees := d.callees ++ [callee] } := if_neg hknown
    rw [hrun]
    exact ⟨h.types, h.ret, h.values, h.size, h.fits, h.noted⟩

theorem callOut (site : Site) (name : String) (ret : Ty) (xs : List Operand) :
    Drafts c rows (Lowering.callOut site name ret xs) (rows ++ [⟨.call, xs.map .source⟩])
      rows.length :=
  (typesOf xs).bind ((useCallee _).bind (Drafts.add site _ xs))

end Drafts

end RegPressure.Ssa
