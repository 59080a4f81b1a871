import RegPressure.Proofs.Narrow.Names
import RegPressure.Proofs.Pass.Renaming

namespace RegPressure

namespace Func

variable {scope : Option Symbols} {f g : Func} {v : Value} {id n : Int} {i : Instr}

/-- The parameters, and the results of what is not erased. -/
def values (f : Func) : List Value :=
  (List.range f.params.length).map (fun n : Nat => Value.arg n) ++
    (f.instrIds.filter fun id => (f.instr? id).any fun i => !i.isErased && i.hasResult).map
      Value.instr

theorem mem_values : v ∈ f.values ↔ (∃ n : Nat, n < f.params.length ∧ v = .arg n) ∨
    ∃ id i, v = .instr id ∧ f.instr? id = some i ∧ i.isErased = false ∧ i.hasResult = true := by
  rw [values, List.mem_append, List.mem_map, List.mem_map]
  refine or_congr ?_ ?_
  · simp only [List.mem_range, eq_comm]
  · constructor
    · rintro ⟨id, hid, rfl⟩
      obtain ⟨i, hi, hcounts⟩ := (Option.any_eq_true _ _).mp (List.mem_filter.mp hid).2
      simp only [Bool.and_eq_true, Bool.not_eq_true'] at hcounts
      exact ⟨id, i, rfl, hi, hcounts⟩
    · rintro ⟨id, i, rfl, hi, hlive, hresult⟩
      refine ⟨id, List.mem_filter.mpr ⟨mem_instrIds.mpr ⟨i, hi⟩, ?_⟩, rfl⟩
      simp [hi, hlive, hresult]

theorem nodup_values (f : Func) : f.values.Nodup := by
  rw [values, List.nodup_append]
  refine ⟨List.nodup_range.map fun m n h => ?_, (nodup_instrIds.filter _).map fun m n h => ?_, ?_⟩
  · simpa using h
  · simpa using h
  · intro v hv w hw he
    obtain ⟨n, -, rfl⟩ := List.mem_map.mp hv
    obtain ⟨id, -, hw⟩ := List.mem_map.mp hw
    cases hw.trans he.symm

def tag (f : Func) : Value → String
  | .arg n => ((f.params[n.toNat]?).map (·.name)).getD ""
  | .instr id => ((f.instr? id).map fun i => if i.name = "" then toString id else i.name).getD ""
  | _ => ""

theorem tag_instr (hi : f.instr? id = some i) :
    f.tag (.instr id) = if i.name = "" then toString id else i.name := by
  rw [tag, hi]
  rfl

theorem tag_arg {n : Nat} {p : Param} (hp : f.params[n]? = some p) : f.tag (.arg n) = p.name := by
  rw [tag, Int.toNat_natCast, hp]
  rfl

theorem valueName_eq (hf : f.NamesApart) (hv : v ∈ f.values) :
    f.valueName scope v = .ok ("%" ++ f.tag v) := by
  rcases mem_values.mp hv with ⟨n, hn, rfl⟩ | ⟨id, i, rfl, hi, -⟩
  · have hp : f.params[n]? = some f.params[n] := List.getElem?_eq_getElem hn
    rw [valueName, if_pos (by omega), element_eq_ok.mpr hp, Checked.ok_bind, tag_arg hp,
      if_pos (hf.given _ (List.getElem_mem hn))]
    rfl
  · rw [valueName, instrName, instr_eq_ok.mpr hi, Checked.ok_bind, tag_instr hi, instrLabel, hi]
    by_cases hname : i.name = "" <;> simp [hname, pure, Except.pure]

def NumbersFree (f : Func) : Prop :=
  ∀ id i, f.instr? id = some i → i.isErased = false → i.hasResult = true → i.name = "" →
    (∀ p ∈ f.params, p.name ≠ toString id) ∧ ∀ u j, f.instr? u = some j → j.isErased = false →
      j.hasResult = true → j.name ≠ toString id

theorem eq_of_toString_eq {u : Int} (hid : 0 ≤ id) (hu : 0 ≤ u) (h : toString id = toString u) :
    id = u := by
  obtain ⟨m, rfl⟩ := Int.eq_ofNat_of_zero_le hid
  obtain ⟨n, rfl⟩ := Int.eq_ofNat_of_zero_le hu
  have hnat : toString m = toString n := h
  have hdigits := congrArg (Nat.ofDigitChars 10 ·.toList 0) hnat
  simp only [ofDigitChars_toString] at hdigits
  rw [hdigits]

theorem toString_ne_empty (hid : 0 ≤ id) : toString id ≠ "" := by
  obtain ⟨m, rfl⟩ := Int.eq_ofNat_of_zero_le hid
  intro h
  have hnat : toString m = "" := h
  rw [Nat.toString_eq_ofList_toDigits, String.ofList_eq_empty_iff] at hnat
  exact Nat.toDigits_ne_nil hnat

theorem tag_arg_ne (hf : f.NamesApart) (hnum : f.NumbersFree) {m : Nat} (hm : m < f.params.length)
    (hi : f.instr? id = some i) (hlive : i.isErased = false) (hresult : i.hasResult = true) :
    f.tag (.arg m) ≠ f.tag (.instr id) := by
  rw [tag_arg (List.getElem?_eq_getElem hm), tag_instr hi]
  split
  · next hname => exact (hnum id i hi hlive hresult hname).1 _ (List.getElem_mem hm)
  · next hname => exact hf.new i.name id ⟨hname, i, hi, hlive, rfl⟩ _ (List.getElem_mem hm)

theorem tag_inj_iff (hf : f.NamesApart) :
    (∀ v ∈ f.values, ∀ w ∈ f.values, f.tag v = f.tag w → v = w) ↔ f.NumbersFree := by
  constructor
  · intro hinj id i hi hlive hresult hname
    have hmem := mem_values.mpr (.inr ⟨id, i, rfl, hi, hlive, hresult⟩)
    have htag : f.tag (.instr id) = toString id := by rw [tag_instr hi, if_pos hname]
    constructor
    · intro p hp he
      obtain ⟨m, hm, rfl⟩ := List.mem_iff_getElem.mp hp
      have harg := tag_arg (List.getElem?_eq_getElem hm)
      cases hinj _ (mem_values.mpr (.inl ⟨m, hm, rfl⟩)) _ hmem (harg.trans (he.trans htag.symm))
    · intro u j hj hjlive hjresult he
      have hne : j.name ≠ "" := he ▸ toString_ne_empty (nonneg_of_instr? hi)
      have hjtag : f.tag (.instr u) = j.name := by rw [tag_instr hj, if_neg hne]
      cases hinj _ (mem_values.mpr (.inr ⟨u, j, rfl, hj, hjlive, hjresult⟩)) _ hmem
        (hjtag.trans (he.trans htag.symm))
      rw [hi] at hj
      cases hj
      exact hne hname
  · intro hnum v hv w hw he
    rcases mem_values.mp hv with ⟨m, hm, rfl⟩ | ⟨id, i, rfl, hi, hlive, hresult⟩
    · rcases mem_values.mp hw with ⟨n, hn, rfl⟩ | ⟨u, j, rfl, hj, hjlive, hjresult⟩
      · rw [tag_arg (List.getElem?_eq_getElem hm), tag_arg (List.getElem?_eq_getElem hn)] at he
        have hm' : m < (f.params.map (·.name)).length := by simpa
        have hn' : n < (f.params.map (·.name)).length := by simpa
        have hnames : (f.params.map (·.name))[m] = (f.params.map (·.name))[n] := by simpa using he
        rw [hf.params.getElem_inj_iff.mp hnames]
      · exact absurd he (tag_arg_ne hf hnum hm hj hjlive hjresult)
    · rcases mem_values.mp hw with ⟨n, hn, rfl⟩ | ⟨u, j, rfl, hj, hjlive, hjresult⟩
      · exact absurd he.symm (tag_arg_ne hf hnum hn hi hlive hresult)
      · rw [tag_instr hi, tag_instr hj] at he
        split at he
        · next hname =>
          split at he
          · rw [eq_of_toString_eq (nonneg_of_instr? hi) (nonneg_of_instr? hj) he]
          · exact absurd he.symm ((hnum id i hi hlive hresult hname).2 u j hj hjlive hjresult)
        · next hname =>
          split at he
          · next hname' =>
            exact absurd he ((hnum u j hj hjlive hjresult hname').2 id i hi hlive hresult)
          · rw [hf.unique i.name id u ⟨hname, i, hi, hlive, rfl⟩ ⟨hname, j, hj, hjlive, he.symm⟩]

/-- The values have a name to be printed, each its own if and only if no number clashes. -/
def NamedUnlessNumbersClash (f : Func) (scope : Option Symbols) : Prop :=
  ∃ names, f.values.mapM (f.valueName scope) = .ok names ∧ (names.Nodup ↔ f.NumbersFree)

theorem NamesApart.namedUnlessNumbersClash (hf : f.NamesApart) (scope : Option Symbols) :
    f.NamedUnlessNumbersClash scope := by
  refine ⟨f.values.map fun v => "%" ++ f.tag v, ?_, ?_⟩
  · rw [Checked.mapM_eq_ok, List.forall₂_map_right_iff, List.forall₂_same]
    exact fun v hv => valueName_eq hf hv
  · rw [List.nodup_map_iff_inj_on f.nodup_values, ← tag_inj_iff hf]
    simp only [String.append_right_inj]

theorem Read.namesApart {tokens : List Token} {s : Symbols} (h : f.Read tokens s) :
    f.NamesApart where
  given p hp := (h.headed.params p hp).1.ne_empty
  params := h.headed.distinct
  unique x id u hid hu := by
    obtain ⟨hne, i, hi, -, rfl⟩ := hid
    obtain ⟨-, j, hj, -, he⟩ := hu
    exact h.names_inj id u i j hi hj hne he.symm
  new x id hid := by
    obtain ⟨hne, i, hi, -, rfl⟩ := hid
    exact h.names_new id i hi hne

end Func

/-- Cleaning keeps the names of what was read apart. -/
theorem Module.Read.exists_clean {tokens : List Token} {m : Module} (h : m.Read tokens) :
    ∃ m' records, m.clean = .ok (m', records) ∧ ∀ f ∈ m'.funcs, f.NamesApart := by
  have hdistinct : m.DistinctNames := ⟨h.symbols.distinct, fun f hf =>
    ((h.funcs f hf).intact.distinctNames_iff (h.funcs f hf).namesApart.given).mpr
      (h.funcs f hf).namesApart⟩
  obtain ⟨m', records, hclean, hto, hkept, -⟩ := hdistinct.exists_clean
  have hintact : m.Intact := fun f hf => (h.funcs f hf).intact
  obtain ⟨r, hr, hintact⟩ := hintact.exists_clean
  cases hclean.symm.trans hr
  refine ⟨m', records, hclean, fun g hg => ?_⟩
  refine ((hintact g hg).distinctNames_iff fun q hq => ?_).mp (hkept.funcs g hg)
  obtain ⟨τ, cleaned, -, hcleaned, rfl, -⟩ := hto
  obtain ⟨r, hr, rfl⟩ := List.mem_map.mp hg
  obtain ⟨f, hf, placed, σ, -, rfl⟩ := exists_of_cleaned hcleaned hr
  exact (h.funcs f hf).namesApart.given q hq

/-- Every parameter and every result has a name to be printed in what is read without an error, in what
cleaning leaves of it and in what narrowing does, also where that faults. In each of these a name is
printed for two values if and only if one of them has none of its own and its number is what the other
is called. -/
theorem printed_names_distinct_iff {file : String} {src : Bytes} {p : Parsed}
    (h : parse file src = .ok p) (he : p.errors = []) :
    (∀ f ∈ p.module.funcs, f.NamedUnlessNumbersClash (some p.module.symbols)) ∧
    (∃ m records, p.module.clean = .ok (m, records) ∧
      ∀ f ∈ m.funcs, f.NamedUnlessNumbersClash (some m.symbols)) ∧
    ∀ f ∈ p.module.funcs, ∀ widths, Func.NamedUnlessNumbersClash
      ((narrow (some p.module.symbols) widths).apply f).1 (some p.module.symbols) := by
  have hread := read_of_parse h he
  have hnames : ∀ f ∈ p.module.funcs, f.NamesApart := fun f hf => (hread.funcs f hf).namesApart
  obtain ⟨m, records, hclean, hcleaned⟩ := hread.exists_clean
  refine ⟨fun f hf => (hnames f hf).namedUnlessNumbersClash _,
    ⟨m, records, hclean, fun f hf => (hcleaned f hf).namedUnlessNumbersClash _⟩,
    fun f hf widths => ?_⟩
  exact (Narrow.keeps_narrow widths f (hnames f hf)).namedUnlessNumbersClash _

def sumText (param : String) : Bytes := Bytes.ofString
  ("func @f(%" ++ param ++ ": i32) \x7b\na:\n  add i32 %" ++ param ++ ", 1\n  ret\n\x7d\n")

def unnamedSum (param : String) : Func where
  name := "f"
  params := [⟨param, some .i32⟩]
  ret := .void
  blocks := #[{ name := "a", instrs := [0, 1] }]
  instrs := #[
    { home := some 0, op := .add, ty := .i32, operands := [.arg 0, .int (some .i32) 1],
      pos := ⟨3, 3⟩ },
    { home := some 0, op := .ret, pos := ⟨4, 3⟩ }]
  entry := some 0
  file := "in.mir"

theorem sum_named_by_number : ∃ p, parse "in.mir" (sumText "x") = .ok p ∧ p.errors = [] ∧
    unnamedSum "x" ∈ p.module.funcs ∧ (unnamedSum "x").values.mapM
      ((unnamedSum "x").valueName (some p.module.symbols)) = .ok ["%x", "%0"] ∧
    (unnamedSum "x").NumbersFree := by
  obtain ⟨p, hp, he, hf⟩ := parse_alone "in.mir" (sumText "x") (unnamedSum "x") (by decide +kernel)
  obtain ⟨names, hnames, hiff⟩ := (printed_names_distinct_iff hp he).1 _ hf
  have hprinted : (unnamedSum "x").values.mapM
      ((unnamedSum "x").valueName (some p.module.symbols)) = .ok ["%x", "%0"] := rfl
  cases hnames.symm.trans hprinted
  exact ⟨p, hp, he, hf, hnames, hiff.mp (by decide)⟩

/-- A parameter called zero, and the first result. -/
theorem parameter_printed_as_number : ∃ p, parse "in.mir" (sumText "0") = .ok p ∧ p.errors = [] ∧
    unnamedSum "0" ∈ p.module.funcs ∧ (unnamedSum "0").values = [.arg 0, .instr 0] ∧
    (unnamedSum "0").values.mapM ((unnamedSum "0").valueName (some p.module.symbols)) =
      .ok ["%0", "%0"] ∧ ¬ ["%0", "%0"].Nodup := by
  obtain ⟨p, hp, he, hf⟩ := parse_alone "in.mir" (sumText "0") (unnamedSum "0") (by decide +kernel)
  exact ⟨p, hp, he, hf, rfl, rfl, by decide⟩

end RegPressure
