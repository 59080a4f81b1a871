import Mathlib.Logic.Relation
import RegPressure.Proofs.Memory.Overlap
import RegPressure.Ssa.Package

namespace RegPressure

namespace BasicTy

def octet : BasicTy := ⟨"byte", .integer false 8, by decide⟩

def uint8 : BasicTy := ⟨"uint8", .integer false 8, by decide⟩

def character : BasicTy := ⟨"rune", .integer true 32, by decide⟩

def int32 : BasicTy := ⟨"int32", .integer true 32, by decide⟩

def canonical (b : BasicTy) : BasicTy :=
  if b = octet then uint8 else if b = character then int32 else b

end BasicTy

namespace SourceTy

mutual

/-- The type without synonyms, and with one name for each of its basic types. -/
def plain : SourceTy → SourceTy
  | .basic b => .basic b.canonical
  | .pointer t => .pointer (plain t)
  | .array n t => .array n (plain t)
  | .struct ts => .struct (plainAll ts)
  | .tuple ts => .tuple (plainAll ts)
  | .named x t => .named x (plain t)
  | .synonym _ t => plain t
  | .chan => .chan
  | .map => .map
  | .slice => .slice
  | .func => .func
  | .interface => .interface

def plainAll : List SourceTy → List SourceTy
  | [] => []
  | t :: ts => plain t :: plainAll ts

end

/-- Two spellings of one type. -/
def Identical (t u : SourceTy) : Prop := t.plain = u.plain

/-- The types of the fields of a struct, and of the items of an array. -/
def parts (t : SourceTy) : List SourceTy :=
  match t.underlying with
  | .struct ts => ts
  | .array _ u => [u]
  | _ => []

/-- An object of the second type has one of the first in it, at whatever depth. -/
def Within : SourceTy → SourceTy → Prop := Relation.TransGen fun u t => u ∈ t.parts

def isObject (t : SourceTy) : Bool := t.underlying matches .struct _ | .array ..

def tag (t : SourceTy) : Bytes := Bytes.ofString t.accessTag

theorem underlying_plain (t : SourceTy) : t.plain.underlying = t.underlying.plain := by
  induction t using SourceTy.underlying.induct with
  | case1 x t ih => exact ih
  | case2 x t ih => exact ih
  | case3 t hnamed hsynonym =>
    cases t with
    | named x t => exact absurd rfl (hnamed x t)
    | synonym x t => exact absurd rfl (hsynonym x t)
    | _ => rfl

theorem underlying_spec (t : SourceTy) :
    (∀ x u, t.underlying ≠ .named x u) ∧ ∀ x u, t.underlying ≠ .synonym x u := by
  induction t using SourceTy.underlying.induct with
  | case1 x t ih => exact ih
  | case2 x t ih => exact ih
  | case3 t hnamed hsynonym =>
    cases t with
    | named x t => exact absurd rfl (hnamed x t)
    | synonym x t => exact absurd rfl (hsynonym x t)
    | _ => exact ⟨by rintro _ _ ⟨⟩, by rintro _ _ ⟨⟩⟩

theorem isObject_plain (t : SourceTy) : t.plain.isObject = t.isObject := by
  obtain ⟨hnamed, hsynonym⟩ := t.underlying_spec
  rw [isObject, isObject, underlying_plain]
  cases h : t.underlying with
  | named x u => exact absurd h (hnamed x u)
  | synonym x u => exact absurd h (hsynonym x u)
  | _ => rfl

theorem basic_of_plain {t : SourceTy} {b : BasicTy} (h : t.plain.underlying = .basic b) :
    ∃ c, t.underlying = .basic c ∧ c.canonical = b := by
  obtain ⟨hnamed, hsynonym⟩ := t.underlying_spec
  rw [underlying_plain] at h
  cases ht : t.underlying with
  | basic c =>
    rw [ht] at h
    exact ⟨c, rfl, SourceTy.basic.inj h⟩
  | named x u => exact absurd ht (hnamed x u)
  | synonym x u => exact absurd ht (hsynonym x u)
  | _ =>
    rw [ht] at h
    cases h

theorem tag_of_basic {t : SourceTy} {b : BasicTy} (h : t.underlying = .basic b) :
    t.tag = Bytes.ofString b.accessTag := by
  rw [tag, accessTag, h]

theorem tag_of_isObject {t : SourceTy} (h : t.isObject = true) :
    t.tag = Bytes.ofString "go.agg" := by
  rw [isObject] at h
  rw [tag, accessTag]
  cases hu : t.underlying with
  | struct ts => rfl
  | array n u => rfl
  | _ =>
    rw [hu] at h
    cases h

theorem tag_of_reference {t : SourceTy} (hbasic : ∀ b, t.underlying ≠ .basic b)
    (h : t.isObject = false) : t.tag = Bytes.ofString "go.ptr" := by
  rw [isObject] at h
  rw [tag, accessTag]
  cases hu : t.underlying with
  | basic b => exact absurd hu (hbasic b)
  | struct ts | array n u =>
    rw [hu] at h
    cases h
  | _ => rfl

theorem not_isObject_of_basic {t : SourceTy} {b : BasicTy} (h : t.underlying = .basic b) :
    t.isObject = false := by
  rw [isObject, h]

theorem tag_ne_nil (t : SourceTy) : t.tag ≠ [] := by
  have hall : ∀ e ∈ basicTypes,
      Bytes.ofString (if e.2 = .pointer then "go.ptr" else "go." ++ e.1) ≠ [] := by
    decide +kernel
  by_cases hbasic : ∃ b, t.underlying = .basic b
  · obtain ⟨b, hb⟩ := hbasic
    rw [tag_of_basic hb]
    exact hall (b.name, b.kind) b.known
  · cases hobject : t.isObject with
    | true => rw [tag_of_isObject hobject]; decide
    | false => rw [tag_of_reference (not_exists.mp hbasic) hobject]; decide

theorem isObject_of_within {t u : SourceTy} (h : u.Within t) : t.isObject = true := by
  obtain ⟨v, -, hv⟩ := Relation.TransGen.tail'_iff.mp h
  rw [parts] at hv
  rw [isObject]
  cases ht : t.underlying with
  | struct ts => rfl
  | array n v => rfl
  | _ =>
    rw [ht] at hv
    cases hv

end SourceTy

open Memory (tagsCompatible)

theorem tagsCompatible_self (x : Bytes) : tagsCompatible x x = true := by
  simp [tagsCompatible]

/-- Different names of one basic type make tags that have nothing in common. -/
theorem BasicTy.tags_of_canonical {b c : BasicTy} (h : b.canonical = c.canonical) :
    tagsCompatible (Bytes.ofString b.accessTag) (Bytes.ofString c.accessTag) = true ↔ b = c := by
  by_cases hne : b = c
  · exact iff_of_true (hne ▸ tagsCompatible_self _) hne
  refine iff_of_false ?_ hne
  unfold canonical at h
  by_cases hb : b = octet
  · subst hb
    by_cases hc : c = character
    · subst hc
      exact absurd h (by decide)
    · rw [if_pos rfl, if_neg (Ne.symm hne), if_neg hc] at h
      subst h
      decide
  by_cases hc : c = octet
  · subst hc
    by_cases hb' : b = character
    · subst hb'
      exact absurd h (by decide)
    · rw [if_neg hb, if_neg hb', if_pos rfl] at h
      subst h
      decide
  rw [if_neg hb, if_neg hc] at h
  by_cases hb' : b = character
  · rw [if_pos hb', if_neg (hb' ▸ Ne.symm hne)] at h
    subst hb' h
    decide
  · rw [if_neg hb'] at h
    split at h
    · next hc' =>
      subst hc' h
      decide
    · exact absurd h hne

theorem BasicTy.tag_not_object (b : BasicTy) :
    tagsCompatible (Bytes.ofString "go.agg") (Bytes.ofString b.accessTag) = false := by
  have hall : ∀ e ∈ basicTypes, tagsCompatible (Bytes.ofString "go.agg")
      (Bytes.ofString (if e.2 = .pointer then "go.ptr" else "go." ++ e.1)) = false := by
    decide +kernel
  exact hall (b.name, b.kind) b.known

namespace SourceTy

variable {t u : SourceTy}

theorem Identical.symm (h : t.Identical u) : u.Identical t := Eq.symm h

theorem Identical.exists_basic (h : t.Identical u) {b : BasicTy} (hb : t.underlying = .basic b) :
    ∃ c, u.underlying = .basic c ∧ c.canonical = b.canonical := by
  refine basic_of_plain ?_
  rw [← h, underlying_plain, hb]
  rfl

theorem Identical.tags_iff (h : t.Identical u) :
    tagsCompatible t.tag u.tag = true ↔
      ∀ b c, t.underlying = .basic b → u.underlying = .basic c → b = c := by
  by_cases hbasic : ∃ b, t.underlying = .basic b
  · obtain ⟨b, hb⟩ := hbasic
    obtain ⟨c, hc, hcanonical⟩ := h.exists_basic hb
    rw [tag_of_basic hb, tag_of_basic hc, BasicTy.tags_of_canonical hcanonical.symm, hb, hc]
    refine ⟨fun hbc b' c' hb' hc' => ?_, fun hall => hall b c rfl rfl⟩
    rw [← SourceTy.basic.inj hb', ← SourceTy.basic.inj hc', hbc]
  · have ht := not_exists.mp hbasic
    refine iff_of_true ?_ fun b c hb => absurd hb (ht b)
    have hobject : t.isObject = u.isObject := by rw [← t.isObject_plain, h, isObject_plain]
    have htags : t.tag = u.tag := by
      cases ho : t.isObject with
      | true => rw [tag_of_isObject ho, tag_of_isObject (hobject ▸ ho)]
      | false =>
        have hu : ∀ c, u.underlying ≠ .basic c := by
          intro c hc
          obtain ⟨b, hb, -⟩ := h.symm.exists_basic hc
          exact ht b hb
        rw [tag_of_reference ht ho, tag_of_reference hu (hobject ▸ ho)]
    rw [htags]
    exact tagsCompatible_self _

theorem Within.tags_iff (h : u.Within t) :
    tagsCompatible t.tag u.tag = true ↔ u.isObject = true := by
  rw [tag_of_isObject (isObject_of_within h)]
  by_cases hbasic : ∃ b, u.underlying = .basic b
  · obtain ⟨b, hb⟩ := hbasic
    rw [tag_of_basic hb, not_isObject_of_basic hb, BasicTy.tag_not_object]
  · cases ho : u.isObject with
    | true =>
      rw [tag_of_isObject ho]
      exact iff_of_true (tagsCompatible_self _) rfl
    | false =>
      rw [tag_of_reference (not_exists.mp hbasic) ho]
      decide

end SourceTy

theorem metaApart_of_tags {t u : SourceTy} {x y : AccessMeta} (hx : x.tbaa = t.tag)
    (hy : y.tbaa = u.tag) (hscopes : x.scope = [] ∧ y.scope = []) :
    Memory.metaApart x y = !tagsCompatible t.tag u.tag := by
  simp [Memory.metaApart, hx, hy, hscopes.1, hscopes.2, t.tag_ne_nil, u.tag_ne_nil]

/-- For two names of one type, tags are compatible unless the type is a basic one and the names are
names of basic types that differ. For a type and what is within it at any depth, they are compatible
if and only if the inner type is a struct or an array. Where tags are incompatible, the accesses
count as disjoint whatever the addresses and sizes are; where they are compatible, the answer is the
one without tags. -/
theorem accessTags_compatible_iff (t u : SourceTy) :
    (t.Identical u → (tagsCompatible t.tag u.tag = true ↔
      ∀ b c, t.underlying = .basic b → u.underlying = .basic c → b = c)) ∧
    (u.Within t → (tagsCompatible t.tag u.tag = true ↔ u.isObject = true)) ∧
    ∀ (m : Memory.Model) (p q : Value) (s r : UInt64),
      m.overlap ⟨p, s, { tbaa := t.tag }⟩ ⟨q, r, { tbaa := u.tag }⟩ =
        if tagsCompatible t.tag u.tag then m.overlap ⟨p, s, {}⟩ ⟨q, r, {}⟩ else .ok .none := by
  refine ⟨SourceTy.Identical.tags_iff, SourceTy.Within.tags_iff, ?_⟩
  intro m p q s r
  have hmeta := metaApart_of_tags (t := t) (u := u) (x := { tbaa := t.tag })
    (y := { tbaa := u.tag }) rfl rfl ⟨rfl, rfl⟩
  have hplain : Memory.metaApart {} {} = false := rfl
  cases hcompatible : tagsCompatible t.tag u.tag with
  | true =>
    rw [hcompatible] at hmeta
    simp only [Memory.Model.overlap, hmeta, hplain, Bool.not_true, if_true]
  | false =>
    rw [hcompatible] at hmeta
    simp only [Memory.Model.overlap, hmeta, Bool.not_false, if_true]
    rfl

def wrapped : SourceTy := .struct [.ofName "int32"]

def labelled : SourceTy := .struct [.ofName "string", .array 2 wrapped]

/-- Another name for a type of text has its tag, and a struct has that of a struct around it. -/
theorem text_and_struct_tags_compatible :
    SourceTy.Identical (.synonym "label" (.ofName "string")) (.ofName "string") ∧
      wrapped.Within labelled ∧
      tagsCompatible (SourceTy.synonym "label" (.ofName "string")).tag
        (SourceTy.ofName "string").tag = true ∧
      tagsCompatible labelled.tag wrapped.tag = true := by
  have hsame : SourceTy.Identical (.synonym "label" (.ofName "string")) (.ofName "string") := rfl
  have hwithin : wrapped.Within labelled :=
    .head (b := .array 2 wrapped) (by simp [SourceTy.parts, SourceTy.underlying])
      (.single (by simp [SourceTy.parts, SourceTy.underlying, labelled]))
  refine ⟨hsame, hwithin, ?_, ?_⟩
  · refine ((accessTags_compatible_iff _ _).1 hsame).mpr fun b c hb hc => ?_
    exact SourceTy.basic.inj (hb.symm.trans hc)
  · exact ((accessTags_compatible_iff _ _).2.1 hwithin).mpr rfl

open Ssa in
def partThenWhole : Procedure where
  name := "f"
  fullName := "p.f"
  file := "f.go"
  pos := ⟨1, 6⟩
  params := [⟨"p", .pointer wrapped⟩]
  results := .ofName "int32"
  blocks := [{
    succs := []
    preds := []
    steps := [
      { action := .fieldAddr (.value 0) 0, result := some ⟨"t0", .pointer (.ofName "int32")⟩ },
      { action := .unary (some .deref) (.value 1), result := some ⟨"t1", .ofName "int32"⟩ },
      { action := .unary (some .deref) (.value 0), result := some ⟨"t2", wrapped⟩ },
      { action := .ret [.value 2] }] }]

def partThenWholeFunc : Func :=
  { partThenWhole.head with
    blocks := #[{ name := "b0", instrs := [0, 1, 2, 3] }]
    instrs := #[
      { home := some 0, name := "t0", op := .gep, ty := .ptr, elem := some wrapped.lower
        operands := [.arg 0, .int (some .i32) 0, .int (some .i32) 0], checked := true },
      { home := some 0, name := "t1", op := .load, ty := .i32, elem := some .i32
        operands := [.instr 0], checked := true, access := { tbaa := Bytes.ofString "go.int32" } },
      { home := some 0, name := "t2", op := .load, ty := wrapped.lower, elem := some wrapped.lower
        operands := [.arg 0], checked := true, access := { tbaa := Bytes.ofString "go.agg" } },
      { home := some 0, op := .ret, operands := [.instr 1] }]
    entry := some 0 }

/-- Two names of one type have incompatible tags, and so have a word and the struct around it. The
loads of these count as disjoint, though both read the same four octets. -/
theorem part_and_whole_taken_apart :
    (SourceTy.ofName "byte").Identical (.ofName "uint8") ∧
      tagsCompatible (SourceTy.ofName "byte").tag (SourceTy.ofName "uint8").tag = false ∧
      (SourceTy.ofName "int32").Within wrapped ∧
      tagsCompatible wrapped.tag (SourceTy.ofName "int32").tag = false ∧
      ∃ f m part whole, partThenWhole.finish (partThenWhole.draft [] []) = .ok (.ok f) ∧
        Memory.Model.of none f = .ok m ∧ f.instr? 1 = some part ∧ f.instr? 2 = some whole ∧
        part.access = { tbaa := (SourceTy.ofName "int32").tag } ∧
        whole.access = { tbaa := wrapped.tag } ∧
        m.overlap (Memory.Model.locationOf part) (Memory.Model.locationOf whole) = .ok .none ∧
        m.overlap { Memory.Model.locationOf part with access := {} }
          { Memory.Model.locationOf whole with access := {} } = .ok .exact := by
  refine ⟨by rfl, by decide, .single (by simp [SourceTy.parts, SourceTy.underlying, wrapped]),
    by decide, partThenWholeFunc, ⟨none, partThenWholeFunc, []⟩, _, _, ?_, ?_, rfl, rfl, rfl, rfl,
    ?_, ?_⟩
  · decide +kernel
  · rfl
  · decide +kernel
  · decide +kernel

end RegPressure
