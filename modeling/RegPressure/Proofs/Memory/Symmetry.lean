import RegPressure.Proofs.Asm.Total
import RegPressure.Proofs.Faultless.Advice
import RegPressure.Proofs.Memory.Overlap

namespace RegPressure.Memory

open Checked

variable {f : Func} {m : Model} {a b : Location} {ba bb : Base} {s : Symbols}

theorem tagsCompatible_comm (s t : Bytes) : tagsCompatible s t = tagsCompatible t s := by
  simp only [tagsCompatible, eq_comm (a := s)]
  ac_rfl

theorem metaApart_comm (x y : AccessMeta) : metaApart x y = metaApart y x := by
  simp only [metaApart, tagsCompatible_comm x.tbaa]
  ac_rfl

theorem sameAs_comm (v w : Value) : v.sameAs w = w.sameAs v := by
  have hsame : ∀ x y : Binary64, x.same y = y.same x := by
    intro x y
    simp only [Binary64.same, eq_comm (a := x.bits)]
    ac_rfl
  cases v <;> cases w <;> simp only [Value.sameAs, hsame, Bool.beq_comm]

/-- The stretch ends beyond the largest signed word. -/
def Overruns (start : Int64) (size : UInt64) : Prop := Word.maxSigned < start.toInt + size.toNat

instance {start : Int64} {size : UInt64} : Decidable (Overruns start size) :=
  inferInstanceAs (Decidable (Word.maxSigned < start.toInt + size.toNat))

theorem lt_end_iff {size : UInt64} (hs : size ≠ 0) (start : Int64) :
    start < start + size.toInt64 ↔ ¬ Overruns start size := by
  have hsum : start + size.toInt64 = Int64.ofInt (start.toInt + size.toNat) := by
    rw [Int64.ofInt_add, Int64.ofInt_toInt, toInt64_eq]
  have hpos := toNat_pos hs
  have hlt := size.toNat_lt
  have hlow := start.le_toInt
  have hhigh := start.toInt_lt
  rw [hsum, Int64.lt_iff_toInt_lt, Int64.toInt_ofInt, Overruns, Word.maxSigned]
  simp only [Int.bmod, show ((Int64.size : Nat) : Int) = 18446744073709551616 from rfl]
  split <;> omega

theorem stretchesMeet_comm {x y : Int64} (hne : x ≠ y) (s t : UInt64) :
    stretchesMeet x s y t = stretchesMeet y t x s := by
  simp only [stretchesMeet, Bool.or_comm (decide (s = 0))]
  rw [Ne, ← Int64.toInt_inj] at hne
  by_cases h : y < x
  · have h' : ¬ x < y := by
      rw [Int64.lt_iff_toInt_lt] at h ⊢
      omega
    rw [if_pos h, if_neg h']
  · have h' : x < y := by
      rw [Int64.lt_iff_toInt_lt] at h ⊢
      omega
    rw [if_neg h, if_pos h']

theorem stretchesMeet_self {s t : UInt64} (hs : s ≠ 0) (ht : t ≠ 0) (x : Int64) :
    stretchesMeet x s x t = true ↔ ¬ Overruns x s := by
  have hlt : ¬ x < x := by
    rw [Int64.lt_iff_toInt_lt]
    omega
  rw [stretchesMeet_known hs ht, if_neg hlt, decide_eq_true_iff, lt_end_iff hs]

/-- Two stretches of one object of which only one overruns, although they start at one place. -/
structure Lopsided (ba : Base) (s : UInt64) (bb : Base) (t : UInt64) : Prop where
  known : ba.known = true ∧ bb.known = true
  start : ba.offset = bb.offset
  sizes : s ≠ 0 ∧ t ≠ 0
  overruns : ¬ (Overruns ba.offset s ↔ Overruns bb.offset t)

theorem stretchOverlap_comm_iff {s t : UInt64} :
    stretchOverlap ba s bb t = stretchOverlap bb t ba s ↔ ¬ Lopsided ba s bb t := by
  have hexact : (decide (ba.offset = bb.offset) && decide (s = t) && decide (s ≠ 0)) =
      (decide (bb.offset = ba.offset) && decide (t = s) && decide (t ≠ 0)) := by
    simp only [eq_comm (a := bb.offset), eq_comm (a := t)]
    by_cases h : s = t <;> simp [h]
  simp only [stretchOverlap, ← hexact, Bool.or_comm (!bb.known)]
  by_cases hknown : ba.known = true ∧ bb.known = true
  · simp only [hknown, Bool.not_true, Bool.or_self, Bool.false_eq_true, if_false]
    by_cases he : (decide (ba.offset = bb.offset) && decide (s = t) && decide (s ≠ 0)) = true
    · rw [if_pos he, if_pos he]
      simp only [Bool.and_eq_true, decide_eq_true_eq] at he
      refine iff_of_true rfl fun h => h.overruns ?_
      rw [he.1.1, he.1.2]
    · have hmeets : ∀ p q : Bool, ((if p = true then Overlap.maybe else .none) =
          if q = true then Overlap.maybe else .none) ↔ (p = true ↔ q = true) := by decide
      rw [if_neg he, if_neg he, hmeets]
      by_cases hzero : s = 0 ∨ t = 0
      · rw [stretchesMeet_unknown hzero, stretchesMeet_unknown hzero.symm]
        exact iff_of_true Iff.rfl fun h => hzero.elim h.sizes.1 h.sizes.2
      · obtain ⟨hs, ht⟩ := not_or.mp hzero
        by_cases hstart : ba.offset = bb.offset
        · rw [hstart, stretchesMeet_self hs ht, stretchesMeet_self ht hs, not_iff_not]
          refine ⟨fun h hl => hl.overruns (hstart ▸ h), fun h => ?_⟩
          by_contra hover
          exact h ⟨hknown, hstart, ⟨hs, ht⟩, hstart ▸ hover⟩
        · rw [stretchesMeet_comm hstart]
          exact iff_of_true Iff.rfl fun h => hstart h.start
  · have : (!ba.known || !bb.known) = true := by
      rw [← Bool.not_and, Bool.not_eq_true', Bool.eq_false_iff, Ne, Bool.and_eq_true]
      exact hknown
    rw [if_pos this, if_pos this]
    exact iff_of_true rfl fun h => hknown h.known

def keepsOff (m : Model) (o : Origin) (other : Value) (start : Origin) : Checked Bool :=
  match o with
  | .alloca id => m.isPrivateFrom id other start
  | _ => return false

theorem overlap_of_not_sameAs (hmeta : metaApart a.access b.access = false)
    (ha : decompose m.func a.ptr = .ok ba) (hb : decompose m.func b.ptr = .ok bb)
    (hsame : ba.object.sameAs bb.object = false) {oa ob : Origin}
    (hoa : origin m.func ba.object = .ok oa) (hob : origin m.func bb.object = .ok ob) {p q : Bool}
    (hp : keepsOff m oa bb.object ob = .ok p) (hq : keepsOff m ob ba.object oa = .ok q) :
    m.overlap a b = .ok (if (oa.isDistinct && ob.isDistinct) || (p || q) then .none else .maybe) := by
  have hunfold : m.overlap a b = (do
      if oa.isDistinct && ob.isDistinct then return .none
      if ← keepsOff m oa bb.object ob then return .none
      if ← keepsOff m ob ba.object oa then return .none
      return .maybe) := by
    simp only [Model.overlap, hmeta, ha, hb, hsame, hoa, hob, ok_bind]
    rfl
  rw [hunfold, hp, hq]
  cases (oa.isDistinct && ob.isDistinct) <;> cases p <;> cases q <;> rfl

theorem answers_keepsOff (o : Origin) {v : Value} (hv : m.func.Refers s v) (start : Origin) :
    Answers (keepsOff m o v start) := by
  cases o with
  | alloca id => exact Model.answers_isPrivateFrom id hv start
  | _ => exact answers_pure _

theorem sameAs_self_or (f : Func) (v : Value) : v.sameAs v = true ∨ origin f v = .ok .unknown := by
  cases v with
  | float => exact .inr rfl
  | null => exact .inl rfl
  | _ => exact .inl (by simp [Value.sameAs])

section

variable (h : m.Solid s) (ha : m.func.Refers s a.ptr) (hb : m.func.Refers s b.ptr)

include h ha hb

theorem overlap_comm_iff : ∃ ba bb r r', decompose m.func a.ptr = .ok ba ∧
    decompose m.func b.ptr = .ok bb ∧ m.overlap a b = .ok r ∧ m.overlap b a = .ok r' ∧
      (r = r' ↔ ¬ (metaApart a.access b.access = false ∧ ba.object.sameAs bb.object = true ∧
        Lopsided ba a.size bb b.size)) := by
  obtain ⟨ba, hba, hra⟩ := exists_decompose h.func ha
  obtain ⟨bb, hbb, hrb⟩ := exists_decompose h.func hb
  cases hmeta : metaApart a.access b.access with
  | true =>
    have hmeta' := metaApart_comm a.access b.access ▸ hmeta
    exact ⟨ba, bb, .none, .none, hba, hbb, by simp [Model.overlap, hmeta],
      by simp [Model.overlap, hmeta'], by simp⟩
  | false =>
    have hmeta' := metaApart_comm a.access b.access ▸ hmeta
    cases hsame : ba.object.sameAs bb.object with
    | true =>
      have hsame' := sameAs_comm ba.object bb.object ▸ hsame
      refine ⟨ba, bb, _, _, hba, hbb, overlap_of_sameAs hmeta hba hbb hsame,
        overlap_of_sameAs hmeta' hbb hba hsame', ?_⟩
      rw [stretchOverlap_comm_iff]
      simp [hsame]
    | false =>
      have hsame' := sameAs_comm ba.object bb.object ▸ hsame
      obtain ⟨oa, hoa⟩ := answers_origin hra
      obtain ⟨ob, hob⟩ := answers_origin hrb
      obtain ⟨p, hp⟩ := answers_keepsOff oa hrb ob
      obtain ⟨q, hq⟩ := answers_keepsOff ob hra oa
      refine ⟨ba, bb, _, _, hba, hbb, overlap_of_not_sameAs hmeta hba hbb hsame hoa hob hp hq,
        overlap_of_not_sameAs hmeta' hbb hba hsame' hob hoa hq hp, ?_⟩
      simp [hsame, Bool.and_comm, Bool.or_comm]

omit hb in
theorem overlap_same_address (hptr : a.ptr = b.ptr) (hempty : a.access.isEmpty = true)
    (hsa : a.size ≠ 0) (hsb : b.size ≠ 0) (hba : decompose m.func a.ptr = .ok ba) :
    m.overlap a b = .ok .none ↔ a.size ≠ b.size ∧ ba.known = true ∧
      ba.object.sameAs ba.object = true ∧ Overruns ba.offset a.size := by
  have hmeta := metaApart_of_isEmpty hempty b.access
  have hbb := hptr ▸ hba
  obtain ⟨c, hc, hrefers⟩ := exists_decompose h.func ha
  cases hba.symm.trans hc
  cases hsame : ba.object.sameAs ba.object with
  | true =>
    rw [overlap_of_sameAs hmeta hba hbb hsame, Except.ok.injEq]
    cases hknown : ba.known with
    | false => simp [stretchOverlap, hknown]
    | true =>
      by_cases hsize : a.size = b.size
      · simp [stretchOverlap, hknown, hsize, hsb]
      · have hmeet := not_congr (stretchesMeet_self hsa hsb ba.offset)
        rw [not_not] at hmeet
        simp [stretchOverlap, hknown, hsize, ← hmeet]
  | false =>
    have horigin := (sameAs_self_or m.func ba.object).resolve_left (by simp [hsame])
    rw [overlap_of_not_sameAs hmeta hba hbb hsame horigin horigin rfl rfl]
    simp [Origin.isDistinct]

end

/-- Some access of the function goes to this address. -/
def IsAddress (f : Func) (v : Value) : Prop := ∃ id i, f.instr? id = some i ∧ i.address? = some v

theorem IsAddress.refers {v : Value} (h : f.Solid s) (hv : IsAddress f v) : f.Refers s v := by
  obtain ⟨id, i, hi, haddress⟩ := hv
  refine h.refers id i hi v ?_
  unfold Instr.address? at haddress
  split at haddress
  · exact List.mem_of_getElem? haddress
  · exact List.mem_of_getElem? haddress
  · exact List.mem_of_getElem? haddress
  · exact List.mem_of_getElem? haddress
  · cases haddress

/-- In every function that reading accepts, overlap of any two stretches from addresses of accesses
is found in both orders. The answers are the same unless the stretches are lopsided, and stretches
from one address, without metadata, are found apart only if their lengths differ and the first
overruns. -/
theorem overlap_comm_of_accepted {file : String} {src : Bytes} {p : Parsed}
    (h : parse file src = .ok p) (he : p.errors = []) (hf : f ∈ p.module.funcs) :
    ∃ m, Model.of (some p.module.symbols) f = .ok m ∧
      ∀ a b : Location, IsAddress f a.ptr → IsAddress f b.ptr →
        ∃ ba bb r r', decompose f a.ptr = .ok ba ∧ decompose f b.ptr = .ok bb ∧
          m.overlap a b = .ok r ∧ m.overlap b a = .ok r' ∧
          (r = r' ↔ ¬ (metaApart a.access b.access = false ∧
            ba.object.sameAs bb.object = true ∧ Lopsided ba a.size bb b.size)) ∧
          (a.ptr = b.ptr → a.access.isEmpty = true → b.access.isEmpty = true → a.size ≠ 0 →
            b.size ≠ 0 → (r = .none ↔ a.size ≠ b.size ∧ ba.known = true ∧
              ba.object.sameAs ba.object = true ∧ Overruns ba.offset a.size)) := by
  obtain ⟨m, hm, hsolid, rfl⟩ := exists_model ((read_of_parse h he).funcs f hf).solid
  refine ⟨m, hm, fun a b ha hb => ?_⟩
  have hra := ha.refers hsolid.func
  obtain ⟨ba, bb, r, r', hba, hbb, hr, hr', hcomm⟩ :=
    overlap_comm_iff hsolid hra (hb.refers hsolid.func)
  refine ⟨ba, bb, r, r', hba, hbb, hr, hr', hcomm, fun hptr hempty _ hsa hsb => ?_⟩
  rw [← overlap_same_address hsolid hra hptr hempty hsa hsb hba, hr, Except.ok.injEq]

def loadsText (text : String) : Bytes := Bytes.ofString
  ("func @f(%p: ptr) \x7b\na:\n  %u = load i32, %p\n  %v = load " ++ text ++ ", %p\n  ret\n\x7d\n")

def loadAt (line : Int) (name : String) (t : Ty) : Instr :=
  { home := some 0, name, op := .load, ty := t, operands := [.arg 0], elem := some t,
    pos := ⟨line, 3⟩ }

def loads (t : Ty) : Func where
  name := "f"
  params := [⟨"p", some .ptr⟩]
  ret := .void
  blocks := #[{ name := "a", instrs := [0, 1, 2] }]
  instrs := #[loadAt 3 "u" .i32, loadAt 4 "v" t, { home := some 0, op := .ret, pos := ⟨5, 3⟩ }]
  entry := some 0
  file := "in.mir"

/-- Both orders tell that a load of four octets and one of eight from the same address overlap. -/
theorem loads_overlap_both_ways : ∃ p m, parse "in.mir" (loadsText "i64") = .ok p ∧
    p.errors = [] ∧ loads .i64 ∈ p.module.funcs ∧
      Model.of (some p.module.symbols) (loads .i64) = .ok m ∧ ∃ r r',
        m.overlap (Model.locationOf (loadAt 3 "u" .i32)) (Model.locationOf (loadAt 4 "v" .i64)) =
          .ok r ∧
        m.overlap (Model.locationOf (loadAt 4 "v" .i64)) (Model.locationOf (loadAt 3 "u" .i32)) =
          .ok r' ∧ r = r' ∧ r ≠ .none := by
  obtain ⟨p, hp, he, hf⟩ := parse_alone "in.mir" (loadsText "i64") (loads .i64) (by decide +kernel)
  obtain ⟨m, hm, hall⟩ := overlap_comm_of_accepted hp he hf
  have haddress : IsAddress (loads .i64) (.arg 0) := ⟨0, _, rfl, rfl⟩
  obtain ⟨ba, bb, r, r', hba, hbb, hr, hr', hcomm, hself⟩ := hall
    (Model.locationOf (loadAt 3 "u" .i32)) (Model.locationOf (loadAt 4 "v" .i64)) haddress haddress
  have hbase : decompose (loads .i64) (.arg 0) = .ok { object := .arg 0 } := rfl
  cases hba.symm.trans hbase
  cases hbb.symm.trans hbase
  have hfree : ¬ Overruns 0 4 ∧ ¬ Overruns 0 8 := by decide
  refine ⟨p, m, hp, he, hf, hm, r, r', hr, hr', hcomm.mpr fun h => ?_, fun hnone => ?_⟩
  · exact h.2.2.overruns (iff_of_false hfree.1 hfree.2)
  · have hself := hself rfl rfl rfl (by decide) (by decide)
    exact hfree.1 (hself.mp hnone).2.2.2

/-- A load of 2⁶³ octets is found apart from one of four octets at the same address if it is the one
that is asked about first, and only then. -/
theorem huge_load_overlap_not_symmetric : ∃ p m,
    parse "in.mir" (loadsText "[1152921504606846976 x i64]") = .ok p ∧ p.errors = [] ∧
      loads (.array 1152921504606846976 .i64) ∈ p.module.funcs ∧
      Model.of (some p.module.symbols) (loads (.array 1152921504606846976 .i64)) = .ok m ∧
      m.overlap (Model.locationOf (loadAt 3 "u" .i32))
        (Model.locationOf (loadAt 4 "v" (.array 1152921504606846976 .i64))) = .ok .maybe ∧
      m.overlap (Model.locationOf (loadAt 4 "v" (.array 1152921504606846976 .i64)))
        (Model.locationOf (loadAt 3 "u" .i32)) = .ok .none := by
  obtain ⟨p, hp, he, hf⟩ := parse_alone "in.mir" (loadsText "[1152921504606846976 x i64]")
    (loads (.array 1152921504606846976 .i64)) (by decide +kernel)
  obtain ⟨m, hm, hsolid, hfunc⟩ := exists_model ((read_of_parse hp he).funcs _ hf).solid
  have hbase : decompose m.func (.arg 0) = .ok { object := .arg 0 } := hfunc ▸ rfl
  refine ⟨p, m, hp, he, hf, hm, ?_, ?_⟩
  · exact (overlap_of_sameAs rfl hbase hbase rfl).trans (congrArg Except.ok (by decide +kernel))
  · exact (overlap_of_sameAs rfl hbase hbase rfl).trans (congrArg Except.ok (by decide +kernel))

end RegPressure.Memory
