import RegPressure.Proofs.Memory.Offsets

namespace RegPressure

/-- A signed word holds the number. -/
def Word.Fits (n : Int) : Prop := minSigned ≤ n ∧ n ≤ maxSigned

theorem toInt_ofInt_of_fits {n : Int} (h : Word.Fits n) : (Int64.ofInt n).toInt = n := by
  unfold Word.Fits Word.minSigned Word.maxSigned at h
  exact Int64.toInt_ofInt_of_le (by omega) (by omega)

theorem ofInt_eq_iff {m n : Int} (hm : Word.Fits m) (hn : Word.Fits n) :
    Int64.ofInt m = Int64.ofInt n ↔ m = n := by
  rw [← Int64.toInt_inj, toInt_ofInt_of_fits hm, toInt_ofInt_of_fits hn]

theorem ofInt_lt_iff {m n : Int} (hm : Word.Fits m) (hn : Word.Fits n) :
    Int64.ofInt m < Int64.ofInt n ↔ m < n := by
  rw [Int64.lt_iff_toInt_lt, toInt_ofInt_of_fits hm, toInt_ofInt_of_fits hn]

theorem toInt64_eq (w : UInt64) : w.toInt64 = Int64.ofInt w.toNat := by
  rw [← toInt64_ofInt, ofInt_natCast, UInt64.ofNat_toNat]

theorem toNat_pos {w : UInt64} (h : w ≠ 0) : 0 < w.toNat :=
  Nat.pos_of_ne_zero fun h' => h (UInt64.toNat.inj h')

namespace Memory

variable {m : Model} {a b : Location} {ba bb : Base}

/-- No octet lies in both stretches. -/
def Apart (x : Int) (s : UInt64) (y : Int) (t : UInt64) : Prop :=
  ∀ n : Int, x ≤ n ∧ n < x + s.toNat → ¬ (y ≤ n ∧ n < y + t.toNat)

theorem apart_iff {x y : Int} {s t : UInt64} (hs : s ≠ 0) (ht : t ≠ 0) :
    Apart x s y t ↔ x + s.toNat ≤ y ∨ y + t.toNat ≤ x := by
  have hspos := toNat_pos hs
  have htpos := toNat_pos ht
  constructor
  · intro h
    have hx := h x
    have hy := h y
    omega
  · intro h n
    omega

theorem stretchesMeet_unknown {x y : Int64} {s t : UInt64} (h : s = 0 ∨ t = 0) :
    stretchesMeet x s y t = true := if_pos (by simpa using h)

theorem stretchesMeet_known {s t : UInt64} (hs : s ≠ 0) (ht : t ≠ 0) (x y : Int64) :
    stretchesMeet x s y t =
      if y < x then decide (x < y + t.toInt64) else decide (y < x + s.toInt64) :=
  if_neg (by simp [hs, ht])

theorem stretchesMeet_iff {x y : Int} {s t : UInt64} (hx : Word.Fits x) (hy : Word.Fits y)
    (hxs : Word.Fits (x + s.toNat)) (hyt : Word.Fits (y + t.toNat)) :
    stretchesMeet (Int64.ofInt x) s (Int64.ofInt y) t = false ↔
      s ≠ 0 ∧ t ≠ 0 ∧ Apart x s y t := by
  have hend : ∀ (n : Int) (w : UInt64), Int64.ofInt n + w.toInt64 = Int64.ofInt (n + w.toNat) :=
    fun n w => by rw [toInt64_eq, Int64.ofInt_add]
  by_cases h : s = 0 ∨ t = 0
  · rw [stretchesMeet_unknown h]
    refine iff_of_false Bool.noConfusion ?_
    rintro ⟨hs, ht, -⟩
    exact h.elim hs ht
  · obtain ⟨hs, ht⟩ := not_or.mp h
    have htpos := toNat_pos ht
    rw [stretchesMeet_known hs ht, apart_iff hs ht, and_iff_right hs, and_iff_right ht]
    simp only [hend, ofInt_lt_iff hy hx, ofInt_lt_iff hx hyt, ofInt_lt_iff hy hxs]
    split
    · rw [decide_eq_false_iff_not]
      omega
    · rw [decide_eq_false_iff_not]
      omega

theorem metaApart_of_isEmpty {x : AccessMeta} (hx : x.isEmpty = true) (y : AccessMeta) :
    metaApart x y = false := by
  simp only [AccessMeta.isEmpty, Bool.and_eq_true, decide_eq_true_eq] at hx
  obtain ⟨⟨⟨htbaa, hscope⟩, hnoAlias⟩, -⟩ := hx
  simp [metaApart, htbaa, hscope, hnoAlias]

def stretchOverlap (ba : Base) (s : UInt64) (bb : Base) (t : UInt64) : Overlap :=
  if !ba.known || !bb.known then .maybe
  else if ba.offset = bb.offset && s = t && s ≠ 0 then .exact
  else if stretchesMeet ba.offset s bb.offset t then .maybe
  else .none

theorem stretchOverlap_spec {u v : Value} {x y : Int} {s t : UInt64} (hx : Word.Fits x)
    (hy : Word.Fits y) (hxs : Word.Fits (x + s.toNat)) (hyt : Word.Fits (y + t.toNat)) :
    (stretchOverlap ⟨u, Int64.ofInt x, true⟩ s ⟨v, Int64.ofInt y, true⟩ t = .exact ↔
      x = y ∧ s = t ∧ s ≠ 0) ∧
    (stretchOverlap ⟨u, Int64.ofInt x, true⟩ s ⟨v, Int64.ofInt y, true⟩ t = .none ↔
      s ≠ 0 ∧ t ≠ 0 ∧ Apart x s y t) := by
  have hmeet := stretchesMeet_iff hx hy hxs hyt
  have hexact : (decide (Int64.ofInt x = Int64.ofInt y) && decide (s = t) && decide (s ≠ 0)) =
      decide (x = y ∧ s = t ∧ s ≠ 0) := by
    simp only [ofInt_eq_iff hx hy, Bool.decide_and, Bool.and_assoc]
  simp only [stretchOverlap, Bool.not_true, Bool.or_self, hexact, decide_eq_true_eq]
  rw [if_neg Bool.false_ne_true]
  by_cases h : x = y ∧ s = t ∧ s ≠ 0
  · rw [if_pos h]
    refine ⟨iff_of_true rfl h, iff_of_false (by decide) ?_⟩
    obtain ⟨rfl, rfl, hs⟩ := h
    have hpos := toNat_pos hs
    rw [apart_iff hs hs]
    omega
  · rw [if_neg h, ← hmeet]
    cases stretchesMeet (Int64.ofInt x) s (Int64.ofInt y) t with
    | true => exact ⟨iff_of_false (by decide) h, iff_of_false (by decide) (by decide)⟩
    | false => exact ⟨iff_of_false (by decide) h, iff_of_true rfl rfl⟩

theorem overlap_of_sameAs (hmeta : metaApart a.access b.access = false)
    (ha : decompose m.func a.ptr = .ok ba) (hb : decompose m.func b.ptr = .ok bb)
    (hsame : ba.object.sameAs bb.object = true) :
    m.overlap a b = .ok (stretchOverlap ba a.size bb b.size) := by
  simp only [Model.overlap, hmeta, ha, hb, hsame, Checked.ok_bind, if_true, stretchOverlap]
  split
  · contradiction
  · split
    · rfl
    · split <;> rfl

/-- For addresses that are made from the same object by constant offsets, the overlap is exact if
and only if the two stretches are the same and of known size, and there is none if and only if both
sizes are known and the stretches lie apart. A variable index anywhere leaves the question open. -/
theorem overlap_of_same_object {x y : Value} {as bs : List Int} (ha : LeadsTo m.func x a.ptr as)
    (hb : LeadsTo m.func y b.ptr bs) (hx : IsRoot m.func x) (hy : IsRoot m.func y)
    (hsame : x.sameAs y = true) (hempty : a.access.isEmpty = true ∧ b.access.isEmpty = true) :
    (∀ A B, exactOffset m.func as = some A → exactOffset m.func bs = some B →
      Word.Fits A → Word.Fits B → Word.Fits (A + a.size.toNat) → Word.Fits (B + b.size.toNat) →
      ∃ r, m.overlap a b = .ok r ∧ (r = .exact ↔ A = B ∧ a.size = b.size ∧ a.size ≠ 0) ∧
        (r = .none ↔ a.size ≠ 0 ∧ b.size ≠ 0 ∧ Apart A a.size B b.size)) ∧
    ((∃ id ∈ as ++ bs, ∃ i, m.func.instr? id = some i ∧ i.op = .gep ∧
      ∃ v ∈ i.operands.drop 1, v.intConst? = none) → m.overlap a b = .ok .maybe) := by
  obtain ⟨offA, hda, hoffA⟩ := ha.decompose_eq hx
  obtain ⟨offB, hdb, hoffB⟩ := hb.decompose_eq hy
  have hoverlap := overlap_of_sameAs (metaApart_of_isEmpty hempty.1 b.access) hda hdb hsame
  constructor
  · intro A B hA hB hfA hfB hfs hft
    rw [hoffA A hA, hoffB B hB, hA, hB] at hoverlap
    exact ⟨_, hoverlap, stretchOverlap_spec hfA hfB hfs hft⟩
  · rintro ⟨id, hid, i, hi, hop, v, hv, hvar⟩
    rw [hoverlap]
    rcases List.mem_append.mp hid with hid | hid
    · simp [stretchOverlap, exactOffset_of_variable hid hi hop hv hvar]
    · simp [stretchOverlap, exactOffset_of_variable hid hi hop hv hvar]

def strides : Func where
  name := "strides"
  params := [⟨"p", some .ptr⟩, ⟨"n", some .i64⟩]
  blocks := #[{ name := "a", instrs := [0, 1, 2, 3, 4, 5] }]
  instrs := #[
    { home := some 0, op := .gep, ty := .ptr, elem := some (.struct [.i8, .array 4 .i32]),
      operands := [.arg 0, .int (some .i64) 0, .int (some .i32) 1, .int (some .i64) 2] },
    { home := some 0, op := .bitcast, ty := .ptr, operands := [.instr 0] },
    { home := some 0, op := .gep, ty := .ptr, elem := some .i32,
      operands := [.arg 0, .int (some .i64) 3] },
    { home := some 0, op := .gep, ty := .ptr, elem := some .i8,
      operands := [.arg 0, .int (some .i64) (-4)] },
    { home := some 0, op := .gep, ty := .ptr, elem := some .i8, operands := [.arg 0, .arg 1] },
    { home := some 0, op := .ret }]
  entry := some 0

theorem strides_overlap : LeadsTo strides (.arg 0) (.instr 1) [1, 0] ∧
    exactOffset strides [1, 0] = some 12 ∧ LeadsTo strides (.arg 0) (.instr 2) [2] ∧
    exactOffset strides [2] = some 12 ∧ LeadsTo strides (.arg 0) (.instr 3) [3] ∧
    exactOffset strides [3] = some (-4) ∧ LeadsTo strides (.arg 0) (.instr 4) [4] ∧
    Model.overlap ⟨none, strides, []⟩ ⟨.instr 1, 4, {}⟩ ⟨.instr 2, 4, {}⟩ = .ok .exact ∧
    Model.overlap ⟨none, strides, []⟩ ⟨.instr 3, 16, {}⟩ ⟨.instr 1, 4, {}⟩ = .ok .none ∧
    Model.overlap ⟨none, strides, []⟩ ⟨.instr 3, 16, {}⟩ ⟨.instr 4, 1, {}⟩ = .ok .maybe := by
  have hcast : LeadsTo strides (.arg 0) (.instr 1) [1, 0] :=
    .step rfl (.inr rfl) rfl (.step rfl (.inl rfl) rfl .here)
  have hthird : LeadsTo strides (.arg 0) (.instr 2) [2] := .step rfl (.inl rfl) rfl .here
  have hbefore : LeadsTo strides (.arg 0) (.instr 3) [3] := .step rfl (.inl rfl) rfl .here
  have hvariable : LeadsTo strides (.arg 0) (.instr 4) [4] := .step rfl (.inl rfl) rfl .here
  have hroot : IsRoot strides (.arg 0) := by rintro _ ⟨⟩
  have hoff : exactOffset strides [1, 0] = some 12 ∧ exactOffset strides [2] = some 12 ∧
      exactOffset strides [3] = some (-4) := by decide +kernel
  have hfits : ∀ n ∈ [12, -4, 16], Word.Fits n := by
    unfold Word.Fits
    decide
  have hf12 := hfits 12 (by decide)
  have hf4 := hfits (-4) (by decide)
  have hf16 := hfits 16 (by decide)
  refine ⟨hcast, hoff.1, hthird, hoff.2.1, hbefore, hoff.2.2, hvariable, ?_, ?_, ?_⟩
  · obtain ⟨r, hr, hexact, -⟩ := (overlap_of_same_object (m := ⟨none, strides, []⟩)
      (a := ⟨.instr 1, 4, {}⟩) (b := ⟨.instr 2, 4, {}⟩) hcast hthird hroot hroot rfl
      ⟨rfl, rfl⟩).1 12 12 hoff.1 hoff.2.1 hf12 hf12 hf16 hf16
    rw [hr, hexact.mpr ⟨rfl, rfl, by decide⟩]
  · obtain ⟨r, hr, -, hnone⟩ := (overlap_of_same_object (m := ⟨none, strides, []⟩)
      (a := ⟨.instr 3, 16, {}⟩) (b := ⟨.instr 1, 4, {}⟩) hbefore hcast hroot hroot rfl
      ⟨rfl, rfl⟩).1 (-4) 12 hoff.2.2 hoff.1 hf4 hf12 hf12 hf16
    have hapart : Apart (-4) 16 12 4 := (apart_iff (by decide) (by decide)).mpr (by decide)
    rw [hr, hnone.mpr ⟨by decide, by decide, hapart⟩]
  · exact (overlap_of_same_object (m := ⟨none, strides, []⟩) (a := ⟨.instr 3, 16, {}⟩)
      (b := ⟨.instr 4, 1, {}⟩) hbefore hvariable hroot hroot rfl ⟨rfl, rfl⟩).2
      ⟨4, by decide, _, rfl, rfl, .arg 1, by decide, rfl⟩

end Memory

end RegPressure
