import RegPressure.IR.Ty

namespace RegPressure

theorem toNat_ofInt (n : Int) : (UInt64.ofInt n).toNat = (n % 18446744073709551616).toNat := by
  have h : (n % 18446744073709551616).toNat < 18446744073709551616 := by omega
  simpa [UInt64.ofInt] using h

theorem toInt64_ofInt (n : Int) : (UInt64.ofInt n).toInt64 = Int64.ofInt n :=
  congrArg Int64.ofUInt64 (UInt64.toNat.inj ((toNat_ofInt n).trans (BitVec.toNat_ofInt (n := 64) n).symm))

theorem ofInt_natCast (n : Nat) : UInt64.ofInt n = UInt64.ofNat n := by
  apply UInt64.toNat.inj
  rw [toNat_ofInt, UInt64.toNat_ofNat']
  omega

theorem toUInt64_ofInt (n : Int) : (Int64.ofInt n).toUInt64 = UInt64.ofInt n := by
  rw [← toInt64_ofInt]
  rfl

namespace Ty

def roundUp (n : Int) (a : UInt64) : Int := (n + a.toNat - 1) / a.toNat * a.toNat

mutual

def exactSize : Ty → Option Int
  | .int b => some (((b + 7) / 8 : Nat) : Int)
  | .float b => some ((b / 8 : Nat) : Int)
  | .ptr => some 8
  | .vector n t | .array n t => (exactSize t).map (· * n)
  | .struct ts => (exactEnd 0 ts).map (roundUp · (aligns ts))
  | .void | .label => none

def exactEnd (off : Int) : List Ty → Option Int
  | [] => some off
  | t :: ts =>
    match exactSize t with
    | some size => exactEnd (roundUp off (align t) + size) ts
    | none => none

end

def exactStart (off : Int) : List Ty → Nat → Option Int
  | [], _ => none
  | t :: ts, i =>
    match exactSize t with
    | none => none
    | some size =>
      match i with
      | 0 => some (roundUp off (align t))
      | i + 1 => exactStart (roundUp off (align t) + size) ts i

def alignments : List UInt64 := [1, 2, 4, 8]

theorem max_mem_alignments {a b : UInt64} (ha : a ∈ alignments) (hb : b ∈ alignments) :
    max a b ∈ alignments := by
  change (if a ≤ b then b else a) ∈ alignments
  split
  · exact hb
  · exact ha

theorem max_one {a : UInt64} (ha : a ∈ alignments) : max a 1 = a ∧ max 1 a = a := by
  simp only [alignments, List.mem_cons, List.not_mem_nil, or_false] at ha
  rcases ha with rfl | rfl | rfl | rfl <;> decide

theorem toNat_max (a b : UInt64) : (max a b).toNat = max a.toNat b.toNat := by
  change (if a ≤ b then b else a).toNat = _
  split
  · next h => exact (Nat.max_eq_right h).symm
  · next h => exact (Nat.max_eq_left (Nat.le_of_not_le h)).symm

theorem max_assoc_words (a b c : UInt64) : max (max a b) c = max a (max b c) := by
  apply UInt64.toNat.inj
  simp only [toNat_max, Nat.max_assoc]

theorem naturalAlign_mem (size : UInt64) : naturalAlign size ∈ alignments := by
  unfold naturalAlign
  split
  · decide
  · split
    · decide
    · split <;> decide

mutual

theorem align_mem : ∀ t : Ty, align t ∈ alignments
  | .int _ | .float _ => naturalAlign_mem _
  | .vector _ t | .array _ t => align_mem t
  | .struct ts => aligns_mem ts
  | .ptr => by simp [align, alignments]
  | .void | .label => by simp [align, alignments]

theorem aligns_mem : ∀ ts : List Ty, aligns ts ∈ alignments
  | [] => by simp [aligns, alignments]
  | t :: ts => max_mem_alignments (align_mem t) (aligns_mem ts)

end

theorem alignUp_ofInt (n : Int) {a : UInt64} (ha : a ∈ alignments) :
    alignUp (UInt64.ofInt n) a = UInt64.ofInt (roundUp n a) := by
  apply UInt64.toNat.inj
  rw [alignUp, UInt64.toNat_mul, UInt64.toNat_div, UInt64.toNat_sub, UInt64.toNat_add, toNat_ofInt,
    toNat_ofInt]
  simp only [alignments, List.mem_cons, List.not_mem_nil, or_false] at ha
  rcases ha with rfl | rfl | rfl | rfl <;> simp [roundUp] <;> omega

def Extent.cut (n : Int) (a : UInt64) : Extent := ⟨UInt64.ofInt n, a⟩

theorem Extent.place_cut (n : Int) (a : UInt64) (t : Ty) :
    (Extent.cut n a).place t.align = UInt64.ofInt (roundUp n t.align) := alignUp_ofInt n (align_mem t)

theorem Extent.push_cut (n : Int) (a : UInt64) (t : Ty) (size : Int) :
    (Extent.cut n a).push (UInt64.ofInt size) t.align =
      .cut (roundUp n t.align + size) (max a t.align) := by
  rw [Extent.push, Extent.place_cut, ← UInt64.ofInt_add]
  rfl

mutual

theorem storeSize_eq : ∀ t : Ty, storeSize t = (exactSize t).map UInt64.ofInt
  | .int b | .float b => by rw [storeSize, exactSize, Option.map_some, ofInt_natCast]
  | .ptr => rfl
  | .vector n t | .array n t => by
    have ih := storeSize_eq t
    simp only [storeSize, exactSize, ih, Option.map_map]
    cases exactSize t with
    | none => rfl
    | some size => simp [UInt64.ofInt_mul, toUInt64_ofInt]
  | .struct ts => by
    have hone := aligns_mem ts
    change (layout (.cut 0 1) ts).map _ = ((exactEnd 0 ts).map _).map _
    rw [layout_eq ts 0 (by decide), Option.map_map, Option.map_map, (max_one hone).2]
    refine congrArg (Option.map · _) (funext fun n => ?_)
    exact alignUp_ofInt n hone
  | .void | .label => rfl

theorem layout_eq : ∀ (ts : List Ty) (n : Int) {a : UInt64}, a ∈ alignments →
    layout (.cut n a) ts = (exactEnd n ts).map (Extent.cut · (max a (aligns ts)))
  | [], n, a, ha => by
    rw [layout, exactEnd, aligns, (max_one ha).1]
    rfl
  | t :: ts, n, a, ha => by
    have ih := storeSize_eq t
    have ht := align_mem t
    simp only [layout, exactEnd, ih]
    cases exactSize t with
    | none => rfl
    | some size =>
      simp only [Option.map_some, Extent.push_cut]
      rw [layout_eq ts _ (max_mem_alignments ha ht), aligns, max_assoc_words]

end

/-- A field starts where it does exactly, cut to a word. -/
theorem offsetFrom_eq : ∀ (ts : List Ty) (n : Int) (a : UInt64) (i : Nat),
    offsetFrom (.cut n a) ts i = (exactStart n ts i).map UInt64.ofInt
  | [], n, a, i => rfl
  | t :: ts, n, a, i => by
    simp only [offsetFrom, exactStart, storeSize_eq t]
    cases exactSize t with
    | none => rfl
    | some size =>
      cases i with
      | zero => simp only [Option.map_some, Extent.place_cut]
      | succ i =>
        simp only [Option.map_some, Extent.push_cut]
        exact offsetFrom_eq ts _ _ i

end Ty

end RegPressure
