import RegPressure.Proofs.Memory.Overlap

namespace RegPressure

namespace Ty

variable {t u v : Ty} {ts : List Ty} {c d : Int64} {path p q : List Int64} {off e n x y size : Int}
  {i j : Nat}

def part? : Ty → Int64 → Option Ty
  | .struct ts, c => if c.toInt < 0 then none else ts[c.toInt.toNat]?
  | .array n t, c | .vector n t, c => if 0 ≤ c.toInt ∧ c.toInt < n then some t else none
  | _, _ => none

def component? : Ty → List Int64 → Option Ty
  | t, [] => some t
  | t, c :: path => (t.part? c).bind fun u => component? u path

def skip? : Ty → Int64 → Option Int
  | .struct ts, c => (fieldOffset (.struct ts) c.toInt).map fun start => (start.toNat : Int)
  | .array _ t, c | .vector _ t, c => (storeSize t).map fun size => c.toInt * size.toNat
  | _, _ => none

def pathOffset? : Ty → List Int64 → Option Int
  | _, [] => some 0
  | t, c :: path => do
    let skipped ← t.skip? c
    let u ← t.part? c
    return skipped + (← pathOffset? u path)

mutual

/-- A type and all that stands in it. -/
def parts : Ty → List Ty
  | .array n t => .array n t :: parts t
  | .vector n t => .vector n t :: parts t
  | .struct ts => .struct ts :: partsOf ts
  | t => [t]

def partsOf : List Ty → List Ty
  | [] => []
  | t :: ts => parts t ++ partsOf ts

end

/-- A sized type without negative counts, which fits a signed word with all that stands in it. -/
structure Moderate (t : Ty) : Prop where
  sized : t.storeSize.isSome = true
  counted : ∀ u ∈ t.parts, 0 ≤ u.len
  sizes : ∀ u ∈ t.parts, ∀ n ∈ u.exactSize, n ≤ Word.maxSigned

theorem mem_parts_self (t : Ty) : t ∈ t.parts := by cases t <;> simp [parts]

theorem parts_subset_partsOf (hu : u ∈ ts) : u.parts ⊆ partsOf ts := by
  induction ts with
  | nil => simp at hu
  | cons t ts ih =>
    rw [partsOf]
    by_cases he : u = t
    · subst he
      exact List.subset_append_left _ _
    · have hu := (List.mem_cons.mp hu).resolve_left he
      exact List.subset_append_of_subset_right _ (ih hu)

theorem parts_subset_field (hu : u ∈ ts) : u.parts ⊆ parts (.struct ts) :=
  List.subset_cons_of_subset _ (parts_subset_partsOf hu)

theorem parts_subset_array (n : Int) (t : Ty) : t.parts ⊆ parts (.array n t) :=
  List.subset_cons_self _ _

theorem parts_subset_vector (n : Int) (t : Ty) : t.parts ⊆ parts (.vector n t) :=
  List.subset_cons_self _ _

theorem le_roundUp (n : Int) {a : UInt64} (ha : a ∈ alignments) : n ≤ roundUp n a := by
  simp only [alignments, List.mem_cons, List.not_mem_nil, or_false] at ha
  rcases ha with rfl | rfl | rfl | rfl <;> simp [roundUp] <;> omega

mutual

theorem exactSize_nonneg : ∀ (t : Ty) (n : Int), (∀ u ∈ t.parts, 0 ≤ u.len) →
    t.exactSize = some n → 0 ≤ n
  | .int b, n, _, hn => by
    cases hn
    omega
  | .float b, n, _, hn => by
    cases hn
    omega
  | .ptr, n, _, hn => by
    cases hn
    decide
  | .array m t, n, hcounted, hn => by
    obtain ⟨size, hsize, rfl⟩ := Option.map_eq_some_iff.mp hn
    have hpos := exactSize_nonneg t size (fun u hu => hcounted u (parts_subset_array m t hu)) hsize
    exact Int.mul_nonneg hpos (hcounted _ (mem_parts_self _))
  | .vector m t, n, hcounted, hn => by
    obtain ⟨size, hsize, rfl⟩ := Option.map_eq_some_iff.mp hn
    have hpos := exactSize_nonneg t size (fun u hu => hcounted u (parts_subset_vector m t hu)) hsize
    exact Int.mul_nonneg hpos (hcounted _ (mem_parts_self _))
  | .struct ts, n, hcounted, hn => by
    obtain ⟨e, he, rfl⟩ := Option.map_eq_some_iff.mp hn
    have hle := le_exactEnd ts 0 e (fun u hu => hcounted u (List.mem_cons_of_mem _ hu)) he
    have hround := le_roundUp e (aligns_mem ts)
    omega

theorem le_exactEnd : ∀ (ts : List Ty) (off e : Int), (∀ u ∈ partsOf ts, 0 ≤ u.len) →
    exactEnd off ts = some e → off ≤ e
  | [], off, e, _, he => by
    cases he
    omega
  | t :: ts, off, e, hcounted, he => by
    rw [exactEnd] at he
    cases hsize : t.exactSize with
    | none => simp [hsize] at he
    | some size =>
      have hpos := exactSize_nonneg t size (fun u hu => hcounted u (List.mem_append_left _ hu)) hsize
      have hround := le_roundUp off (align_mem t)
      have hle := le_exactEnd ts _ e (fun u hu => hcounted u (List.mem_append_right _ hu))
        (by simpa [hsize] using he)
      omega

end

theorem exactStart_spec (hcounted : ∀ w ∈ partsOf ts, 0 ≤ w.len) (he : exactEnd off ts = some e)
    (hu : ts[i]? = some u) : ∃ x size, exactStart off ts i = some x ∧ u.exactSize = some size ∧
      off ≤ x ∧ 0 ≤ size ∧ x + size ≤ e := by
  induction ts generalizing off i with
  | nil => simp at hu
  | cons t ts ih =>
    rw [exactEnd] at he
    cases hsize : t.exactSize with
    | none => simp [hsize] at he
    | some size =>
      simp only [hsize] at he
      have hpos := exactSize_nonneg t size (fun w hw => hcounted w (List.mem_append_left _ hw)) hsize
      have hround := le_roundUp off (align_mem t)
      have hrest : ∀ w ∈ partsOf ts, 0 ≤ w.len := fun w hw => hcounted w (List.mem_append_right _ hw)
      cases i with
      | zero =>
        obtain rfl : t = u := by simpa using hu
        have hle := le_exactEnd ts _ e hrest he
        exact ⟨_, size, by simp [exactStart, hsize], hsize, hround, hpos, hle⟩
      | succ i =>
        obtain ⟨x, size', hx, hsize', hoff, hpos', hle⟩ := ih hrest he (by simpa using hu)
        exact ⟨x, size', by simpa [exactStart, hsize] using hx, hsize', by omega, hpos', hle⟩

theorem exactStart_le (hcounted : ∀ w ∈ partsOf ts, 0 ≤ w.len) (he : exactEnd off ts = some e) (hij : i < j)
    (hu : ts[i]? = some u) (hv : ts[j]? = some v) (hx : exactStart off ts i = some x)
    (hsize : u.exactSize = some size) (hy : exactStart off ts j = some y) : x + size ≤ y := by
  induction ts generalizing off i j with
  | nil => simp at hu
  | cons t ts ih =>
    rw [exactEnd] at he
    cases ht : t.exactSize with
    | none => simp [ht] at he
    | some first =>
      simp only [ht] at he
      have hrest : ∀ w ∈ partsOf ts, 0 ≤ w.len := fun w hw => hcounted w (List.mem_append_right _ hw)
      cases j with
      | zero => omega
      | succ j =>
        rw [List.getElem?_cons_succ] at hv
        simp only [exactStart, ht] at hx hy
        cases i with
        | zero =>
          obtain rfl : t = u := by simpa using hu
          obtain ⟨y', _, hy', -, hle, -⟩ := exactStart_spec hrest he hv
          cases hx
          cases ht.symm.trans hsize
          cases hy.symm.trans hy'
          exact hle
        | succ i => exact ih hrest he (by omega) (by simpa using hu) hv hx hy

theorem toNat_ofInt_of_fits (hn : 0 ≤ n) (hn' : n ≤ Word.maxSigned) :
    ((UInt64.ofInt n).toNat : Int) = n := by
  rw [toNat_ofInt]
  unfold Word.maxSigned at hn'
  omega

theorem Moderate.exists_size (ht : t.Moderate) : ∃ n, t.exactSize = some n ∧
    t.storeSize = some (UInt64.ofInt n) ∧ 0 ≤ n ∧ ((UInt64.ofInt n).toNat : Int) = n := by
  have hsized := ht.sized
  rw [storeSize_eq, Option.isSome_map] at hsized
  obtain ⟨n, hn⟩ := Option.isSome_iff_exists.mp hsized
  have hpos := exactSize_nonneg t n ht.counted hn
  refine ⟨n, hn, ?_, hpos, toNat_ofInt_of_fits hpos (ht.sizes t (mem_parts_self t) n hn)⟩
  rw [storeSize_eq, hn, Option.map_some]

theorem Moderate.of_parts (ht : t.Moderate) (hu : u.parts ⊆ t.parts)
    (hsize : u.exactSize = some size) : u.Moderate where
  sized := by rw [storeSize_eq, hsize, Option.map_some, Option.isSome_some]
  counted v hv := ht.counted v (hu hv)
  sizes v hv := ht.sizes v (hu hv)

/-- Where field `i` of a moderate struct starts. -/
theorem Moderate.field (ht : Moderate (.struct ts)) (hc : 0 ≤ c.toInt)
    (hu : ts[c.toInt.toNat]? = some u) : u.Moderate ∧ ∃ e x size, exactEnd 0 ts = some e ∧
      exactStart 0 ts c.toInt.toNat = some x ∧ skip? (.struct ts) c = some x ∧
        u.exactSize = some size ∧ 0 ≤ x ∧ 0 ≤ size ∧ x + size ≤ e := by
  have hcounted : ∀ w ∈ partsOf ts, 0 ≤ w.len := fun w hw => ht.counted w (List.mem_cons_of_mem _ hw)
  obtain ⟨total, htotal, -, -, -⟩ := ht.exists_size
  obtain ⟨e, he, rfl⟩ := Option.map_eq_some_iff.mp htotal
  obtain ⟨x, size, hx, hsize, hpos, hpos', hle⟩ := exactStart_spec hcounted he hu
  have hround := le_roundUp e (aligns_mem ts)
  have hfits := ht.sizes _ (mem_parts_self _) _ htotal
  refine ⟨ht.of_parts (parts_subset_field (List.mem_of_getElem? hu)) hsize,
    e, x, size, he, hx, ?_, hsize, hpos, hpos', hle⟩
  simp only [skip?, fieldOffset, if_neg (Int.not_lt.mpr hc), show ({} : Extent) = .cut 0 1 from rfl,
    offsetFrom_eq, hx, Option.map_some, toNat_ofInt_of_fits hpos (by omega)]

/-- Like elements follow each other without gaps. -/
theorem Moderate.element (hu : u.Moderate) (hc : 0 ≤ c.toInt) (hcn : c.toInt < n) :
    ∃ size, u.exactSize = some size ∧
      (u.storeSize.map fun size => c.toInt * (size.toNat : Int)) = some (c.toInt * size) ∧
        0 ≤ c.toInt * size ∧ 0 ≤ size ∧ c.toInt * size + size ≤ size * n := by
  obtain ⟨size, hsize, hstore, hpos, hnat⟩ := hu.exists_size
  have hle := Int.mul_le_mul_of_nonneg_right (show c.toInt + 1 ≤ n by omega) hpos
  rw [Int.add_mul, Int.one_mul, Int.mul_comm n] at hle
  exact ⟨size, hsize, by rw [hstore, Option.map_some, hnat], Int.mul_nonneg hc hpos, hpos, hle⟩

/-- What one step selects lies in the whole behind the octets that it skips. -/
theorem Moderate.step (ht : t.Moderate) (hu : t.part? c = some u) : u.Moderate ∧
    ∃ x size total, t.skip? c = some x ∧ u.exactSize = some size ∧ t.exactSize = some total ∧
      0 ≤ x ∧ 0 ≤ size ∧ x + size ≤ total := by
  obtain ⟨total, htotal, -, -, -⟩ := ht.exists_size
  cases t with
  | struct ts =>
    simp only [part?, Option.ite_none_left_eq_some, Int.not_lt] at hu
    obtain ⟨hum, e, x, size, he, -, hskip, hsize, hpos, hpos', hle⟩ := ht.field hu.1 hu.2
    have hround := le_roundUp e (aligns_mem ts)
    exact ⟨hum, x, size, _, hskip, hsize, by rw [exactSize, he, Option.map_some], hpos, hpos',
      by omega⟩
  | array n t =>
    simp only [part?, Option.ite_none_right_eq_some, Option.some.injEq] at hu
    obtain ⟨⟨hc, hcn⟩, rfl⟩ := hu
    obtain ⟨size, hsize, rfl⟩ := Option.map_eq_some_iff.mp htotal
    have hum := ht.of_parts (parts_subset_array n t) hsize
    obtain ⟨size', hsize', hskip, hpos, hpos', hle⟩ := hum.element hc hcn
    cases hsize.symm.trans hsize'
    exact ⟨hum, _, size, _, hskip, hsize, htotal, hpos, hpos', hle⟩
  | vector n t =>
    simp only [part?, Option.ite_none_right_eq_some, Option.some.injEq] at hu
    obtain ⟨⟨hc, hcn⟩, rfl⟩ := hu
    obtain ⟨size, hsize, rfl⟩ := Option.map_eq_some_iff.mp htotal
    have hum := ht.of_parts (parts_subset_vector n t) hsize
    obtain ⟨size', hsize', hskip, hpos, hpos', hle⟩ := hum.element hc hcn
    cases hsize.symm.trans hsize'
    exact ⟨hum, _, size, _, hskip, hsize, htotal, hpos, hpos', hle⟩
  | _ => cases hu

theorem Moderate.skip_le (ht : t.Moderate) (hu : t.part? c = some u) (hv : t.part? d = some v)
    (hcd : c.toInt < d.toInt) (hx : t.skip? c = some x) (hsize : u.exactSize = some size)
    (hy : t.skip? d = some y) : x + size ≤ y := by
  cases t with
  | struct ts =>
    simp only [part?, Option.ite_none_left_eq_some, Int.not_lt] at hu hv
    obtain ⟨-, e, x', _, he, hx', hskip, -⟩ := ht.field hu.1 hu.2
    obtain ⟨-, _, y', _, -, hy', hskip', -⟩ := ht.field hv.1 hv.2
    cases hx.symm.trans hskip
    cases hy.symm.trans hskip'
    have hcounted : ∀ w ∈ partsOf ts, 0 ≤ w.len :=
      fun w hw => ht.counted w (List.mem_cons_of_mem _ hw)
    exact exactStart_le hcounted he (by omega) hu.2 hv.2 hx' hsize hy'
  | array n t | vector n t =>
    have hum := (ht.step hu).1
    simp only [part?, Option.ite_none_right_eq_some, Option.some.injEq] at hu hv
    obtain ⟨⟨hc, hcn⟩, rfl⟩ := hu
    obtain ⟨size', hsize', hskip, -, -, hle⟩ := hum.element hc hcd
    obtain ⟨size'', hsize'', hskip', -⟩ := hum.element (n := n) hv.1.1 hv.1.2
    cases hsize.symm.trans hsize'
    cases hsize.symm.trans hsize''
    cases hx.symm.trans hskip
    cases hy.symm.trans hskip'
    rw [Int.mul_comm d.toInt]
    exact hle
  | _ => cases hu

theorem Moderate.along (ht : t.Moderate) (hu : t.component? path = some u) : u.Moderate ∧
    ∃ x size total, t.pathOffset? path = some x ∧ u.exactSize = some size ∧
      t.exactSize = some total ∧ 0 ≤ x ∧ x + size ≤ total := by
  induction path generalizing t with
  | nil =>
    cases hu
    obtain ⟨size, hsize, -, -, -⟩ := ht.exists_size
    exact ⟨ht, 0, size, size, rfl, hsize, hsize, by omega, by omega⟩
  | cons c path ih =>
    obtain ⟨w, hw, hu⟩ := Option.bind_eq_some_iff.mp hu
    obtain ⟨hwm, x, size, total, hx, hsize, htotal, hpos, -, hle⟩ := ht.step hw
    obtain ⟨hum, y, size', total', hy, hsize', htotal', hpos', hle'⟩ := ih hwm hu
    cases hsize.symm.trans htotal'
    exact ⟨hum, x + y, size', total, by simp [pathOffset?, hx, hw, hy], hsize', htotal, by omega,
      by omega⟩

/-- Paths that part ways select stretches of which one ends before the other starts. -/
theorem Moderate.paths_apart (ht : t.Moderate) {z : Int} (hu : t.component? p = some u)
    (hv : t.component? q = some v) (hpq : ¬ p <+: q) (hqp : ¬ q <+: p)
    (hx : t.pathOffset? p = some x) (hsize : u.exactSize = some size)
    (hy : t.pathOffset? q = some y) (hz : v.exactSize = some z) : x + size ≤ y ∨ y + z ≤ x := by
  induction p generalizing t q x y with
  | nil => exact absurd List.nil_prefix hpq
  | cons c p ih =>
    cases q with
    | nil => exact absurd List.nil_prefix hqp
    | cons d q =>
      obtain ⟨a, ha, hu⟩ := Option.bind_eq_some_iff.mp hu
      obtain ⟨b, hb, hv⟩ := Option.bind_eq_some_iff.mp hv
      obtain ⟨ham, k, sa, _, hk, hsa, -⟩ := ht.step ha
      obtain ⟨hbm, l, sb, _, hl, hsb, -⟩ := ht.step hb
      obtain ⟨-, m, _, _, hm, hsu, hta, hmpos, hmle⟩ := ham.along hu
      obtain ⟨-, n, _, _, hn, hsv, htb, hnpos, hnle⟩ := hbm.along hv
      cases hsize.symm.trans hsu
      cases hz.symm.trans hsv
      cases hsa.symm.trans hta
      cases hsb.symm.trans htb
      have hx : k + m = x := by simpa [pathOffset?, hk, ha, hm] using hx
      have hy : l + n = y := by simpa [pathOffset?, hl, hb, hn] using hy
      -- The paths part here, or they go on into the same component.
      by_cases hcd : c = d
      · subst hcd
        cases ha.symm.trans hb
        cases hk.symm.trans hl
        have hrest := ih ham hu hv (fun h => hpq (List.prefix_cons_inj c |>.mpr h))
          (fun h => hqp (List.prefix_cons_inj c |>.mpr h)) hm hn
        omega
      · rw [← Int64.toInt_inj] at hcd
        by_cases hlt : c.toInt < d.toInt
        · have hle := ht.skip_le ha hb hlt hk hsa hl
          omega
        · have hle := ht.skip_le hb ha (by omega) hl hsb hk
          omega

end Ty

namespace Memory

open Ty

variable {t u : Ty} {path : List Int64} {i : Instr}

/-- An address computation that starts at a value of type `t` and follows a path of constant indices
into it. -/
structure Follows (i : Instr) (t : Ty) (path : List Int64) : Prop where
  elem : i.elem = some t
  indices : (i.operands.drop 1).map Value.intConst? = (0 :: path).map some

theorem exactInner_eq {indices : List Value} (ht : t.Moderate)
    (hindices : indices.map Value.intConst? = path.map some) (hu : t.component? path = some u) :
    exactInner indices t = t.pathOffset? path := by
  induction path generalizing t indices with
  | nil =>
    rw [List.map_nil, List.map_eq_nil_iff] at hindices
    rw [hindices]
    rfl
  | cons c path ih =>
    obtain ⟨w, hw, hu⟩ := Option.bind_eq_some_iff.mp hu
    obtain ⟨hwm, x, size, -, hx, hsize, -⟩ := ht.step hw
    cases indices with
    | nil => cases hindices
    | cons v rest =>
      obtain ⟨hc, hrest⟩ := List.cons.inj hindices
      have hinner := ih hwm hrest hu
      rw [exactInner, pathOffset?, hc]
      simp only [hx, hw, Option.bind_eq_bind, Option.bind_some, ← hinner]
      cases t with
      | struct ts =>
        simp only [part?, Option.ite_none_left_eq_some, Int.not_lt] at hw
        obtain ⟨-, _, x', _, -, hx', hskip, -⟩ := ht.field hw.1 hw.2
        cases hx.symm.trans hskip
        simp only [if_neg (Int.not_lt.mpr hw.1), hx', hw.2, Option.bind_some]
      | array n t | vector n t =>
        simp only [part?, Option.ite_none_right_eq_some, Option.some.injEq] at hw
        obtain ⟨⟨hc, hcn⟩, rfl⟩ := hw
        obtain ⟨size', hsize', hskip, -⟩ := hwm.element hc hcn
        cases hx.symm.trans hskip
        simp [hsize']
      | _ => cases hw

/-- The words of an address computation are those of the octets that its path skips. -/
theorem Follows.gepOffset_eq (hi : Follows i t path) (ht : t.Moderate)
    (hu : t.component? path = some u) : ∃ off size total, gepOffset i = some off ∧
      u.storeSize = some size ∧ t.storeSize = some total ∧ t.pathOffset? path = some off.toInt ∧
        u.exactSize = some (size.toNat : Int) ∧ 0 ≤ off.toInt ∧ off.toInt + size.toNat ≤ total.toNat := by
  obtain ⟨hum, x, size, total, hx, hsize, htotal, hpos, hle⟩ := ht.along hu
  obtain ⟨_, hsize', hstore, hspos, hsnat⟩ := hum.exists_size
  obtain ⟨_, htotal', htstore, -, htnat⟩ := ht.exists_size
  cases hsize.symm.trans hsize'
  cases htotal.symm.trans htotal'
  have hfits : Word.Fits x := by
    have := ht.sizes _ (mem_parts_self _) _ htotal
    unfold Word.Fits Word.minSigned
    omega
  have hgep : exactGep i = some x := by
    have hindices := hi.indices
    unfold exactGep
    cases hops : i.operands.drop 1 with
    | nil => simp [hops] at hindices
    | cons first rest =>
      rw [hops] at hindices
      obtain ⟨hfirst, hrest⟩ := List.cons.inj hindices
      simp [hi.elem, htotal, hfirst, exactInner_eq ht hrest hu, hx]
  refine ⟨Int64.ofInt x, _, _, ?_, hstore, htstore, ?_, ?_, ?_⟩
  · rw [RegPressure.Memory.gepOffset_eq, hgep, Option.map_some]
  · rw [toInt_ofInt_of_fits hfits]
    exact hx
  · rw [hsnat]
    exact hsize
  · rw [toInt_ofInt_of_fits hfits, hsnat, htnat]
    exact ⟨hpos, hle⟩

/-- The component that a path of constant indices selects in a moderate type lies inside the type, as
many octets behind its start as the steps of the path skip in all. Two paths of which neither goes on
where the other ends select components without a common octet. -/
theorem components_within_and_apart (ht : t.Moderate) : ∃ total, t.storeSize = some total ∧
    (∀ i path u, Follows i t path → t.component? path = some u → ∃ off size, gepOffset i = some off ∧
      u.storeSize = some size ∧ t.pathOffset? path = some off.toInt ∧
        0 ≤ off.toInt ∧ off.toInt + size.toNat ≤ total.toNat) ∧
    ∀ i j p q u v, Follows i t p → Follows j t q → t.component? p = some u →
      t.component? q = some v → ¬ p <+: q → ¬ q <+: p → ∃ off size off' size',
        gepOffset i = some off ∧ u.storeSize = some size ∧ gepOffset j = some off' ∧
          v.storeSize = some size' ∧ Apart off.toInt size off'.toInt size' := by
  obtain ⟨_, -, htotal, -, -⟩ := ht.exists_size
  refine ⟨_, htotal, fun i path u hi hu => ?_, fun i j p q u v hi hj hu hv hpq hqp => ?_⟩
  · obtain ⟨off, size, _, hoff, hsize, htotal', hpath, -, hpos, hle⟩ := hi.gepOffset_eq ht hu
    cases htotal.symm.trans htotal'
    exact ⟨off, size, hoff, hsize, hpath, hpos, hle⟩
  · obtain ⟨off, size, _, hoff, hsize, -, hpath, hexact, -⟩ := hi.gepOffset_eq ht hu
    obtain ⟨off', size', _, hoff', hsize', -, hpath', hexact', -⟩ := hj.gepOffset_eq ht hv
    have hends := ht.paths_apart hu hv hpq hqp hpath hexact hpath' hexact'
    refine ⟨off, size, off', size', hoff, hsize, hoff', hsize', fun n hn => ?_⟩
    omega

def flagged : Ty := .struct [.i8, .array 4 (.struct [.int 24, .i64])]

def pairField (pair field : Int64) : Instr :=
  { op := .gep, ty := .ptr, elem := some flagged, operands := [.arg 0, .int (some .i64) 0,
      .int (some .i32) 1, .int (some .i64) pair, .int (some .i32) field] }

/-- The word of the second pair lies between 32 and 40 octets behind the start, in front of the number
in the third pair. -/
theorem flagged_within_and_apart : flagged.Moderate ∧
    Follows (pairField 1 1) flagged [1, 1, 1] ∧ flagged.component? [1, 1, 1] = some .i64 ∧
    Follows (pairField 2 0) flagged [1, 2, 0] ∧ flagged.component? [1, 2, 0] = some (.int 24) ∧
    flagged.storeSize = some 72 ∧ gepOffset (pairField 1 1) = some 32 ∧
    flagged.pathOffset? [1, 1, 1] = some 32 ∧ gepOffset (pairField 2 0) = some 40 ∧
    Apart 32 8 40 3 := by
  have hmoderate : flagged.Moderate := ⟨by decide +kernel, by decide +kernel, by decide +kernel⟩
  have hword : Follows (pairField 1 1) flagged [1, 1, 1] := ⟨rfl, rfl⟩
  have hnumber : Follows (pairField 2 0) flagged [1, 2, 0] := ⟨rfl, rfl⟩
  have hoffsets : flagged.storeSize = some 72 ∧ gepOffset (pairField 1 1) = some 32 ∧
      gepOffset (pairField 2 0) = some 40 := by decide +kernel
  have hparts : flagged.component? [1, 1, 1] = some .i64 ∧
      flagged.component? [1, 2, 0] = some (.int 24) := by decide +kernel
  obtain ⟨total, htotal, hwithin, hapart⟩ := components_within_and_apart hmoderate
  obtain ⟨off, size, hoff, -, hpath, -⟩ := hwithin _ _ _ hword hparts.1
  obtain ⟨x, s, y, t, hx, hs, hy, ht, hdisjoint⟩ := hapart _ _ _ _ _ _ hword hnumber hparts.1
    hparts.2 (by decide) (by decide)
  cases hoffsets.2.1.symm.trans hoff
  cases hoffsets.2.1.symm.trans hx
  cases hoffsets.2.2.symm.trans hy
  cases hs
  cases ht
  exact ⟨hmoderate, hword, hparts.1, hnumber, hparts.2, hoffsets.1, hoffsets.2.1, hpath,
    hoffsets.2.2, hdisjoint⟩

end Memory

end RegPressure
