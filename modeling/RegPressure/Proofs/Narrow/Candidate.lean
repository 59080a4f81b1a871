import RegPressure.Proofs.Narrow.Convert

namespace RegPressure.Narrow

open ValueRange

variable {scope : Option Symbols} {f : Func} {d : DomInfo} {k : Context} {W : World} {w n : Nat} {id : Int}
  {i : Instr}

theorem ensures_allM {α : Type} {fine : Prop} {p : α → RangeM Bool} {P : α → Prop} {l : List α}
    (h : ∀ a ∈ l, Ensures f fine (p a) fun r => r = true → P a) :
    Ensures f fine (l.allM p) fun r => r = true → ∀ a ∈ l, P a := by
  induction l with
  | nil => exact .pure fun _ => nofun
  | cons a l ih =>
    refine .bind (h a (List.mem_cons_self ..)) fun r hr => ?_
    cases r with
    | false => exact .pure nofun
    | true =>
      refine (ih fun c hc => h c (List.mem_cons_of_mem _ hc)).mono fun q hq hqt c hc => ?_
      rcases List.mem_cons.mp hc with rfl | hc
      · exact hr rfl
      · exact hq hqt c hc

def Fitting (f : Func) (d : DomInfo) (w : Nat) (v : Value) (site : Int) : Prop :=
  ∃ r, Answers f d v (some site) r ∧ r.fitsIn w = true

def Nonneg (f : Func) (d : DomInfo) (v : Value) (site : Int) : Prop :=
  ∃ r, Answers f d v (some site) r ∧ r.isNonneg = true

section

variable (h : f.Proper scope d) (hk : Context.of f (some d) = .ok k)

include h hk

theorem operandsFit_ensures (unsigned : Bool) :
    Ensures f False (operandsFit k w id i unsigned) fun r => r = true →
      ∀ v ∈ i.operands, Fitting f d w v id ∧ (unsigned = true → Nonneg f d v id) := by
  refine ensures_allM fun v _ => ?_
  refine .bind ((rangeAt_ensures h hk v (some id)).weaken False.elim) fun r hr => .pure fun hfits => ?_
  simp only [Bool.and_eq_true, Bool.or_eq_true, Bool.not_eq_true'] at hfits
  exact ⟨⟨r, hr, hfits.1⟩, fun hu => ⟨r, hr, hfits.2.resolve_left (by simp [hu])⟩⟩

inductive LocalCase (f : Func) (d : DomInfo) (w : Nat) (id : Int) (i : Instr) : Prop
  | move : i.op = .select ∨ i.op = .phi → LocalCase f d w id i
  | wraps : i.op = .add ∨ i.op = .sub ∨ i.op = .mul ∨ i.op = .and ∨ i.op = .or ∨ i.op = .xor →
      LocalCase f d w id i
  | shl {t : Option Ty} {c : Int64} : i.op = .shl → i.operands[1]? = some (.int t c) → 0 ≤ c.toInt →
      c.toInt < w → LocalCase f d w id i
  | signed : i.op = .sdiv ∨ i.op = .srem ∨ i.op = .ashr → (∀ v ∈ i.operands, Fitting f d w v id) →
      LocalCase f d w id i
  | unsigned : i.op = .udiv ∨ i.op = .urem ∨ i.op = .lshr →
      (∀ v ∈ i.operands, Fitting f d w v id ∧ Nonneg f d v id) → LocalCase f d w id i

theorem isLocal_ensures : Ensures f False (isLocal k w id i) fun r => r = true → LocalCase f d w id i := by
  unfold isLocal
  split
  · next hop => exact .pure fun _ => .move (.inl hop)
  · next hop => exact .pure fun _ => .move (.inr hop)
  · next hop => exact .pure fun _ => .wraps (by simp [hop])
  · next hop => exact .pure fun _ => .wraps (by simp [hop])
  · next hop => exact .pure fun _ => .wraps (by simp [hop])
  · next hop => exact .pure fun _ => .wraps (by simp [hop])
  · next hop => exact .pure fun _ => .wraps (by simp [hop])
  · next hop => exact .pure fun _ => .wraps (by simp [hop])
  · next hop =>
    refine .bind (P := fun v => i.operands[1]? = some v)
      (.lift False.elim fun v hv => (element_eq_ok (n := 1)).mp hv) fun v hv => ?_
    split
    · next c hc =>
      refine .pure fun hlt => ?_
      simp only [Bool.and_eq_true, decide_eq_true_eq] at hlt
      cases v with
      | int t m =>
        cases hc
        exact .shl hop hv hlt.1 hlt.2
      | _ => cases hc
    · exact .pure nofun
  · next hop =>
    exact (operandsFit_ensures h hk false).mono fun r hr ht => .signed (by simp [hop]) fun v hv => (hr ht v hv).1
  · next hop =>
    exact (operandsFit_ensures h hk false).mono fun r hr ht => .signed (by simp [hop]) fun v hv => (hr ht v hv).1
  · next hop =>
    exact (operandsFit_ensures h hk false).mono fun r hr ht => .signed (by simp [hop]) fun v hv => (hr ht v hv).1
  · next hop =>
    exact (operandsFit_ensures h hk true).mono fun r hr ht => .unsigned (by simp [hop]) fun v hv =>
      ⟨(hr ht v hv).1, (hr ht v hv).2 rfl⟩
  · next hop =>
    exact (operandsFit_ensures h hk true).mono fun r hr ht => .unsigned (by simp [hop]) fun v hv =>
      ⟨(hr ht v hv).1, (hr ht v hv).2 rfl⟩
  · next hop =>
    exact (operandsFit_ensures h hk true).mono fun r hr ht => .unsigned (by simp [hop]) fun v hv =>
      ⟨(hr ht v hv).1, (hr ht v hv).2 rfl⟩
  · exact .pure nofun

end

def Shrinks (f : Func) (d : DomInfo) (w : Nat) (v : Value) (site : Int) : Prop :=
  ∃ q i, v = .instr q ∧ f.instr? q = some i ∧
    (i.op = .icmp ∨ ∃ n, i.ty = .int n ∧ w < n ∧ Fitting f d w v site)

inductive CanCase (f : Func) (d : DomInfo) (w : Nat) (v : Value) (site : Int) : Prop
  | icmp {q : Int} {i : Instr} : v = .instr q → f.instr? q = some i → i.op = .icmp →
      (∀ u ∈ i.operands, Shrinks f d w u q) → CanCase f d w v site
  | other {q : Int} {i : Instr} {n : Nat} : v = .instr q → f.instr? q = some i → i.ty = .int n → w < n →
      Fitting f d w v site → LocalCase f d w q i → CanCase f d w v site

theorem CanCase.shrinks {v : Value} {site : Int} (h : CanCase f d w v site) : Shrinks f d w v site := by
  cases h with
  | icmp hv hi hop => exact ⟨_, _, hv, hi, .inl hop⟩
  | other hv hi hty hlt hfits => exact ⟨_, _, hv, hi, .inr ⟨_, hty, hlt, hfits⟩⟩

theorem canNarrow_ensures (h : f.Proper scope d) (hk : Context.of f (some d) = .ok k) (depth : Nat)
    (v : Value) (site : Int) :
    Ensures f False (canNarrow k w depth v site) fun r => r = true → CanCase f d w v site := by
  obtain ⟨hfunc, _, _⟩ := Context.of_eq hk
  induction depth generalizing v site with
  | zero => exact fun _ _ => False.elim
  | succ depth ih =>
    cases v with
    | instr q =>
      rw [canNarrow, hfunc]
      refine .bind (P := fun i => f.instr? q = some i)
        (.lift False.elim fun i hi => Func.instr_eq_ok.mp hi) fun i hi => ?_
      split
      · next hop =>
        refine (ensures_allM fun u _ => ih u q).mono fun r hr ht => ?_
        exact .icmp rfl hi hop fun u hu => (hr ht u hu).shrinks
      split
      · exact .pure nofun
      next hwide =>
      simp only [Bool.or_eq_true, Bool.not_eq_true', decide_eq_true_eq, not_or, Bool.not_eq_false,
        not_le] at hwide
      obtain ⟨n, hty⟩ : ∃ n, i.ty = .int n := by
        cases hty : i.ty <;> simp_all [Ty.isInt]
      refine .bind ((rangeAt_ensures h hk (.instr q) (some site)).weaken False.elim) fun r hr => ?_
      split
      · next hfits =>
        refine (isLocal_ensures h hk).mono fun a ha ht => .other rfl hi hty ?_ ⟨r, hr, hfits⟩ (ha ht)
        have hlt := hwide.2
        rw [hty] at hlt
        exact Int.ofNat_lt.mp hlt
      · exact .pure nofun
    | _ => exact .pure nofun

section Visits

variable {v : Value} {site : Int} {s : State} {rest : List Int} {x : Int} (hv : f.HasTy v (.int n))
  (hW : W.Fits f) (hs : Reached W f s) (hrest : s.rest = site :: rest) (havail : f.Available d v site)
  (hx : Reads W s.env v x)

include hv hW hs hrest havail hx

theorem Fitting.holds (hfit : Fitting f d w v site) (hw : 1 ≤ w) : (Ty.int w).Holds x := by
  obtain ⟨r, hr, hfits⟩ := hfit
  exact Interval.holds_of_fitsIn hw hfits
    (((hr n hv).2 site rfl).available W hW s rest hs hrest havail x hx)

theorem Nonneg.nonneg (hpos : Nonneg f d v site) : 0 ≤ x := by
  obtain ⟨r, hr, hlo⟩ := hpos
  have hhas := ((hr n hv).2 site rfl).available W hW s rest hs hrest havail x hx
  simp only [Interval.isNonneg, decide_eq_true_eq] at hlo
  exact hlo.trans hhas.1

end Visits

theorem Fitting.holds_own (hfit : Fitting f d w (.instr id) id) (hw : 1 ≤ w)
    (hid : f.HasTy (.instr id) (.int n)) (hW : W.Fits f) {vals : List Int} {z : Int}
    (hm : Meets W f id vals (some z)) : (Ty.int w).Holds z := by
  obtain ⟨r, hr, hfits⟩ := hfit
  obtain ⟨s, rest, j, hs, hrest, hj, _, hz⟩ := hm
  obtain ⟨e, hresult⟩ := hz z rfl
  have hhas := ((hr n hid).2 id rfl).own rfl W hW s e _ rest hs hrest hid.1.2 (.on hrest hj hresult)
  rw [State.env_after] at hhas
  exact Interval.holds_of_fitsIn hw hfits hhas

section Main

variable {widths : List Int} {b : Int} (h : Narrowable scope d widths f) (hw : 1 ≤ w)
  (hmem : (w : Int) ∈ widths) (hb : f.Stands b id) (hi : f.instr? id = some i)

include h hw hmem hb hi

omit hw hmem in
theorem operands_of_meets (hop : i.op.isArith = true) (hty : i.ty = .int n) {x y : Int} {r : Option Int}
    (hm : Meets W f id [x, y] r) : ∃ s rest u v, Reached W f s ∧ s.rest = id :: rest ∧
      i.operands = [u, v] ∧ (f.HasTy u (.int n) ∧ f.Available d u id ∧ Reads W s.env u x) ∧
        f.HasTy v (.int n) ∧ f.Available d v id ∧ Reads W s.env v y := by
  have hphi := Op.ne_phi_of_isPure (Op.isPure_of_isArith hop)
  obtain ⟨u, v, huv, hu, hv⟩ := (Func.typed_arith hop).mp (h.proper.typed.instr b id i hb hi).2
  rw [hty] at hu hv
  obtain ⟨s, rest, j, hs, hrest, hj, hvals, _⟩ := hm
  rw [hi] at hj
  cases hj
  have hvals := hvals hphi
  rw [huv] at hvals
  simp only [List.forall₂_cons, List.forall₂_nil_right_iff, and_true] at hvals
  have havail : ∀ {a : Value}, a ∈ i.operands → f.Available d a id := fun ha =>
    available_at h.proper hs hrest hi hphi ha
  exact ⟨s, rest, u, v, hs, hrest, huv, ⟨hu, havail (by simp [huv]), hvals.1⟩, hv,
    havail (by simp [huv]), hvals.2⟩

omit hmem in
theorem LocalCase.shiftsSmall (hlocal : LocalCase f d w id i) (hop : i.op = .ashr ∨ i.op = .lshr)
    (hty : i.ty = .int n) : ShiftsSmall f id i.op w := by
  intro W hW hD x y z hm
  have harith := Op.isArith_of_rightShift hop
  obtain ⟨s, rest, u, v, hs, hrest, huv, ⟨hu, hua, hx⟩, hv, hva, hy⟩ :=
    operands_of_meets h hb hi harith hty hm
  cases hlocal with
  | move hmove => rcases hmove with he | he <;> (rw [he] at harith; cases harith)
  | wraps hwraps => rcases hwraps with he | he | he | he | he | he <;> simp [he] at hop
  | shl he => simp [he] at hop
  | signed hsigned hfit =>
    refine ⟨(hfit u (by simp [huv])).holds hu hW hs hrest hua hx hw,
      (hfit v (by simp [huv])).holds hv hW hs hrest hva hy hw, fun he => ?_⟩
    rcases hsigned with he' | he' | he' <;> (rw [he] at he'; cases he')
  | unsigned _ hfit =>
    exact ⟨(hfit u (by simp [huv])).1.holds hu hW hs hrest hua hx hw,
      (hfit v (by simp [huv])).1.holds hv hW hs hrest hva hy hw,
      fun _ => (hfit u (by simp [huv])).2.nonneg hu hW hs hrest hua hx⟩

omit hw in
theorem amount_lt (hop : i.op = .ashr ∨ i.op = .lshr) (hty : i.ty = .int n)
    (hsmall : ShiftsSmall f id i.op w) (hW : W.Fits f) (hD : W.Definite) {x y : Int} {r : Option Int}
    (hy : (Ty.int n).Holds y) (hm : Meets W f id [x, y] r) : 0 ≤ y → y < n → y < w := by
  intro h0 hlt
  obtain ⟨s, rest, j, hs, hrest, hj, hvals, _⟩ := hm
  rw [hi] at hj
  cases hj
  have harith := Op.isArith_of_rightShift hop
  have hvalid := (h.proper.typed.instr b id i hb hi).1
  rw [hty] at hvalid
  have hnat := toNat_ofInt_of_nonneg hvalid.1 hy h0 (Nat.le_refl n)
  obtain ⟨z, hz⟩ : ∃ z, i.op.arith (BitVec.ofInt n x) (BitVec.ofInt n y) = some z := by
    rcases hop with hop | hop <;> rw [hop] <;> exact ⟨_, if_pos (by omega)⟩
  have hvals := hvals (Op.ne_phi_of_isPure (Op.isPure_of_isArith harith))
  refine h.shifts b id i hb hi hop w hmem hsmall W hW hD x y z.toInt
    ⟨s, rest, i, hs, hrest, hi, fun _ => hvals, ?_⟩
  rintro _ ⟨⟩
  exact ⟨none, .compute (Op.isPure_of_isArith harith) hvals (.arith harith hty hz)⟩

/-- The operands of an operation on two integers may be narrowed. -/
theorem LocalCase.localizes (hlocal : LocalCase f d w id i) (hop : i.op.isArith = true)
    (hty : i.ty = .int n) (hlt : w < n) (hW : W.Fits f) (hD : W.Definite) {x y : Int} {r : Option Int}
    (hm : Meets W f id [x, y] r) : Localizes i.op w n x y := by
  obtain ⟨s, rest, u, v, hs, hrest, huv, ⟨hu, hua, hx⟩, hv, hva, hy⟩ :=
    operands_of_meets h hb hi hop hty hm
  have hamount : i.op = .ashr ∨ i.op = .lshr → 0 ≤ y → y < n → y < w := fun hop =>
    amount_lt h hmem hb hi hop hty (hlocal.shiftsSmall h hw hb hi hop hty) hW hD
      (available_holds h.proper hW hs hrest hv hva hy) hm
  cases hlocal with
  | move hmove => rcases hmove with he | he <;> (rw [he] at hop; cases hop)
  | wraps hwraps => rcases hwraps with he | he | he | he | he | he <;> (rw [he]; trivial)
  | @shl t c he hc h0 hltc =>
    rw [huv] at hc
    cases hc
    cases hy
    rw [he]
    obtain ⟨rfl, _, _⟩ := hv
    have hval : constValue (some (.int n)) c = c.toInt :=
      if_neg (by simp only [Ty.i1, Option.some.injEq, Ty.int.injEq]; omega)
    rw [hval]
    exact ⟨h0, hltc⟩
  | signed hsigned hfit =>
    have hxw := (hfit u (by simp [huv])).holds hu hW hs hrest hua hx hw
    have hyw := (hfit v (by simp [huv])).holds hv hW hs hrest hva hy hw
    rcases hsigned with he | he | he
    · rw [he]
      exact ⟨hxw, hyw⟩
    · rw [he]
      exact ⟨hxw, hyw⟩
    · have := hamount (.inl he)
      rw [he]
      exact ⟨hxw, hyw, this⟩
  | unsigned hunsigned hfit =>
    have hxw := (hfit u (by simp [huv])).1.holds hu hW hs hrest hua hx hw
    have hyw := (hfit v (by simp [huv])).1.holds hv hW hs hrest hva hy hw
    have hx0 := (hfit u (by simp [huv])).2.nonneg hu hW hs hrest hua hx
    have hy0 := (hfit v (by simp [huv])).2.nonneg hv hW hs hrest hva hy
    rcases hunsigned with he | he | he
    · rw [he]
      exact ⟨hxw, hyw, hx0, hy0⟩
    · rw [he]
      exact ⟨hxw, hyw, hx0, hy0⟩
    · have := hamount (.inr he)
      rw [he]
      exact ⟨hxw, hyw, hx0, hy0, this⟩

omit hw hmem hb hi in
theorem Shrinks.width {v : Value} {t : Ty} (hs : Shrinks f d w v id) (hv : f.HasTy v t) :
    ∃ n, t = .int n ∧ (w < n ∧ Fitting f d w v id ∨ n = 1 ∧ ∃ q, v = .instr q ∧ (f.opOf q).isCast = false) := by
  obtain ⟨q, j, rfl, hj, hcase⟩ := hs
  obtain ⟨⟨⟨y, hy⟩, _⟩, j', hj', rfl⟩ := hv
  rw [hj] at hj'
  cases hj'
  rcases hcase with hop | ⟨n, hty, hlt, hfit⟩
  · have htyped := (Func.typed_icmp hop).mp (h.proper.typed.instr y q j hy hj).2
    exact ⟨1, htyped.1, .inr ⟨rfl, q, rfl, by rw [Func.opOf_eq hj, hop]; rfl⟩⟩
  · exact ⟨n, hty, .inl ⟨hlt, hfit⟩⟩

omit h hw hmem hb hi in
theorem LocalCase.op (hlocal : LocalCase f d w id i) :
    (i.op = .select ∨ i.op = .phi) ∨ i.op.isArith = true := by
  cases hlocal with
  | move hmove => exact .inl hmove
  | wraps he => rcases he with he | he | he | he | he | he <;> (rw [he]; exact .inr rfl)
  | shl he => rw [he]; exact .inr rfl
  | signed he => rcases he with he | he | he <;> (rw [he]; exact .inr rfl)
  | unsigned he => rcases he with he | he | he <;> (rw [he]; exact .inr rfl)

omit hmem in
/-- A comparison may be narrowed if its operands fit. -/
theorem narrows_icmp (hop : i.op = .icmp) (hall : ∀ u ∈ i.operands, Shrinks f d w u id) :
    Narrows f id i w := by
  obtain ⟨_, _, a, c, t, hops, ha, hc⟩ :=
    (Func.typed_icmp hop).mp (h.proper.typed.instr b id i hb hi).2
  have hty : ∀ v ∈ i.operands, f.HasTy v t := by
    intro v hv
    rw [hops] at hv
    simp only [List.mem_cons, List.not_mem_nil, or_false] at hv
    rcases hv with rfl | rfl
    · exact ha
    · exact hc
  obtain ⟨n, rfl, _⟩ := (hall a (by simp [hops])).width h ha
  have hcases : ∀ v ∈ i.operands, w < n ∧ Fitting f d w v id ∨
      n = 1 ∧ ∃ q, v = .instr q ∧ (f.opOf q).isCast = false := by
    intro v hv
    obtain ⟨m, he, hcase⟩ := (hall v hv).width h (hty v hv)
    cases he
    exact hcase
  refine .icmp hop hops ha hc (fun v hv => (hcases v hv).imp And.left And.right) ?_
  intro W hW hD x y r hm
  obtain ⟨s, rest, j, hs, hrest, hj, hvals, _⟩ := hm
  rw [hi] at hj
  cases hj
  have hphi : i.op ≠ .phi := by rw [hop]; decide
  have hholds : ∀ v ∈ i.operands, ∀ x, Reads W s.env v x → (Ty.int w).Holds x := by
    intro v hv x hx
    have havail := available_at h.proper hs hrest hi hphi hv
    rcases hcases v hv with ⟨_, hfit⟩ | ⟨rfl, _⟩
    · exact hfit.holds (hty v hv) hW hs hrest havail hx hw
    · exact Interval.holds_mono hw (available_holds h.proper hW hs hrest (hty v hv) havail hx)
  have hvals := hvals hphi
  have hmems : a ∈ i.operands ∧ c ∈ i.operands := by simp [hops]
  rw [hops] at hvals
  simp only [List.forall₂_cons, List.forall₂_nil_right_iff, and_true] at hvals
  exact ⟨hholds a hmems.1 x hvals.1, hholds c hmems.2 y hvals.2⟩

theorem CanCase.narrows (hcan : CanCase f d w (.instr id) id) : Narrows f id i w := by
  cases hcan with
  | icmp hv hq hop hall =>
    cases hv
    rw [hi] at hq
    cases hq
    exact narrows_icmp h hw hb hi hop hall
  | @other q j n hv hq hty hlt hfit hlocal =>
    cases hv
    rw [hi] at hq
    cases hq
    have hterm : (f.opOf id).isTerminator = false := by
      rw [Func.opOf_eq hi]
      rcases hlocal.op with (hop | hop) | hop
      · rw [hop]; rfl
      · rw [hop]; rfl
      · exact Op.not_isTerminator_of_isPure (Op.isPure_of_isArith hop)
    have hid : f.HasTy (.instr id) (.int n) := ⟨⟨⟨b, hb⟩, hterm⟩, i, hi, hty⟩
    rcases hlocal.op with hmove | harith
    · exact .move hmove hty hlt fun W hW hD vals z hm => hfit.holds_own hw hid hW hm
    · refine .arith harith hty hlt fun W hW hD x y r hm => ⟨?_, ?_⟩
      · exact hlocal.localizes h hw hmem hb hi harith hty hlt hW hD hm
      · rintro z rfl
        exact hfit.holds_own hw hid hW hm

end Main

/-- The candidate stands in a block, and it may be done at its width. -/
theorem candidate?_ensures {widths : List Int} (h : Narrowable scope d widths f)
    (hk : Context.of f (some d) = .ok k) (hw : ∀ w ∈ widths, 0 < w) :
    Ensures f False (candidate? k widths) fun r => ∀ id w, r = some (id, w) → w ∈ widths ∧
      ∃ b, f.Stands b id ∧ ∀ i, f.instr? id = some i → Narrows f id i w.toNat := by
  obtain ⟨hfunc, _, _⟩ := Context.of_eq hk
  have hgo : ∀ places : List (Int × Int), (∀ p ∈ places, p.2 ∈ widths ∧ ∃ b, f.Stands b p.1) →
      Ensures f False (candidate?.go k places) fun r => ∀ id w, r = some (id, w) → w ∈ widths ∧
        ∃ b, f.Stands b id ∧ ∀ i, f.instr? id = some i → Narrows f id i w.toNat := by
    intro places hplaces
    induction places with
    | nil => exact .pure nofun
    | cons p places ih =>
      obtain ⟨id, w⟩ := p
      obtain ⟨hmem, b, hb⟩ := hplaces (id, w) (List.mem_cons_self ..)
      obtain ⟨m, rfl⟩ := Int.eq_ofNat_of_zero_le (hw w hmem).le
      have hm : 1 ≤ m := by have := hw m hmem; omega
      rw [candidate?.go, hfunc]
      refine .bind (P := fun _ => True) (.lift False.elim fun _ _ => trivial) fun _ _ => ?_
      refine .bind (canNarrow_ensures h.proper hk _ (.instr id) id) fun r hr => ?_
      split
      · next ht =>
        refine .pure ?_
        rintro _ _ ⟨⟩
        exact ⟨hmem, b, hb, fun i hi => (hr ht).narrows h hm hmem hb hi⟩
      · exact ih fun p hp => hplaces p (List.mem_cons_of_mem _ hp)
  rw [candidate?]
  refine hgo _ fun p hp => ?_
  obtain ⟨blk, hblk, hp⟩ := List.mem_flatMap.mp hp
  obtain ⟨id, hid, hp⟩ := List.mem_flatMap.mp hp
  obtain ⟨w, hmem, rfl⟩ := List.mem_map.mp hp
  rw [hfunc] at hblk
  obtain ⟨n, hn, he⟩ := List.getElem_of_mem hblk
  refine ⟨hmem, n, blk, ?_, hid⟩
  rw [Func.block?_ofNat]
  rw [← he]
  simp

end RegPressure.Narrow
