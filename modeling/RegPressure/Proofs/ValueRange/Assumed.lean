import RegPressure.Proofs.Run.Step
import RegPressure.Proofs.ValueRange.Facts

namespace RegPressure

variable {scope : Option Symbols} {f : Func} {d : DomInfo} {W : World}

theorem reads_unique {env : Env} {v : Value} (hv : v.isConst = false) {x y : Int}
    (hx : Reads W env v x) (hy : Reads W env v y) : x = y := by
  cases v with
  | instr _ | arg _ | global _ => exact hx.trans hy.symm
  | int _ _ | undef _ | float _ _ | null | str _ => cases hv

theorem Func.HasDominance.reachable_of_precedes (h : f.HasDominance scope d) {a b : Int} {x y : Nat}
    (ha : f.Stands x a) (hb : f.Stands y b) (hy : d.dom.isReachable y = true)
    (hp : f.Precedes d a b) : d.dom.isReachable x = true := by
  obtain ⟨blk, hblk, hmem⟩ := hb
  rcases (h.wf.precedes_iff ha hblk hmem).mp hp with ⟨_, hd⟩ | ⟨rfl, _⟩
  · exact h.isReachable_iff.mpr (h.dominates_iff.mp hd).reaches_left
  · exact hy

namespace ValueRange

def CompareHolds (W : World) (f : Func) (p : Int) (env : Env) : Prop :=
  ∀ i m u v, f.instr? p = some i → i.op = .icmp → i.operands = [u, v] → f.widthOf i = some m →
    env p ≠ 0 → ∃ x y, Reads W env u x ∧ Reads W env v y ∧
      compareBits i.pred (BitVec.ofInt m x) (BitVec.ofInt m y) = true

def FactsHold (W : World) (facts : List Fact) (p : Int) (env : Env) : Prop :=
  ∀ fact ∈ facts, fact.site = p → ∀ x, Reads W env fact.value x → fact.range.Has x

def Confirmed (W : World) (f : Func) (d : DomInfo) (facts : List Fact) (p : Int) (env : Env) : Prop :=
  ∀ b : Nat, f.Stands b p → d.dom.isReachable b = true →
    CompareHolds W f p env ∧ FactsHold W facts p env

variable {facts : List Fact}

/-- The compared value of a fact is computed before the condition, and that before the
assumption. -/
theorem Grounded.value_precedes {fact : Fact} {i cmp : Instr} {c : Int} {k : Comparison} {n b : Nat}
    (h : f.Proper scope d) (hg : Grounded f fact i c cmp k n) (hb : f.Stands b fact.site)
    (hreach : d.dom.isReachable b = true) :
    (f.Computes c ∧ f.Precedes d c fact.site) ∧
      ∀ q, fact.value = .instr q → f.Computes q ∧ f.Precedes d q fact.site := by
  have hphi : i.op ≠ .phi := by
    rw [hg.call.1]
    decide
  obtain ⟨hc, hprec⟩ := h.ssa.uses b fact.site i c hreach hb hg.instr hphi (by simp [hg.operands])
  refine ⟨⟨hc, hprec⟩, fun q hq => ?_⟩
  obtain ⟨y, hy⟩ := hc.1
  obtain ⟨y, rfl, _⟩ := hy.nat
  have hyreach := h.reachable_of_precedes hy hb hreach hprec
  obtain ⟨_, _, u, v, _, hops, _⟩ :=
    (Func.typed_icmp hg.icmp).mp (h.typed.instr y c cmp hy hg.condition).2
  have hmem : Value.instr q ∈ cmp.operands := by
    rw [← hq, ← hg.value, hops]
    rcases (comparison?_cases hops hg.comparison).2 with ⟨e, _⟩ | ⟨e, _⟩ <;> simp [e]
  have hcphi : cmp.op ≠ .phi := by
    rw [hg.icmp]
    decide
  obtain ⟨hq, hqc⟩ := h.ssa.uses y c cmp q hyreach hy hg.condition hcphi hmem
  obtain ⟨z, hz⟩ := hq.1
  exact ⟨hq, h.precedes_trans hz hy hb hqc hprec⟩

theorem settled_confirmed (h : f.Proper scope d)
    (hfacts : ∀ fact ∈ facts, ∃ i c cmp k n, Grounded f fact i c cmp k n) :
    Settled f d (Confirmed W f d facts) := by
  intro p env env' _ hagree hQ b hb hreach
  obtain ⟨hcmp, hfact⟩ := hQ b hb hreach
  constructor
  · intro i m u v hi hop hops hw hne
    have hsame : ∀ w ∈ i.operands, ∀ q, w = .instr q → env q = env' q := by
      rintro w hw q rfl
      obtain ⟨hq, hprec⟩ := h.ssa.uses b p i q hreach hb hi (by rw [hop]; decide) hw
      exact hagree q (.inr ⟨hq.1, hprec⟩)
    rw [← hagree p (.inl rfl)] at hne
    obtain ⟨x, y, hx, hy, hxy⟩ := hcmp i m u v hi hop hops hw hne
    exact ⟨x, y, (reads_congr (hsame u (by simp [hops]))).mp hx,
      (reads_congr (hsame v (by simp [hops]))).mp hy, hxy⟩
  · rintro fact hmem rfl x hx
    obtain ⟨i, c, cmp, k, n, hg⟩ := hfacts fact hmem
    refine hfact fact hmem rfl x ((reads_congr fun q hq => ?_).mpr hx)
    exact hagree q (.inr (((hg.value_precedes h hb hreach).2 q hq).imp_left (·.1)))

theorem Grounded.sides (h : f.Proper scope d) {fact : Fact} {i cmp : Instr} {c : Int} {k : Comparison}
    {n : Nat} (hg : Grounded f fact i c cmp k n) {y : Nat} (hy : f.Stands y c) :
    cmp.pred ∈ icmpPreds ∧ ∃ u v, cmp.operands = [u, v] ∧ f.HasTy u (.int n) ∧ f.HasTy v (.int n) := by
  obtain ⟨_, hpred, u, v, t, hops, hu, hv⟩ :=
    (Func.typed_icmp hg.icmp).mp (h.typed.instr y c cmp hy hg.condition).2
  have htv : f.typeOf fact.value = .ok (some t) := by
    rw [← hg.value]
    rcases (comparison?_cases hops hg.comparison).2 with ⟨e, _⟩ | ⟨e, _⟩
    · rw [e]
      exact hu.typeOf
    · rw [e]
      exact hv.typeOf
  rw [hg.typed] at htv
  cases htv
  exact ⟨hpred, u, v, hops, hu, hv⟩

theorem Grounded.hasTy (h : f.Proper scope d) {fact : Fact} {i cmp : Instr} {c : Int} {k : Comparison}
    {n : Nat} (hg : Grounded f fact i c cmp k n) {y : Nat} (hy : f.Stands y c) :
    f.HasTy fact.value (.int n) := by
  obtain ⟨_, u, v, hops, hu, hv⟩ := hg.sides h hy
  rw [← hg.value]
  rcases (comparison?_cases hops hg.comparison).2 with ⟨e, _⟩ | ⟨e, _⟩
  · rwa [e]
  · rwa [e]

/-- A true comparison with a constant puts the value into the interval of the fact. -/
theorem Grounded.has (h : f.Proper scope d) {fact : Fact} {i cmp : Instr} {c : Int} {k : Comparison}
    {n : Nat} (hg : Grounded f fact i c cmp k n) {y : Nat} (hy : f.Stands y c) {env : Env}
    (hcmp : CompareHolds W f c env) (hne : env c ≠ 0) {x : Int} (hx : Reads W env fact.value x)
    (hholds : (Ty.int n).Holds x) : fact.range.Has x := by
  obtain ⟨hpred, u, v, hops, hu, hv⟩ := hg.sides h hy
  obtain ⟨hconst, hcase⟩ := comparison?_cases hops hg.comparison
  have hn : 1 ≤ n := (h.typed.valid_of_hasTy hu).1
  obtain ⟨a, b, ha, hb, hab⟩ := hcmp cmp n u v hg.condition hg.icmp hops
    (Func.widthOf_eq hops hu) hne
  rw [← hg.value] at hx
  rcases hcase with ⟨rfl, hp, t, rfl⟩ | ⟨rfl, hp, t, rfl⟩
  · cases reads_unique hconst hx ha
    obtain ⟨rfl, _, hfits⟩ := hv
    cases hb
    rw [← hp] at hab
    exact factRange?_has hn hg.small hg.range hholds hfits hab
  · cases reads_unique hconst hx hb
    obtain ⟨rfl, _, hfits⟩ := hu
    cases ha
    rw [← compareBits_swap hpred, ← hp] at hab
    exact factRange?_has hn hg.small hg.range hholds hfits hab

theorem exists_compare_of_result {s : State} {i : Instr} {e : Option Event} {z : Int}
    {u v : Value} {m : Nat} (hop : i.op = .icmp) (hops : i.operands = [u, v])
    (hw : f.widthOf i = some m) (hresult : Result W f s i e z) (hne : z ≠ 0) :
    ∃ x y, Reads W s.env u x ∧ Reads W s.env v y ∧
      compareBits i.pred (BitVec.ofInt m x) (BitVec.ofInt m y) = true := by
  have hpure : i.op.isPure = true := by rw [hop]; decide
  have harith : i.op.isArith = false := by rw [hop]; decide
  obtain ⟨_, vals, hvals, hgives⟩ := (result_iff_gives hpure harith).mp hresult
  rw [hw] at hgives
  obtain ⟨x, y, rfl, rfl⟩ := (gives_icmp hop).mp hgives
  rw [hops] at hvals
  simp only [List.forall₂_cons, List.forall₂_nil_right_iff] at hvals
  refine ⟨x, y, hvals.1, hvals.2.1, ?_⟩
  by_contra hfalse
  simp [hfalse] at hne

theorem condition_of_result {s : State} {i : Instr} {e : Option Event} {z : Int} {c : Int}
    (hcall : i.op = .call ∧ i.callee = assumeCallee) (hops : i.operands = [.instr c])
    (hresult : Result W f s i e z) : s.env c ≠ 0 := by
  have heffect : i.op.hasEffect = true := by rw [hcall.1]; decide
  obtain ⟨vals, _, hvals, hpermit, _⟩ := (result_effect heffect).mp hresult
  rw [hops] at hvals
  cases hvals with
  | cons hv hnil =>
    cases hnil
    cases hv
    simpa using hpermit hcall.1 hcall.2

/-- Along every run what comparisons and assumptions told is true as long as they are behind. -/
theorem confirmed_of_reached (h : f.Proper scope d) (hW : W.Fits f)
    (hfacts : ∀ fact ∈ facts, ∃ i c cmp k n, Grounded f fact i c cmp k n) {s : State}
    (hs : Reached W f s) : s.Knows f d (Confirmed W f d facts) := by
  refine hs.knows h.toHasDominance (settled_confirmed h hfacts) ?_
  intro s e t c rest hs hk hrest hc hst b hb hreach
  have hloc := hs.located
  obtain ⟨i, hi, _⟩ := h.wf.home_of_stands hb
  have hresult := hst.result hrest hc hi
  -- The operands keep their values while the instruction runs.
  have hkeep : ∀ q, (∃ y, f.Stands y q) ∧ f.Precedes d q c → s.env q = t.env q := by
    rintro q ⟨⟨y, hy⟩, hprec⟩
    refine (hst.env_eq hrest ?_).symm
    rintro rfl
    exact h.not_precedes_self hy hprec
  constructor
  · intro j m u v hj hop hops hw hne
    rw [hi] at hj
    cases hj
    have hsame : ∀ w ∈ i.operands, ∀ q, w = .instr q → s.env q = t.env q := by
      rintro w hw q rfl
      obtain ⟨hq, hprec⟩ := h.ssa.uses b c i q hreach hb hi (by rw [hop]; decide) hw
      exact hkeep q ⟨hq.1, hprec⟩
    obtain ⟨x, y, hx, hy, hxy⟩ := exists_compare_of_result hop hops hw hresult hne
    exact ⟨x, y, (reads_congr (hsame u (by simp [hops]))).mp hx,
      (reads_congr (hsame v (by simp [hops]))).mp hy, hxy⟩
  · rintro fact hmem rfl x hx
    obtain ⟨j, c, cmp, k, n, hg⟩ := hfacts fact hmem
    have hj := hg.instr
    rw [hi] at hj
    cases hj
    obtain ⟨⟨hcc, hcprec⟩, hvalue⟩ := hg.value_precedes h hb hreach
    have hx : Reads W s.env fact.value x :=
      (reads_congr fun q hq => hkeep q ((hvalue q hq).imp_left (·.1))).mpr hx
    obtain ⟨y, hy⟩ := hcc.1
    obtain ⟨y, rfl, _⟩ := hy.nat
    have hyreach := h.reachable_of_precedes hy hb hreach hcprec
    have hcmp := (hk.available h.toHasDominance hloc hrest hcc hcprec y hy hyreach).1
    have hne := condition_of_result hg.call hg.operands hresult
    refine hg.has h hy hcmp hne hx (reads_holds hW (hg.hasTy h hy) (fun q hq => ?_) hx)
    obtain ⟨hq, hprec⟩ := hvalue q hq
    exact (hs.ofType h hW).available h.toHasDominance hloc hrest hq hprec

/-! Facts can be read off every proper function. -/

theorem exists_comparison? {cmp : Instr} {u v : Value} (hops : cmp.operands = [u, v]) :
    ∃ k, comparison? cmp = .ok k := by
  have hu : element cmp.operands 0 = .ok u := element_eq_ok.mpr (by simp [hops])
  have hv : element cmp.operands 1 = .ok v := element_eq_ok.mpr (by simp [hops])
  simp only [comparison?, hu, hv, Checked.bind_eq_ok, Except.ok.injEq, exists_eq_left']
  split
  · exact ⟨_, rfl⟩
  · exact ⟨_, rfl⟩
  · exact ⟨_, rfl⟩

theorem exists_factOf? (h : f.WellTyped) {b id : Int} {i : Instr} (hb : f.Stands b id)
    (hi : f.instr? id = some i) : ∃ x, factOf? f id i = .ok x := by
  unfold factOf?
  split
  · exact ⟨none, rfl⟩
  · split
    · next c hops =>
      obtain ⟨_, ⟨⟨y, hy⟩, _⟩, cmp, hcmp, _⟩ := h.operand b id i hb hi (.instr c) (by simp [hops])
      simp only [Func.instr_eq_ok.mpr hcmp, Checked.bind_eq_ok, Except.ok.injEq, exists_eq_left']
      split
      · exact ⟨none, rfl⟩
      · next hicmp =>
        obtain ⟨_, _, u, v, t, hops, hu, hv⟩ :=
          (Func.typed_icmp (not_not.mp hicmp)).mp (h.instr y c cmp hy hcmp).2
        obtain ⟨k, hk⟩ := exists_comparison? hops
        simp only [hk]
        cases k with
        | none => exact ⟨none, rfl⟩
        | some k =>
          have ht : f.typeOf k.value = .ok (some t) := by
            rcases (comparison?_cases hops hk).2 with ⟨e, _⟩ | ⟨e, _⟩
            · rw [e, hu.typeOf]
            · rw [e, hv.typeOf]
          simp only [ht, Checked.bind_eq_ok, Except.ok.injEq, exists_eq_left']
          split
          · split
            · exact ⟨none, rfl⟩
            · exact ⟨_, rfl⟩
          · exact ⟨none, rfl⟩
    · exact ⟨none, rfl⟩

theorem exists_factsOf (h : f.Proper scope d) : ∃ facts, factsOf f = .ok facts := by
  have hplaced : ∃ ps, f.placed = .ok ps := by
    refine Checked.exists_mapM fun id hid => ?_
    obtain ⟨blk, hblk, hid⟩ := List.mem_flatMap.mp hid
    obtain ⟨n, hn⟩ := List.mem_iff_getElem?.mp hblk
    have hstands : f.Stands n id :=
      ⟨blk, Func.block?_eq_some.mpr ⟨n, rfl, by simpa using hn⟩, hid⟩
    obtain ⟨i, hi, _⟩ := h.wf.home_of_stands hstands
    exact ⟨(id, i), by simp [Func.cell_eq_ok.mpr hi]⟩
  obtain ⟨ps, hps⟩ := hplaced
  obtain ⟨found, hfound⟩ := Checked.exists_mapM (f := fun p => factOf? f p.1 p.2) (l := ps) <| by
    rintro ⟨id, i⟩ hp
    obtain ⟨hi, b, hb⟩ := Func.mem_placed hps hp
    exact exists_factOf? h.typed hb hi
  refine ⟨found.filterMap fun x => x, ?_⟩
  simp only [factsOf, Checked.bind_eq_ok, Checked.pure_eq_ok]
  exact ⟨ps, hps, found, hfound, rfl⟩

end ValueRange

end RegPressure
