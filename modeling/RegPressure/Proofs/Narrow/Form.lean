import RegPressure.Proofs.Narrow.Resize

namespace RegPressure

variable {scope : Option Symbols} {f g : Func} {d : DomInfo} {W : World}

theorem exists_getElem? {α β : Type} {R : α → β → Prop} {l : List α} {l' : List β}
    (h : List.Forall₂ R l l') {k : Nat} {a : α} (hk : l[k]? = some a) :
    ∃ b, l'[k]? = some b ∧ R a b := by
  induction h generalizing k with
  | nil => simp at hk
  | cons hab _ ih =>
    cases k with
    | zero =>
      cases hk
      exact ⟨_, rfl, hab⟩
    | succ k => exact ih hk

theorem Gives.unique {width : Option Nat} {i : Instr} (hint : Interpreted width i = true)
    {vals : List Int} {x y : Int} (hx : Gives W width i vals x) (hy : Gives W width i vals y) : x = y := by
  cases hx with
  | arith hop hty hr =>
    obtain ⟨_, _, r, ⟨⟩, rfl, hr'⟩ := (gives_arith hop hty).mp hy
    rw [hr] at hr'
    cases hr'
    rfl
  | trunc hop hty =>
    obtain ⟨_, ⟨⟩, rfl⟩ := (gives_trunc hop hty).mp hy
    rfl
  | sext hop hty hwidth =>
    subst hwidth
    obtain ⟨_, ⟨⟩, rfl⟩ := (gives_sext hop hty).mp hy
    rfl
  | zext hop hty hwidth =>
    subst hwidth
    obtain ⟨_, ⟨⟩, rfl⟩ := (gives_zext hop hty).mp hy
    rfl
  | icmp hop hwidth =>
    subst hwidth
    obtain ⟨_, _, ⟨⟩, rfl⟩ := (gives_icmp hop).mp hy
    rfl
  | select hop =>
    obtain ⟨_, _, _, ⟨⟩, rfl⟩ := (gives_select hop).mp hy
    rfl
  | other hother =>
    rw [hint] at hother
    cases hother

/-- What an operation on integers gives is one number. -/
theorem Result.unique (hD : W.Definite) {s : State} {i : Instr}
    (hint : i.op = .phi ∨ i.op.isPure = true ∧ Interpreted (g.widthOf i) i = true) {e e' : Option Event}
    {x y : Int} (hx : Result W g s i e x) (hy : Result W g s i e' y) : x = y := by
  rcases hint with hphi | ⟨hpure, hint⟩
  · obtain ⟨_, p, v, _, _, hv, hx⟩ := (result_phi hphi).mp hx
    obtain ⟨_, q, v', _, _, hv', hy⟩ := (result_phi hphi).mp hy
    rw [hv] at hv'
    cases hv'
    exact hD.reads_unique hx hy
  · obtain ⟨_, vals, hvals, hx | ⟨hgo, _⟩⟩ := (result_iff hpure).mp hx
    · obtain ⟨_, vals', hvals', hy | ⟨hgo, _⟩⟩ := (result_iff hpure).mp hy
      · cases hD.forall₂_reads_unique hvals hvals'
        exact hx.unique hint hy
      · exact absurd hgo hD.stops
    · exact absurd hgo hD.stops

namespace Narrow

variable {w n : Nat} {id : Int} {i : Instr}

def form (i : Instr) (w : Nat) (operands : List Value) : Instr :=
  { op := i.op, ty := if i.op = .icmp then .i1 else .int w, operands, pred := i.pred,
    targets := i.targets, pos := i.pos }

inductive Narrows (g : Func) (id : Int) (i : Instr) (w : Nat) : Prop
  | arith {n : Nat} : i.op.isArith = true → i.ty = .int n → w < n →
      (∀ W : World, W.Fits g → W.Definite → ∀ x y r, Meets W g id [x, y] r →
        Localizes i.op w n x y ∧ ∀ z, r = some z → (Ty.int w).Holds z) → Narrows g id i w
  | move {n : Nat} : i.op = .select ∨ i.op = .phi → i.ty = .int n → w < n →
      (∀ W : World, W.Fits g → W.Definite → ∀ vals z, Meets W g id vals (some z) →
        (Ty.int w).Holds z) → Narrows g id i w
  | icmp {n : Nat} {a b : Value} : i.op = .icmp → i.operands = [a, b] → g.HasTy a (.int n) →
      g.HasTy b (.int n) → (∀ v ∈ i.operands, w < n ∨ ∃ q, v = .instr q ∧ (g.opOf q).isCast = false) →
      (∀ W : World, W.Fits g → W.Definite → ∀ x y r, Meets W g id [x, y] r →
        (Ty.int w).Holds x ∧ (Ty.int w).Holds y) → Narrows g id i w

theorem Narrows.enlarges (h : g.Enlarges d f) {b : Int} (hb : g.Stands b id) (hn : Narrows g id i w) :
    Narrows f id i w := by
  have hmeets : ∀ {W : World}, W.Fits f → W.Definite → ∀ {vals r}, Meets W f id vals r →
      W.Fits g ∧ Meets W g id vals r := fun {W} hW hD {vals r} hm =>
    have hW := hW.of_params h.alike.params.symm
    ⟨hW, (h.agrees hb).back W hW hD vals r hm⟩
  cases hn with
  | arith hop hty hlt hall =>
    refine .arith hop hty hlt fun W hW hD x y r hm => ?_
    obtain ⟨hW, hm⟩ := hmeets hW hD hm
    exact hall W hW hD x y r hm
  | move hop hty hlt hall =>
    refine .move hop hty hlt fun W hW hD vals z hm => ?_
    obtain ⟨hW, hm⟩ := hmeets hW hD hm
    exact hall W hW hD vals z hm
  | icmp hop hops ha hb' hcast hall =>
    refine .icmp hop hops (h.hasTy ha) (h.hasTy hb') (fun v hv => ?_) fun W hW hD x y r hm => ?_
    · refine (hcast v hv).imp_right ?_
      rintro ⟨q, rfl, hq⟩
      have hstands : ∃ c, g.Stands c q := by
        rw [hops] at hv
        simp only [List.mem_cons, List.not_mem_nil, or_false] at hv
        rcases hv with rfl | rfl
        · exact ha.1.1
        · exact hb'.1.1
      obtain ⟨c, hc⟩ := hstands
      exact ⟨q, rfl, by rw [h.opOf hc, hq]⟩
    · obtain ⟨hW, hm⟩ := hmeets hW hD hm
      exact hall W hW hD x y r hm

inductive NarrowOperands (R : Value → Value → Prop) (i : Instr) (operands : List Value) : Prop
  | all : i.op ≠ .select → List.Forall₂ R i.operands operands → NarrowOperands R i operands
  | select {c a b a' b' : Value} : i.op = .select → i.operands = [c, a, b] → operands = [c, a', b'] →
      R a a' → R b b' → NarrowOperands R i operands

theorem result_iff_of_reads (hD : W.Definite) {s : State} (hop : i.op.isPure = true) {vals : List Int}
    (hvals : List.Forall₂ (Reads W s.env) i.operands vals) {x : Int} :
    Result W g s i none x ↔ Gives W (g.widthOf i) i vals x := by
  rw [result_iff hop]
  constructor
  · rintro ⟨_, vals', hvals', hx | ⟨hgo, _⟩⟩
    · rwa [hD.forall₂_reads_unique hvals hvals']
    · exact absurd hgo hD.stops
  · exact fun hx => ⟨rfl, vals, hvals, .inl hx⟩

section Giving

variable (hf : f.Proper scope d) (hfg : f.Enlarges d g) (hg : g.Proper scope d) (hW : W.Fits g)
  (hD : W.Definite) {s : State} (hs : Reached W g s) {rest : List Int} (hrest : s.rest = id :: rest)
  {b : Int} (hb : f.Stands b id) (hi : f.instr? id = some i) (hw : 1 ≤ w)

include hf hfg hg hW hD hs hrest hb hi hw

/-- An operand of an instruction that is no phi reads as its low bits at the narrow width. -/
theorem NarrowOf.reads {v v' : Value} (h : NarrowOf d f g w v v') (hphi : i.op ≠ .phi)
    (hv : v ∈ i.operands) {x : Int} (hx : Reads W s.env v x) : Reads W s.env v' (low w x) := by
  have hblock : b = s.block := hg.wf.stands_unique (hfg.stands hb) (hs.located.stands hrest)
  subst hblock
  have hreach : d.dom.isReachable s.block = true := hg.isReachable_iff.mpr hs.located.reaches
  have havail := hf.ssa.available hreach hb hi hphi hv
  exact h.resized.reads hg hW hD hs hrest hw (hfg.available hb havail)
    (h.available hb hreach (by rwa [Func.opOf_eq hi]) havail) hx

omit hrest in
theorem NarrowOf.reads_entered {v v' : Value} (h : NarrowOf d f g w v v') (hphi : i.op = .phi) {p k : Nat}
    (hp : s.source = some p) (ht : i.targets[k]? = some (p : Int)) (hv : i.operands[k]? = some v) {x : Int}
    (hx : Reads W s.entered v x) : Reads W s.entered v' (low w x) := by
  obtain ⟨_, s', t, trest, hs', hblock, htrest, hterm, henv⟩ := hs.jumped hp
  have ht' : g.Stands p t := hblock ▸ hs'.located.stands htrest
  have hreach : d.dom.isReachable p = true := hg.isReachable_iff.mpr (hblock ▸ hs'.located.reaches)
  -- The end of the incoming block is the same in both functions.
  obtain ⟨blk, hblk⟩ := (hf.wf.references hb hi).targets p (List.mem_of_getElem? ht)
  have hends := hfg.terminator hf.wf hg.wf hblk ht' hterm
  obtain ⟨hstands, hop⟩ := hf.wf.terminator_iff.mp hends
  have havail : f.Available d v t := by
    rintro q rfl
    exact hf.ssa.incoming b id i k q p t hb hi hphi hv ht hreach hends
  rw [← henv] at hx ⊢
  exact h.resized.reads hg hW hD hs' htrest hw (hfg.available hstands havail)
    (h.available hstands hreach (Op.ne_phi_of_isTerminator hop) havail) hx

variable {ops : List Value}

theorem reads_pair (hphi : i.op ≠ .phi) {v u : Value} (hvu : i.operands = [v, u])
    (hops : List.Forall₂ (NarrowOf d f g w) i.operands ops) {x y : Int} (hx : Reads W s.env v x)
    (hy : Reads W s.env u y) : ∃ v' u', ops = [v', u'] ∧ NarrowOf d f g w v v' ∧
      List.Forall₂ (Reads W s.env) i.operands [x, y] ∧
        List.Forall₂ (Reads W s.env) ops [low w x, low w y] := by
  have hreads : ∀ {v v' x}, v ∈ i.operands → NarrowOf d f g w v v' → Reads W s.env v x →
      Reads W s.env v' (low w x) := fun hv hn hx =>
    hn.reads hf hfg hg hW hD hs hrest hb hi hw hphi hv hx
  rw [hvu] at hops
  obtain ⟨v', _, hv', hrest', rfl⟩ := List.forall₂_cons_left_iff.mp hops
  obtain ⟨u', _, hu', hnil, rfl⟩ := List.forall₂_cons_left_iff.mp hrest'
  cases hnil
  refine ⟨v', u', rfl, hv', hvu ▸ .cons hx (.cons hy .nil), ?_⟩
  exact .cons (hreads (by simp [hvu]) hv' hx) (.cons (hreads (by simp [hvu]) hu' hy) .nil)

theorem result_form_arith (hop : i.op.isArith = true) (hty : i.ty = .int n) (hlt : w < n)
    (hall : ∀ x y r, Meets W g id [x, y] r →
      Localizes i.op w n x y ∧ ∀ z, r = some z → (Ty.int w).Holds z)
    (hops : List.Forall₂ (NarrowOf d f g w) i.operands ops) {z : Int} :
    Result W g s (form i w ops) none z ↔ Result W g s i none z := by
  have hig : g.instr? id = some i := by rw [hfg.instr hb, hi]
  have hpure := Op.isPure_of_isArith hop
  have hphi := Op.ne_phi_of_isPure hpure
  have hicmp : i.op ≠ .icmp := Op.ne_of_isArith hop rfl
  obtain ⟨v, u, hvu, hv, hu⟩ := (Func.typed_arith hop).mp (hf.typed.instr b id i hb hi).2
  obtain ⟨x, hx⟩ : ∃ x, Reads W s.env v x := hD.exists_reads hv
  obtain ⟨y, hy⟩ : ∃ x, Reads W s.env u x := hD.exists_reads hu
  obtain ⟨v', u', rfl, _, hvals, hvals'⟩ :=
    reads_pair hf hfg hg hW hD hs hrest hb hi hw hphi hvu hops hx hy
  have hmeets : ∀ {r}, (∀ z, r = some z → Result W g s i none z) → Meets W g id [x, y] r :=
    fun hr => ⟨s, rest, i, hs, hrest, hig, fun _ => hvals, fun z hz => ⟨none, hr z hz⟩⟩
  have hpure' : (form i w [v', u']).op.isPure = true := hpure
  have hlocal := (hall x y none (hmeets nofun)).1
  have hlow : ∀ a, BitVec.ofInt w (low w a) = BitVec.ofInt w a := fun a => BitVec.ofInt_toInt
  have hform : Result W g s (form i w [v', u']) none z ↔
      ∃ r : BitVec w, z = r.toInt ∧ i.op.arith (BitVec.ofInt w x) (BitVec.ofInt w y) = some r := by
    rw [result_iff_of_reads hD hpure' hvals', gives_arith (i := form i w [v', u']) hop (if_neg hicmp)]
    simp [form, hlow]
  have hwide : ∀ {z}, Result W g s i none z ↔
      ∃ r : BitVec n, z = r.toInt ∧ i.op.arith (BitVec.ofInt n x) (BitVec.ofInt n y) = some r := by
    intro z
    rw [result_iff_of_reads hD hpure hvals, gives_arith hop hty]
    simp
  -- Where the wide form has a result, it fits, so the narrow form has the same.
  have hsame : ∀ {r : BitVec n}, i.op.arith (BitVec.ofInt n x) (BitVec.ofInt n y) = some r →
      ∃ r' : BitVec w, i.op.arith (BitVec.ofInt w x) (BitVec.ofInt w y) = some r' ∧
        r'.toInt = r.toInt := by
    intro r hr
    refine arith_narrow hw hlt.le hlocal hr ((hall x y (some r.toInt) (hmeets ?_)).2 _ rfl)
    rintro _ ⟨⟩
    exact hwide.mpr ⟨r, rfl, hr⟩
  rw [hform, hwide]
  constructor
  · rintro ⟨r', rfl, hr'⟩
    obtain ⟨r, hr⟩ := arith_defined hw hlt.le hlocal hr'
    obtain ⟨r'', hr'', he⟩ := hsame hr
    rw [hr'] at hr''
    cases hr''
    exact ⟨r, he, hr⟩
  · rintro ⟨r, rfl, hr⟩
    obtain ⟨r', hr', he⟩ := hsame hr
    exact ⟨r', he.symm, hr'⟩

theorem result_form_icmp {a c : Value} (hop : i.op = .icmp) (hvu : i.operands = [a, c])
    (ha : g.HasTy a (.int n)) (hc : g.HasTy c (.int n))
    (hall : ∀ x y r, Meets W g id [x, y] r → (Ty.int w).Holds x ∧ (Ty.int w).Holds y)
    (hops : List.Forall₂ (NarrowOf d f g w) i.operands ops) {z : Int} :
    Result W g s (form i w ops) none z ↔ Result W g s i none z := by
  have hig : g.instr? id = some i := by rw [hfg.instr hb, hi]
  have hpure : i.op.isPure = true := by rw [hop]; rfl
  have hphi := Op.ne_phi_of_isPure hpure
  obtain ⟨x, hx⟩ : ∃ x, Reads W s.env a x := hD.exists_reads ha
  obtain ⟨y, hy⟩ : ∃ x, Reads W s.env c x := hD.exists_reads hc
  obtain ⟨a', c', rfl, ha', hvals, hvals'⟩ :=
    reads_pair hf hfg hg hW hD hs hrest hb hi hw hphi hvu hops hx hy
  obtain ⟨hxw, hyw⟩ := hall x y none ⟨s, rest, i, hs, hrest, hig, fun _ => hvals, nofun⟩
  rw [low_of_holds hw hxw, low_of_holds hw hyw] at hvals'
  -- Both operands are numbers of their type as well.
  have havail : ∀ v ∈ i.operands, g.Available d v id := fun _ hv => available_at hg hs hrest hig hphi hv
  have hxn := available_holds hg hW hs hrest ha (havail a (by simp [hvu])) hx
  have hyn := available_holds hg hW hs hrest hc (havail c (by simp [hvu])) hy
  have hn := (hg.typed.valid_of_hasTy ha).1
  have hpure' : (form i w [a', c']).op.isPure = true := hpure
  have hcompare : ∀ {j : Instr} {m : Nat}, j.op = .icmp → (Gives W (some m) j [x, y] z ↔
      z = if compareBits j.pred (BitVec.ofInt m x) (BitVec.ofInt m y) then -1 else 0) := by
    intro j m hj
    rw [gives_icmp hj]
    constructor
    · rintro ⟨_, _, ⟨⟩, hz⟩
      exact hz
    · exact fun hz => ⟨x, y, rfl, hz⟩
  rw [result_iff_of_reads hD hpure' hvals', result_iff_of_reads hD hpure hvals,
    Func.widthOf_eq hvu ha, Func.widthOf_eq (i := form i w [a', c']) rfl ha'.hasTy, hcompare hop,
    hcompare (j := form i w [a', c']) hop, compareBits_narrow hw hn hxw hyw hxn hyn]
  rfl

theorem result_form_select (hop : i.op = .select)
    (hall : ∀ vals z, Meets W g id vals (some z) → (Ty.int w).Holds z) {c a u a' u' : Value}
    (hvu : i.operands = [c, a, u]) (ha' : NarrowOf d f g w a a') (hu' : NarrowOf d f g w u u') {z : Int} :
    Result W g s (form i w [c, a', u']) none z ↔ Result W g s i none z := by
  have hig : g.instr? id = some i := by rw [hfg.instr hb, hi]
  have hpure : i.op.isPure = true := by rw [hop]; rfl
  have hphi := Op.ne_phi_of_isPure hpure
  obtain ⟨_, _, _, he, hc, ha, hu⟩ := (Func.typed_select hop).mp (hf.typed.instr b id i hb hi).2
  rw [hvu] at he
  cases he
  obtain ⟨k, hk⟩ : ∃ x, Reads W s.env c x := hD.exists_reads hc
  obtain ⟨x, hx⟩ : ∃ x, Reads W s.env a x := hD.exists_reads ha
  obtain ⟨y, hy⟩ : ∃ x, Reads W s.env u x := hD.exists_reads hu
  have hx' := ha'.reads hf hfg hg hW hD hs hrest hb hi hw hphi (by simp [hvu]) hx
  have hy' := hu'.reads hf hfg hg hW hD hs hrest hb hi hw hphi (by simp [hvu]) hy
  have hvals : List.Forall₂ (Reads W s.env) i.operands [k, x, y] := hvu ▸ .cons hk (.cons hx (.cons hy .nil))
  have hvals' : List.Forall₂ (Reads W s.env) (form i w [c, a', u']).operands [k, low w x, low w y] :=
    .cons hk (.cons hx' (.cons hy' .nil))
  have hchoose : ∀ {j : Instr} {m : Option Nat} {a b z : Int}, j.op = .select →
      (Gives W m j [k, a, b] z ↔ z = if k = 0 then b else a) := by
    intro j m a b z hj
    rw [gives_select hj]
    constructor
    · rintro ⟨_, _, _, ⟨⟩, hz⟩
      exact hz
    · exact fun hz => ⟨k, a, b, rfl, hz⟩
  have hwide : ∀ {z}, Result W g s i none z ↔ z = if k = 0 then y else x := by
    intro z
    rw [result_iff_of_reads hD hpure hvals, hchoose hop]
  have hfits := hall [k, x, y] _ ⟨s, rest, i, hs, hrest, hig, fun _ => hvals, fun z hz =>
    ⟨none, hwide.mpr (Option.some.inj hz).symm⟩⟩
  have hpure' : (form i w [c, a', u']).op.isPure = true := hpure
  rw [hwide, result_iff_of_reads hD hpure' hvals', hchoose (j := form i w [c, a', u']) hop,
    ← apply_ite (low w), low_of_holds hw hfits]

theorem result_form_phi (hop : i.op = .phi)
    (hall : ∀ vals z, Meets W g id vals (some z) → (Ty.int w).Holds z)
    (hops : List.Forall₂ (NarrowOf d f g w) i.operands ops) {z : Int} :
    Result W g s (form i w ops) none z ↔ Result W g s i none z := by
  have hig : g.instr? id = some i := by rw [hfg.instr hb, hi]
  have htyped := (Func.typed_phi hop).mp (hf.typed.instr b id i hb hi).2
  rw [result_phi hop, result_phi (i := form i w ops) hop]
  refine and_congr_right fun _ => exists_congr fun p => ?_
  constructor
  · rintro ⟨v', hp, ht, hv', hz⟩
    obtain ⟨v, hv, hnarrow⟩ : ∃ v, i.operands[s.pick i.targets]? = some v ∧ NarrowOf d f g w v v' :=
      exists_getElem? hops.flip hv'
    obtain ⟨x, hx⟩ : ∃ x, Reads W s.entered v x := hD.exists_reads (htyped v (List.mem_of_getElem? hv))
    have hx' := hnarrow.reads_entered hf hfg hg hW hD hs hb hi hw hop hp ht hv hx
    have hfits := hall [] x ⟨s, rest, i, hs, hrest, hig, fun h => absurd hop h, fun z hz =>
      ⟨none, .phi hop hp ht hv (Option.some.inj hz ▸ hx)⟩⟩
    rw [low_of_holds hw hfits] at hx'
    exact ⟨v, hp, ht, hv, hD.reads_unique hx' hz ▸ hx⟩
  · rintro ⟨v, hp, ht, hv, hx⟩
    obtain ⟨v', hv', hnarrow⟩ : ∃ v', ops[s.pick i.targets]? = some v' ∧ NarrowOf d f g w v v' :=
      exists_getElem? hops hv
    have hx' := hnarrow.reads_entered hf hfg hg hW hD hs hb hi hw hop hp ht hv hx
    have hfits := hall [] z ⟨s, rest, i, hs, hrest, hig, fun h => absurd hop h, fun z hz =>
      ⟨none, .phi hop hp ht hv (Option.some.inj hz ▸ hx)⟩⟩
    rw [low_of_holds hw hfits] at hx'
    exact ⟨v', hp, ht, hv', hx'⟩

/-- The narrow form of an instruction gives what the instruction gives. -/
theorem result_form (hn : Narrows g id i w) (hops : NarrowOperands (NarrowOf d f g w) i ops) {z : Int} :
    Result W g s (form i w ops) none z ↔ Result W g s i none z := by
  cases hops with
  | all hselect hops =>
    cases hn with
    | arith hop hty hlt hall =>
      exact result_form_arith hf hfg hg hW hD hs hrest hb hi hw hop hty hlt (hall W hW hD) hops
    | move hop hty hlt hall =>
      exact result_form_phi hf hfg hg hW hD hs hrest hb hi hw (hop.resolve_left hselect) (hall W hW hD) hops
    | icmp hop hvu ha hc _ hall =>
      exact result_form_icmp hf hfg hg hW hD hs hrest hb hi hw hop hvu ha hc (hall W hW hD) hops
  | select hselect hvu he ha' hu' =>
    subst he
    cases hn with
    | arith hop =>
      rw [hselect] at hop
      cases hop
    | move _ _ _ hall =>
      exact result_form_select hf hfg hg hW hD hs hrest hb hi hw hselect (hall W hW hD) hvu ha' hu'
    | icmp hop =>
      rw [hselect] at hop
      cases hop

end Giving

end Narrow
end RegPressure
