import RegPressure.Proofs.Run.Available

namespace RegPressure

variable {scope : Option Symbols} {f : Func} {d : DomInfo} {W : World}

/-- A well-formed, well-typed function in SSA form. Phi operands are looked at where their incoming
block can be reached. -/
structure Func.Proper (scope : Option Symbols) (f : Func) (d : DomInfo) : Prop
    extends f.HasDominance scope d where
  ssa : f.InSsaForm d fun b => d.dom.isReachable b = true
  typed : f.WellTyped

theorem Ty.holds_toInt {n : Nat} (x : BitVec n) : (Ty.int n).Holds x.toInt :=
  ⟨BitVec.le_toInt x, BitVec.toInt_lt⟩

theorem ofInt_toInt_of_holds {n : Nat} (hn : 1 ≤ n) {x : Int} (hx : (Ty.int n).Holds x) :
    (BitVec.ofInt n x).toInt = x :=
  BitVec.toInt_ofInt_eq_self hn hx.1 hx.2

theorem setWidth_ofInt {w n : Nat} (h : w ≤ n) (x : Int) :
    (BitVec.ofInt n x).setWidth w = BitVec.ofInt w x := by
  apply BitVec.eq_of_toInt_eq
  rw [BitVec.toInt_setWidth, BitVec.toInt_ofInt, BitVec.toNat_ofInt]
  have hne : ((2 ^ n : Nat) : Int) ≠ 0 := Int.natCast_ne_zero.mpr (Nat.two_pow_pos n).ne'
  have hdvd : ((2 ^ w : Nat) : Int) ∣ ((2 ^ n : Nat) : Int) :=
    Int.natCast_dvd_natCast.mpr (Nat.pow_dvd_pow 2 h)
  rw [Int.toNat_of_nonneg (Int.emod_nonneg _ hne), Int.bmod_def, Int.bmod_def,
    Int.emod_emod_of_dvd _ hdvd]

theorem constValue_holds {t : Ty} {c : Int64} (h : Func.ConstFits t c) :
    t.Holds (constValue (some t) c) := by
  unfold constValue
  by_cases ht : t = .i1
  · subst ht
    simp only [if_true]
    split <;> exact ⟨by decide, by decide⟩
  · rw [if_neg (by simpa using ht)]
    exact h.resolve_left ht

def OfType (f : Func) (p : Int) (env : Env) : Prop :=
  ∀ i, f.instr? p = some i → i.ty.Holds (env p)

theorem settled_ofType : Settled f d (OfType f) := by
  intro p env env' _ he h i hi
  rw [← he p (.inl rfl)]
  exact h i hi

/-- An operand that is available, or needs not be, has a value of its type. -/
theorem reads_holds (hW : W.Fits f) {env : Env} {v : Value} {t : Ty} (hv : f.HasTy v t)
    (hinstr : ∀ p, v = .instr p → OfType f p env) {x : Int} (hx : Reads W env v x) : t.Holds x := by
  cases v with
  | instr p =>
    obtain ⟨_, i, hi, rfl⟩ := hv
    cases hx
    exact hinstr p rfl i hi
  | arg n =>
    obtain ⟨hn, p, hp, ht⟩ := hv
    cases hx
    have := hW.args n.toNat p t hp ht
    rwa [Int.toNat_of_nonneg hn] at this
  | int ty c =>
    obtain ⟨rfl, _, hc⟩ := hv
    cases hx
    exact constValue_holds hc
  | undef ty =>
    obtain ⟨ty', rfl, hx⟩ := hx
    cases hv.1
    exact hW.undef _ x hx
  | float ty y =>
    obtain ⟨_, ht⟩ := hv
    cases t <;> trivial
  | null =>
    cases hv
    trivial
  | str y =>
    cases hv
    trivial
  | global n =>
    cases hv
    trivial

section

variable {Q : Int → Env → Prop} {s : State} {c : Int} {rest : List Int} {i : Instr}

theorem Func.Proper.operand_known (h : f.Proper scope d) (hk : s.Knows f d Q) (hs : s.Located f)
    (hrest : s.rest = c :: rest) (hi : f.instr? c = some i) (hphi : i.op ≠ .phi) {p : Int}
    (hp : Value.instr p ∈ i.operands) : Q p s.env := by
  have hreach : d.dom.isReachable s.block = true := h.isReachable_iff.mpr hs.reaches
  obtain ⟨hc, hprec⟩ := h.ssa.uses s.block c i p hreach (hs.stands hrest) hi hphi hp
  exact hk.available h.toHasDominance hs hrest hc hprec

/-- Control came over from the end of another block. -/
theorem Reached.jumped {p : Nat} (hs : Reached W f s) (hp : s.source = some p) :
    s.block ∈ f.graph.succ p ∧ ∃ s' t rest, Reached W f s' ∧ s'.block = p ∧ s'.rest = t :: rest ∧
      (f.opOf t).isTerminator = true ∧ s'.env = s.entered := by
  obtain ⟨seen, hs⟩ := hs
  induction hs with
  | start hi =>
    rw [hi.source] at hp
    cases hp
  | @step seen s t e hruns hst ih =>
    obtain ⟨c, rest, hrest, hmoves⟩ := hst.moves
    cases hmoves with
    | on _ hblock _ hentered hsource =>
      rw [hblock, hentered]
      exact ih (hsource ▸ hp)
    | crosses hc hb ht =>
      subst ht
      cases hp
      exact ⟨hb, s, c, rest, ⟨seen, hruns⟩, rfl, hrest, hc, rfl⟩
    | ends _ ht =>
      subst ht
      exact ih hp

theorem Reached.source {p : Nat} (hs : Reached W f s) (hp : s.source = some p) :
    s.block ∈ f.graph.succ p ∧ Reaches f.graph.succ f.entryNode p := by
  obtain ⟨hedge, s', _, _, hs', rfl, _⟩ := hs.jumped hp
  exact ⟨hedge, hs'.located.reaches⟩

theorem Func.Proper.incoming_known (h : f.Proper scope d) (hk : s.Knows f d Q)
    (hs : Reached W f s) (hrest : s.rest = c :: rest) (hi : f.instr? c = some i) (hphi : i.op = .phi)
    {p n : Nat} (hp : s.source = some p) (ht : i.targets[n]? = some (p : Int)) {u : Int}
    (hu : i.operands[n]? = some (.instr u)) : Q u s.entered := by
  obtain ⟨hedge, hreach⟩ := hs.source hp
  obtain ⟨blk, hblk, _⟩ := h.wf.mem_succ.mp hedge
  obtain ⟨t, hterm⟩ := h.wf.exists_terminator hblk
  obtain ⟨hc, hprec⟩ := h.ssa.incoming s.block c i n u p t (hs.located.stands hrest) hi hphi hu ht
    (h.isReachable_iff.mpr hreach) hterm
  exact (hk.entered p t hp hterm).2 u hc hprec

end

/-- Integer operations give values of their types, and the world does so for the others. -/
theorem Gives.holds (hW : W.Fits f) {i : Instr} (hi : f.Typed i) {env : Env} {vals : List Int}
    (hops : ∀ p, Value.instr p ∈ i.operands → OfType f p env)
    (hvals : List.Forall₂ (Reads W env) i.operands vals) {x : Int}
    (hx : Gives W (f.widthOf i) i vals x) : i.ty.Holds x := by
  cases hx with
  | arith _ hty =>
    rw [hty]
    exact Ty.holds_toInt _
  | trunc _ hty =>
    rw [hty]
    exact Ty.holds_toInt _
  | sext _ hty =>
    rw [hty]
    exact Ty.holds_toInt _
  | zext _ hty =>
    rw [hty]
    exact Ty.holds_toInt _
  | icmp hop =>
    rw [((Func.typed_icmp hop).mp hi).1]
    split <;> exact ⟨by decide, by decide⟩
  | @select c a b hop =>
    obtain ⟨vc, va, vb, hoperands, _, hta, htb⟩ := (Func.typed_select hop).mp hi
    rw [hoperands] at hvals
    simp only [List.forall₂_cons, List.forall₂_nil_right_iff] at hvals
    obtain ⟨_, hra, hrb, _⟩ := hvals
    split
    · exact reads_holds hW htb (fun p hp => hops p (by simp [hoperands, hp])) hrb
    · exact reads_holds hW hta (fun p hp => hops p (by simp [hoperands, hp])) hra
  | other _ hx => exact hx

/-- An instruction gives a value of its type. -/
theorem Step.ofType (h : f.Proper scope d) (hW : W.Fits f) {s t : State} {e : Option Event} {c : Int}
    {rest : List Int} (hs : Reached W f s) (hk : s.Knows f d (OfType f)) (hrest : s.rest = c :: rest)
    (hc : (f.opOf c).isTerminator = false) (hst : Step W f s e t) : OfType f c t.env := by
  intro i hi
  have hloc := hs.located
  have htyped := (h.typed.instr s.block c i (hloc.stands hrest) hi).2
  cases hst.result hrest hc hi with
  | @phi p v x hop hp ht hv hx =>
    have hmem := List.mem_of_getElem? hv
    refine reads_holds hW ((Func.typed_phi hop).mp htyped v hmem) (fun u hu => ?_) hx
    subst hu
    exact h.incoming_known hk hs hrest hi hop hp ht hv
  | compute hop hvals hx =>
    have hphi : i.op ≠ .phi := by
      intro he
      rw [he] at hop
      cases hop
    exact hx.holds hW htyped (fun p hp => h.operand_known hk hloc hrest hi hphi hp) hvals
  | undefined _ _ _ hx => exact hx
  | effect _ _ _ hx => exact hx

theorem Reached.ofType (h : f.Proper scope d) (hW : W.Fits f) {s : State} (hs : Reached W f s) :
    s.Knows f d (OfType f) :=
  hs.knows h.toHasDominance settled_ofType fun _ _ _ _ _ hs hk hrest hc hst =>
    hst.ofType h hW hs hk hrest hc

end RegPressure
