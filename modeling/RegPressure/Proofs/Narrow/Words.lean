import RegPressure.Proofs.Narrow.Resize

namespace RegPressure.Narrow

variable {scope : Option Symbols} {g g' : Func} {d : DomInfo} {W : World} {w n m : Nat} {x a : Int}

section Words

theorem signExtend_of_le (h : w ≤ n) (x : Int) : (BitVec.ofInt n x).signExtend w = BitVec.ofInt w x :=
  BitVec.eq_of_toInt_eq (low_low h)

theorem signExtend_signExtend (h : m ≤ n) (x : BitVec m) :
    (x.signExtend n).signExtend w = x.signExtend w := by
  change BitVec.ofInt w (x.signExtend n).toInt = BitVec.ofInt w x.toInt
  rw [ValueRange.toInt_signExtend h]

theorem signExtend_zeroExtend (h : w ≤ n) (x : BitVec w) : (x.zeroExtend n).signExtend w = x := by
  have := low_zeroExtend h x
  exact BitVec.eq_of_toInt_eq this

theorem ofInt_congr {y : Int} (h : m ≤ w) (he : BitVec.ofInt w x = BitVec.ofInt w y) :
    BitVec.ofInt m x = BitVec.ofInt m y := by
  rw [← setWidth_ofInt h x, he, setWidth_ofInt h y]

theorem constValue_of_ne {c : Int64} (h : m ≠ 1) : constValue (some (.int m)) c = c.toInt :=
  if_neg (by simpa [Ty.i1] using h)

theorem ofInt_constValue_lowBits (hw : 1 ≤ w) (c : Int64) :
    BitVec.ofInt w (constValue (some (.int w)) (lowBits c w)) = BitVec.ofInt w c.toInt := by
  by_cases hsmall : w < 64
  · rw [constValue_lowBits hw hsmall, low, BitVec.ofInt_toInt]
  · rw [lowBits, if_pos (by omega), constValue_of_ne (by omega)]

end Words

/-- Resizing `v` from `n` to `w` bits keeps its number: if it looks at something wider than `v` and
`w` is more than `n`, nothing was cut off there, and if it looks at a constant of fewer than `w` bits,
the sign of the constant is the one of the number that is written. -/
structure Faithful (W : World) (env : Env) (g : Func) (w n : Nat) (v : Value) : Prop where
  cut : ∀ y m a, source g v n (.int w) = .ok (y, m) → n < m → n < w → Reads W env y a →
    (BitVec.ofInt m a).signExtend w = (BitVec.ofInt n a).signExtend w
  sign : ∀ c m, source g v n (.int w) = .ok (.int (some (.int m)) c, m) → n ≠ w → m < w →
    BitVec.ofInt w c.toInt = (BitVec.ofInt m (constValue (some (.int m)) c)).signExtend w

inductive CastWord (w n m : Nat) (x a : Int) : Prop
  | extended : m ≤ n → (BitVec.ofInt n x).signExtend w = (BitVec.ofInt m a).signExtend w →
      CastWord w n m x a
  | cut : n < m → BitVec.ofInt n x = BitVec.ofInt n a → CastWord w n m x a

theorem CastWord.eq_iff (h : CastWord w n m x a) :
    (BitVec.ofInt m a).signExtend w = (BitVec.ofInt n x).signExtend w ↔
      (n < m → n < w → (BitVec.ofInt m a).signExtend w = (BitVec.ofInt n a).signExtend w) := by
  cases h with
  | extended hle he => exact iff_of_true he.symm fun hlt => absurd hlt (by omega)
  | cut hlt he =>
    rw [he]
    refine ⟨fun h _ _ => h, fun h => ?_⟩
    by_cases hw : n < w
    · exact h hlt hw
    · rw [signExtend_of_le (by omega), signExtend_of_le (by omega)]

/-- A constant is written with its own sign, and cutting it keeps that. -/
theorem CastWord.const_iff {c : Int64} (h : CastWord w n m x a) (hn : 1 ≤ n) (hw : 1 ≤ w) (hm : m ≠ w)
    (ha : a = constValue (some (.int m)) c) :
    BitVec.ofInt w c.toInt = (BitVec.ofInt n x).signExtend w ↔
      (n < m → n < w → (BitVec.ofInt m a).signExtend w = (BitVec.ofInt n a).signExtend w) ∧
        (m < w → BitVec.ofInt w c.toInt = (BitVec.ofInt m a).signExtend w) := by
  have hless : w < m → BitVec.ofInt w c.toInt = (BitVec.ofInt m a).signExtend w := by
    intro hlt
    rw [signExtend_of_le hlt.le, ha, constValue_of_ne (by omega)]
  cases h with
  | extended hle he =>
    rw [he]
    refine ⟨fun h => ⟨fun hlt => absurd hlt (by omega), fun _ => h⟩, fun h => ?_⟩
    rcases lt_or_gt_of_ne hm with hlt | hlt
    · exact h.2 hlt
    · exact hless hlt
  | cut hlt he =>
    rw [ha, constValue_of_ne (by omega)] at hless he ⊢
    rw [he]
    by_cases hnw : n < w
    · constructor
      · intro hc
        -- The written number agrees with the cut one in all bits there are.
        have hsame : (BitVec.ofInt m c.toInt).signExtend w = (BitVec.ofInt n c.toInt).signExtend w := by
          rcases lt_or_gt_of_ne hm with hmw | hmw
          · have hcut : BitVec.ofInt m c.toInt = (BitVec.ofInt n c.toInt).signExtend m :=
              ofInt_congr hmw.le hc
            rw [hcut, signExtend_signExtend hlt.le]
          · rw [← hless hmw, hc]
        exact ⟨fun _ _ => hsame, fun _ => hc.trans hsame.symm⟩
      · intro h
        rw [← h.1 hlt hnw]
        rcases lt_or_gt_of_ne hm with hmw | hmw
        · exact h.2 hmw
        · exact hless hmw
    · have : BitVec.ofInt w c.toInt = (BitVec.ofInt n c.toInt).signExtend w :=
        (signExtend_of_le (by omega) _).symm
      exact iff_of_true this ⟨fun _ h => absurd h hnw, fun h => absurd h (by omega)⟩

section Running

variable (h : g.HasDominance scope d) (hssa : g.InSsaForm d fun b => d.dom.isReachable b = true)
  {s : State} (hs : Reached W g s) {c : Int} {rest : List Int} (hrest : s.rest = c :: rest)
  (hD : W.Definite) {v y : Value}

include h hssa hs hrest hD

/-- What is looked at is available as well, and its number gives the word of `v`. -/
theorem SourceCase.castWord (hsrc : SourceCase g w n v y m) (hy : g.typeOf y = .ok (some (.int m)))
    (hv : g.Available d v c) (hx : Reads W s.env v x) :
    g.Available d y c ∧ ∃ a, Reads W s.env y a ∧ CastWord w n m x a := by
  have hwidth : ∀ {i : Instr}, i.operands = [y] → g.widthOf i = some m := by
    intro i hops
    simp [Func.widthOf, hops, hy]
  cases hsrc with
  | self he hm =>
    subst he hm
    exact ⟨hv, x, hx, .extended le_rfl rfl⟩
  | trunc he hi hop hty hops hlt =>
    subst he
    obtain ⟨hav, a, ha, hgives⟩ := computed_of_available h hssa hs hrest hD hv hi (by rw [hop]; rfl) hops
    obtain ⟨_, ⟨⟩, hval⟩ := (gives_trunc hop hty).mp hgives
    cases hx
    refine ⟨hav, a, ha, .cut hlt ?_⟩
    rw [hval, BitVec.ofInt_toInt]
  | sext he hi hop hty hops hlt =>
    subst he
    obtain ⟨hav, a, ha, hgives⟩ := computed_of_available h hssa hs hrest hD hv hi (by rw [hop]; rfl) hops
    rw [hwidth hops] at hgives
    obtain ⟨_, ⟨⟩, hval⟩ := (gives_sext hop hty).mp hgives
    cases hx
    refine ⟨hav, a, ha, .extended hlt.le ?_⟩
    rw [hval, BitVec.ofInt_toInt, signExtend_signExtend hlt.le]
  | zext he hi hop hty hops hlt hmw =>
    subst he hmw
    obtain ⟨hav, a, ha, hgives⟩ := computed_of_available h hssa hs hrest hD hv hi (by rw [hop]; rfl) hops
    rw [hwidth hops] at hgives
    obtain ⟨_, ⟨⟩, hval⟩ := (gives_zext hop hty).mp hgives
    cases hx
    refine ⟨hav, a, ha, .extended hlt.le ?_⟩
    rw [hval, BitVec.ofInt_toInt, signExtend_zeroExtend hlt.le, signExtend_of_le le_rfl]

theorem word_of_cast {u : Int} {i : Instr} {x' : Int} (hi : g.instr? u = some i)
    (hop : i.op = if m > w then .trunc else .sext) (hty : i.ty = .int w) (hops : i.operands = [y])
    (hy : g.typeOf y = .ok (some (.int m))) (hu : g.Available d (.instr u) c) (ha : Reads W s.env y a)
    (hx' : Reads W s.env (.instr u) x') : BitVec.ofInt w x' = (BitVec.ofInt m a).signExtend w := by
  have hpure : i.op.isPure = true := by
    rw [hop]
    split <;> rfl
  obtain ⟨-, a', ha', hgives⟩ := computed_of_available h hssa hs hrest hD hu hi hpure hops
  obtain rfl := hD.reads_unique ha' ha
  cases hx'
  by_cases hlt : m > w
  · rw [if_pos hlt] at hop
    obtain ⟨_, ⟨⟩, hval⟩ := (gives_trunc hop hty).mp hgives
    rw [hval, BitVec.ofInt_toInt, signExtend_of_le (by omega)]
  · rw [if_neg hlt] at hop
    rw [Func.widthOf, hops] at hgives
    simp only [List.head?_cons, Option.map_some, hy] at hgives
    obtain ⟨_, ⟨⟩, hval⟩ := (gives_sext hop hty).mp hgives
    rw [hval, BitVec.ofInt_toInt]

end Running

theorem typeOf_instr {q : Int} {i : Instr} (hi : g.instr? q = some i) :
    g.typeOf (.instr q) = .ok (some i.ty) := by
  simp [Func.typeOf, Func.instr_eq_ok.mpr hi]

/-- What is looked at is in the function. -/
theorem SourceCase.resolves (hg : g.WellFormed scope) {v y : Value} (hsrc : SourceCase g w n v y m)
    (hstands : ∀ q, v = .instr q → ∃ b, g.Stands b q) (hty : g.typeOf v = .ok (some (.int n))) :
    g.Resolves scope y := by
  have hoperand : ∀ {q i}, v = .instr q → g.instr? q = some i → i.operands = [y] → g.Resolves scope y := by
    intro q i he hi hops
    obtain ⟨b, hb⟩ := hstands q he
    exact (hg.references hb hi).operands y (by simp [hops])
  cases hsrc with
  | self he =>
    subst he
    cases y with
    | instr q =>
      obtain ⟨b, hb⟩ := hstands q rfl
      exact hg.resolves_of_stands hb
    | arg k =>
      by_contra hlt
      simp [Func.typeOf, show ¬ k < g.params.length from hlt] at hty
    | global k => cases hty
    | int _ _ | float _ _ | null | undef _ | str _ => trivial
  | trunc he hi _ _ hops => exact hoperand he hi hops
  | sext he hi _ _ hops => exact hoperand he hi hops
  | zext he hi _ _ hops => exact hoperand he hi hops

theorem Placed.adds (hg : g.WellFormed scope) {y : Value} {op : Op} {u : Int}
    (h : Placed g y op w u g') : g.Adds u g' := by
  cases h with
  | after _ _ _ hins =>
    simp only [Func.insertAfter, Checked.bind_eq_ok] at hins
    obtain ⟨_, _, _, _, hins⟩ := hins
    exact Func.adds_of_insertAt hg hins
  | phi _ _ _ _ hins => exact Func.adds_of_insertAt hg hins
  | arg _ _ hins => exact Func.adds_of_insertAt hg hins

structure CastAdded (scope : Option Symbols) (d : DomInfo) (g : Func) (y : Value) (op : Op) (w : Nat)
    (u : Int) (g' : Func) : Prop where
  dominance : g'.HasDominance scope d
  ssa : g'.InSsaForm d fun b => d.dom.isReachable b = true
  instr : ∃ i, g'.instr? u = some i ∧ i.op = op ∧ i.ty = .int w ∧ i.operands = [y]
  same : ∀ {b q : Int}, g.Stands b q → g'.instr? q = g.instr? q
  typeOf : g'.typeOf y = g.typeOf y
  available : ∀ {b : Nat} {c : Int} {v : Value}, g.Stands b c → g.Available d v c → g'.Available d v c
  cast : ∀ {b : Nat} {c : Int}, g.Stands b c → d.dom.isReachable b = true → g.opOf c ≠ .phi →
    g.Available d y c → g'.Available d (.instr u) c

theorem Placed.castAdded (h : g.HasDominance scope d)
    (hssa : g.InSsaForm d fun b => d.dom.isReachable b = true) {y : Value} {op : Op} {u : Int}
    (hplaced : Placed g y op w u g') (hop : op = .trunc ∨ op = .sext) (hres : g.Resolves scope y)
    (hcomp : ∀ p, y = .instr p → g.Computes p) : CastAdded scope d g y op w u g' := by
  obtain ⟨hphi, hterm⟩ : op ≠ .phi ∧ op.isTerminator = false := by
    rcases hop with rfl | rfl <;> decide
  obtain ⟨k, l, r, i, hins, hiop, hty, hops, htargets, hleft, hright⟩ :=
    hplaced.inserts h hcomp hphi hterm
  obtain ⟨hdom', hssa'⟩ := behind_inserted hins hops htargets (hiop ▸ hphi) hleft h hssa hres hcomp
  refine ⟨hdom', hssa', ⟨i, hins.instr_eq, hiop, hty, hops⟩,
    fun hb => (hins.instr _ (hins.stands.mp hb).2).symm, (hins.typeOf ?_).symm, fun hc hv p hp => ?_,
    fun hc hb hcphi hv p hp => ?_⟩
  · rintro rfl
    obtain ⟨⟨b, hb⟩, -⟩ := hcomp u rfl
    exact (hins.stands.mp hb).2 rfl
  · obtain ⟨hcp, hprec⟩ := hv p hp
    obtain ⟨z, hz⟩ := hcp.1
    have hpu := (hins.stands.mp hz).2
    exact ⟨(hins.computes hpu).mp hcp, (hins.precedes h.wf hdom'.wf hz hc).mp hprec⟩
  · cases hp
    refine ⟨hins.computes_self, (hins.self_precedes rfl hdom'.wf (hins.stands.mp hc).1).mpr ?_⟩
    exact hright _ _ hc hb hcphi hv

theorem faithful_iff {env : Env} {v y : Value} (hsource : source g v n (.int w) = .ok (y, m))
    (hn : n ≠ w) (hD : W.Definite) (ha : Reads W env y a) : Faithful W env g w n v ↔
      (n < m → n < w → (BitVec.ofInt m a).signExtend w = (BitVec.ofInt n a).signExtend w) ∧
        ∀ c, y = .int (some (.int m)) c → m < w →
          BitVec.ofInt w c.toInt = (BitVec.ofInt m (constValue (some (.int m)) c)).signExtend w := by
  constructor
  · rintro ⟨hcut, hsign⟩
    exact ⟨fun hm hw => hcut y m a hsource hm hw ha, fun c hy hm => hsign c m (hy ▸ hsource) hn hm⟩
  · rintro ⟨hcut, hsign⟩
    refine ⟨fun y' m' a' hsource' hm hw ha' => ?_, fun c m' hsource' _ hm => ?_⟩
    · rw [hsource] at hsource'
      cases hsource'
      rw [hD.reads_unique ha' ha]
      exact hcut hm hw
    · rw [hsource] at hsource'
      cases hsource'
      exact hsign c rfl hm

/-- Whatever resizing gives is available wherever the value was, phis apart, and it is the word of the
value with the sign extended, or cut to its low bits, exactly if the resize is faithful. -/
theorem resize_word {v v' : Value} (hverify : g.verify scope = .ok []) (hdom : DomInfo.compute g = .ok d)
    (hssa : g.InSsaForm d fun b => d.dom.isReachable b = true) (hcasts : CastsAgree g)
    (hty : g.typeOf v = .ok (some (.int n))) (hn : 1 ≤ n) (hw : 1 ≤ w)
    (he : (resize scope v (.int w)).run g = .ok v' g') (hD : W.Definite) {s : State}
    (hs : Reached W g' s) {c : Int} {rest : List Int} (hrest : s.rest = c :: rest)
    (hc : g.Stands s.block c) (hphi : g.opOf c ≠ .phi) (hv : g.Available d v c) {x : Int}
    (hx : Reads W s.env v x) :
    g'.typeOf v' = .ok (some (.int w)) ∧ g'.Available d v' c ∧ (∃ x', Reads W s.env v' x') ∧
      ∀ x', Reads W s.env v' x' →
        (BitVec.ofInt w x' = (BitVec.ofInt n x).signExtend w ↔ Faithful W s.env g w n v) := by
  have hg : g.HasDominance scope d := ⟨Func.verify_eq_nil.mp hverify, hdom⟩
  have hstands : ∀ q, v = .instr q → ∃ b, g.Stands b q := fun q hq => (hv q hq).1.1
  -- What comes out is the value itself, the source of its casts, a constant, or a new cast of that
  -- source.
  cases resize_cases he with
  | @same k ht hk hv' hg' =>
    rw [hty] at ht
    cases ht
    subst hk hv' hg'
    refine ⟨hty, hv, ⟨x, hx⟩, fun x' hx' => iff_of_true ?_ ?_⟩
    · rw [hD.reads_unique hx' hx, signExtend_of_le le_rfl]
    · exact ⟨fun _ _ _ _ _ hlt => absurd hlt (lt_irrefl _), fun _ _ _ hne => absurd rfl hne⟩
  | @source k y ht hnw hsource hv' hg' =>
    rw [hty] at ht
    cases ht
    subst hv' hg'
    obtain ⟨hsrc, hy⟩ := sourceCase hcasts hstands hty hnw hsource
    obtain ⟨hav, a, ha, hword⟩ := hsrc.castWord hg hssa hs hrest hD hy hv hx
    refine ⟨hy, hav, ⟨a, ha⟩, fun x' hx' => ?_⟩
    rw [hD.reads_unique hx' ha, faithful_iff hsource hnw hD ha, ← hword.eq_iff, signExtend_of_le le_rfl]
    exact (and_iff_left fun c _ hlt => absurd hlt (lt_irrefl _)).symm
  | @const k m y c' ht hnw hsource hm hconst hv' hg' =>
    rw [hty] at ht
    cases ht
    subst hv' hg'
    obtain ⟨hsrc, hy⟩ := sourceCase hcasts hstands hty hnw hsource
    obtain ⟨hav, a, ha, hword⟩ := hsrc.castWord hg hssa hs hrest hD hy hv hx
    obtain ⟨t, rfl⟩ : ∃ t, y = .int t c' := by
      cases y <;> simp_all [Value.intConst?]
    cases hy
    cases ha
    refine ⟨rfl, by rintro _ ⟨⟩, ⟨_, rfl⟩, fun x' hx' => ?_⟩
    cases hx'
    rw [ofInt_constValue_lowBits hw, hword.const_iff hn hw hm rfl, faithful_iff hsource hnw hD rfl]
    refine and_congr_right fun _ => ⟨fun h c hc => ?_, fun h => h c' rfl⟩
    cases hc
    exact h
  | @cast k m y u ht hnw hsource hm hconst hv' hplaced =>
    rw [hty] at ht
    cases ht
    subst hv'
    obtain ⟨hsrc, hy⟩ := sourceCase hcasts hstands hty hnw hsource
    have hadds := hplaced.adds hg.wf
    have hreach : d.dom.isReachable s.block = true := by
      have := hs.located.reaches
      rw [← hadds.graph, ← hadds.entryNode] at this
      exact hg.isReachable_iff.mpr this
    have hyav := hsrc.available hg hssa hc hreach hv
    have hadded := hplaced.castAdded hg hssa (by split <;> simp) (hsrc.resolves hg.wf hstands hty)
      fun p hp => (hyav p hp).1
    obtain ⟨i, hi, hop, hity, hops⟩ := hadded.instr
    have hy' := hadded.typeOf.trans hy
    have hsrc' := hsrc.mono fun {q i} hq hi => by
      obtain ⟨b, hb⟩ := hstands q hq
      exact (hadded.same hb).trans hi
    have hu := hadded.cast hc hreach hphi hyav
    obtain ⟨-, a, ha, hword⟩ := hsrc'.castWord hadded.dominance hadded.ssa hs hrest hD hy'
      (hadded.available hc hv) hx
    refine ⟨(typeOf_instr hi).trans (by rw [hity]), hu, ⟨_, rfl⟩, fun x' hx' => ?_⟩
    rw [word_of_cast hadded.dominance hadded.ssa hs hrest hD hi hop hity hops hy' hu ha hx', hword.eq_iff,
      faithful_iff hsource hnw hD ha]
    refine (and_iff_left fun c hc => ?_).symm
    rw [hc] at hconst
    cases hconst

def extending (y : Value) : Func where
  name := "extending"
  params := [⟨"x", some (.int 16)⟩]
  ret := .i32
  blocks := #[{ name := "start", instrs := [0, 1] }]
  instrs := #[{ home := some 0, op := .sext, ty := .i32, operands := [y] },
    { home := some 0, op := .ret, operands := [.instr 0] }]
  entry := some 0

namespace extending

def dominance : DomInfo :=
  ⟨(extending (.arg 0)).graph.dominators 0, (extending (.arg 0)).graph.postDominators⟩

def cut : Func :=
  { extending (.arg 0) with
    blocks := #[{ name := "start", instrs := [2, 0, 1] }]
    instrs := (extending (.arg 0)).instrs.push
      { home := some 0, op := .trunc, ty := .int 8, operands := [.arg 0] } }

theorem cut_reaches : ∃ s, Reached (.quiet 800) cut s ∧ s.block = 0 ∧ s.rest = [1] ∧ s.env 0 = 800 := by
  let s₀ : State := ⟨0, [2, 0, 1], fun _ => 0, fun _ => 0, none, fun _ => 0⟩
  let s₁ := s₀.after [0, 1] 2 (BitVec.ofInt 8 800).toInt
  let s₂ := s₁.after [1] 0 ((BitVec.ofInt 16 800).signExtend 32).toInt
  have hreads : ∀ env, List.Forall₂ (Reads (.quiet 800) env) [.arg 0] [800] := fun _ => .cons rfl .nil
  have h₁ : Runs (.quiet 800) cut [] s₁ :=
    .step (.start ⟨rfl, rfl, rfl⟩)
      (.on (s := s₀) rfl rfl (.compute rfl (hreads _) (.trunc rfl rfl)))
  have h₂ : Runs (.quiet 800) cut [] s₂ :=
    .step h₁ (.on (s := s₁) rfl rfl (.compute rfl (hreads _) (.sext rfl rfl rfl)))
  exact ⟨s₂, ⟨_, h₂⟩, rfl, rfl, by decide⟩

theorem bit_reaches : ∃ s, Reached (.quiet 0) (extending (.int (some .i1) 1)) s ∧ s.rest = [1] ∧
    s.env 0 = -1 := by
  let s₀ : State := ⟨0, [0, 1], fun _ => 0, fun _ => 0, none, fun _ => 0⟩
  let s₁ := s₀.after [1] 0 ((BitVec.ofInt 1 (-1)).signExtend 32).toInt
  have hreads : List.Forall₂ (Reads (.quiet 0) s₀.env) [.int (some .i1) 1] [-1] := .cons rfl .nil
  have h₁ : Runs (.quiet 0) (extending (.int (some .i1) 1)) [] s₁ :=
    .step (.start ⟨rfl, rfl, rfl⟩)
      (.on (s := s₀) rfl rfl (.compute rfl hreads (.sext rfl rfl rfl)))
  exact ⟨s₁, ⟨_, h₁⟩, rfl, by decide⟩

end extending

open extending

/-- The number 800 is 32 in eight bits. -/
theorem extending_cut_word : (resize none (.instr 0) (.int 8)).run (extending (.arg 0)) =
      .ok (.instr 2) cut ∧
    ∃ s, Reached (.quiet 800) cut s ∧ s.rest = [1] ∧ Reads (.quiet 800) s.env (.instr 0) 800 ∧
      ∀ x', Reads (.quiet 800) s.env (.instr 2) x' → BitVec.ofInt 8 x' = 32#8 := by
  have he : (resize none (.instr 0) (.int 8)).run (extending (.arg 0)) = .ok (.instr 2) cut := by rfl
  have hdom : DomInfo.compute (extending (.arg 0)) = .ok dominance := by decide +kernel
  have hssa : (extending (.arg 0)).InSsaForm dominance fun b => dominance.dom.isReachable b = true :=
    Func.inSsaForm_of_holds (by decide +kernel) (by decide +kernel)
  have hcasts := castsAgree_of_wellTyped (g := extending (.arg 0))
    (Func.wellTyped_of_holds (by decide +kernel))
  have hav : (extending (.arg 0)).Available dominance (.instr 0) 1 := by
    rintro _ ⟨⟩
    exact ⟨by decide +kernel, by decide +kernel⟩
  -- The argument is looked at, which is no constant and narrower than its extension.
  have hfaithful : ∀ env, Faithful (.quiet 800) env (extending (.arg 0)) 8 32 (.instr 0) := by
    intro env
    have hsource : source (extending (.arg 0)) (.instr 0) 32 (.int 8) = .ok (.arg 0, 16) := rfl
    exact (faithful_iff (a := 800) hsource (by decide) (World.quiet_definite _) rfl).mpr
      ⟨fun h => absurd h (by decide), fun _ h => by cases h⟩
  obtain ⟨s, hs, hblock, hrest, hval⟩ := cut_reaches
  have hreads : Reads (.quiet 800) s.env (.instr 0) 800 := hval.symm
  obtain ⟨-, -, -, hword⟩ := resize_word (by decide +kernel) hdom hssa hcasts rfl (by decide) (by decide) he
    (World.quiet_definite _) hs hrest (hblock ▸ by decide +kernel) (by decide +kernel) hav hreads
  refine ⟨he, s, hs, hrest, hreads, fun x' hx' => ?_⟩
  rw [(hword x' hx').mpr (hfaithful _)]
  decide

/-- A true bit with its sign extended is minus one, but in sixteen bits it becomes one. -/
theorem extending_bit_loses_sign : (extending (.int (some .i1) 1)).verify none = .ok [] ∧
    (extending (.int (some .i1) 1)).WellTyped ∧
    (resize none (.instr 0) (.int 16)).run (extending (.int (some .i1) 1)) =
      .ok (.int (some (.int 16)) 1) (extending (.int (some .i1) 1)) ∧
    ∃ s, Reached (.quiet 0) (extending (.int (some .i1) 1)) s ∧ s.rest = [1] ∧
      Reads (.quiet 0) s.env (.instr 0) (-1) ∧ Reads (.quiet 0) s.env (.int (some (.int 16)) 1) 1 ∧
        BitVec.ofInt 16 1 ≠ (BitVec.ofInt 32 (-1)).signExtend 16 := by
  refine ⟨by decide +kernel, Func.wellTyped_of_holds (by decide +kernel), by rfl, ?_⟩
  obtain ⟨s, hs, hrest, hval⟩ := bit_reaches
  exact ⟨s, hs, hrest, hval.symm, rfl, by decide⟩

end RegPressure.Narrow
