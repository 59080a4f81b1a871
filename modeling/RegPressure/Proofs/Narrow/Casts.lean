import RegPressure.Proofs.Run.Traces
import RegPressure.Proofs.Narrow.LowBits
import RegPressure.Proofs.ValueRange.Soundness
import RegPressure.Pass.Narrow

namespace RegPressure

theorem Op.ne_of_isArith {op o : Op} (h : op.isArith = true) (ho : o.isArith = false) : op ≠ o := by
  rintro rfl
  rw [h] at ho
  cases ho

theorem Op.isArith_of_rightShift {op : Op} (h : op = .ashr ∨ op = .lshr) : op.isArith = true := by
  rcases h with rfl | rfl <;> rfl

namespace Narrow

variable {scope : Option Symbols} {g g' : Func} {d : DomInfo} {W : World} {w n m : Nat} {x : Int}

def low (w : Nat) (x : Int) : Int := (BitVec.ofInt w x).toInt

theorem low_eq_bmod : low w x = x.bmod (2 ^ w) := BitVec.toInt_ofInt x

theorem low_of_holds (hw : 1 ≤ w) (hx : (Ty.int w).Holds x) : low w x = x := ofInt_toInt_of_holds hw hx

theorem low_low (h : w ≤ n) : low w (low n x) = low w x := by
  rw [low_eq_bmod, low_eq_bmod, low_eq_bmod, Int.bmod_bmod_of_dvd (Nat.pow_dvd_pow 2 h)]

theorem low_zeroExtend (h : w ≤ n) (x : BitVec w) : low w (x.zeroExtend n).toInt = x.toInt := by
  have hx := setWidth_ofInt h (x.zeroExtend n).toInt
  rw [BitVec.ofInt_toInt, BitVec.zeroExtend, BitVec.setWidth_setWidth_of_le _ h,
    BitVec.setWidth_eq] at hx
  rw [low, BitVec.zeroExtend, ← hx]

theorem toInt_lowBits (hw : w < 64) (c : Int64) : (lowBits c w).toInt = low w c.toInt := by
  rw [lowBits, if_neg (by omega), low_eq_bmod]
  have hpos : 0 < 2 ^ w := by positivity
  have hle : (2 : Int) ^ w ≤ 2 ^ 63 := by exact_mod_cast Nat.pow_le_pow_right (by decide) (by omega)
  have h1 := Int.le_bmod (x := c.toInt) hpos
  have h2 := Int.bmod_lt (x := c.toInt) hpos
  push_cast at h1 h2
  rw [Nat.pow_eq]
  refine Int64.toInt_ofInt_of_le ?_ ?_
  · push_cast; omega
  · push_cast; omega

theorem constValue_lowBits (hw : 1 ≤ w) (hw' : w < 64) (c : Int64) :
    constValue (some (.int w)) (lowBits c w) = low w c.toInt := by
  have hlow := toInt_lowBits hw' c
  unfold constValue
  by_cases h1 : w = 1
  · subst h1
    rw [if_pos rfl]
    have hholds : (Ty.int 1).Holds (low 1 c.toInt) := Ty.holds_toInt _
    by_cases h0 : lowBits c 1 = 0
    · rw [if_pos h0, ← hlow, h0]
      rfl
    · rw [if_neg h0]
      have hne : low 1 c.toInt ≠ 0 := by
        intro he
        exact h0 (Int64.toInt_inj.mp (hlow.trans he))
      obtain ⟨h1, h2⟩ := hholds
      simp at h1 h2
      omega
  · rw [if_neg (by simpa [Ty.i1] using h1), hlow]

inductive Cut (g : Func) (w : Nat) : Value → Value → Prop
  | same {v : Value} : g.HasTy v (.int w) → Cut g w v v
  | const {n : Nat} {c : Int64} : w < 64 → (n = 1 → c = 0) →
      Cut g w (.int (some (.int n)) c) (.int (some (.int w)) (lowBits c w))
  | trunc {v : Value} {u : Int} {i : Instr} : g.instr? u = some i → i.op = .trunc → i.ty = .int w →
      i.operands = [v] → Cut g w v (.instr u)
  | sext {m : Nat} {v : Value} {u : Int} {i : Instr} : g.instr? u = some i → i.op = .sext → i.ty = .int w →
      i.operands = [v] → g.HasTy v (.int m) → m ≤ w → Cut g w v (.instr u)

inductive Resized (g : Func) (w : Nat) (v v' : Value) : Prop
  | direct : Cut g w v v' → Resized g w v v'
  | trunc {n : Nat} {q : Int} {i : Instr} {y : Value} : v = .instr q → g.instr? q = some i → i.op = .trunc →
      i.ty = .int n → w ≤ n → i.operands = [y] → Cut g w y v' → Resized g w v v'
  | sext {n m : Nat} {q : Int} {i : Instr} {y : Value} : v = .instr q → g.instr? q = some i → i.op = .sext →
      i.ty = .int n → i.operands = [y] → g.HasTy y (.int m) → m ≤ n → Cut g w y v' → Resized g w v v'
  | zext {n : Nat} {q : Int} {i : Instr} {y : Value} : v = .instr q → g.instr? q = some i → i.op = .zext →
      i.ty = .int n → i.operands = [y] → g.HasTy y (.int w) → w ≤ n → v' = y → Resized g w v v'

section Available

variable (h : g.HasDominance scope d) (hssa : g.InSsaForm d fun b => d.dom.isReachable b = true)

include h hssa

theorem available_operand {q : Int} {i : Instr} {y : Value} (hi : g.instr? q = some i)
    (hphi : i.op ≠ .phi) (hy : y ∈ i.operands) {c : Int} {b : Nat} (hc : g.Stands b c)
    (hb : d.dom.isReachable b = true) (hq : g.Available d (.instr q) c) : g.Available d y c := by
  obtain ⟨⟨⟨x, hx⟩, _⟩, hprec⟩ := hq q rfl
  obtain ⟨x, rfl, _⟩ := hx.nat
  have hreach := h.reachable_of_precedes hx hc hb hprec
  intro p hp
  obtain ⟨hcomp, hpq⟩ := hssa.available hreach hx hi hphi hy p hp
  obtain ⟨z, hz⟩ := hcomp.1
  exact ⟨hcomp, h.precedes_trans hz hx hc hpq hprec⟩

/-- What an available instruction without effects computed from its operand. -/
theorem computed_of_available {s : State} (hs : Reached W g s) {c : Int} {rest : List Int}
    (hrest : s.rest = c :: rest) (hD : W.Definite) {q : Int} {i : Instr}
    (hq : g.Available d (.instr q) c) (hi : g.instr? q = some i) (hop : i.op.isPure = true) {y : Value}
    (hy : i.operands = [y]) :
    g.Available d y c ∧ ∃ a, Reads W s.env y a ∧ Gives W (g.widthOf i) i [a] (s.env q) := by
  obtain ⟨hcomp, hprec⟩ := hq q rfl
  have hbehind := (hs.located.behind_iff h hrest).mpr ⟨hcomp, hprec⟩
  obtain ⟨b, hb⟩ := hcomp.1
  obtain ⟨b, rfl, _⟩ := hb.nat
  have hc := hs.located.stands hrest
  have hhere : d.dom.isReachable s.block = true := h.isReachable_iff.mpr hs.located.reaches
  have hreach := h.reachable_of_precedes hb hc hhere hprec
  refine ⟨available_operand h hssa hi (Op.ne_phi_of_isPure hop) (by simp [hy]) hc hhere hq, ?_⟩
  obtain ⟨vals, hvals, hgives⟩ := (hs.computed h hssa hD).now q hbehind b i hb hreach hi hop
  rw [hy] at hvals
  obtain ⟨a, _, ha, hnil, rfl⟩ := List.forall₂_cons_left_iff.mp hvals
  cases hnil
  exact ⟨a, ha, hgives⟩

end Available

section Reading

variable (h : g.Proper scope d) (hW : W.Fits g) (hD : W.Definite) {s : State} (hs : Reached W g s)
  {c : Int} {rest : List Int} (hrest : s.rest = c :: rest) {v v' : Value}

include h hs hrest

theorem available_at {i : Instr} (hi : g.instr? c = some i) (hphi : i.op ≠ .phi) (hv : v ∈ i.operands) :
    g.Available d v c :=
  h.ssa.available (h.isReachable_iff.mpr hs.located.reaches) (hs.located.stands hrest) hi hphi hv

include hW

theorem available_holds {t : Ty} (hv : g.HasTy v t) (havail : g.Available d v c)
    (hx : Reads W s.env v x) : t.Holds x := by
  refine reads_holds hW hv (fun p hp => ?_) hx
  obtain ⟨hcomp, hprec⟩ := havail p hp
  exact (hs.ofType h hW).available h.toHasDominance hs.located hrest hcomp hprec

include hD

theorem Cut.reads (hcut : Cut g w v v') (hw : 1 ≤ w) (hv : g.Available d v c) (hv' : g.Available d v' c)
    (hx : Reads W s.env v x) : Reads W s.env v' (low w x) := by
  cases hcut with
  | same hty => rwa [low_of_holds hw (available_holds h hW hs hrest hty hv hx)]
  | @const n c hw' hc =>
    cases hx
    have hval : constValue (some (.int n)) c = c.toInt := by
      unfold constValue
      split
      · next he =>
        have : n = 1 := by simpa [Ty.i1] using he
        rw [hc this]
        rfl
      · rfl
    rw [Reads, hval, constValue_lowBits hw hw']
  | trunc hi hop hty hops =>
    obtain ⟨_, a, ha, hgives⟩ := computed_of_available h.toHasDominance h.ssa hs hrest hD hv' hi (by rw [hop]; rfl) hops
    obtain ⟨_, ⟨⟩, hval⟩ := (gives_trunc hop hty).mp hgives
    rw [Reads, hval, hD.reads_unique hx ha]
    rfl
  | sext hi hop hty hops hm hle =>
    obtain ⟨_, a, ha, hgives⟩ := computed_of_available h.toHasDominance h.ssa hs hrest hD hv' hi (by rw [hop]; rfl) hops
    rw [Func.widthOf_eq hops hm] at hgives
    obtain ⟨_, ⟨⟩, hval⟩ := (gives_sext hop hty).mp hgives
    have hax := hD.reads_unique ha hx
    subst hax
    have hvalid := h.typed.valid_of_hasTy hm
    have hholds := available_holds h hW hs hrest hm hv hx
    rw [Reads, hval, ValueRange.toInt_signExtend hle, ofInt_toInt_of_holds hvalid.1 hholds,
      low_of_holds hw (Interval.holds_mono hle hholds)]

theorem Resized.reads (hres : Resized g w v v') (hw : 1 ≤ w) (hv : g.Available d v c)
    (hv' : g.Available d v' c) (hx : Reads W s.env v x) : Reads W s.env v' (low w x) := by
  cases hres with
  | direct hcut => exact hcut.reads h hW hD hs hrest hw hv hv' hx
  | trunc he hi hop hty hle hops hcut =>
    subst he
    obtain ⟨hy, a, ha, hgives⟩ := computed_of_available h.toHasDominance h.ssa hs hrest hD hv hi (by rw [hop]; rfl) hops
    obtain ⟨_, ⟨⟩, hval⟩ := (gives_trunc hop hty).mp hgives
    cases hx
    have := hcut.reads h hW hD hs hrest hw hy hv' ha
    rwa [hval, ← low, low_low hle]
  | sext he hi hop hty hops hm hle hcut =>
    subst he
    obtain ⟨hy, a, ha, hgives⟩ := computed_of_available h.toHasDominance h.ssa hs hrest hD hv hi (by rw [hop]; rfl) hops
    rw [Func.widthOf_eq hops hm] at hgives
    obtain ⟨_, ⟨⟩, hval⟩ := (gives_sext hop hty).mp hgives
    cases hx
    have hholds := available_holds h hW hs hrest hm hy ha
    rw [hval, ValueRange.toInt_signExtend hle, ofInt_toInt_of_holds (h.typed.valid_of_hasTy hm).1 hholds]
    exact hcut.reads h hW hD hs hrest hw hy hv' ha
  | zext he hi hop hty hops hm hle heq =>
    subst he heq
    obtain ⟨hy, a, ha, hgives⟩ := computed_of_available h.toHasDominance h.ssa hs hrest hD hv hi (by rw [hop]; rfl) hops
    rw [Func.widthOf_eq hops hm] at hgives
    obtain ⟨_, ⟨⟩, hval⟩ := (gives_zext hop hty).mp hgives
    cases hx
    rw [hval, low_zeroExtend hle, ← low, low_of_holds hw (available_holds h hW hs hrest hm hy ha)]
    exact ha

end Reading

section Enlarging

variable {v v' : Value} {t t' : Ty} (h : g.Enlarges d g')

include h

theorem Cut.enlarges (hcut : Cut g w v v') (hv' : g.HasTy v' t') : Cut g' w v v' := by
  cases hcut with
  | same hty => exact .same (h.hasTy hty)
  | const hw hc => exact .const hw hc
  | trunc hi hop hty hops => exact .trunc (h.instr_of_hasTy hv' ▸ hi) hop hty hops
  | sext hi hop hty hops hm hle => exact .sext (h.instr_of_hasTy hv' ▸ hi) hop hty hops (h.hasTy hm) hle

theorem Resized.enlarges (hres : Resized g w v v') (hv : g.HasTy v t) (hv' : g.HasTy v' t') :
    Resized g' w v v' := by
  cases hres with
  | direct hcut => exact .direct (hcut.enlarges h hv')
  | trunc he hi hop hty hle hops hcut =>
    exact .trunc he (h.instr_of_hasTy (he ▸ hv) ▸ hi) hop hty hle hops (hcut.enlarges h hv')
  | sext he hi hop hty hops hm hle hcut =>
    exact .sext he (h.instr_of_hasTy (he ▸ hv) ▸ hi) hop hty hops (h.hasTy hm) hle (hcut.enlarges h hv')
  | zext he hi hop hty hops hm hle heq =>
    exact .zext he (h.instr_of_hasTy (he ▸ hv) ▸ hi) hop hty hops (h.hasTy hm) hle heq

end Enlarging

structure FreshCast (i : Instr) : Prop where
  op : i.op = .trunc ∨ i.op = .sext
  operands : ∀ v ∈ i.operands, v.intConst? = none

structure AddsCasts (d : DomInfo) (g g' : Func) : Prop extends g.Enlarges d g' where
  casts : ∀ {b c : Int} {i : Instr}, g'.Stands b c → g'.instr? c = some i → g.Stands b c ∨ FreshCast i

namespace AddsCasts

theorem refl (g : Func) : AddsCasts d g g := ⟨.refl g, fun hb _ => .inl hb⟩

theorem trans {k : Func} (h : AddsCasts d g g') (h' : AddsCasts d g' k) : AddsCasts d g k := by
  refine ⟨h.toEnlarges.trans h'.toEnlarges, fun hb hi => ?_⟩
  rcases h'.casts hb hi with hb | hcast
  · exact h.casts hb (h'.instr hb ▸ hi)
  · exact .inr hcast

end AddsCasts

section Inserted

variable {u b : Int} {l r : List Int} {i : Instr} (h : g.Inserts u g' b l r i) {v : Value}
  (hops : i.operands = [v]) (htargets : i.targets = []) (hphi : i.op ≠ .phi)
  (hleft : ∀ p, v = .instr p → p ∈ l)

include h hops htargets hphi hleft

/-- With a new instruction behind the definition of its only operand, a function stays in SSA form. -/
theorem behind_inserted (hg : g.HasDominance scope d)
    (hssa : g.InSsaForm d fun b => d.dom.isReachable b = true) (hres : g.Resolves scope v)
    (hcomp : ∀ p, v = .instr p → g.Computes p) :
    g'.HasDominance scope d ∧ g'.InSsaForm d fun b => d.dom.isReachable b = true := by
  have hne : ∀ {p}, v = .instr p → p ≠ u := by
    rintro p hp rfl
    exact h.once (List.mem_append_left _ (hleft p hp))
  have hrefs : g'.References scope i := by
    refine ⟨fun x hx => ?_, by simp [htargets], fun he => absurd he hphi⟩
    rw [hops, List.mem_singleton] at hx
    rw [hx]
    exact (h.resolves fun he => hne he rfl).mp hres
  have hwf : g'.WellFormed scope := h.wellFormed hg.wf hrefs fun he => absurd he hphi
  refine ⟨h.hasDominance hg hwf, h.inSsaForm hg.wf hwf hssa (fun n hn _ _ p hp => ?_)
    fun he => absurd he hphi⟩
  rw [hops, List.mem_singleton] at hp
  have hpl := hleft p hp.symm
  have hstands : g'.Stands n p := Func.stands_iff.mpr (by simp [← hn, h.body, hpl])
  exact ⟨(h.computes (hne hp.symm)).mp (hcomp p hp.symm),
    (h.precedes_self hn hwf hstands).mpr (.inr ⟨rfl, hpl⟩)⟩

end Inserted

/-- A new cast of something that is computed before it in its block. -/
theorem cast_inserted (hg : g.Proper scope d) {u b : Int} {l r : List Int} {i : Instr}
    (h : g.Inserts u g' b l r i) {v : Value} (hv : g.HasTy v (.int m)) (hconst : v.intConst? = none)
    (hops : i.operands = [v]) (htargets : i.targets = []) (hty : i.ty = .int w)
    (hw : (Ty.int w).Valid) (hop : i.op = .trunc ∧ w < m ∨ i.op = .sext ∧ m < w)
    (hleft : ∀ p, v = .instr p → p ∈ l) :
    g'.Proper scope d ∧ AddsCasts d g g' ∧ g'.HasTy (.instr u) (.int w) ∧ Cut g' w v (.instr u) := by
  have hpure : i.op.isPure = true := by rcases hop with ⟨hop, _⟩ | ⟨hop, _⟩ <;> (rw [hop]; rfl)
  have hvu : v ≠ .instr u := by
    rintro rfl
    exact h.once (List.mem_append_left _ (hleft u rfl))
  have hv' := (h.hasTy hvu).mp hv
  obtain ⟨⟨hwf, _⟩, hssa⟩ := behind_inserted h hops htargets (Op.ne_phi_of_isPure hpure) hleft
    hg.toHasDominance hg.ssa (hg.wf.resolves_of_hasTy hv) fun p hp => (hp ▸ hv : g.HasTy (.instr p) _).1
  have htyped : g'.Typed i := by
    have hwidth : ∀ n, i.ty = .int n → n = w := fun n hn => by
      rw [hty] at hn
      cases hn
      rfl
    rcases hop with ⟨hop, hlt⟩ | ⟨hop, hlt⟩
    · refine (Func.typed_trunc hop).mpr ⟨v, .int m, hops, hv', fun n hn => ?_⟩
      exact ⟨m, rfl, hwidth n hn ▸ hlt⟩
    · refine (Func.typed_extend (.inl hop)).mpr ⟨v, .int m, hops, hv', fun n hn => ?_⟩
      exact ⟨m, rfl, hwidth n hn ▸ hlt⟩
  have hproper : g'.Proper scope d := by
    refine h.proper hg hwf hssa (hty ▸ hw) htyped fun x hx => ?_
    rw [hops, List.mem_singleton] at hx
    exact ⟨_, hx ▸ hv'⟩
  refine ⟨hproper, ⟨h.enlarges hg.wf hwf (.inl hpure) fun W _ hD s _ _ _ _ _ _ _ => ?_,
    fun {c id j} hb hj => ?_⟩, ⟨h.computes_self, i, h.instr_eq, hty⟩, ?_⟩
  · exact hD.exists_result hproper.typed h.stands_self h.instr_eq
      (hop.imp And.left fun ho => .inl ho.1) s
  · by_cases hid : id = u
    · subst hid
      rw [h.instr_eq] at hj
      cases hj
      refine .inr ⟨hop.imp And.left And.left, fun x hx => ?_⟩
      rw [hops, List.mem_singleton] at hx
      rw [hx, hconst]
    · exact .inl (h.stands.mpr ⟨hb, hid⟩)
  · rcases hop with ⟨hop, _⟩ | ⟨hop, hlt⟩
    · exact .trunc h.instr_eq hop hty hops
    · exact .sext h.instr_eq hop hty hops hv' hlt.le

end Narrow

end RegPressure
