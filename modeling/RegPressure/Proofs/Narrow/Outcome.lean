import RegPressure.Proofs.IR.Placing
import RegPressure.Proofs.Narrow.Comparisons
import RegPressure.Proofs.Narrow.Replace

namespace RegPressure

namespace Func

def opBehind (f : Func) : Value → Op
  | .instr c => f.opOf c
  | _ => .invalid

structure GainsCasts (f g : Func) : Prop where
  old : ∀ q j, f.instr? q = some j → g.instr? q = some j
  new : ∀ q j, f.instr? q = none → g.instr? q = some j → j.op.isCast = true
  order : f.listed.Sublist g.listed

def NewCast (f g : Func) (v : Value) : Prop :=
  ∃ c j, v = .instr c ∧ f.instr? c = none ∧ g.instr? c = some j ∧ j.op.isCast = true

variable {f g h : Func} {v : Value} {u b : Int} {l r : List Int} {i : Instr}

namespace GainsCasts

theorem refl (f : Func) : f.GainsCasts f where
  old _ _ hj := hj
  new q j hq hj := by cases hq.symm.trans hj
  order := .refl _

theorem none (hfg : f.GainsCasts g) {q : Int} (hq : g.instr? q = none) : f.instr? q = none := by
  cases hf : f.instr? q with
  | none => rfl
  | some j => cases hq.symm.trans (hfg.old q j hf)

theorem trans (hfg : f.GainsCasts g) (hgh : g.GainsCasts h) : f.GainsCasts h where
  old q j hj := hgh.old q j (hfg.old q j hj)
  new q j hq hj := by
    cases hg : g.instr? q with
    | none => exact hgh.new q j hg hj
    | some k =>
      cases hj.symm.trans (hgh.old q k hg)
      exact hfg.new q j hq hg
  order := hfg.order.trans hgh.order

theorem newCast (hfg : f.GainsCasts g) (hv : g.NewCast h v) : f.NewCast h v := by
  obtain ⟨c, j, rfl, hc, hj, hcast⟩ := hv
  exact ⟨c, j, rfl, hfg.none hc, hj, hcast⟩

theorem of_inserts (hins : f.Inserts u g b l r i) (hcast : i.op.isCast = true) : f.GainsCasts g where
  old q j hj := hins.grows.instr q j hj
  new q j hq hj := by
    by_cases hqu : q = u
    · subst hqu
      cases hins.instr_eq.symm.trans hj
      exact hcast
    · rw [← hins.instr q hqu, hq] at hj
      cases hj
  order := hins.sublist

end GainsCasts

theorem NewCast.mono (hgh : g.GainsCasts h) (hv : f.NewCast g v) : f.NewCast h v := by
  obtain ⟨c, j, rfl, hc, hj, hcast⟩ := hv
  exact ⟨c, j, rfl, hc, hgh.old c j hj, hcast⟩

end Func

namespace Narrow

open ValueRange RangeM Func

variable {scope : Option Symbols} {f f' g g' : Func} {k : Context} {w site : Int} {n depth : Nat}
  {id u : Int} {i j : Instr} {v v' wide : Value}

/-! ### What is converted -/

def Shrinkable (f : Func) (w : Int) (v : Value) : Prop :=
  ∃ q i, v = .instr q ∧ f.instr? q = some i ∧ i.op ∈ narrowed ∧
    (i.op = .icmp ∨ ∃ n : Nat, i.ty = .int n ∧ w < n)

theorem shrinkable_of_canNarrow (h : May (canNarrow k w depth v site) true) :
    Shrinkable k.func w v := by
  cases depth with
  | zero => exact absurd h fun ⟨_, _, h⟩ => by cases h
  | succ depth =>
    cases v with
    | instr id =>
      obtain ⟨i, hi, h'⟩ := May.bind (by rwa [canNarrow] at h)
      have hi := Func.instr_eq_ok.mp hi.lift
      refine ⟨id, i, rfl, hi, (kind_of_canNarrow hi h).1, ?_⟩
      split at h'
      · next hop => exact .inl hop
      split at h'
      · cases h'.pure
      · next hwide =>
        refine .inr ?_
        cases hty : i.ty with
        | int n => simpa [hty, Ty.isInt, Ty.bits] using hwide
        | _ => simp [hty, Ty.isInt] at hwide
    | _ => cases h.pure

theorem shrinkable_operands (hi : k.func.instr? id = some i) (hop : i.op = .icmp)
    (h : May (canNarrow k w depth (.instr id) site) true) : ∀ v ∈ i.operands, Shrinkable k.func w v := by
  cases depth with
  | zero => exact absurd h fun ⟨_, _, h⟩ => by cases h
  | succ depth =>
    rw [canNarrow_compare hi hop] at h
    exact fun v hv => shrinkable_of_canNarrow (h.of_allM v hv)

theorem Shrinkable.mono (hfg : f.GainsCasts g) (hv : Shrinkable f w v) : Shrinkable g w v := by
  obtain ⟨q, i, rfl, hi, hop, hcase⟩ := hv
  exact ⟨q, i, rfl, hfg.old q i hi, hop, hcase⟩

theorem Shrinkable.instr (h : Shrinkable f w (.instr id)) (hi : f.instr? id = some i) :
    i.op ∈ narrowed ∧ (i.op = .icmp ∨ ∃ n : Nat, i.ty = .int n ∧ w < n) := by
  obtain ⟨_, j, ⟨⟩, hj, h⟩ := h
  cases hi.symm.trans hj
  exact h

theorem Shrinkable.exists_int (h : Shrinkable f w (.instr id)) (hf : f.Intact scope)
    (hi : f.instr? id = some i) : ∃ n, i.ty = .int n :=
  (h.instr hi).2.elim (fun hcmp => ⟨1, hf.bit id i hi hcmp⟩) fun ⟨n, hn, _⟩ => ⟨n, hn⟩

/-! ### Operands of the narrow form -/

theorem Placed.inserts_cast {y : Value} {m m' : Nat} (hg : g.Intact scope)
    (hty : g.typeOf y = .ok (some (.int m)))
    (h : Placed g y (if m' > n then .trunc else .sext) n u f) :
    ∃ b l r i, g.Inserts u f b l r i ∧ i.op.isCast = true := by
  have hop : (if m' > n then Op.trunc else .sext) = .trunc ∨
      (if m' > n then Op.trunc else .sext) = .sext := by split <;> simp
  obtain ⟨b, l, r, pos, hins⟩ := h.exists_inserts hg hty hop
  refine ⟨b, l, r, _, hins, ?_⟩
  rcases hop with hop | hop <;> (dsimp only; rw [hop]; rfl)

theorem resize_gains (hg : g.Intact scope) (hv : g.Resolves scope v)
    (he : (resize scope v (.int n)).run g = .ok v' f) : g.GainsCasts f := by
  cases resize_cases he with
  | same _ _ _ hf | source _ _ _ _ hf | const _ _ _ _ _ _ hf =>
    subst hf
    exact .refl _
  | cast hty _ hsrc _ _ _ hplaced =>
    obtain ⟨b, l, r, i, hins, hcast⟩ := hplaced.inserts_cast hg (source_resolves hg hv hty hsrc).2
    exact .of_inserts hins hcast

theorem resize_same (hty : g.typeOf v = .ok (some (.int n)))
    (he : (resize scope v (.int n)).run g = .ok v' f) : v' = v ∧ f = g := by
  cases resize_cases he with
  | same _ _ hv' hf => exact ⟨hv', hf⟩
  | source hn hne | const hn hne | cast hn hne =>
    cases hty.symm.trans hn
    exact absurd rfl hne

theorem newCast_of_resize (hg : g.Intact scope) (hi : g.instr? id = some i)
    (hlive : i.isErased = false) (hcast : i.op.isCast = false) {m : Nat} (hty : i.ty = .int m)
    (hne : m ≠ n) (he : (resize scope (.instr id) (.int n)).run g = .ok v' f) : g.NewCast f v' := by
  have hv : g.Resolves scope (.instr id) := isLive_iff.mpr ⟨i, hi, hlive⟩
  have hwidth : ∀ {m' : Nat}, g.typeOf (.instr id) = .ok (some (.int m')) → m' = m := by
    intro m' hm'
    rw [typeOf_instr hi, hty] at hm'
    cases hm'
    rfl
  have hself : ∀ {m' m'' : Nat} {y : Value}, source g (.instr id) m' (.int n) = .ok (y, m'') →
      y = .instr id ∧ m'' = m' := by
    intro m' m'' y hsrc
    rcases source_cases hsrc with hself | ⟨_, j, ⟨⟩, hj, hjcast, -⟩
    · exact hself
    · cases hi.symm.trans hj
      rw [hcast] at hjcast
      cases hjcast
  cases resize_cases he with
  | same hm hn => exact absurd ((hwidth hm).symm.trans hn) hne
  | source hm hn hsrc => exact absurd (hself hsrc).2.symm hn
  | const _ _ hsrc _ hc =>
    rw [(hself hsrc).1] at hc
    cases hc
  | cast hm _ hsrc _ _ hv' hplaced =>
    obtain ⟨b, l, r, j, hins, hcast⟩ := hplaced.inserts_cast hg (source_resolves hg hv hm hsrc).2
    exact ⟨_, j, hv', hins.fresh, hins.instr_eq, hcast⟩

def Recast (f g : Func) (w : Int) (v v' : Value) : Prop :=
  f.NewCast g v' ∨ w = 1 ∧ f.opBehind v = .icmp ∧ v' = v

theorem resize_recasts (hg : g.Intact scope) (hres : g.Resolves scope v) (hw : 0 < w)
    (hv : Shrinkable g w v) (he : (resize scope v (.int w.toNat)).run g = .ok v' f) :
    Recast g f w v v' := by
  obtain ⟨q, i, rfl, hi, hop, hcase⟩ := hv
  have hlive : i.isErased = false := by
    obtain ⟨j, hj, hlive⟩ := isLive_iff.mp hres
    cases hi.symm.trans hj
    exact hlive
  have hcast := (kind_of_narrowed i.op hop).2
  rcases hcase with hcmp | ⟨m, hty, hlt⟩
  · have hty := hg.bit q i hi hcmp
    by_cases hw1 : w = 1
    · subst hw1
      have hbit : g.typeOf (.instr q) = .ok (some (.int 1)) := (typeOf_instr hi).trans (by rw [hty])
      exact .inr ⟨rfl, (opOf_eq hi).trans hcmp, (resize_same hbit he).1⟩
    · exact .inl (newCast_of_resize hg hi hlive hcast hty (by omega) he)
  · exact .inl (newCast_of_resize hg hi hlive hcast hty (by omega) he)

theorem resizes_gain {vs vs' : List Value} (hg : g.Intact scope)
    (hvs : ∀ v ∈ vs, g.Resolves scope v)
    (he : (vs.mapM fun v => resize scope v (.int n)).run g = .ok vs' f) : g.GainsCasts f := by
  induction vs generalizing g vs' with
  | nil =>
    rw [List.mapM_nil, Edit.pure_eq_ok] at he
    obtain ⟨-, rfl⟩ := he
    exact .refl _
  | cons v vs ih =>
    simp only [List.mapM_cons, Edit.bind_eq_ok, Edit.pure_eq_ok] at he
    obtain ⟨v', g', hv', vs', _, hvs', -, rfl⟩ := he
    have hv := hvs v (List.mem_cons_self ..)
    have hkeeps := resize_keeps hg hv hv'
    exact (resize_gains hg hv hv').trans <| ih hkeeps.intact
      (fun u hu => hkeeps.grows.resolves (hvs u (List.mem_cons_of_mem _ hu))) hvs'

theorem narrowOperands_gain {ops : List Value} (hg : g.Intact scope) (hi : g.References scope i)
    (he : (narrowOperands scope i (.int n)).run g = .ok ops f) : g.GainsCasts f := by
  have hpair : ∀ {v v' u u' : Value} {h : Func}, g.Resolves scope v → g.Resolves scope u →
      (resize scope v (.int n)).run g = .ok v' h → (resize scope u (.int n)).run h = .ok u' f →
        g.GainsCasts f := by
    intro v v' u u' h hv hu hv' hu'
    have hkeeps := resize_keeps hg hv hv'
    exact (resize_gains hg hv hv').trans (resize_gains hkeeps.intact (hkeeps.grows.resolves hu) hu')
  unfold narrowOperands at he
  dsimp only at he
  split at he
  · simp only [Edit.bind_eq_ok, Edit.ask_eq_ok, Edit.pure_eq_ok] at he
    obtain ⟨v, _, ⟨hv, rfl⟩, v', h, hv', u, _, ⟨hu, rfl⟩, u', _, hu', -, rfl⟩ := he
    exact hpair (resolves_of_element hi.operands hv) (resolves_of_element hi.operands hu) hv' hu'
  · simp only [Edit.bind_eq_ok, Edit.ask_eq_ok, Edit.pure_eq_ok] at he
    obtain ⟨_, _, ⟨_, rfl⟩, v, _, ⟨hv, rfl⟩, v', h, hv', u, _, ⟨hu, rfl⟩, u', _, hu', -, rfl⟩ := he
    exact hpair (resolves_of_element hi.operands hv) (resolves_of_element hi.operands hu) hv' hu'
  · exact resizes_gain hg hi.operands he

theorem compared_recast {ops : List Value} (hg : g.Intact scope) (hi : g.References scope i)
    (hop : i.op = .icmp) (hlen : i.operands.length = 2) (hw : 0 < w)
    (hshrink : ∀ v ∈ i.operands, Shrinkable g w v)
    (he : (narrowOperands scope i (.int w.toNat)).run g = .ok ops f) :
    List.Forall₂ (Recast g f w) i.operands ops := by
  obtain ⟨a, c, hac⟩ := List.length_eq_two.mp hlen
  simp only [narrowOperands, hop, hac, Edit.bind_eq_ok, Edit.ask_eq_ok, Edit.pure_eq_ok] at he
  obtain ⟨_, _, ⟨⟨⟩, rfl⟩, a', h, ha', _, _, ⟨⟨⟩, rfl⟩, c', _, hc', rfl, rfl⟩ := he
  have hra := hi.operands a (by simp [hac])
  have hrc := hi.operands c (by simp [hac])
  have hkeeps := resize_keeps hg hra ha'
  have hgains := resize_gains hg hra ha'
  have hfirst := resize_recasts hg hra hw (hshrink a (by simp [hac])) ha'
  have hsecond := resize_recasts hkeeps.intact (hkeeps.grows.resolves hrc) hw
    ((hshrink c (by simp [hac])).mono hgains) hc'
  have hgains' := resize_gains hkeeps.intact (hkeeps.grows.resolves hrc) hc'
  obtain ⟨q, j, hq, hj, -⟩ := hshrink c (by simp [hac])
  subst hq
  rw [hac]
  refine .cons ?_ (.cons ?_ .nil)
  · exact hfirst.imp_left fun hnew => hnew.mono hgains'
  · refine hsecond.imp hgains.newCast fun ⟨hw1, hcmp, heq⟩ => ⟨hw1, ?_, heq⟩
    rw [opBehind, opOf_eq (hgains.old q j hj)] at hcmp
    exact (opOf_eq hj).trans hcmp

/-! ### The whole conversion -/

/-- What a conversion of `id` to width `w` leaves. The narrow form is `u`, and `wide` takes the uses. -/
structure Outcome (f : Func) (id : Int) (i : Instr) (w u : Int) (wide : Value) (g : Func) : Prop where
  /-- Instructions stay, but `id` is erased, and its uses are given away. -/
  old : ∀ q j, f.instr? q = some j → ∃ j', g.instr? q = some j' ∧ j'.op = j.op ∧ j'.ty = j.ty ∧
    j'.isErased = (j.isErased || decide (q = id)) ∧
    j'.operands = if j.isErased then j.operands else j.operands.map (replaced id wide)
  new : ∀ q j, f.instr? q = none → q ≠ u → g.instr? q = some j → j.op.isCast = true
  fresh : f.instr? u = none
  form : ∃ j, g.instr? u = some j ∧ j.op = i.op ∧ j.isErased = false ∧
    (i.op ≠ .icmp → j.ty = .int w.toNat) ∧ (i.op = .icmp → List.Forall₂ (fun v v' => f.NewCast g v' ∨
      w = 1 ∧ f.opBehind v = .icmp ∧ v' = replaced id wide v) i.operands j.operands)
  wide : i.op = .icmp ∧ wide = .instr u ∨ f.NewCast g wide
  /-- The narrow form is listed in the place of `id`. -/
  order : ∀ q c, c ≠ id → [q, c].Sublist f.listed →
    [if q = id then u else q, c].Sublist g.listed

section Converted

variable {ops : List Value} {g₁ g₂ g₃ g₄ : Func} {b : Int}

section

variable (h : Converted scope f id i n ops g₁ b u g₂ wide g₃ g₄)

include h

/-- The last steps: uses are replaced, the instruction is erased, and the narrow form gets its name. -/
theorem Converted.exists_after {q : Int} (name : String) (hj : g₃.instr? q = some j) :
    ∃ j', (g₄.setInstr u ({ · with name })).instr? q = some j' ∧ j'.op = j.op ∧ j'.ty = j.ty ∧
      j'.isErased = (j.isErased || decide (q = id)) ∧
      j'.operands = if j.isErased then j.operands else j.operands.map (replaced id wide) := by
  obtain ⟨j₁, hj₁, hop₁, hty₁, hlive₁, hops₁⟩ :
      ∃ j₁, (g₃.replaceAllUses id wide).instr? q = some j₁ ∧ j₁.op = j.op ∧ j₁.ty = j.ty ∧
        j₁.isErased = j.isErased ∧
        j₁.operands = if j.isErased then j.operands else j.operands.map (replaced id wide) := by
    rw [instr?_replaceAllUses, hj, Option.map_some]
    refine ⟨_, rfl, ?_⟩
    split <;> exact ⟨rfl, rfl, rfl, rfl⟩
  obtain ⟨j₂, hj₂, hop₂, hty₂, herased₂, hops₂⟩ :
      ∃ j₂, g₄.instr? q = some j₂ ∧ j₂.op = j₁.op ∧ j₂.ty = j₁.ty ∧
        j₂.isErased = (j₁.isErased || decide (q = id)) ∧ j₂.operands = j₁.operands := by
    rw [instr?_of_erase h.erase, hj₁]
    split
    · next hq => exact ⟨_, rfl, rfl, rfl, by simp [Instr.isErased, hq], rfl⟩
    · next hq => exact ⟨_, rfl, rfl, rfl, by simp [Ne.symm hq], rfl⟩
  rw [hlive₁] at herased₂
  rw [instr?_setInstr, hj₂]
  split
  · exact ⟨_, rfl, hop₂.trans hop₁, hty₂.trans hty₁, herased₂, hops₂.trans hops₁⟩
  · exact ⟨_, rfl, hop₂.trans hop₁, hty₂.trans hty₁, herased₂, hops₂.trans hops₁⟩

theorem Converted.exists_before {q : Int} {name : String}
    (hj : (g₄.setInstr u ({ · with name })).instr? q = some j) : ∃ j', g₃.instr? q = some j' := by
  cases hq : g₃.instr? q with
  | some j' => exact ⟨j', rfl⟩
  | none =>
    rw [instr?_setInstr, instr?_of_erase h.erase, instr?_replaceAllUses, hq] at hj
    simp at hj

theorem Converted.listed_eq (name : String) :
    (g₄.setInstr u ({ · with name })).listed = g₃.listed.filter (· ≠ id) := by
  obtain ⟨hadds, -⟩ := adds_of_erase h.intact₃.wellFormed h.erase
  rw [listed, blocks_setInstr]
  exact hadds.listed_eq

end

variable (h : Converted scope f id i w.toNat ops g₁ b u g₂ wide g₃ g₄)

include h

/-- Where the narrow form takes its uses. -/
theorem Converted.wide_cases (hi : f.instr? id = some i) (hbit : i.op = .icmp → i.ty = .i1) (hw : 0 < w)
    (hshrink : Shrinkable f w (.instr id)) :
    i.op = .icmp ∧ wide = .instr u ∨ g₂.NewCast g₃ wide := by
  obtain ⟨l, r, hins⟩ := h.inserts
  obtain ⟨hop, hcase⟩ := hshrink.instr hi
  have hresize := h.resize
  rcases hcase with hcmp | ⟨m, hty, hlt⟩
  · refine .inl ⟨hcmp, ?_⟩
    have hform : (formAt i w.toNat ops b).ty = .i1 := if_pos hcmp
    have hu : g₂.typeOf (.instr u) = .ok (some (.int 1)) :=
      (typeOf_instr hins.instr_eq).trans (by rw [hform])
    rw [hbit hcmp] at hresize
    exact (resize_same hu hresize).1
  · by_cases hcmp : i.op = .icmp
    · rw [hbit hcmp] at hty
      cases hty
      omega
    · have hform : (formAt i w.toNat ops b).ty = .int w.toNat := if_neg hcmp
      rw [hty] at hresize
      refine .inr (newCast_of_resize h.intact₂ hins.instr_eq rfl (kind_of_narrowed i.op hop).2 hform ?_
        hresize)
      omega

theorem Converted.outcome (hf : f.Intact scope) (hi : f.instr? id = some i)
    (hlive : i.isErased = false) (hw : 0 < w) (hshrink : Shrinkable f w (.instr id))
    (hlen : i.op = .icmp → i.operands.length = 2)
    (hoperands : i.op = .icmp → ∀ v ∈ i.operands, Shrinkable f w v) (name : String) :
    Outcome f id i w u wide (g₄.setInstr u ({ · with name })) := by
  obtain ⟨l, r, hins⟩ := h.inserts
  have hrefs := hf.references hi hlive
  have hgains₁ := narrowOperands_gain hf hrefs h.operands
  have hgains₃ : g₂.GainsCasts g₃ := by
    obtain ⟨n, hn⟩ := hshrink.exists_int hf hi
    have hresolves : g₂.Resolves scope (.instr u) := isLive_iff.mpr ⟨_, hins.instr_eq, rfl⟩
    exact resize_gains h.intact₂ hresolves (hn ▸ h.resize)
  have hfresh : f.instr? u = none := hgains₁.none hins.fresh
  have hne : u ≠ id := by
    rintro rfl
    cases hfresh.symm.trans hi
  have hstay {q : Int} {j : Instr} (hj : g₁.instr? q = some j) : g₃.instr? q = some j :=
    hgains₃.old q j (hins.grows.instr q j hj)
  -- New casts are still there in the end.
  have hlate {v : Value} (hv : f.NewCast g₃ v) : f.NewCast (g₄.setInstr u ({ · with name })) v := by
    obtain ⟨c, j, rfl, hc, hj, hcast⟩ := hv
    obtain ⟨j', hj', hop', -⟩ := h.exists_after name hj
    exact ⟨c, j', rfl, hc, hj', hop' ▸ hcast⟩
  have hearly {v : Value} (hv : f.NewCast g₁ v) : f.NewCast g₃ v := by
    obtain ⟨c, j, rfl, hc, hj, hcast⟩ := hv
    exact ⟨c, j, rfl, hc, hstay hj, hcast⟩
  have hform := h.exists_after name (hgains₃.old u _ hins.instr_eq)
  refine ⟨fun q j hj => h.exists_after name (hstay (hgains₁.old q j hj)), fun q j hq hqu hj => ?_, hfresh,
    ?_, ?_, fun q c hc hqc => ?_⟩
  · obtain ⟨j₃, hj₃⟩ := h.exists_before hj
    obtain ⟨j', hj', hop', -⟩ := h.exists_after name hj₃
    cases hj.symm.trans hj'
    rw [hop']
    cases hq₂ : g₂.instr? q with
    | none => exact hgains₃.new q j₃ hq₂ hj₃
    | some k =>
      cases hj₃.symm.trans (hgains₃.old q k hq₂)
      exact hgains₁.new q j₃ hq (by rw [hins.instr q hqu, hq₂])
  · obtain ⟨j, hj, hop, hty, hlive', hops⟩ := hform
    have hlive' : j.isErased = false := by simpa [Instr.isErased, formAt, hne] using hlive'
    refine ⟨j, hj, hop, hlive', fun hcmp => hty.trans (if_neg hcmp), fun hcmp => ?_⟩
    have hshrinks : ∀ v ∈ i.operands, Shrinkable f w v := hoperands hcmp
    have hrecast := compared_recast hf hrefs hcmp (hlen hcmp) hw hshrinks h.operands
    rw [hops, if_neg (by simp [Instr.isErased, formAt]), List.forall₂_map_right_iff]
    refine hrecast.imp fun v v' hv => hv.imp (fun hnew => ?_) fun hbit => ?_
    · -- A new cast is not the instruction, so it is not replaced.
      have hself : replaced id wide v' = v' := by
        obtain ⟨c, _, rfl, hc, -⟩ := hnew
        refine if_neg ?_
        rintro ⟨⟩
        cases hc.symm.trans hi
      rw [hself]
      exact hlate (hearly hnew)
    · obtain ⟨hw1, hcmp, hv⟩ := hbit
      exact ⟨hw1, hcmp, hv ▸ rfl⟩
  · refine (h.wide_cases hi (hf.bit id i hi) hw hshrink).imp_right fun hv => hlate ?_
    obtain ⟨c, j, rfl, hc, hj, hcast⟩ := hv
    have hcu : c ≠ u := by
      rintro rfl
      cases hc.symm.trans hins.instr_eq
    exact ⟨c, j, rfl, hgains₁.none (by rw [hins.instr c hcu, hc]), hj, hcast⟩
  · rw [h.listed_eq]
    have horder := hgains₁.order
    split
    · next hq =>
      subst hq
      have hbefore := hins.before h.intact₂.wellFormed (hqc.trans horder)
      exact (pair_sublist_filter hne hc).mpr (hbefore.trans hgains₃.order)
    · next hq =>
      exact (pair_sublist_filter hq hc).mpr
        (hqc.trans (horder.trans (hins.sublist.trans hgains₃.order)))

end Converted

end Narrow

end RegPressure
