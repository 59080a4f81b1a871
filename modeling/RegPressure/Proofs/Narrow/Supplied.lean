import RegPressure.Proofs.Faultless.Base
import RegPressure.Proofs.Narrow.Intact

namespace RegPressure

def Value.Castable : Value → Prop
  | .int _ _ | .arg _ | .instr _ => True
  | _ => False

def Value.isUndefNumber : Value → Bool
  | .undef (some (.int _)) => true
  | _ => false

def Op.isNumeric (op : Op) : Bool := op.isArith || op = .phi || op = .select

def Instr.resized (i : Instr) : List Value := if i.op = .select then i.operands.tail else i.operands

theorem Instr.mem_operands_of_mem_resized {i : Instr} {v : Value} (h : v ∈ i.resized) :
    v ∈ i.operands := by
  unfold resized at h
  split at h
  · exact List.mem_of_mem_tail h
  · exact h

theorem Instr.Complete.congr {ret : Ty} {i j : Instr} (h : i.Complete ret) (hop : j.op = i.op)
    (hcall : i.op ≠ .call) (hops : j.operands.length = i.operands.length)
    (htargets : j.targets = i.targets) : j.Complete ret := by
  unfold Complete at h ⊢
  rw [hop, hops, htargets]
  split at h <;> first | exact h | contradiction

/-- A literal with a point is no integer, wherever it stands. -/
theorem Slot.Holds.isFloat {slot : Slot} {ty : Option Ty} {x : Binary64}
    (h : slot.Holds (.float ty x)) : ∃ t, ty = some t ∧ t.isFloat = true := by
  have hfits : ∀ ctx, (Value.float ty x).Fits ctx → ∃ t, ty = some t ∧ t.isFloat = true := by
    rintro ctx ⟨rfl, -⟩
    refine ⟨_, rfl, ?_⟩
    cases hctx : ctx.filter (·.isFloat) with
    | none => rfl
    | some t => exact (Option.filter_eq_some_iff.mp hctx).2
  cases slot with
  | plain t => exact hfits _ h
  | typed =>
    obtain ⟨t, -, h⟩ := h
    exact hfits _ h
  | «local» => simp [Slot.Holds] at h
  | field n => cases h

namespace Func

variable {scope : Option Symbols} {f g h : Func} {b u id : Int} {l r : List Int} {i j : Instr}
  {v : Value}

/-- An integer that can be had at another width. -/
structure Number (f : Func) (v : Value) : Prop where
  width : ∃ n, f.typeOf v = .ok (some (.int n))
  castable : v.Castable

structure Supplies (f : Func) (i : Instr) : Prop where
  complete : ∃ ret, i.Complete ret
  typed : ∀ v ∈ i.operands, Checked.Answers (f.typeOf v)
  source : i.op.isCast = true → ∀ v ∈ i.operands, ∀ n, f.typeOf v = .ok (some (.int n)) → v.Castable
  number : i.op.isNumeric = true → (∃ n, i.ty = .int n) → ∀ v ∈ i.resized, f.Number v

def Supplied (f : Func) : Prop :=
  ∀ id i, f.instr? id = some i → i.isErased = false → f.Supplies i

/-! ### Types of operands in larger and smaller functions -/

def KeepsTypes (f g : Func) : Prop := ∀ v t, f.typeOf v = .ok t → g.typeOf v = .ok t

theorem typeOf_instr (hi : f.instr? id = some i) : f.typeOf (.instr id) = .ok (some i.ty) := by
  simp [typeOf, instr_eq_ok.mpr hi]

theorem KeepsTypes.of_instr (hparams : g.params = f.params)
    (hinstr : ∀ id i, f.instr? id = some i → ∃ j, g.instr? id = some j ∧ j.ty = i.ty) :
    f.KeepsTypes g := by
  intro v t h
  cases v with
  | instr id =>
    simp only [typeOf, Checked.bind_eq_ok, instr_eq_ok, Checked.pure_eq_ok] at h
    obtain ⟨i, hi, rfl⟩ := h
    obtain ⟨j, hj, hty⟩ := hinstr id i hi
    rw [typeOf_instr hj, hty]
  | arg n =>
    simp only [typeOf, hparams] at h ⊢
    split at h
    · next hn => rwa [if_pos hn]
    · cases h
  | _ => exact h

theorem Grows.keepsTypes (h : f.Grows g) : f.KeepsTypes g :=
  .of_instr h.params fun id i hi => ⟨i, h.instr id i hi, rfl⟩

theorem Rewrites.keepsTypes {σ : Value → Value} (h : f.Rewrites σ g) : f.KeepsTypes g :=
  .of_instr h.params fun id i hi => by
    obtain ⟨j, hj, hshape, -⟩ := h.exists_instr hi
    exact ⟨j, hj, Instr.ty_of_shape hshape⟩

theorem keepsTypes_of_erase (hf : f.WellFormed scope) (he : f.erase u = .ok g) : f.KeepsTypes g := by
  obtain ⟨hadds, -⟩ := adds_of_erase hf he
  refine .of_instr hadds.params fun id i hi => ?_
  rw [instr?_of_erase he]
  split
  · exact ⟨{ i with home := none }, by rw [hi]; rfl, rfl⟩
  · exact ⟨i, hi, rfl⟩

theorem Number.mono (h : f.KeepsTypes g) (hv : f.Number v) : g.Number v where
  width := hv.width.imp fun _ ht => h v _ ht
  castable := hv.castable

theorem Number.answers_typeOf (hv : f.Number v) : Checked.Answers (f.typeOf v) :=
  hv.width.elim fun _ hn => ⟨_, hn⟩

theorem Supplies.mono (h : f.KeepsTypes g) (hi : f.Supplies i) : g.Supplies i where
  complete := hi.complete
  typed v hv := (hi.typed v hv).imp fun _ ht => h v _ ht
  source hcast v hv n hn := by
    obtain ⟨t, ht⟩ := hi.typed v hv
    cases (h v t ht).symm.trans hn
    exact hi.source hcast v hv n ht
  number hop hty v hv := (hi.number hop hty v hv).mono h

/-! ### Edits -/

namespace Supplied

theorem inserted (hg : g.Supplied) (h : g.Inserts u f b l r i) (hi : g.Supplies i) : f.Supplied := by
  intro id j hj hlive
  by_cases hid : id = u
  · subst hid
    rw [h.instr_eq] at hj
    cases hj
    exact hi.mono h.grows.keepsTypes
  · exact (hg id j (by rw [h.instr id hid, hj]) hlive).mono h.grows.keepsTypes

theorem erased (hf : f.Supplied) (hwf : f.WellFormed scope) (he : f.erase u = .ok g) : g.Supplied := by
  intro id j hj hlive
  have hmono := keepsTypes_of_erase hwf he
  rw [instr?_of_erase he] at hj
  split at hj
  · obtain ⟨i, -, rfl⟩ := Option.map_eq_some_iff.mp hj
    cases hlive
  · exact (hf id j hj hlive).mono hmono

/-- Numbers may take the places of operands. -/
theorem rewritten {σ : Value → Value} (hf : f.Supplied) (hintact : f.Intact scope)
    (h : f.Rewrites σ g) (hσ : ∀ v, σ v = v ∨ f.Number (σ v)) : g.Supplied := by
  intro id j hj hlive
  obtain ⟨i, hi, hshape, hhome⟩ := h.exists_instr' hj
  have hilive : i.isErased = false := by rwa [Instr.isErased, ← hhome]
  obtain ⟨c, hc⟩ := hintact.stands id i hi hilive
  have hops := h.operands c id i j hc hi hj
  have hop := Instr.op_of_shape hshape
  have hsup := hf id i hi hilive
  refine Supplies.mono h.keepsTypes ⟨?_, fun v hv => ?_, fun hcast v hv n hn => ?_, fun hnum hty v hv => ?_⟩
  · obtain ⟨ret, hc⟩ := hsup.complete
    refine ⟨ret, ?_⟩
    unfold Instr.Complete at hc ⊢
    rwa [hop, hops, List.length_map, Instr.targets_of_shape hshape, Instr.callee_of_shape hshape]
  · rw [hops] at hv
    obtain ⟨x, hx, rfl⟩ := List.mem_map.mp hv
    rcases hσ x with he | hn
    · rw [he]
      exact hsup.typed x hx
    · exact hn.answers_typeOf
  · rw [hops] at hv
    obtain ⟨x, hx, rfl⟩ := List.mem_map.mp hv
    rcases hσ x with he | hσn
    · rw [he] at hn ⊢
      exact hsup.source (hop ▸ hcast) x hx n hn
    · exact hσn.castable
  · have hv : v ∈ i.resized.map σ := by
      unfold Instr.resized at hv ⊢
      rw [hop, hops] at hv
      split at hv
      · next he => rwa [if_pos he, List.map_tail]
      · next he => rwa [if_neg he]
    obtain ⟨x, hx, rfl⟩ := List.mem_map.mp hv
    rcases hσ x with he | hn
    · rw [he]
      exact hsup.number (hop ▸ hnum) (Instr.ty_of_shape hshape ▸ hty) x hx
    · exact hn

theorem renamed (hf : f.Supplied) (hintact : f.Intact scope) (id : Int) (name : String) :
    Supplied (f.setInstr id ({ · with name })) :=
  hf.rewritten hintact (f.rewrites_rename id name) fun _ => .inl rfl

end Supplied

/-- An intact function in which every instruction has what it needs can be looked at. -/
theorem Supplied.sturdy (hf : f.Supplied) (hintact : f.Intact scope) : f.Sturdy scope where
  wellFormed := hintact.wellFormed
  stands := hintact.stands
  complete id i hi hlive := (hf id i hi hlive).complete
  present id i hi hlive v hv := {
    typed := (hf id i hi hlive).typed v hv
    live := by
      rintro d rfl
      exact (hintact.references hi hlive).operands _ hv }

/-! ### What reading accepts -/

/-- The operands that integer operations, phis and selections compute a number from have its type, as
these operations need. -/
def OperandsAgree (f : Func) : Prop :=
  ∀ i ∈ f.instrs, i.op.isNumeric = true → i.ty.isInt = true →
    ∀ v ∈ i.resized, f.typeOf v = .ok (some i.ty)

/-- No undefined number is an operand that narrowing would resize, be it of an operation on numbers
or of a cast. -/
def ResizesDefined (f : Func) : Prop :=
  ∀ i ∈ f.instrs, (i.op.isNumeric = true → ∀ v ∈ i.resized, v.isUndefNumber = false) ∧
    (i.op.isCast = true → ∀ v ∈ i.operands, v.isUndefNumber = false)

instance : (f : Func) → Decidable f.OperandsAgree := fun f =>
  inferInstanceAs (Decidable (∀ i ∈ f.instrs, i.op.isNumeric = true → i.ty.isInt = true →
    ∀ v ∈ i.resized, f.typeOf v = .ok (some i.ty)))

instance : (f : Func) → Decidable f.ResizesDefined := fun f =>
  inferInstanceAs (Decidable (∀ i ∈ f.instrs,
    (i.op.isNumeric = true → ∀ v ∈ i.resized, v.isUndefNumber = false) ∧
      (i.op.isCast = true → ∀ v ∈ i.operands, v.isUndefNumber = false)))

variable {tokens : List Token} {s : Symbols}

theorem Read.castable (h : f.Read tokens s) (hi : f.instr? id = some i) (hv : v ∈ i.operands)
    (hdefined : v.isUndefNumber = false) {n : Nat} (hty : f.typeOf v = .ok (some (.int n))) :
    v.Castable := by
  obtain ⟨w, hformed, -⟩ := h.formed id i hi
  obtain ⟨slots, -, hslots⟩ := hformed.layout
  obtain ⟨slot, hslot⟩ : ∃ slot : Slot, slot.Holds v := by
    obtain ⟨k, hk, rfl⟩ := List.getElem_of_mem hv
    exact ⟨_, hslots.get (hslots.length_eq ▸ hk) hk⟩
  cases v with
  | float ty x =>
    obtain ⟨t, rfl, ht⟩ := hslot.isFloat
    cases hty
    cases ht
  | undef ty =>
    cases hty
    cases hdefined
  | int | arg | instr => trivial
  | null | str | global => cases hty

/-- Reading gives instructions what they need, if the types of the operands agree and no undefined
number has to be resized. -/
theorem Read.supplied (h : f.Read tokens s) (hagree : f.OperandsAgree) (hdefined : f.ResizesDefined) :
    f.Supplied := by
  intro id i hi hlive
  have hmem := mem_of_instr? hi
  have hcastable := fun v hv => h.castable (v := v) hi hv
  refine ⟨⟨_, h.complete hi⟩, fun v hv => (h.has id i hi v hv).refers.answers_typeOf,
    fun hcast v hv n hn => hcastable v hv ((hdefined i hmem).2 hcast v hv) hn, ?_⟩
  rintro hop ⟨n, hn⟩ v hv
  have hty := hagree i hmem hop (hn ▸ rfl) v hv
  rw [hn] at hty
  exact ⟨⟨n, hty⟩, hcastable v (Instr.mem_operands_of_mem_resized hv) ((hdefined i hmem).1 hop v hv) hty⟩

end Func

namespace Narrow

open Func

variable {scope : Option Symbols} {f f' g : Func} {w n m : Nat} {b u id : Int} {i : Instr}
  {v v' y : Value}

theorem source_number (hg : g.Intact scope) (hs : g.Supplied) (hv : g.Resolves scope v)
    (hn : g.Number v) (hty : g.typeOf v = .ok (some (.int n)))
    (h : source g v n (.int w) = .ok (y, m)) : g.Number y := by
  have hwidth := (source_resolves hg hv hty h).2
  refine ⟨⟨m, hwidth⟩, ?_⟩
  rcases source_cases h with ⟨rfl, -⟩ | ⟨q, i, rfl, hi, hcast, hy, -⟩
  · exact hn.castable
  · obtain ⟨j, hj, hlive⟩ := isLive_iff.mp hv
    cases hi.symm.trans hj
    exact (hs q i hi hlive).source hcast y (List.mem_of_getElem? hy) m hwidth

theorem resize_supplied (hg : g.Intact scope) (hs : g.Supplied) (hv : g.Resolves scope v)
    (hn : g.Number v) (he : (resize scope v (.int w)).run g = .ok v' f) :
    f.Supplied ∧ f.Number v' := by
  cases resize_cases he with
  | same _ _ hv' hf =>
    subst hv' hf
    exact ⟨hs, hn⟩
  | @source n y hty _ hsrc hv' hf =>
    subst hv' hf
    exact ⟨hs, source_number hg hs hv hn hty hsrc⟩
  | const _ _ _ _ _ hv' hf =>
    subst hv' hf
    exact ⟨hs, ⟨w, rfl⟩, trivial⟩
  | @cast n m y u hty _ hsrc _ _ hv' hplaced =>
    subst hv'
    have hy := source_number hg hs hv hn hty hsrc
    have hop : (if m > w then Op.trunc else .sext) = .trunc ∨
        (if m > w then Op.trunc else .sext) = .sext := by split <;> simp
    obtain ⟨b, l, r, pos, hins⟩ :=
      hplaced.exists_inserts hg (source_resolves hg hv hty hsrc).2 hop
    refine ⟨hs.inserted hins ⟨⟨.void, ?_⟩, fun x hx => ?_, fun _ x hx _ _ => ?_, fun hnum => ?_⟩,
      ⟨w, typeOf_instr hins.instr_eq⟩, trivial⟩
    · rcases hop with hop | hop <;> simp [Instr.Complete, hop]
    · exact List.mem_singleton.mp hx ▸ hy.answers_typeOf
    · exact List.mem_singleton.mp hx ▸ hy.castable
    · rcases hop with hop | hop <;> (rw [hop] at hnum; cases hnum)

theorem resizes_supplied {vs vs' : List Value} (hg : g.Intact scope) (hs : g.Supplied)
    (hvs : ∀ v ∈ vs, g.Resolves scope v) (hn : ∀ v ∈ vs, g.Number v)
    (he : (vs.mapM fun v => resize scope v (.int w)).run g = .ok vs' f) :
    f.Supplied ∧ vs'.length = vs.length ∧ ∀ v ∈ vs', f.Number v := by
  induction vs generalizing g vs' with
  | nil =>
    rw [List.mapM_nil, Edit.pure_eq_ok] at he
    obtain ⟨rfl, rfl⟩ := he
    exact ⟨hs, rfl, by simp⟩
  | cons v vs ih =>
    simp only [List.mapM_cons, Edit.bind_eq_ok, Edit.pure_eq_ok] at he
    obtain ⟨v', g', hv', vs', _, hvs', rfl, rfl⟩ := he
    have hone := resize_keeps hg (hvs v (List.mem_cons_self ..)) hv'
    obtain ⟨hs', hnum⟩ := resize_supplied hg hs (hvs v (List.mem_cons_self ..))
      (hn v (List.mem_cons_self ..)) hv'
    have hrest := ih hone.intact hs'
      (fun u hu => hone.grows.resolves (hvs u (List.mem_cons_of_mem _ hu)))
      (fun u hu => (hn u (List.mem_cons_of_mem _ hu)).mono hone.grows.keepsTypes) hvs'
    obtain ⟨-, hgrows, -⟩ := resizes_keep hone.intact
      (fun u hu => hone.grows.resolves (hvs u (List.mem_cons_of_mem _ hu))) hvs'
    refine ⟨hrest.1, by simp [hrest.2.1], ?_⟩
    rintro u (_ | ⟨_, hu⟩)
    · exact hnum.mono hgrows.keepsTypes
    · exact hrest.2.2 u hu

structure Fit (g : Func) (i : Instr) : Prop where
  op : i.op.isNumeric = true ∨ i.op = .icmp
  ty : ∃ n, i.ty = .int n
  number : ∀ v ∈ i.resized, g.Number v

theorem Fit.not_terminator (h : Fit g i) : i.op.isTerminator = false := by
  have hop := h.op
  cases ho : i.op <;> simp_all [Op.isNumeric, Op.isArith, Op.isTerminator]

theorem Fit.not_cast (h : Fit g i) : i.op.isCast = false := by
  have hop := h.op
  cases ho : i.op <;> simp_all [Op.isNumeric, Op.isArith, Op.isCast]

structure OperandsResized (i : Instr) (ops : List Value) (f : Func) : Prop where
  supplied : f.Supplied
  length : ops.length = i.operands.length
  typed : ∀ v ∈ ops, Checked.Answers (f.typeOf v)
  number : ∀ v ∈ if i.op = .select then ops.tail else ops, f.Number v

theorem resize_pair_supplied {a c a' c' : Value} (hg : g.Intact scope) (hs : g.Supplied)
    (hra : g.Resolves scope a) (hna : g.Number a) (hrc : g.Resolves scope c) (hnc : g.Number c)
    (ha : (resize scope a (.int w)).run g = .ok a' f') (hc : (resize scope c (.int w)).run f' = .ok c' f) :
    f.Supplied ∧ f.Number a' ∧ f.Number c' ∧ g.KeepsTypes f := by
  have hone := resize_keeps hg hra ha
  obtain ⟨hs', hna'⟩ := resize_supplied hg hs hra hna ha
  have hrc' := hone.grows.resolves hrc
  have htwo := resize_keeps hone.intact hrc' hc
  obtain ⟨hsf, hnc'⟩ := resize_supplied hone.intact hs' hrc' (hnc.mono hone.grows.keepsTypes) hc
  exact ⟨hsf, hna'.mono htwo.grows.keepsTypes, hnc', (hone.grows.trans htwo.grows).keepsTypes⟩

theorem narrowOperands_supplied {ops : List Value} (hg : g.Intact scope) (hs : g.Supplied)
    (hi : g.instr? id = some i) (hlive : i.isErased = false) (hfit : Fit g i)
    (he : (narrowOperands scope i (.int w)).run g = .ok ops f) : OperandsResized i ops f := by
  have hrefs := hg.references hi hlive
  obtain ⟨ret, hc⟩ := (hs id i hi hlive).complete
  have hnumber := hfit.number
  unfold narrowOperands at he
  dsimp only at he
  split at he
  · next hop =>
    simp only [Instr.Complete, hop] at hc
    obtain ⟨a, c, hac⟩ := List.length_eq_two.mp hc.1
    simp only [hac, Edit.bind_eq_ok, Edit.ask_eq_ok, Edit.pure_eq_ok] at he
    obtain ⟨_, _, ⟨⟨⟩, rfl⟩, a', h, ha', _, _, ⟨⟨⟩, rfl⟩, c', _, hc', rfl, rfl⟩ := he
    simp only [Instr.resized, hop, hac] at hnumber
    obtain ⟨hsf, hna, hnc, -⟩ := resize_pair_supplied hg hs (hrefs.operands a (by simp [hac]))
      (hnumber a (by simp)) (hrefs.operands c (by simp [hac])) (hnumber c (by simp)) ha' hc'
    exact ⟨hsf, by simp [hac], by simp [hna.answers_typeOf, hnc.answers_typeOf], by simp [hop, hna, hnc]⟩
  · next hop =>
    simp only [Instr.Complete, hop] at hc
    obtain ⟨k, a, c, hac⟩ := List.length_eq_three.mp hc.1
    simp only [hac, Edit.bind_eq_ok, Edit.ask_eq_ok, Edit.pure_eq_ok] at he
    obtain ⟨_, _, ⟨⟨⟩, rfl⟩, _, _, ⟨⟨⟩, rfl⟩, a', h, ha', _, _, ⟨⟨⟩, rfl⟩, c', _, hc', rfl, rfl⟩ := he
    simp only [Instr.resized, hop, hac, if_true, List.tail_cons] at hnumber
    obtain ⟨hsf, hna, hnc, hmono⟩ := resize_pair_supplied hg hs (hrefs.operands a (by simp [hac]))
      (hnumber a (by simp)) (hrefs.operands c (by simp [hac])) (hnumber c (by simp)) ha' hc'
    have hk : Checked.Answers _ :=
      ((hs id i hi hlive).typed k (by simp [hac])).imp fun _ ht => hmono k _ ht
    exact ⟨hsf, by simp [hac], by simp [hk, hna.answers_typeOf, hnc.answers_typeOf], by simp [hop, hna, hnc]⟩
  · next hcmp hsel =>
    have hall : i.resized = i.operands := if_neg hsel
    rw [hall] at hnumber
    obtain ⟨hsf, hlen, hnum⟩ := resizes_supplied hg hs hrefs.operands hnumber he
    exact ⟨hsf, hlen, fun v hv => (hnum v hv).answers_typeOf, by rwa [if_neg hsel]⟩

theorem OperandsResized.supplies {ops : List Value} (h : OperandsResized i ops g) {ret : Ty}
    (hc : i.Complete ret) (hfit : Fit f i) : g.Supplies (formAt i w ops b) where
  complete := by
    refine ⟨ret, hc.congr rfl ?_ h.length rfl⟩
    intro hcall
    have hop := hfit.op
    rw [hcall] at hop
    simp [Op.isNumeric, Op.isArith] at hop
  typed := h.typed
  source hcast := by
    have := hfit.not_cast
    rw [show i.op.isCast = true from hcast] at this
    cases this
  number _ _ := h.number

theorem number_form {l r : List Int} {ops : List Value} (h : g.Inserts u f b l r (formAt i w ops b)) :
    f.Number (.instr u) := by
  obtain ⟨m, hm⟩ : ∃ m, (formAt i w ops b).ty = .int m := by
    by_cases hop : i.op = .icmp
    · exact ⟨1, if_pos hop⟩
    · exact ⟨w, if_neg hop⟩
  exact ⟨⟨m, hm ▸ typeOf_instr h.instr_eq⟩, trivial⟩

/-- A conversion keeps what instructions have. -/
theorem Converted.supplied {ops : List Value} {g₁ g₂ g₃ g₄ : Func} {wide : Value}
    (h : Converted scope f id i w ops g₁ b u g₂ wide g₃ g₄) (hf : f.Intact scope)
    (hs : f.Supplied) (hi : f.instr? id = some i) (hlive : i.isErased = false) (hfit : Fit f i) :
    g₄.Supplied := by
  have hops := narrowOperands_supplied hf hs hi hlive hfit h.operands
  obtain ⟨ret, hc⟩ := (hs id i hi hlive).complete
  obtain ⟨l, r, hins⟩ := h.inserts
  have h₂ := hops.supplied.inserted hins (hops.supplies hc hfit)
  have hresolves : g₂.Resolves scope (.instr u) := isLive_iff.mpr ⟨_, hins.instr_eq, rfl⟩
  obtain ⟨n, hty⟩ := hfit.ty
  have hwide := h.resize
  rw [hty] at hwide
  obtain ⟨h₃, hnum⟩ := resize_supplied h.intact₂ h₂ hresolves (number_form hins) hwide
  have h₄ := h₃.rewritten h.result.intact h.rewrites fun v => by
    by_cases hv : v = .instr id
    · exact .inr (by rwa [if_pos hv])
    · exact .inl (if_neg hv)
  exact h₄.erased h.intact₃.wellFormed h.erase

end Narrow

end RegPressure
