import RegPressure.Config.Basic
import RegPressure.Proofs.Faultless.Base
import RegPressure.Proofs.Faultless.Ranges
import RegPressure.Proofs.Narrow.Supplied

namespace RegPressure

variable {α β : Type}

namespace Checked

def Safe (x : Checked α) : Prop := ∀ e, x = .error e → e = .endless

theorem Answers.safe {x : Checked α} (h : Answers x) : Safe x := by
  rintro e rfl
  obtain ⟨a, ha⟩ := h
  cases ha

theorem Safe.bind {x : Checked α} {k : α → Checked β} (hx : Safe x)
    (hk : ∀ a, x = .ok a → Safe (k a)) : Safe (x >>= k) := by
  intro e he
  rcases bind_eq_error.mp he with he | ⟨a, ha, he⟩
  · exact hx e he
  · exact hk a ha e he

theorem Safe.map {x : Checked α} (f : α → β) (hx : Safe x) : Safe (f <$> x) := by
  rintro e he
  cases x with
  | error e' =>
    cases he
    exact hx _ rfl
  | ok a => cases he

end Checked

namespace ValueRange.RangeM

def Safe (r : RangeM α) : Prop := ∀ m, Checked.Safe (r.run m)

variable {r : RangeM α} {k : α → RangeM β}

theorem Answers.safe (h : Answers r) : Safe r := fun m => (h m).safe

theorem safe_pure (a : α) : Safe (pure a : RangeM α) := (answers_pure a).safe

theorem safe_lift_bind {x : Checked α} {a : α} (hx : x = .ok a) (hk : Safe (k a)) :
    Safe (liftM x >>= k) := by
  subst hx
  exact fun m => hk m

theorem Safe.bind (hr : Safe r) (hk : ∀ a, Safe (k a)) : Safe (r >>= k) := fun m =>
  (hr m).bind fun p _ => hk p.1 p.2

theorem safe_ite {p : Prop} [Decidable p] {x y : RangeM α} (hx : Safe x) (hy : Safe y) :
    Safe (if p then x else y) := by
  split
  · exact hx
  · exact hy

theorem safe_allM {g : α → RangeM Bool} {l : List α} (h : ∀ a ∈ l, Safe (g a)) : Safe (l.allM g) := by
  induction l with
  | nil => exact safe_pure true
  | cons a l ih =>
    refine (h a (List.mem_cons_self ..)).bind fun b => ?_
    cases b with
    | true => exact ih fun x hx => h x (List.mem_cons_of_mem _ hx)
    | false => exact safe_pure false

theorem May.of_allM {g : α → RangeM Bool} {l : List α} (h : May (l.allM g) true) :
    ∀ a ∈ l, May (g a) true := by
  induction l with
  | nil => simp
  | cons a l ih =>
    obtain ⟨b, hb, h⟩ := May.bind h
    cases b with
    | true =>
      rintro x (_ | ⟨_, hx⟩)
      · exact hb
      · exact ih h x hx
    | false => cases h.pure

end ValueRange.RangeM

namespace Edit

def Safe (f : Func) (e : Edit α) : Prop := ∀ x g, e.run f = .error x g → x = .endless

variable {f : Func} {e : Edit α} {k : α → Edit β}

theorem safe_pure (a : α) : Safe f (pure a : Edit α) := nofun

theorem safe_endless : Safe f (throw .endless : Edit α) := by
  intro x g h
  cases h
  rfl

theorem Safe.bind (he : Safe f e) (hk : ∀ a g, e.run f = .ok a g → Safe g (k a)) :
    Safe f (e >>= k) := by
  intro x g h
  simp only [EStateM.run, Bind.bind, EStateM.bind] at h
  cases hrun : e f with
  | error y g' =>
    rw [hrun] at h
    cases h
    exact he _ _ hrun
  | ok a g' =>
    rw [hrun] at h
    exact hk a g' hrun x g h

theorem safe_ask {query : Func → Checked α} (h : Checked.Safe (query f)) : Safe f (ask query) := by
  intro x g hx
  simp only [EStateM.run, ask] at hx
  split at hx
  · cases hx
  · next e he =>
    cases hx
    exact h _ he

theorem safe_ask_bind {query : Func → Checked α} (h : Checked.Safe (query f))
    (hk : ∀ a, query f = .ok a → Safe f (k a)) : Safe f (ask query >>= k) :=
  (safe_ask h).bind fun a g hg => by
    obtain ⟨ha, rfl⟩ := ask_eq_ok.mp hg
    exact hk a ha

theorem safe_change {op : Func → Checked (Func × α)} (h : Checked.Safe (op f)) :
    Safe f (change op) := by
  intro x g hx
  simp only [EStateM.run, change] at hx
  split at hx
  · cases hx
  · next e he =>
    cases hx
    exact h _ he

theorem safe_get : Safe f (get : Edit Func) := nofun

theorem safe_modify (change : Func → Func) : Safe f (modify change : Edit PUnit) := nofun

end Edit

namespace Narrow

open ValueRange RangeM

variable {scope : Option Symbols} {f g : Func} {k : Context} {v : Value} {id site w : Int} {i : Instr}

/-! ### What can be narrowed -/

section Context

variable (h : k.Sturdy scope)

include h

theorem safe_operandsFit (hi : k.func.instr? id = some i) (hlive : i.isErased = false)
    (unsigned : Bool) : Safe (operandsFit k w id i unsigned) := by
  refine safe_allM fun v hv => ?_
  have hsite : ∀ t, some id = some t → ∃ b, k.func.Stands b t := by
    rintro t ⟨⟩
    exact h.func.stands id i hi hlive
  exact (h.answers_rangeAt (h.func.present id i hi hlive v hv) hsite).safe.bind fun r => safe_pure _

theorem safe_isLocal (hi : k.func.instr? id = some i) (hlive : i.isErased = false) :
    Safe (isLocal k w id i) := by
  obtain ⟨ret, hc⟩ := h.func.complete id i hi hlive
  unfold isLocal
  split
  case h_9 hop =>
    -- A shift to the left is the only operation of which an operand is looked at.
    simp only [Instr.Complete, hop] at hc
    obtain ⟨v, hv, -, -⟩ := h.func.exists_operand hi hlive (n := 1) (by omega)
    refine safe_lift_bind hv ?_
    split <;> exact safe_pure _
  all_goals first | exact safe_pure _ | exact safe_operandsFit h hi hlive _

theorem safe_canNarrow (depth : Nat) (hv : ∀ id, v = .instr id → k.func.isLive id = true)
    (hsite : ∃ b, k.func.Stands b site) : Safe (canNarrow k w depth v site) := by
  induction depth generalizing v site with
  | zero =>
    rintro m e he
    cases he
    rfl
  | succ depth ih =>
    cases v with
    | instr id =>
      rw [canNarrow]
      obtain ⟨i, hi, hlive⟩ := Func.isLive_iff.mp (hv id rfl)
      refine safe_lift_bind (Func.instr_eq_ok.mpr hi) ?_
      split
      · exact safe_allM fun v hv => ih (h.func.present id i hi hlive v hv).live
          (h.func.stands id i hi hlive)
      split
      · exact safe_pure false
      have hpresent : k.func.Present (.instr id) := ⟨⟨_, Func.typeOf_instr hi⟩, hv⟩
      refine (h.answers_rangeAt hpresent ?_).safe.bind fun r =>
        safe_ite (safe_isLocal h hi hlive) (safe_pure _)
      rintro t ⟨⟩
      exact hsite
    | _ => exact safe_pure false

theorem safe_candidate? (widths : List Int) : Safe (candidate? k widths) := by
  have hgo : ∀ places : List (Int × Int), (∀ p ∈ places, ∃ b, k.func.Stands b p.1) →
      Safe (candidate?.go k places) := by
    intro places hplaces
    induction places with
    | nil => exact safe_pure none
    | cons p places ih =>
      obtain ⟨b, hb⟩ := hplaces p (List.mem_cons_self ..)
      obtain ⟨i, hi, hhome, -⟩ := h.func.wellFormed.home_of_stands hb
      have hlive : k.func.isLive p.1 = true :=
        Func.isLive_iff.mpr ⟨i, hi, by simp [Instr.isErased, hhome]⟩
      rw [candidate?.go]
      refine safe_lift_bind (Func.instr_eq_ok.mpr hi) ?_
      refine (safe_canNarrow h _ (fun id hid => ?_) ⟨b, hb⟩).bind fun _ => safe_ite (safe_pure _)
        (ih fun q hq => hplaces q (List.mem_cons_of_mem _ hq))
      cases hid
      exact hlive
  refine hgo _ fun p hp => ?_
  obtain ⟨blk, hblk, hp⟩ := List.mem_flatMap.mp hp
  obtain ⟨id, hid, hp⟩ := List.mem_flatMap.mp hp
  obtain ⟨w, -, rfl⟩ := List.mem_map.mp hp
  obtain ⟨n, hn, rfl⟩ := List.getElem_of_mem hblk
  refine ⟨n, _, ?_, hid⟩
  rw [Func.block?_ofNat]
  simp

end Context

theorem isNumeric_of_isLocal (h : May (isLocal k w id i) true) : i.op.isNumeric = true := by
  cases hop : i.op <;> first
    | rfl
    | rw [isLocal, hop] at h
      cases h.pure

theorem number_of_canNarrow {depth : Nat} (hg : k.func.Intact scope)
    (h : May (canNarrow k w depth v site) true) : k.func.Number v := by
  cases depth with
  | zero => exact absurd h fun ⟨_, _, h⟩ => nomatch h
  | succ depth =>
    cases v with
    | instr id =>
      rw [canNarrow] at h
      obtain ⟨i, hi, h⟩ := h.bind
      have hi := Func.instr_eq_ok.mp hi.lift
      have hty : ∃ n, i.ty = .int n := by
        split at h
        · next hop => exact ⟨1, hg.bit id i hi hop⟩
        split at h
        · cases h.pure
        next hint =>
        cases hty : i.ty with
        | int n => exact ⟨n, rfl⟩
        | _ => simp [hty, Ty.isInt] at hint
      obtain ⟨n, hn⟩ := hty
      exact ⟨⟨n, hn ▸ Func.typeOf_instr hi⟩, trivial⟩
    | _ => cases May.pure h

theorem fit_of_canNarrow {depth : Nat} (hg : k.func.Intact scope) (hs : k.func.Supplied)
    (hi : k.func.instr? id = some i) (hlive : i.isErased = false)
    (h : May (canNarrow k w depth (.instr id) site) true) : Fit k.func i := by
  obtain ⟨⟨n, hn⟩, -⟩ := number_of_canNarrow hg h
  have hty : ∃ n, i.ty = .int n := ⟨n, by simpa [Func.typeOf_instr hi] using hn⟩
  cases depth with
  | zero => exact absurd h fun ⟨_, _, h⟩ => nomatch h
  | succ depth =>
    rw [canNarrow] at h
    obtain ⟨j, hj, h⟩ := h.bind
    cases hi.symm.trans (Func.instr_eq_ok.mp hj.lift)
    split at h
    · next hop =>
      refine ⟨.inr hop, hty, fun v hv => ?_⟩
      exact number_of_canNarrow hg (May.of_allM h v (Instr.mem_operands_of_mem_resized hv))
    split at h
    · cases h.pure
    obtain ⟨r, -, h⟩ := h.bind
    split at h
    · have hop := isNumeric_of_isLocal h
      exact ⟨.inl hop, hty, (hs id i hi hlive).number hop hty⟩
    · cases h.pure

/-! ### Conversions -/

section Edits

variable {n m : Nat} {y : Value} {b u : Int} (hg : g.Intact scope) (hs : g.Supplied)

include hg hs

omit hg in
theorem answers_source (hv : g.Resolves scope v) (hn : g.Number v) (target : Ty) :
    Checked.Answers (source g v n target) := by
  cases v with
  | instr id =>
    obtain ⟨i, hi, hlive⟩ := Func.isLive_iff.mp hv
    have hsup := hs id i hi hlive
    rw [source, Func.instr_eq_ok.mpr hi, Checked.ok_bind]
    split
    · exact Checked.answers_pure _
    · next hcast =>
      obtain ⟨ret, hc⟩ := hsup.complete
      have hlen : 0 < i.operands.length := by
        unfold Instr.Complete at hc
        cases hop : i.op <;> simp_all [Op.isCast]
      obtain ⟨x, hx, hel⟩ := exists_element hlen
      obtain ⟨t, ht⟩ := hsup.typed x hx
      have hel : element i.operands 0 = .ok x := hel
      rw [hel, Checked.ok_bind, ht, Checked.ok_bind]
      split
      · split <;> exact Checked.answers_pure _
      · exact Checked.answers_pure _
  | _ => exact Checked.answers_pure _

/-- A number can be resized. -/
theorem safe_resize (hv : g.Resolves scope v) (hn : g.Number v) (w : Nat) :
    Edit.Safe g (resize scope v (.int w)) := by
  obtain ⟨n, hty⟩ := hn.width
  refine Edit.safe_ask_bind (Checked.Answers.safe ⟨_, hty⟩) fun t ht => ?_
  cases hty.symm.trans ht
  dsimp only
  split
  · exact Edit.safe_pure _
  refine Edit.safe_ask_bind (answers_source hs hv hn _).safe fun y hy => ?_
  obtain ⟨y, m⟩ := y
  have hny := source_number hg hs hv hn hty hy
  have hry := (source_resolves hg hv hty hy).1
  have hfirst : ∀ {b : Int} {blk : Block} (cast : Instr), g.block? b = some blk →
      Edit.Safe g (do return Value.instr (← Edit.insertAt b (← Edit.ask (·.firstNonPhi b)) cast)) :=
    fun cast hb => Edit.safe_ask_bind (hg.wellFormed.answers_firstNonPhi hb).safe fun k hk =>
      (Edit.safe_change (Func.WellFormed.answers_insert_firstNonPhi hb hk cast).safe).bind
        fun _ _ _ => Edit.safe_pure _
  split
  · exact Edit.safe_pure _
  cases y with
  | int t c => exact Edit.safe_pure _
  | instr id =>
    obtain ⟨b, i, hb, hi⟩ := hg.exists_stands hry
    have hhome := hg.wellFormed.home_eq hb hi
    refine Edit.safe_ask_bind (Checked.Answers.safe ⟨i, Func.instr_eq_ok.mpr hi⟩) fun j hj => ?_
    cases hi.symm.trans (Func.instr_eq_ok.mp hj)
    split
    · obtain ⟨blk, hblk, -⟩ := hb
      rw [hhome, Option.getD_some]
      exact hfirst _ hblk
    · exact (Edit.safe_change (hg.wellFormed.answers_insertAfter hb _).safe).bind
        fun _ _ _ => Edit.safe_pure _
  | arg a =>
    obtain ⟨e, blk, he, hblk, -⟩ := hg.wellFormed.entry
    refine Edit.safe_get.bind fun f' g' hget => ?_
    obtain ⟨rfl, rfl⟩ := Edit.get_eq_ok.mp hget
    rw [he, Option.getD_some]
    exact hfirst _ hblk
  | _ => exact hny.castable.elim

theorem safe_resizes {vs : List Value} (hvs : ∀ v ∈ vs, g.Resolves scope v)
    (hn : ∀ v ∈ vs, g.Number v) (w : Nat) :
    Edit.Safe g (vs.mapM fun v => resize scope v (.int w)) := by
  induction vs generalizing g with
  | nil => exact Edit.safe_pure _
  | cons v vs ih =>
    have hv := hvs v (List.mem_cons_self ..)
    have hnv := hn v (List.mem_cons_self ..)
    rw [List.mapM_cons]
    refine (safe_resize hg hs hv hnv w).bind fun v' g' hg' => ?_
    have hkeeps := resize_keeps hg hv hg'
    refine (ih hkeeps.intact (resize_supplied hg hs hv hnv hg').1
      (fun u hu => hkeeps.grows.resolves (hvs u (List.mem_cons_of_mem _ hu)))
      fun u hu => (hn u (List.mem_cons_of_mem _ hu)).mono hkeeps.grows.keepsTypes).bind
        fun _ _ _ => Edit.safe_pure _

theorem safe_resize_pair {ops : List Value} {p q : Int} {a c : Value} (ha : element ops p = .ok a)
    (hc : element ops q = .ok c) (hops : ∀ v ∈ ops, g.Resolves scope v) (hna : g.Number a)
    (hnc : g.Number c) (w : Nat) (pack : Value → Value → List Value) :
    Edit.Safe g (do
      let a ← resize scope (← Edit.ask fun _ => element ops p) (.int w)
      let c ← resize scope (← Edit.ask fun _ => element ops q) (.int w)
      return pack a c) := by
  have hra := resolves_of_element hops ha
  refine Edit.safe_ask_bind (Checked.Answers.safe ⟨a, ha⟩) fun x hx => ?_
  cases ha.symm.trans hx
  refine (safe_resize hg hs hra hna w).bind fun a' g' hg' => ?_
  have hkeeps := resize_keeps hg hra hg'
  refine Edit.safe_ask_bind (Checked.Answers.safe ⟨c, hc⟩) fun y hy => ?_
  cases hc.symm.trans hy
  exact (safe_resize hkeeps.intact (resize_supplied hg hs hra hna hg').1
    (hkeeps.grows.resolves (resolves_of_element hops hc)) (hnc.mono hkeeps.grows.keepsTypes) w).bind
      fun _ _ _ => Edit.safe_pure _

theorem safe_narrowOperands (hi : g.instr? id = some i) (hlive : i.isErased = false)
    (hfit : Fit g i) (w : Nat) : Edit.Safe g (narrowOperands scope i (.int w)) := by
  have hrefs := hg.references hi hlive
  obtain ⟨ret, hc⟩ := (hs id i hi hlive).complete
  have hnumber := hfit.number
  unfold narrowOperands
  dsimp only
  split
  · next hop =>
    simp only [Instr.Complete, hop] at hc
    obtain ⟨a, c, hac⟩ := List.length_eq_two.mp hc.1
    simp only [Instr.resized, hop, hac] at hnumber
    exact safe_resize_pair hg hs (a := a) (c := c) (by rw [hac]; rfl) (by rw [hac]; rfl)
      hrefs.operands (hnumber a (by simp)) (hnumber c (by simp)) w fun a c => [a, c]
  · next hop =>
    simp only [Instr.Complete, hop] at hc
    obtain ⟨k, a, c, hac⟩ := List.length_eq_three.mp hc.1
    simp only [Instr.resized, hop, hac, if_true, List.tail_cons] at hnumber
    refine Edit.safe_ask_bind (Checked.Answers.safe ⟨k, by rw [hac]; rfl⟩) fun x _ => ?_
    exact safe_resize_pair hg hs (a := a) (c := c) (by rw [hac]; rfl) (by rw [hac]; rfl)
      hrefs.operands (hnumber a (by simp)) (hnumber c (by simp)) w fun a c => [x, a, c]
  · next hcmp hsel =>
    have hall : i.resized = i.operands := if_neg hsel
    rw [hall] at hnumber
    exact safe_resizes hg hs hrefs.operands hnumber w

theorem safe_convert (hb : g.Stands b id) (hi : g.instr? id = some i) (hfit : Fit g i) (w : Int) :
    Edit.Safe g (convert scope id w) := by
  have hlive : i.isErased = false := by simp [Instr.isErased, hg.wellFormed.home_eq hb hi]
  refine Edit.safe_ask_bind (Checked.Answers.safe ⟨i, Func.instr_eq_ok.mpr hi⟩) fun j hj => ?_
  cases hi.symm.trans (Func.instr_eq_ok.mp hj)
  refine (safe_narrowOperands hg hs hi hlive hfit w.toNat).bind fun ops g₁ hops => ?_
  obtain ⟨h₁, hgrows₁, -⟩ := narrowOperands_keep hg (hg.references hi hlive) hops
  obtain ⟨c, hc⟩ := h₁.stands id i (hgrows₁.instr id i hi) hlive
  refine (Edit.safe_change (h₁.wellFormed.answers_insertBefore hc _).safe).bind fun u g₂ hu => ?_
  obtain ⟨c, l, r, hins, h₂⟩ :=
    form_inserted hg hb hi hfit.not_terminator hops (Edit.change_eq_ok.mp hu)
  have hsized := narrowOperands_supplied hg hs hi hlive hfit hops
  obtain ⟨ret, hcomplete⟩ := (hs id i hi hlive).complete
  have hs₂ := hsized.supplied.inserted hins (hsized.supplies hcomplete hfit)
  have hresolves : g₂.Resolves scope (.instr u) := Func.isLive_iff.mpr ⟨_, hins.instr_eq, rfl⟩
  obtain ⟨n, hty⟩ := hfit.ty
  rw [hty]
  refine (safe_resize h₂ hs₂ hresolves (number_form hins) n).bind fun wide g₃ hwide => ?_
  have hkeeps := resize_keeps h₂ hresolves hwide
  have hi₃ := hkeeps.grows.instr id i (hins.grows.instr id i (hgrows₁.instr id i hi))
  refine (Edit.safe_modify _).bind fun _ g₄ hg₄ => ?_
  cases Edit.modify_eq_ok.mp hg₄
  -- Other uses do not change where the instruction stands.
  have hrw := Func.rewrites_replaceAllUses hkeeps.intact.wellFormed id wide
  have h₄ := hkeeps.intact.rewritten hrw fun v hv => by
    split
    · exact hkeeps.resolves
    · exact hv
  obtain ⟨y, hy⟩ := hkeeps.intact.stands id i hi₃ hlive
  have herase := h₄.wellFormed.answers_erase (hrw.stands.mpr hy)
  exact (Edit.safe_change (herase.bind_pure).safe).bind fun _ _ _ => Edit.safe_modify _

end Edits

/-! ### The loops -/

structure Steady (scope : Option Symbols) (f : Func) : Prop where
  intact : f.Intact scope
  supplied : f.Supplied

namespace Steady

variable {d : DomInfo} {widths : List Int} (h : Steady scope f)

include h

theorem sturdy : f.Sturdy scope := h.supplied.sturdy h.intact

theorem fit_of_candidate {o : Option DomInfo} (hk : Context.of f o = .ok k)
    (hnext : (candidate? k widths).run' (Memo.empty f) = .ok (some (id, w))) :
    ∃ b i, f.Stands b id ∧ f.instr? id = some i ∧ Fit f i := by
  obtain ⟨k', hk', rfl, -⟩ := Context.Sturdy.exists_of o h.sturdy
  cases hk.symm.trans hk'
  simp only [StateT.run', Checked.map_eq_ok] at hnext
  obtain ⟨⟨_, m⟩, hm, rfl⟩ := hnext
  obtain ⟨b, i, hb, hi, hcan⟩ := canNarrow_of_candidate (k := k) ⟨_, m, hm⟩
  have hlive : i.isErased = false := by
    simp [Instr.isErased, h.intact.wellFormed.home_eq hb hi]
  exact ⟨b, i, hb, hi, fit_of_canNarrow h.intact h.supplied hi hlive hcan⟩

theorem convert {b : Int} (hb : f.Stands b id) (hi : f.instr? id = some i) (hfit : Fit f i)
    (he : (convert scope id w).run f = .ok () g) : Steady scope g := by
  have hlive : i.isErased = false := by
    simp [Instr.isErased, h.intact.wellFormed.home_eq hb hi]
  obtain ⟨ops, g₁, c, u, g₂, wide, g₃, g₄, hc, rfl⟩ :=
    exists_converted h.intact hb hi hfit.not_terminator hfit.not_cast hfit.ty he
  exact ⟨hc.intact₄.renamed u i.name,
    (hc.supplied h.intact h.supplied hi hlive hfit).renamed hc.intact₄ u i.name⟩

theorem erase (hdead : DeadCast f id) (he : f.erase id = .ok g) : Steady scope g :=
  ⟨hdead.intact h.intact he, h.supplied.erased h.intact.wellFormed he⟩

theorem safe_next (o : Option DomInfo) : Checked.Safe (do
    let k ← Context.of f o
    (candidate? k widths).run' (Memo.empty f)) := by
  obtain ⟨k, hk, rfl, hsturdy⟩ := Context.Sturdy.exists_of o h.sturdy
  rw [hk, Checked.ok_bind]
  exact (safe_candidate? hsturdy widths _).map _

theorem safe_convertAll (steps : Nat) : Edit.Safe f (convertAll scope d widths steps) := by
  induction steps generalizing f with
  | zero => exact Edit.safe_endless
  | succ steps ih =>
    refine Edit.safe_ask_bind (h.safe_next (some d)) fun next hnext => ?_
    obtain ⟨k, hk, hnext⟩ := Checked.bind_eq_ok.mp hnext
    cases next with
    | none => exact Edit.safe_pure _
    | some p =>
      obtain ⟨id, w⟩ := p
      obtain ⟨b, i, hb, hi, hfit⟩ := h.fit_of_candidate hk hnext
      refine (safe_convert h.intact h.supplied hb hi hfit w).bind fun _ g hg => ?_
      exact (ih (h.convert hb hi hfit hg)).bind fun _ _ _ => Edit.safe_pure _

theorem safe_eraseAll {dead : List Int} (hnodup : dead.Nodup) (hdead : ∀ id ∈ dead, DeadCast f id) :
    Edit.Safe f (dead.forM Edit.erase) := by
  induction dead generalizing f with
  | nil => exact Edit.safe_pure _
  | cons id dead ih =>
    have hwf := h.intact.wellFormed
    have hid := hdead id (List.mem_cons_self ..)
    obtain ⟨i, hi, hlive, -⟩ := hid.cast
    obtain ⟨b, hb⟩ := h.intact.stands id i hi hlive
    obtain ⟨hnew, hnodup⟩ := List.nodup_cons.mp hnodup
    refine (Edit.safe_change ((hwf.answers_erase hb).bind_pure).safe).bind fun _ g hg => ?_
    have hg := Edit.erase_eq_ok.mp hg
    refine ih (h.erase hid hg) hnodup fun x hx => ?_
    exact (hdead x (List.mem_cons_of_mem _ hx)).of_erase hwf hg (ne_of_mem_of_not_mem hx hnew)

theorem safe_eraseDeadCasts (rounds : Nat) : Edit.Safe f (eraseDeadCasts rounds) := by
  induction rounds generalizing f with
  | zero => exact Edit.safe_endless
  | succ rounds ih =>
    refine Edit.safe_get.bind fun f' g' hget => ?_
    obtain ⟨rfl, rfl⟩ := Edit.get_eq_ok.mp hget
    obtain ⟨users, husers⟩ := h.sturdy.answers_userMap
    refine Edit.safe_ask_bind (Checked.Answers.safe ⟨users, husers⟩) fun users husers => ?_
    obtain ⟨hnodup, hdead⟩ := dead_casts h.intact.wellFormed husers rfl
    dsimp only
    split
    · exact Edit.safe_pure _
    · refine (h.safe_eraseAll hnodup hdead).bind fun _ g hg => ih ?_
      exact erase_all_induction (P := Steady scope) (fun _ _ _ hk hid he => hk.erase hid he)
        (fun _ hk => hk.intact.wellFormed) h hnodup hdead hg

theorem safe_narrow (widths : List Int) : Edit.Safe f (narrow scope widths) := by
  have hdom : DomInfo.compute f = .ok _ := h.intact.wellFormed.compute_eq
  refine Edit.safe_ask_bind (Checked.Answers.safe ⟨_, hdom⟩) fun d _ => ?_
  refine Edit.safe_get.bind fun f' g' hget => ?_
  obtain ⟨rfl, rfl⟩ := Edit.get_eq_ok.mp hget
  refine (h.safe_convertAll _).bind fun changed g hg => ?_
  have hsteady : Steady scope g := by
    refine convertAll_induction (P := Steady scope) (fun g g' k id w hg hk hnext hg' => ?_) h hg
    obtain ⟨b, i, hb, hi, hfit⟩ := hg.fit_of_candidate hk hnext
    exact hg.convert hb hi hfit hg'
  cases changed with
  | false => exact Edit.safe_pure _
  | true =>
    refine Edit.safe_get.bind fun f' g' hget => ?_
    obtain ⟨rfl, rfl⟩ := Edit.get_eq_ok.mp hget
    exact (hsteady.safe_eraseDeadCasts _).bind fun _ _ _ => Edit.safe_pure _

end Steady

end Narrow

open Narrow

/-- Narrowing does not fault on a function that was read, whatever the widths are, if the operands
have the types that their operations need and no undefined number is to be resized: no promise of
the graph is broken and nothing is looked for where it is not. What is left is that it does not end,
as where comparisons compare each other. No fault comes later in such a run either, however many
conversions are made. -/
theorem narrow_does_not_fault {file : String} {src : Bytes} {p : Parsed} {f : Func}
    (h : parse file src = .ok p) (he : p.errors = []) (hf : f ∈ p.module.funcs)
    (hagree : f.OperandsAgree) (hdefined : f.ResizesDefined) (widths : List Int) :
    ((∃ changed g, (narrow (some p.module.symbols) widths).run f = .ok changed g) ∨
      ∃ g, (narrow (some p.module.symbols) widths).run f = .error .endless g) ∧
    ∀ (d : DomInfo) (ws : List Int) (steps : Nat) (e : Fault) (g : Func),
      (convertAll (some p.module.symbols) d ws steps).run f = .error e g → e = .endless := by
  have hread := (read_of_parse h he).funcs f hf
  have hsteady : Steady (some p.module.symbols) f := ⟨hread.intact, hread.supplied hagree hdefined⟩
  refine ⟨?_, fun _ _ steps => hsteady.safe_convertAll steps⟩
  cases hrun : (narrow (some p.module.symbols) widths).run f with
  | ok changed g => exact .inl ⟨changed, g, rfl⟩
  | error e g =>
    cases hsteady.safe_narrow widths e g hrun
    exact .inr ⟨g, rfl⟩

def lowFour (word : String) : Bytes := Bytes.ofString
  ("func @f(%x: i64) -> i64 \x7b\na:\n  %r = and i64 " ++ word ++ ", 15\n  ret i64 %r\n\x7d\n")

def lowFour.fault? (scope : Option Symbols) (f : Func) : Option Fault :=
  match (narrow scope [16]).run f with
  | .error e _ => some e
  | _ => none

theorem lowFour_of_parameter_does_not_fault : ∃ p, parse "f.mir" (lowFour "%x") = .ok p ∧
    p.errors = [] ∧ p.module.funcs.map (·.name) = ["f"] ∧
      ∀ f ∈ p.module.funcs, f.OperandsAgree ∧ f.ResizesDefined ∧
        ∃ changed g, (narrow (some p.module.symbols) [16]).run f = .ok changed g := by
  have hread : ((parse "f.mir" (lowFour "%x")).toOption.map fun p => (p.errors.isEmpty,
      p.module.funcs.map (·.name), p.module.funcs.all fun f => f.OperandsAgree && f.ResizesDefined &&
        lowFour.fault? (some p.module.symbols) f ≠ some .endless)) = some (true, ["f"], true) := by
    decide +kernel
  cases hp : parse "f.mir" (lowFour "%x") with
  | error e =>
    rw [hp] at hread
    cases hread
  | ok p =>
    rw [hp] at hread
    obtain ⟨he, hread⟩ := Prod.ext_iff.mp (Option.some.inj hread)
    obtain ⟨hnames, hall⟩ := Prod.ext_iff.mp hread
    have he : p.errors = [] := List.isEmpty_iff.mp he
    refine ⟨p, rfl, he, hnames, fun f hf => ?_⟩
    have hchecks := List.all_eq_true.mp hall f hf
    simp only [Bool.and_eq_true, decide_eq_true_eq] at hchecks
    obtain ⟨⟨hagree, hdefined⟩, hends⟩ := hchecks
    refine ⟨hagree, hdefined, ?_⟩
    rcases (narrow_does_not_fault hp he hf hagree hdefined [16]).1 with hok | ⟨g, hg⟩
    · exact hok
    · simp [lowFour.fault?, hg] at hends

/-- The low bits of an undefined word fault, though the function is well typed. -/
theorem lowFour_of_undef_faults : ({ widths := [16] } : Config).problem? = none ∧
    ∃ p, parse "f.mir" (lowFour "undef") = .ok p ∧ p.errors = [] ∧
      ∃ f ∈ p.module.funcs, f.OperandsAgree ∧ f.WellTyped ∧ ∃ g,
        (narrow (some p.module.symbols) ({ widths := [16] } : Config).settings.widths).run f =
          .error (.breach "f" (.resize "undef")) g := by
  have hread : ((parse "f.mir" (lowFour "undef")).toOption.map fun p => (p.errors.isEmpty,
      p.module.funcs.any fun f => f.OperandsAgree && f.wellTyped &&
        lowFour.fault? (some p.module.symbols) f = some (.breach "f" (.resize "undef")))) =
      some (true, true) := by decide +kernel
  refine ⟨by decide +kernel, ?_⟩
  cases hp : parse "f.mir" (lowFour "undef") with
  | error e =>
    rw [hp] at hread
    cases hread
  | ok p =>
    rw [hp] at hread
    obtain ⟨he, hany⟩ := Prod.ext_iff.mp (Option.some.inj hread)
    obtain ⟨f, hf, hchecks⟩ := List.any_eq_true.mp hany
    simp only [Bool.and_eq_true, decide_eq_true_eq] at hchecks
    obtain ⟨⟨hagree, htyped⟩, hfault⟩ := hchecks
    refine ⟨p, rfl, List.isEmpty_iff.mp he, f, hf, hagree, Func.wellTyped_of_holds htyped, ?_⟩
    unfold lowFour.fault? at hfault
    split at hfault
    · next e g hg =>
      cases hfault
      exact ⟨g, hg⟩
    · cases hfault

end RegPressure
