import RegPressure.Proofs.Narrow.Form

namespace RegPressure.Narrow

variable {scope : Option Symbols} {f g k : Func} {d : DomInfo} {W : World} {w n : Nat} {b id u : Int}
  {i : Instr} {ops : List Value}

theorem NarrowOf.enlarges {v v' : Value} {t : Ty} (h : NarrowOf d f g w v v') (hfg : f.Enlarges d g)
    (hgk : g.Enlarges d k) (hv : f.HasTy v t) : NarrowOf d f k w v v' :=
  ⟨h.resized.enlarges hgk (hfg.hasTy hv) h.hasTy, hgk.hasTy h.hasTy, fun hc hreach hphi havail =>
    hgk.available (hfg.stands hc) (h.available hc hreach hphi havail)⟩

theorem NarrowOperands.imp {R Q : Value → Value → Prop} (h : NarrowOperands R i ops)
    (hRQ : ∀ v ∈ i.operands, ∀ v', R v v' → Q v v') : NarrowOperands Q i ops := by
  cases h with
  | all hop hall =>
    refine .all hop (List.forall₂_iff_zip.mpr ⟨hall.length_eq, fun {v v'} hmem => ?_⟩)
    exact hRQ v (List.of_mem_zip hmem).1 v' (List.forall₂_zip hall hmem)
  | select hop hops he ha hb => exact .select hop hops he (hRQ _ (by simp [hops]) _ ha) (hRQ _ (by simp [hops]) _ hb)

/-- An operand of the narrow form is one of the instruction, at the narrow width unless it is the
condition. -/
theorem NarrowOperands.exists_operand {R : Value → Value → Prop} (h : NarrowOperands R i ops) {j : Nat}
    {v' : Value} (hj : ops[j]? = some v') :
    ∃ v, i.operands[j]? = some v ∧ (R v v' ∨ v' = v ∧ i.op = .select ∧ i.operands.head? = some v) := by
  cases h with
  | all hop hall =>
    obtain ⟨v, hv, hR⟩ := exists_getElem? hall.flip hj
    exact ⟨v, hv, .inl hR⟩
  | @select c a b a' b' hop hops he ha hb =>
    subst he
    match j, hj with
    | 0, hj =>
      cases hj
      exact ⟨v', by simp [hops], .inr ⟨rfl, hop, by simp [hops]⟩⟩
    | 1, hj =>
      cases hj
      exact ⟨a, by simp [hops], .inl ha⟩
    | 2, hj =>
      cases hj
      exact ⟨b, by simp [hops], .inl hb⟩

theorem Narrows.op (h : Narrows g id i w) : i.op.isPure = true ∨ i.op = .phi := by
  cases h with
  | arith hop => exact .inl (Op.isPure_of_isArith hop)
  | move hop => exact hop.imp (fun he => by rw [he]; rfl) fun he => he
  | icmp hop => exact .inl (by rw [hop]; rfl)

theorem Narrows.not_cast (h : Narrows g id i w) : i.op.isCast = false := by
  cases h with
  | arith hop => exact Op.not_isCast_of_isArith hop
  | move hop => rcases hop with hop | hop <;> (rw [hop]; rfl)
  | icmp hop => rw [hop]; rfl

theorem Narrows.not_terminator (h : Narrows g id i w) : i.op.isTerminator = false := by
  rcases h.op with hop | hop
  · exact Op.not_isTerminator_of_isPure hop
  · rw [hop]
    rfl

def formAt (i : Instr) (w : Nat) (operands : List Value) (b : Int) : Instr :=
  { form i w operands with home := some b }

theorem result_formAt {s : State} {x : Int} :
    Result W g s (formAt i w ops b) none x ↔ Result W g s (form i w ops) none x := by
  have hsame : SameReads W (fun v => v) s (form i w ops) :=
    ⟨fun _ _ _ _ => Iff.rfl, fun _ _ _ _ _ _ _ => Iff.rfl⟩
  have hops : (formAt i w ops b).operands = (form i w ops).operands.map fun v => v := (List.map_id' _).symm
  exact hsame.result hops rfl rfl

/-- An instruction of `f` that may be done at width `w`, and its operands at that width in `g`. -/
structure Ready (scope : Option Symbols) (d : DomInfo) (f g : Func) (b id : Int) (i : Instr) (w : Nat)
    (ops : List Value) : Prop where
  left : f.Proper scope d
  proper : g.Proper scope d
  enlarges : f.Enlarges d g
  stands : f.Stands b id
  instr : f.instr? id = some i
  width : (Ty.int w).Valid
  narrows : Narrows g id i w
  operands : NarrowOperands (NarrowOf d f g w) i ops

namespace Ready

variable (h : Ready scope d f g b id i w ops)

include h

theorem typed : f.Typed i := (h.left.typed.instr b id i h.stands h.instr).2

theorem instr_right : g.instr? id = some i := by rw [h.enlarges.instr h.stands, h.instr]

theorem stands_right : g.Stands b id := h.enlarges.stands h.stands

theorem enlarge (hgk : g.Enlarges d k) (hk : k.Proper scope d) : Ready scope d f k b id i w ops := by
  refine ⟨h.left, hk, h.enlarges.trans hgk, h.stands, h.instr, h.width,
    h.narrows.enlarges hgk h.stands_right, h.operands.imp fun v hv v' hn => ?_⟩
  obtain ⟨t, ht⟩ := h.left.typed.operand b id i h.stands h.instr v hv
  exact hn.enlarges h.enlarges hgk ht

theorem hasTy_operand {v' : Value} (hv' : v' ∈ ops) : ∃ m, g.HasTy v' (.int m) := by
  obtain ⟨j, hj⟩ := List.mem_iff_getElem?.mp hv'
  obtain ⟨v, _, hn | ⟨rfl, hop, hhead⟩⟩ := h.operands.exists_operand hj
  · exact ⟨w, hn.hasTy⟩
  · obtain ⟨c, a, e, hops, hc, _⟩ := (Func.typed_select hop).mp h.typed
    rw [hops] at hhead
    cases hhead
    exact ⟨1, h.enlarges.hasTy hc⟩

theorem available_operand {j : Nat} {v' : Value} (hj : ops[j]? = some v') {c : Int} {y : Nat}
    (hc : f.Stands y c) (hreach : d.dom.isReachable y = true) (hphi : f.opOf c ≠ .phi)
    (havail : ∀ v, i.operands[j]? = some v → f.Available d v c) : g.Available d v' c := by
  obtain ⟨v, hv, hn | ⟨rfl, _⟩⟩ := h.operands.exists_operand hj
  · exact hn.available hc hreach hphi (havail v hv)
  · exact h.enlarges.available hc (havail v' hv)

theorem typed_form : g.Typed (form i w ops) := by
  have hall : i.op ≠ .select → ∀ v' ∈ ops, g.HasTy v' (.int w) := by
    intro hop v' hv'
    obtain ⟨j, hj⟩ := List.mem_iff_getElem?.mp hv'
    obtain ⟨v, _, hn | ⟨_, he, _⟩⟩ := h.operands.exists_operand hj
    · exact hn.hasTy
    · exact absurd he hop
  have hlength : i.op ≠ .select → i.operands.length = ops.length := by
    intro hop
    cases h.operands with
    | all _ hall => exact hall.length_eq
    | select he => exact absurd he hop
  cases h.narrows with
  | arith hop hty hlt =>
    obtain ⟨a, c, hac, _⟩ := (Func.typed_arith hop).mp h.typed
    have hselect : i.op ≠ .select := Op.ne_of_isArith hop rfl
    have hlen := hlength hselect
    rw [hac] at hlen
    obtain ⟨a', c', rfl⟩ := List.length_eq_two.mp hlen.symm
    have hty : (form i w [a', c']).ty = .int w := if_neg (Op.ne_of_isArith hop rfl)
    rw [Func.typed_arith (i := form i w [a', c']) hop, hty]
    exact ⟨a', c', rfl, hall hselect a' (by simp), hall hselect c' (by simp)⟩
  | move hop hty hlt =>
    rcases hop with hop | hop
    · obtain ⟨c, a, e, hops, hc, _⟩ := (Func.typed_select hop).mp h.typed
      have hty : (form i w ops).ty = .int w := if_neg (by rw [hop]; decide)
      rw [Func.typed_select (i := form i w ops) hop, hty]
      cases h.operands with
      | all hne => exact absurd hop hne
      | select _ hops' he ha he' =>
        rw [hops'] at hops
        cases hops
        exact ⟨_, _, _, he, h.enlarges.hasTy hc, ha.hasTy, he'.hasTy⟩
    · have hty : (form i w ops).ty = .int w := if_neg (by rw [hop]; decide)
      rw [Func.typed_phi (i := form i w ops) hop, hty]
      exact hall (by rw [hop]; decide)
  | icmp hop hops ha hc =>
    have hne : i.op ≠ .select := by rw [hop]; decide
    have hlen := hlength hne
    rw [hops] at hlen
    obtain ⟨a', c', rfl⟩ := List.length_eq_two.mp hlen.symm
    refine (Func.typed_icmp (i := form i w [a', c']) hop).mpr ⟨if_pos hop, ?_, ?_⟩
    · exact ((Func.typed_icmp hop).mp h.typed).2.1
    · exact ⟨a', c', .int w, rfl, hall hne a' (by simp), hall hne c' (by simp)⟩

theorem valid_form : (form i w ops).ty.Valid := by
  unfold form
  dsimp only
  split
  · exact ⟨by decide, by decide⟩
  · exact h.width

/-- The operands of the narrow form of an operation on two integers read as the low bits of those of
the operation. -/
theorem reads_operands (hW : W.Fits g) (hD : W.Definite) (hop : i.op.isArith = true) {t : State}
    (ht : Reached W g t) {rest : List Int} (hrest : t.rest = id :: rest) {vals : List Int}
    (hvals : List.Forall₂ (Reads W t.env) i.operands vals) :
    ∃ x y, vals = [x, y] ∧ List.Forall₂ (Reads W t.env) ops [low w x, low w y] := by
  have hphi := Op.ne_phi_of_isPure (Op.isPure_of_isArith hop)
  cases h.operands with
  | select he => exact absurd he (Op.ne_of_isArith hop rfl)
  | all _ hall =>
    obtain ⟨a, c, hac, _⟩ := (Func.typed_arith hop).mp h.typed
    rw [hac] at hall hvals
    obtain ⟨a', _, ha', hall', rfl⟩ := List.forall₂_cons_left_iff.mp hall
    obtain ⟨c', _, hc', hnil, rfl⟩ := List.forall₂_cons_left_iff.mp hall'
    cases hnil
    obtain ⟨x, _, hx, hvals', rfl⟩ := List.forall₂_cons_left_iff.mp hvals
    obtain ⟨y, _, hy, hnil, rfl⟩ := List.forall₂_cons_left_iff.mp hvals'
    cases hnil
    have hreads : ∀ {v v' : Value} {a : Int}, NarrowOf d f g w v v' → v ∈ i.operands →
        Reads W t.env v a → Reads W t.env v' (low w a) := fun hn hv ha =>
      hn.reads h.left h.enlarges h.proper hW hD ht hrest h.stands h.instr h.width.1 hphi hv ha
    exact ⟨x, y, rfl, .cons (hreads ha' (by simp [hac]) hx) (.cons (hreads hc' (by simp [hac]) hy) .nil)⟩

section Insertion

variable {l r : List Int} (hins : g.Inserts u k b l (id :: r) (formAt i w ops b))

include hins

theorem operand_ne {v' : Value} (hv' : v' ∈ ops) : v' ≠ .instr u := by
  rintro rfl
  obtain ⟨m, ⟨_, j, hj, _⟩⟩ := h.hasTy_operand hv'
  rw [hins.fresh] at hj
  cases hj

theorem wellFormed_insert : k.WellFormed scope := by
  have hrefs := h.proper.wf.references h.stands_right h.instr_right
  refine hins.wellFormed h.proper.wf ⟨fun v' hv' => ?_, fun t ht => ?_, fun hop => ?_⟩ fun hop blk hblk => ?_
  · obtain ⟨m, hm⟩ := h.hasTy_operand hv'
    exact (hins.resolves (h.operand_ne hins hv')).mp (h.proper.wf.resolves_of_hasTy hm)
  · obtain ⟨blk, hblk⟩ := hrefs.targets t ht
    rw [hins.block] at hblk
    obtain ⟨blk', hblk', _⟩ := Option.map_eq_some_iff.mp hblk
    exact ⟨blk', hblk'⟩
  · have hlen : i.operands.length = ops.length := by
      cases h.operands with
      | all _ hall => exact hall.length_eq
      | select hselect => cases hop.symm.trans hselect
    exact (hrefs.arity hop).trans hlen
  · obtain ⟨blk', hblk', hmem⟩ := h.stands_right
    rw [hblk] at hblk'
    cases hblk'
    exact (h.proper.wf.block b blk hblk).edges.incoming id hmem i h.instr_right hop

theorem precedes_insert {v y : Int} (hv : g.Stands y v) (hprec : g.Precedes d v id) :
    k.Precedes d v u := by
  obtain ⟨y, rfl, _⟩ := hv.nat
  obtain ⟨x, hx, _⟩ := h.stands_right.nat
  obtain ⟨blk, hblk, hmem⟩ := h.stands_right
  rw [hx] at hblk
  refine (hins.precedes_self hx (h.wellFormed_insert hins) (hins.stands.mp hv).1).mpr ?_
  refine ((h.proper.wf.precedes_iff hv hblk hmem).mp hprec).imp_right ?_
  rintro ⟨rfl, hsub⟩
  have hbody : blk.instrs = l ++ id :: r := by
    rw [← hins.body_without, hx]
    simp [Func.bodyOf, hblk]
  have hnodup := (h.proper.wf.block _ _ hblk).body.nodup
  rw [hbody] at hsub hnodup
  exact ⟨rfl, (Func.pair_sublist_iff_mem_left hnodup).mp hsub⟩

theorem inSsaForm_insert : k.InSsaForm d fun b => d.dom.isReachable b = true := by
  have hwf := h.wellFormed_insert hins
  refine hins.inSsaForm h.proper.wf hwf h.proper.ssa (fun x hx hreach hop v hv => ?_)
    fun hop j v p t hv ht hreach hterm => ?_
  · subst hx
    obtain ⟨j, hj⟩ := List.mem_iff_getElem?.mp hv
    have havail : g.Available d (.instr v) id := by
      refine h.available_operand hj h.stands hreach (by rwa [Func.opOf_eq h.instr]) fun q hq => ?_
      rintro p rfl
      exact h.left.ssa.uses x id i p hreach h.stands h.instr hop (List.mem_of_getElem? hq)
    obtain ⟨hc, hprec⟩ := havail v rfl
    obtain ⟨y, hy⟩ := hc.1
    exact ⟨(hins.computes fun he => h.operand_ne hins hv (he ▸ rfl)).mp hc,
      h.precedes_insert hins hy hprec⟩
  · obtain ⟨hkt, htop⟩ := hwf.terminator_iff.mp hterm
    have htu : t ≠ u := by
      rintro rfl
      rw [hins.opOf_self, hins.not_terminator] at htop
      cases htop
    have hgt := hins.stands.mpr ⟨hkt, htu⟩
    obtain ⟨blk, hblk⟩ :=
      (h.left.wf.references h.stands h.instr).targets p (List.mem_of_getElem? ht)
    have hends := h.enlarges.terminator h.left.wf h.proper.wf hblk hgt (by rw [hins.opOf htu, htop])
    obtain ⟨hft, hfop⟩ := h.left.wf.terminator_iff.mp hends
    have havail : g.Available d (.instr v) t := by
      refine h.available_operand hv hft hreach (Op.ne_phi_of_isTerminator hfop) fun q hq => ?_
      rintro x rfl
      exact h.left.ssa.incoming b id i j x p t h.stands h.instr hop hq ht hreach hends
    obtain ⟨hc, hprec⟩ := havail v rfl
    obtain ⟨y, hy⟩ := hc.1
    exact ⟨(hins.computes fun he => h.operand_ne hins (List.mem_of_getElem? hv) (he ▸ rfl)).mp hc,
      (hins.precedes h.proper.wf hwf hy hgt).mp hprec⟩

theorem proper_insert : k.Proper scope d := by
  have hwf := h.wellFormed_insert hins
  have htyped : k.Typed (form i w ops) :=
    h.typed_form.mono fun v' hv' t => (hins.hasTy (h.operand_ne hins hv')).mp
  refine hins.proper h.proper hwf (h.inSsaForm_insert hins) h.valid_form htyped fun v' hv' => ?_
  obtain ⟨m, hm⟩ := h.hasTy_operand hv'
  exact ⟨_, (hins.hasTy (h.operand_ne hins hv')).mp hm⟩

theorem next_site {s t : State} (hs : Reached W k s) (hm : s.Matches u t) {rest : List Int}
    (hrest : s.rest = u :: rest) : ∃ rest', t.rest = id :: rest' := by
  have hwf := h.wellFormed_insert hins
  have hblock : (s.block : Int) = b := hins.only s.block (hs.located.stands hrest)
  have hnodup := hwf.bodyOf_nodup b
  obtain ⟨l', hl'⟩ := hs.located.suffix
  rw [hblock, hins.body, hrest] at hl'
  rw [hins.body] at hnodup
  have hl : u ∉ l := fun hmem => hins.once (List.mem_append_left _ hmem)
  have hr : u ∉ id :: r := fun hmem => hins.once (List.mem_append_right _ hmem)
  obtain ⟨_, _, hrest'⟩ := (List.append_cons_inj_of_notMem hl hr).mp hl'.symm
  rw [hm.rest, hrest, ← hrest', List.filter_cons_of_neg (by simp), Func.filter_ne_of_notMem hr]
  exact ⟨r, rfl⟩

theorem result_insert (hW : W.Fits g) (hD : W.Definite) {s t : State} (ht : Reached W g t)
    (hm : s.Matches u t) {rest : List Int} (hrest : t.rest = id :: rest) {x : Int} :
    Result W k s (formAt i w ops b) none x ↔ Result W g t i none x := by
  rw [result_formAt, ← hins.result hm fun hmem => h.operand_ne hins hmem rfl]
  exact result_form h.left h.enlarges h.proper hW hD ht hrest h.stands h.instr h.width.1 h.narrows
    h.operands

theorem exists_result_insert (hW : W.Fits g) (hD : W.Definite) {s t : State} {rest : List Int}
    (hs : Reached W k s) (ht : Reached W g t) (hm : s.Matches u t) (hrest : s.rest = u :: rest)
    (hgo : ∃ e t', Step W g t e t') : ∃ x, Result W k s (formAt i w ops b) none x := by
  obtain ⟨e, t', hst⟩ := hgo
  obtain ⟨rest', hrest'⟩ := h.next_site hins hs hm hrest
  have hterm : (g.opOf id).isTerminator = false := by
    rw [Func.opOf_eq h.instr_right, h.narrows.not_terminator]
  have hresult := hst.result hrest' hterm h.instr_right
  have he : e = none := by
    rcases h.narrows.op with hop | hop
    · exact ((result_iff hop).mp hresult).1
    · exact ((result_phi hop).mp hresult).1
  exact ⟨_, (h.result_insert hins hW hD ht hm hrest').mpr (he ▸ hresult)⟩

theorem enlarges_insert : g.Enlarges d k :=
  hins.enlarges h.proper.wf (h.wellFormed_insert hins) h.narrows.op
    fun _ hW hD _ _ _ hs ht hm hrest hgo => h.exists_result_insert hins hW hD hs ht hm hrest hgo

/-- Where control comes to the instruction without the narrow form, it comes to that with it. -/
theorem previous_site {s t : State} (hs : Reached W k s) (hm : s.Matches u t) {rest : List Int}
    (hrest : t.rest = id :: rest) :
    ∃ s₀ rest₀, Reached W k s₀ ∧ s₀.Matches u t ∧ s₀.rest = u :: rest₀ := by
  have hloc := hs.located
  have hfilter := hm.rest
  rw [hrest] at hfilter
  obtain ⟨y, srest, hsrest⟩ : ∃ y srest, s.rest = y :: srest := by
    cases he : s.rest with
    | nil => simp [he] at hfilter
    | cons y srest => exact ⟨y, srest, rfl⟩
  by_cases hy : y = u
  · exact ⟨s, srest, hs, hm, by rw [hsrest, hy]⟩
  rw [hsrest, List.filter_cons_of_pos (by simpa using hy)] at hfilter
  cases hfilter
  -- The narrow form has just run.
  have hblock : (s.block : Int) = b := by
    refine (h.wellFormed_insert hins).stands_unique (hloc.stands hsrest) ?_
    exact (hins.stands.mp h.stands_right).1
  obtain ⟨l', hl'⟩ := hloc.suffix
  have hnodup := (h.wellFormed_insert hins).bodyOf_nodup b
  rw [hblock, hins.body, hsrest] at hl'
  rw [hins.body] at hnodup
  have hid : id ∉ l ++ [u] ∧ id ∉ r := by
    rw [List.append_cons, List.nodup_middle] at hnodup
    simpa only [List.mem_append, not_or] using (List.nodup_cons.mp hnodup).1
  rw [List.append_cons l] at hl'
  obtain ⟨rfl, _, rfl⟩ := (List.append_cons_inj_of_notMem hid.1 hid.2).mp hl'.symm
  obtain ⟨s₀, e, hs₀, hrest₀, hst⟩ := hs.before (l := l) (c := u) (by simp [hsrest])
    (by rw [hblock, hins.body, hsrest])
  refine ⟨s₀, _, hs₀, ?_, hrest₀⟩
  obtain ⟨c, rest₀, hc, hmoves⟩ := hst.moves
  rw [hrest₀] at hc
  cases hc
  have hterm : (k.opOf u).isTerminator = false := by rw [hins.opOf_self, hins.not_terminator]
  cases hmoves with
  | on _ hblock _ hentered hsource hpick =>
    refine ⟨hm.block.trans hblock, ?_, fun x hx => ?_, fun x hx => ?_, hm.source.trans hsource,
      hm.pick.trans hpick⟩
    · rw [hm.rest, hrest₀, List.filter_cons_of_neg (by simp)]
    · rw [hm.env x hx, hst.env_eq hrest₀ hx]
    · rw [hm.entered x hx, hentered]
  | crosses hop => rw [hterm] at hop; cases hop
  | ends hop => rw [hterm] at hop; cases hop

/-- The narrow form of an operation on two integers has the low bits of its operands, and the same
result. -/
theorem meets_form (hW : W.Fits g) (hD : W.Definite) (hop : i.op.isArith = true) {x y z : Int}
    (hmeets : Meets W g id [x, y] (some z)) : Meets W k u [low w x, low w y] (some z) := by
  have hpure := Op.isPure_of_isArith hop
  have hphi := Op.ne_phi_of_isPure hpure
  obtain ⟨t, trest, j, ⟨seen, ht⟩, htrest, hj, hvals, hz⟩ := hmeets
  rw [h.instr_right] at hj
  cases hj
  obtain ⟨e, hwide⟩ := hz z rfl
  obtain rfl : e = none := ((result_iff hpure).mp hwide).1
  obtain ⟨s, hs, hm⟩ := hins.runs_with (h.wellFormed_insert hins) (hins.unused h.proper.wf) hins.instr_eq
    (fun s t rest hs ht hm hrest hgo => h.exists_result_insert hins hW hD hs ht hm hrest hgo) ht
  obtain ⟨s₀, rest₀, hs₀, hm₀, hrest₀⟩ := h.previous_site hins ⟨seen, hs⟩ hm htrest
  have hform := (h.result_insert hins hW hD ⟨seen, ht⟩ hm₀ htrest).mpr hwide
  obtain ⟨_, _, he, hlow⟩ := h.reads_operands hW hD hop ⟨seen, ht⟩ htrest (hvals hphi)
  cases he
  refine ⟨s₀, rest₀, _, hs₀, hrest₀, hins.instr_eq, fun _ => ?_, fun z hz => ⟨none, Option.some.inj hz ▸ hform⟩⟩
  refine (forall₂_reads_congr fun q hq => hm₀.env q ?_).mp hlow
  rintro rfl
  exact h.operand_ne hins hq rfl

theorem meets_insert (hW : W.Fits g) (hD : W.Definite) (hop : i.op.isArith = true) {x' y' : Int}
    {z : Int} (hmeets : Meets W k u [x', y'] (some z)) :
    ∃ x y, Meets W g id [x, y] (some z) ∧ x' = low w x ∧ y' = low w y := by
  have hpure := Op.isPure_of_isArith hop
  have hphi := Op.ne_phi_of_isPure hpure
  obtain ⟨s, rest, j, hs, hrest, hj, hvals, hz⟩ := hmeets
  rw [hins.instr_eq] at hj
  cases hj
  have hunused := hins.unused h.proper.wf
  have hu : (k.opOf u).isPure = true ∨ k.opOf u = .phi := .inl (by rw [hins.opOf_self]; exact hpure)
  obtain ⟨seen, hruns⟩ := hs
  obtain ⟨t, ht, hm⟩ := hins.runs_without hunused hu hruns
  have ht : Reached W g t := ⟨seen, ht⟩
  obtain ⟨rest', hrest'⟩ := h.next_site hins ⟨seen, hruns⟩ hm hrest
  obtain ⟨e, hresult⟩ := hz z rfl
  have hpure' : (formAt i w ops b).op.isPure = true := hpure
  have he : e = none := ((result_iff hpure').mp hresult).1
  subst he
  have hwide := (h.result_insert hins hW hD ht hm hrest').mp hresult
  obtain ⟨_, vals, hreads, _⟩ := (result_iff hpure).mp hwide
  obtain ⟨x, y, rfl, hlow⟩ := h.reads_operands hW hD hop ht hrest' hreads
  -- The operands of the narrow form read the same in either function.
  have hvals' : List.Forall₂ (Reads W t.env) ops [x', y'] := by
    refine (forall₂_reads_congr fun q hq => hm.env q ?_).mpr (hvals hphi)
    rintro rfl
    exact h.operand_ne hins hq rfl
  have hsame := hD.forall₂_reads_unique hvals' hlow
  simp only [List.cons.injEq, and_true] at hsame
  exact ⟨x, y, ⟨t, rest', i, ht, hrest', h.instr_right, fun _ => hreads,
    fun x hx => ⟨none, Option.some.inj hx ▸ hwide⟩⟩, hsame.1, hsame.2⟩

end Insertion

end Ready

structure Twin (scope : Option Symbols) (d : DomInfo) (f g : Func) (b id : Int) (i : Instr) (w : Nat)
    (ops : List Value) (u : Int) : Prop extends Ready scope d f g b id i w ops where
  stands_twin : g.Stands b u
  instr_twin : g.instr? u = some (formAt i w ops b)
  before : g.Precedes d u id

theorem Ready.twin {l r : List Int} (h : Ready scope d f g b id i w ops)
    (hins : g.Inserts u k b l (id :: r) (formAt i w ops b)) :
    Twin scope d f k b id i w ops u := by
  have hk := h.proper_insert hins
  obtain ⟨x, hx, _⟩ := h.stands_right.nat
  refine ⟨h.enlarge (h.enlarges_insert hins) hk, hins.stands_self, hins.instr_eq, ?_⟩
  have hid := (hins.stands.mp h.stands_right).1
  rw [hx] at hid
  exact (hins.self_precedes hx hk.wf hid).mpr (.inr ⟨rfl, List.mem_cons_self ..⟩)

namespace Twin

variable (h : Twin scope d f g b id i w ops u)

include h

theorem enlarge (hgk : g.Enlarges d k) (hk : k.Proper scope d) : Twin scope d f k b id i w ops u :=
  ⟨h.toReady.enlarge hgk hk, hgk.stands h.stands_twin, by rw [hgk.instr h.stands_twin, h.instr_twin],
    hgk.precedes h.stands_twin h.stands_right h.before⟩

theorem opOf_twin : g.opOf u = i.op := (Func.opOf_eq h.instr_twin).trans rfl

theorem computes_twin : g.Computes u :=
  ⟨⟨b, h.stands_twin⟩, by rw [h.opOf_twin, h.narrows.not_terminator]⟩

theorem ne : u ≠ id := by
  rintro rfl
  exact h.proper.not_precedes_self h.stands_twin h.before

section Values

variable (hW : W.Fits g) (hD : W.Definite) {s : State} (hs : Reached W g s)

include hW hD hs

/-- Where control comes to the instruction, its narrow form has run, and it gives the same. -/
theorem result_at {rest : List Int} (hrest : s.rest = id :: rest) : Result W g s i none (s.env u) := by
  have hbehind := (hs.located.behind_iff h.proper.toHasDominance hrest).mpr ⟨h.computes_twin, h.before⟩
  have hblock : (s.block : Int) = b := h.proper.wf.stands_unique (hs.located.stands hrest) h.stands_right
  have htwin : g.Stands s.block u := hblock ▸ h.stands_twin
  have hreach : d.dom.isReachable s.block = true := h.proper.isReachable_iff.mpr hs.located.reaches
  have hform : Result W g s (formAt i w ops b) none (s.env u) := by
    rcases h.narrows.op with hop | hop
    · obtain ⟨vals, hvals, hgives⟩ :=
        (hs.computed h.proper.toHasDominance h.proper.ssa hD).now u hbehind s.block _ htwin hreach h.instr_twin hop
      exact .compute hop hvals hgives
    · have hop' : (formAt i w ops b).op = .phi := hop
      refine (result_phi hop').mpr ⟨rfl, hs.taken htwin ?_ h.instr_twin hop' (by simp [hrest])⟩
      obtain ⟨_, y, hy, ⟨hne, _⟩ | ⟨_, hnot⟩⟩ := hbehind
      · exact absurd (Int.ofNat_inj.mp (h.proper.wf.stands_unique hy htwin)) hne
      · exact hnot
  exact (result_form h.left h.enlarges h.proper hW hD hs hrest h.stands h.instr h.width.1 h.narrows
    h.operands).mp (result_formAt.mp hform)

end Values

end Twin

end RegPressure.Narrow
