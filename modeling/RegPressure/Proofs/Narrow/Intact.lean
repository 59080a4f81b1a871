import RegPressure.Proofs.IR.Intact
import RegPressure.Proofs.Narrow.Steps

namespace RegPressure.Narrow

variable {scope : Option Symbols} {f f' g : Func} {w n m : Nat} {id u : Int} {i : Instr} {v v' y : Value}

theorem source_resolves (hg : g.Intact scope) (hv : g.Resolves scope v)
    (hty : g.typeOf v = .ok (some (.int n))) (h : source g v n (.int w) = .ok (y, m)) :
    g.Resolves scope y ∧ g.typeOf y = .ok (some (.int m)) := by
  rcases source_cases h with ⟨rfl, rfl⟩ | ⟨q, i, rfl, hi, -, hy, ht, -⟩
  · exact ⟨hv, hty⟩
  · obtain ⟨b, j, hb, hj⟩ := hg.exists_stands hv
    rw [hi] at hj
    cases hj
    exact ⟨(hg.wellFormed.references hb hi).operands y (List.mem_of_getElem? hy), ht⟩

theorem source_of_not_cast (hid : (g.opOf id).isCast = false)
    (h : source g (.instr id) n (.int w) = .ok (y, m)) : y = .instr id := by
  rcases source_cases h with ⟨hself, -⟩ | ⟨_, i, ⟨⟩, hi, hcast, _⟩
  · exact hself
  · rw [Func.opOf_eq hi, hcast] at hid
    cases hid

theorem not_terminator_of_int (hg : g.Intact scope) (hi : g.instr? id = some i)
    (hty : g.typeOf (.instr id) = .ok (some (.int n))) : (g.opOf id).isTerminator = false := by
  simp only [Func.typeOf, Checked.bind_eq_ok, Func.instr_eq_ok, Checked.pure_eq_ok] at hty
  obtain ⟨j, hj, hty⟩ := hty
  rw [hi] at hj
  cases hj
  cases hop : i.op.isTerminator with
  | false => rwa [Func.opOf_eq hi]
  | true =>
    rw [hg.void id i hi hop] at hty
    cases hty

theorem Placed.exists_inserts {op : Op} (hg : g.Intact scope) (hty : g.typeOf v = .ok (some (.int n)))
    (hop : op = .trunc ∨ op = .sext) (h : Placed g v op w u f) : ∃ b l r pos,
      g.Inserts u f b l r { home := some b, op, ty := .int w, operands := [v], pos } := by
  have hphi : op ≠ .phi := by rcases hop with rfl | rfl <;> decide
  have hterm : op.isTerminator = false := by rcases hop with rfl | rfl <;> rfl
  cases h with
  | @after id j pos he hj hj' hins =>
    subst he
    obtain ⟨b, l, r, h⟩ := Func.inserts_of_insertAfter hg.wellFormed hins hphi
      (by rwa [Func.opOf_eq hj]) (not_terminator_of_int hg hj hty) hterm
    exact ⟨b, _, r, pos, h⟩
  | @phi id j k pos he hj hj' hk hins =>
    obtain ⟨l, r, h, -⟩ := Func.inserts_of_firstNonPhi hg.wellFormed hk hins hphi hterm
    exact ⟨_, l, r, pos, h⟩
  | @arg a k he hk hins =>
    obtain ⟨l, r, h, -⟩ := Func.inserts_of_firstNonPhi hg.wellFormed hk hins hphi hterm
    exact ⟨_, l, r, _, h⟩

theorem placed_intact {op : Op} (hg : g.Intact scope) (hv : g.Resolves scope v)
    (hty : g.typeOf v = .ok (some (.int n))) (hop : op = .trunc ∨ op = .sext)
    (h : Placed g v op w u f) : f.Intact scope ∧ g.Grows f ∧ g.instr? u = none ∧
      ∃ i, f.instr? u = some i ∧ i.isErased = false := by
  have hphi : op ≠ .phi := by rcases hop with rfl | rfl <;> decide
  have hcmp : op ≠ .icmp := by rcases hop with rfl | rfl <;> decide
  obtain ⟨b, l, r, pos, hins⟩ := h.exists_inserts hg hty hop
  refine ⟨hg.inserted hins ⟨?_, by simp, fun h => absurd h hphi⟩ (fun h => absurd h hphi)
    (fun h => absurd h hcmp), hins.grows, hins.fresh, _, hins.instr_eq, rfl⟩
  intro x hx
  rwa [List.mem_singleton.mp hx]

structure ResizeKeeps (scope : Option Symbols) (g : Func) (v v' : Value) (f : Func) : Prop where
  intact : f.Intact scope
  grows : g.Grows f
  resolves : f.Resolves scope v'
  /-- An instruction that is no cast is the result itself, or the result is new. -/
  fresh : ∀ q, v = .instr q → (g.opOf q).isCast = false → v' = v ∨ ∃ c, v' = .instr c ∧ g.instr? c = none

theorem resize_keeps (hg : g.Intact scope) (hv : g.Resolves scope v)
    (he : (resize scope v (.int w)).run g = .ok v' f) : ResizeKeeps scope g v v' f := by
  cases resize_cases he with
  | same hty hn hv' hf =>
    subst hv' hf
    exact ⟨hg, .refl _, hv, fun _ _ _ => .inl rfl⟩
  | @source n y hty hn hsrc hv' hf =>
    subst hv' hf
    refine ⟨hg, .refl _, (source_resolves hg hv hty hsrc).1, ?_⟩
    rintro q rfl hq
    exact .inl (source_of_not_cast hq hsrc)
  | @const n m y c hty hn hsrc hm hc hv' hf =>
    subst hv' hf
    refine ⟨hg, .refl _, trivial, ?_⟩
    rintro q rfl hq
    rw [source_of_not_cast hq hsrc] at hc
    cases hc
  | @cast n m y u hty hn hsrc hm hc hv' hplaced =>
    subst hv'
    obtain ⟨hy, hty⟩ := source_resolves hg hv hty hsrc
    have hop : (if m > w then Op.trunc else .sext) = .trunc ∨ (if m > w then Op.trunc else .sext) = .sext := by
      split <;> simp
    obtain ⟨hf, hgrows, hfresh, j, hj, hlive⟩ := placed_intact hg hy hty hop hplaced
    refine ⟨hf, hgrows, ?_, fun q _ _ => .inr ⟨u, rfl, hfresh⟩⟩
    simp [Func.Resolves, Func.isLive, hj, hlive]

theorem resizes_keep {vs vs' : List Value} (hg : g.Intact scope)
    (hvs : ∀ v ∈ vs, g.Resolves scope v)
    (he : (vs.mapM fun v => resize scope v (.int w)).run g = .ok vs' f) :
    f.Intact scope ∧ g.Grows f ∧ vs'.length = vs.length ∧ ∀ v ∈ vs', f.Resolves scope v := by
  induction vs generalizing g vs' with
  | nil =>
    rw [List.mapM_nil, Edit.pure_eq_ok] at he
    obtain ⟨rfl, rfl⟩ := he
    exact ⟨hg, .refl _, rfl, by simp⟩
  | cons v vs ih =>
    simp only [List.mapM_cons, Edit.bind_eq_ok, Edit.pure_eq_ok] at he
    obtain ⟨v', g', hv', vs', _, hvs', rfl, rfl⟩ := he
    have hone := resize_keeps hg (hvs v (List.mem_cons_self ..)) hv'
    obtain ⟨hf, hgrows, hlen, hall⟩ := ih hone.intact
      (fun u hu => hone.grows.resolves (hvs u (List.mem_cons_of_mem _ hu))) hvs'
    refine ⟨hf, hone.grows.trans hgrows, by simp [hlen], ?_⟩
    rintro u (_ | ⟨_, hu⟩)
    · exact hgrows.resolves hone.resolves
    · exact hall u hu

theorem resolves_of_element {k : Int} {vs : List Value} (hvs : ∀ v ∈ vs, g.Resolves scope v)
    (h : element vs k = .ok v) : g.Resolves scope v := by
  unfold element at h
  split at h
  · next x hx =>
    cases h
    split at hx
    · cases hx
    · exact hvs _ (List.mem_of_getElem? hx)
  · cases h

theorem narrowOperands_keep {ops : List Value} (hg : g.Intact scope) (hi : g.References scope i)
    (he : (narrowOperands scope i (.int w)).run g = .ok ops f) :
    f.Intact scope ∧ g.Grows f ∧ (i.op = .phi → ops.length = i.operands.length) ∧
      ∀ v ∈ ops, f.Resolves scope v := by
  have hpair : ∀ {v v' u u' : Value} {h : Func}, g.Resolves scope v → g.Resolves scope u →
      (resize scope v (.int w)).run g = .ok v' h → (resize scope u (.int w)).run h = .ok u' f →
        f.Intact scope ∧ g.Grows f ∧ f.Resolves scope v' ∧ f.Resolves scope u' := by
    intro v v' u u' h hv hu hv' hu'
    have hone := resize_keeps hg hv hv'
    have htwo := resize_keeps hone.intact (hone.grows.resolves hu) hu'
    exact ⟨htwo.intact, hone.grows.trans htwo.grows, htwo.grows.resolves hone.resolves, htwo.resolves⟩
  unfold narrowOperands at he
  dsimp only at he
  split at he
  · next hop =>
    simp only [Edit.bind_eq_ok, Edit.ask_eq_ok, Edit.pure_eq_ok] at he
    obtain ⟨v, _, ⟨hv, rfl⟩, v', h, hv', u, _, ⟨hu, rfl⟩, u', _, hu', rfl, rfl⟩ := he
    obtain ⟨hf, hgrows, hrv, hru⟩ := hpair (resolves_of_element hi.operands hv)
      (resolves_of_element hi.operands hu) hv' hu'
    exact ⟨hf, hgrows, by simp [hop], by simp [hrv, hru]⟩
  · next hop =>
    simp only [Edit.bind_eq_ok, Edit.ask_eq_ok, Edit.pure_eq_ok] at he
    obtain ⟨c, _, ⟨hc, rfl⟩, v, _, ⟨hv, rfl⟩, v', h, hv', u, _, ⟨hu, rfl⟩, u', _, hu', rfl, rfl⟩ := he
    obtain ⟨hf, hgrows, hrv, hru⟩ := hpair (resolves_of_element hi.operands hv)
      (resolves_of_element hi.operands hu) hv' hu'
    exact ⟨hf, hgrows, by simp [hop], by
      simp [hrv, hru, hgrows.resolves (resolves_of_element hi.operands hc)]⟩
  · obtain ⟨hf, hgrows, hlen, hops⟩ := resizes_keep hg hi.operands he
    exact ⟨hf, hgrows, fun _ => hlen, hops⟩

/-- The functions between the steps of a conversion: with the operands resized, with the narrow form
in its place, with its result resized, with the uses replaced, and without the instruction. -/
structure Converted (scope : Option Symbols) (f : Func) (id : Int) (i : Instr) (w : Nat)
    (ops : List Value) (g₁ : Func) (b u : Int) (g₂ : Func) (wide : Value) (g₃ g₄ : Func) : Prop where
  operands : (narrowOperands scope i (.int w)).run f = .ok ops g₁
  inserts : ∃ l r, g₁.Inserts u g₂ b l (id :: r) (formAt i w ops b)
  intact₂ : g₂.Intact scope
  resize : (resize scope (.instr u) i.ty).run g₂ = .ok wide g₃
  result : ResizeKeeps scope g₂ (.instr u) wide g₃
  rewrites : g₃.Rewrites (fun v => if v = .instr id then wide else v) (g₃.replaceAllUses id wide)
  intact₃ : (g₃.replaceAllUses id wide).Intact scope
  erase : (g₃.replaceAllUses id wide).erase id = .ok g₄
  intact₄ : g₄.Intact scope

theorem form_inserted {b : Int} {ops : List Value} {g₁ g₂ : Func} (hf : f.Intact scope)
    (hb : f.Stands b id) (hi : f.instr? id = some i) (hterm : i.op.isTerminator = false)
    (hops : (narrowOperands scope i (.int w)).run f = .ok ops g₁)
    (hu : g₁.insertBefore id (form i w ops) = .ok (g₂, u)) :
    ∃ c l r, g₁.Inserts u g₂ c l (id :: r) (formAt i w ops c) ∧ g₂.Intact scope := by
  have hrefs := hf.wellFormed.references hb hi
  obtain ⟨h₁, hgrows₁, hlen, hrefs'⟩ := narrowOperands_keep hf hrefs hops
  have hi₁ := hgrows₁.instr id i hi
  obtain ⟨c, l, r, hins⟩ := Func.inserts_of_insertBefore h₁.wellFormed hu
    (by rw [Func.opOf_eq hi₁]; rfl) hterm
  refine ⟨c, l, r, hins, h₁.inserted hins ⟨hrefs', (hgrows₁.references hrefs).targets, fun hop => ?_⟩
    (fun hop blk hblk t ht => ?_) fun hop => if_pos hop⟩
  · exact (hrefs.arity hop).trans (hlen hop).symm
  · -- The narrow phi stands in the block of the phi itself.
    have hc : g₁.Stands c id := Func.stands_iff.mpr (by simp [hins.body_without])
    obtain ⟨blk', hblk', hmem⟩ := hc
    rw [hblk] at hblk'
    cases hblk'
    exact (h₁.wellFormed.block c blk hblk).edges.incoming id hmem i hi₁ hop t ht

/-- Converting an integer operation or a comparison. -/
theorem exists_converted {b width : Int} (hf : f.Intact scope) (hb : f.Stands b id)
    (hi : f.instr? id = some i) (hterm : i.op.isTerminator = false) (hcast : i.op.isCast = false)
    (hty : ∃ n, i.ty = .int n) (he : (convert scope id width).run f = .ok () f') :
    ∃ ops g₁ c u g₂ wide g₃ g₄, Converted scope f id i width.toNat ops g₁ c u g₂ wide g₃ g₄ ∧
      f' = g₄.setInstr u ({ · with name := i.name }) := by
  obtain ⟨j, ops, g₁, g₂, u, wide, g₃, g₄, hj, hops, hu, hwide, hg₄, rfl⟩ := convert_cases he
  rw [hi] at hj
  cases hj
  obtain ⟨h₁, hgrows₁, -⟩ := narrowOperands_keep hf (hf.wellFormed.references hb hi) hops
  have hi₁ := hgrows₁.instr id i hi
  obtain ⟨c, l, r, hins, h₂⟩ := form_inserted hf hb hi hterm hops hu
  obtain ⟨n, hty⟩ := hty
  have hwide' := hwide
  rw [hty] at hwide'
  have h₃ := resize_keeps h₂ (by simp [Func.Resolves, Func.isLive, hins.instr_eq, Instr.isErased,
    formAt]) hwide'
  -- The result at the old width is the narrow form or a new cast, so no use of the instruction is
  -- left.
  have hne : wide ≠ .instr id := by
    rcases h₃.fresh u rfl (by rw [hins.opOf_self]; exact hcast) with rfl | ⟨q, rfl, hq⟩
    · rintro ⟨⟩
      rw [hins.fresh] at hi₁
      cases hi₁
    · rintro ⟨⟩
      rw [hins.grows.instr id i hi₁] at hq
      cases hq
  have hrw := Func.rewrites_replaceAllUses h₃.intact.wellFormed id wide
  have h₄ := h₃.intact.rewritten hrw fun v hv => by
    split
    · exact h₃.resolves
    · exact hv
  have hunused : (g₃.replaceAllUses id wide).Unused id := hrw.unused fun v hv => by
    split at hv
    · exact hne hv
    · next hv' => exact hv' hv
  have hop : (g₃.replaceAllUses id wide).opOf id = i.op := by
    rw [hrw.opOf, Func.opOf_eq (h₃.grows.instr id i (hins.grows.instr id i hi₁))]
  exact ⟨ops, g₁, c, u, g₂, wide, g₃, g₄, ⟨hops, ⟨l, r, hins⟩, h₂, hwide, h₃, hrw, h₄, hg₄,
    h₄.erased hg₄ hunused (hop ▸ hterm)⟩, rfl⟩

theorem convert_keeps {b width : Int} (hf : f.Intact scope) (hb : f.Stands b id)
    (hi : f.instr? id = some i) (hterm : i.op.isTerminator = false) (hcast : i.op.isCast = false)
    (hty : ∃ n, i.ty = .int n) (he : (convert scope id width).run f = .ok () f') :
    f'.Intact scope := by
  obtain ⟨_, _, _, u, _, _, _, _, h, rfl⟩ := exists_converted hf hb hi hterm hcast hty he
  exact h.intact₄.renamed u i.name

end RegPressure.Narrow

namespace RegPressure.ValueRange.RangeM

variable {α β : Type} {r : RangeM α} {k : α → RangeM β} {a : α} {b : β}

def May (r : RangeM α) (a : α) : Prop := ∃ m m', r.run m = .ok (a, m')

theorem May.pure {c : α} (h : May (pure a) c) : a = c := by
  obtain ⟨m, m', h⟩ := h
  cases h
  rfl

theorem May.bind (h : May (r >>= k) b) : ∃ a, May r a ∧ May (k a) b := by
  obtain ⟨m, m', h⟩ := h
  simp only [StateT.run_bind, Checked.bind_eq_ok] at h
  obtain ⟨⟨a, m''⟩, ha, hb⟩ := h
  exact ⟨a, ⟨m, m'', ha⟩, m'', m', hb⟩

theorem May.lift {x : Checked α} (h : May (liftM x) a) : x = .ok a := by
  obtain ⟨m, m', h⟩ := h
  cases x with
  | error e => cases h
  | ok c =>
    cases h
    rfl

end RegPressure.ValueRange.RangeM

namespace RegPressure.Narrow

open ValueRange RangeM

variable {scope : Option Symbols} {f f' g : Func} {id w : Int} {i : Instr} {k : Context}

/-- The operations that are done at narrower widths. -/
def narrowed : List Op :=
  [.icmp, .select, .phi, .add, .sub, .mul, .sdiv, .udiv, .srem, .urem, .and, .or, .xor, .shl, .lshr,
    .ashr]

theorem kind_of_narrowed : ∀ op ∈ narrowed, op.isTerminator = false ∧ op.isCast = false := by decide

theorem op_of_isLocal (h : May (isLocal k w id i) true) : i.op ∈ narrowed := by
  cases hop : i.op <;> first
    | decide
    | rw [isLocal, hop] at h
      cases h.pure

theorem kind_of_canNarrow {depth : Nat} {site : Int} (hi : k.func.instr? id = some i)
    (h : May (canNarrow k w depth (.instr id) site) true) :
    i.op ∈ narrowed ∧ (i.op = .icmp ∨ ∃ n, i.ty = .int n) := by
  cases depth with
  | zero => exact absurd h fun ⟨_, _, h⟩ => nomatch h
  | succ depth =>
    rw [canNarrow] at h
    obtain ⟨j, hj, h⟩ := h.bind
    rw [Func.instr_eq_ok.mp hj.lift] at hi
    cases hi
    split at h
    · next hop => exact ⟨by rw [hop]; decide, .inl hop⟩
    split at h
    · cases h.pure
    next hwide =>
    obtain ⟨r, -, h⟩ := h.bind
    split at h
    · refine ⟨op_of_isLocal h, .inr ?_⟩
      cases hty : i.ty with
      | int n => exact ⟨n, rfl⟩
      | _ => simp [hty, Ty.isInt] at hwide
    · cases h.pure

/-- A candidate is an instruction in a block that can be narrowed. -/
theorem canNarrow_of_candidate {widths : List Int} (h : May (candidate? k widths) (some (id, w))) :
    ∃ b i, k.func.Stands b id ∧ k.func.instr? id = some i ∧
      May (canNarrow k w (k.func.instrs.size + 1) (.instr id) id) true := by
  have hgo : ∀ places, May (candidate?.go k places) (some (id, w)) → (id, w) ∈ places ∧
      ∃ i, k.func.instr? id = some i ∧
        May (canNarrow k w (k.func.instrs.size + 1) (.instr id) id) true := by
    intro places h
    induction places with
    | nil => cases h.pure
    | cons p places ih =>
      rw [candidate?.go] at h
      obtain ⟨i, hi, h⟩ := h.bind
      obtain ⟨can, hcan, h⟩ := h.bind
      split at h
      · next ht =>
        cases h.pure
        subst ht
        exact ⟨List.mem_cons_self .., i, Func.instr_eq_ok.mp hi.lift, hcan⟩
      · exact (ih h).imp_left (List.mem_cons_of_mem _)
  obtain ⟨hmem, i, hi, hcan⟩ := hgo _ h
  obtain ⟨blk, hblk, hmem⟩ := List.mem_flatMap.mp hmem
  obtain ⟨_, hid, hmem⟩ := List.mem_flatMap.mp hmem
  obtain ⟨_, -, ⟨⟩⟩ := List.mem_map.mp hmem
  obtain ⟨n, hn, rfl⟩ := List.getElem_of_mem hblk
  refine ⟨n, i, ⟨_, ?_, hid⟩, hi, hcan⟩
  rw [Func.block?_ofNat]
  simp

/-- A cast that nothing uses can be erased. -/
theorem DeadCast.intact (h : DeadCast f id) (hf : f.Intact scope) (he : f.erase id = .ok g) :
    g.Intact scope := by
  obtain ⟨i, hi, -, hop⟩ := h.cast
  refine hf.erased he h.unused ?_
  rw [Func.opOf_eq hi]
  rcases isResize_iff.mp hop with h | h | h <;> rw [h] <;> rfl

/-- What one conversion and one erasure of a cast keep of intact functions, narrowing keeps. -/
theorem narrow_intact_induction {P : Func → Prop} {widths : List Int} {changed : Bool}
    (hconvert : ∀ g g' id i w, P g → g.instr? id = some i → i.op ∈ narrowed →
      (convert scope id w).run g = .ok () g' → P g')
    (herase : ∀ g g' id i, P g → g.instr? id = some i → isResize i.op = true →
      g.erase id = .ok g' → P g')
    (hf : f.Intact scope) (hP : P f) (he : (narrow scope widths).run f = .ok changed f') :
    f'.Intact scope ∧ P f' := by
  have hdom : ∃ d, DomInfo.compute f = .ok d := by
    simp only [narrow, Edit.bind_eq_ok, Edit.ask_eq_ok] at he
    obtain ⟨d, _, ⟨hd, -⟩, -⟩ := he
    exact ⟨d, hd⟩
  obtain ⟨d, hdom⟩ := hdom
  refine narrow_induction (P := fun g => g.Intact scope ∧ P g) (fun _ h => h.1.wellFormed)
    (fun g g' k id w hg hk hnext hg' => ?_) (fun g g' id hg hdead hg' => ?_) hdom ⟨hf, hP⟩ he
  · obtain ⟨hfunc, -, -⟩ := Context.of_eq hk
    simp only [StateT.run', Checked.map_eq_ok] at hnext
    obtain ⟨⟨_, m⟩, hm, rfl⟩ := hnext
    obtain ⟨b, i, hb, hi, hcan⟩ := canNarrow_of_candidate (k := k) ⟨_, m, hm⟩
    obtain ⟨hop, hty⟩ := kind_of_canNarrow hi hcan
    obtain ⟨hterm, hcast⟩ := kind_of_narrowed i.op hop
    rw [hfunc] at hb hi
    refine ⟨convert_keeps hg.1 hb hi hterm hcast ?_ hg', hconvert g g' id i w hg.2 hi hop hg'⟩
    exact hty.elim (fun hop => ⟨1, hg.1.bit id i hi hop⟩) fun h => h
  · obtain ⟨i, hi, -, hop⟩ := hdead.cast
    exact ⟨hdead.intact hg.1 hg', herase g g' id i hg.2 hi hop hg'⟩

theorem narrow_keeps {widths : List Int} {changed : Bool} (hf : f.Intact scope)
    (he : (narrow scope widths).run f = .ok changed f') : f'.Intact scope :=
  (narrow_intact_induction (P := fun _ => True) (fun _ _ _ _ _ _ _ _ _ => trivial)
    (fun _ _ _ _ _ _ _ _ => trivial) hf trivial he).1

end RegPressure.Narrow
