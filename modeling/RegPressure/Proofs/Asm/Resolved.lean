import RegPressure.Proofs.Asm.Body
import RegPressure.Proofs.IR.Edges
import RegPressure.Proofs.IR.Verdict

namespace RegPressure

namespace Slot

variable {slots : List Slot} {vs : List Value} {k : Nat} {d e : Int}

theorem holds_instr {sl : Slot} (h : sl.Holds (.instr d)) : sl.Holds (.instr e) := by
  cases sl with
  | plain ty => exact trivial
  | typed => exact h.imp fun _ ht => ⟨ht.1, trivial⟩
  | «local» => exact .inr ⟨e, rfl⟩
  | field n => cases h

theorem holds_set (h : List.Forall₂ Holds slots vs) (hk : vs[k]? = some (.instr d)) :
    List.Forall₂ Holds slots (vs.set k (.instr e)) := by
  induction h generalizing k with
  | nil => cases hk
  | cons hv h ih =>
    cases k with
    | zero =>
      cases hk
      exact .cons (holds_instr hv) h
    | succ k => exact .cons hv (ih hk)

end Slot

namespace Instr

variable {ret w : Ty} {i : Instr} {k : Nat} {d e t : Int}

theorem Formed.setOperand (h : i.Formed ret w) (hk : i.operands[k]? = some (.instr d)) :
    { i with operands := i.operands.set k (.instr e) }.Formed ret w where
  layout := h.layout.imp fun _ hs => ⟨hs.1, Slot.holds_set hs.2 hk⟩
  ty := h.ty
  elem := h.elem
  pred := h.pred
  rmw := h.rmw
  callee := h.callee
  name := h.name
  noAlias := h.noAlias
  written := h.written

theorem Formed.setTarget (h : i.Formed ret w) :
    { i with targets := i.targets.set k t }.Formed ret w where
  layout := by
    obtain ⟨slots, hs⟩ := h.layout
    refine ⟨slots, ?_⟩
    rwa [List.length_set]
  ty := h.ty
  elem := h.elem
  pred := h.pred
  rmw := h.rmw
  callee := h.callee
  name := h.name
  noAlias := h.noAlias
  written := h.written

end Instr

@[simp] theorem Func.ret_setInstr {f : Func} {id : Int} {change : Instr → Instr} :
    (f.setInstr id change).ret = f.ret := by
  unfold setInstr
  split <;> rfl

theorem Func.instrIds_setInstr {f : Func} {id : Int} {change : Instr → Instr} :
    (f.setInstr id change).instrIds = f.instrIds := by
  unfold setInstr
  split
  · rfl
  · simp [instrIds]

/-- A function that was read without an error, in a module with symbols `s`. -/
structure Func.Read (tokens : List Token) (s : Symbols) (f : Func) : Prop where
  headed : f.Headed
  wellFormed : f.WellFormed (some s)
  formed : Parser.Formed tokens f
  has : ∀ id i, f.instr? id = some i → ∀ v ∈ i.operands, f.Has s v
  aims : ∀ id i, f.instr? id = some i → ∀ t ∈ i.targets, f.Aims i t
  entry : f.entry = some 0
  order : f.blocks.toList.flatMap (·.instrs) = f.instrIds
  edges : f.rebuildEdges = (f, .ok ())
  labels : ∀ c blk, f.block? c = some blk → IsWord blk.name
  labels_inj : ∀ c d blk blk', f.block? c = some blk → f.block? d = some blk' →
    blk.name = blk'.name → c = d
  names_inj : ∀ id u i j, f.instr? id = some i → f.instr? u = some j → i.name ≠ "" →
    i.name = j.name → id = u
  names_new : ∀ id i, f.instr? id = some i → i.name ≠ "" → ∀ p ∈ f.params, p.name ≠ i.name

theorem Func.Has.mono {f : Func} {s t : Symbols} (hs : s.globals <+: t.globals) {v : Value}
    (h : f.Has s v) : f.Has t v := by
  cases v with
  | global i =>
    obtain ⟨n, rfl, hn⟩ := h
    exact ⟨n, rfl, Nat.lt_of_lt_of_le hn hs.length_le⟩
  | _ => exact h

/-- More globals do no harm. -/
theorem Func.Read.mono {tokens : List Token} {s t : Symbols} {f : Func}
    (hs : s.globals <+: t.globals) (h : f.Read tokens s) : f.Read tokens t :=
  { h with
    wellFormed := h.wellFormed.mono hs.length_le
    has := fun id i hi v hv => (h.has id i hi v hv).mono hs }

namespace Parser

variable {tokens : List Token} {ns : Names} {f : Func} {s : Symbols} {x : Fixup} {xs : List Fixup}
  {change : Instr → Instr} {id : Int}

theorem Arranged.setInstr (h : Arranged f) : Arranged (f.setInstr id change) where
  entry := by simpa using h.entry
  edges := by simpa using h.edges
  order := by rw [Func.blocks_setInstr, Func.instrIds_setInstr, h.order]
  labels := by simpa using h.labels

theorem Called.setInstr (h : Called ns f) (hname : ∀ i, (change i).name = i.name) :
    Called ns (f.setInstr id change) where
  ret := by simpa using h.ret
  params := by simpa using h.params
  locals := by
    intro name u hu
    obtain ⟨i, hi, hn, hne⟩ := h.locals name u hu
    obtain ⟨j, hj, hji⟩ := (Func.keeps_setInstr hname).instr u i hi
    exact ⟨j, hj, hji.trans hn, hne⟩
  unique := by
    intro u j hj hne
    rw [Func.instr?_setInstr] at hj
    split at hj
    · obtain ⟨i, hi, rfl⟩ := Option.map_eq_some_iff.mp hj
      rw [hname] at hne ⊢
      exact h.unique u i hi hne
    · exact h.unique u j hj hne
  blocks := by simpa using h.blocks

theorem Formed.setInstr (h : Formed tokens f) (hop : ∀ i, (change i).op = i.op)
    (hpos : ∀ i, (change i).pos = i.pos) (hf : ∀ i w, f.instr? id = some i → i.Formed f.ret w →
      (change i).Formed f.ret w) : Formed tokens (f.setInstr id change) := by
  intro u j hj
  rw [Func.instr?_setInstr] at hj
  rw [Func.ret_setInstr]
  split at hj
  · next hid =>
    subst hid
    obtain ⟨i, hi, rfl⟩ := Option.map_eq_some_iff.mp hj
    obtain ⟨w, hw, hst⟩ := h id i hi
    refine ⟨w, hf i w hi hw, fun hr => ?_⟩
    rw [hop] at hr
    exact (hst hr).imp fun _ hs => ⟨hs.1, (hpos i).trans hs.2.1, hs.2.2⟩
  · exact h u j hj

theorem listed_tail {u : Int} {isBlock : Bool} {n : Nat}
    (h : ∃ y ∈ x :: xs, y.instr = u ∧ y.ref.isBlock = isBlock ∧ y.ref.index = n)
    (hx : x.instr = u → x.ref.isBlock = isBlock → x.ref.index ≠ n) :
    ∃ y ∈ xs, y.instr = u ∧ y.ref.isBlock = isBlock ∧ y.ref.index = n := by
  obtain ⟨y, hy, hu, hb, hn⟩ := h
  rcases List.mem_cons.mp hy with rfl | hy
  · exact absurd hn (hx hu hb)
  · exact ⟨y, hy, hu, hb, hn⟩

theorem getElem?_set_eq_some {α : Type} {l : List α} {k n : Nat} {a b : α} :
    (l.set k a)[n]? = some b → k = n ∧ a = b ∨ k ≠ n ∧ l[n]? = some b := by
  intro h
  rw [List.getElem?_set] at h
  split at h
  · next hk =>
    split at h
    · exact .inl ⟨hk, Option.some.inj h⟩
    · cases h
  · next hk => exact .inr ⟨hk, h⟩

/-- One reference less is open once its operand is there. -/
theorem Referenced.setOperand (h : Referenced s f (x :: xs)) (hx : x.ref.isBlock = false)
    (hv : f.Has s (.instr id)) : Referenced s
      (f.setInstr x.instr fun i => { i with operands := i.operands.set x.ref.index (.instr id) }) xs := by
  have hkeeps : f.Keeps
      (f.setInstr x.instr fun i => { i with operands := i.operands.set x.ref.index (.instr id) }) :=
    Func.keeps_setInstr fun _ => rfl
  constructor
  case operand =>
    intro u j hj n v hn
    rw [Func.instr?_setInstr] at hj
    split at hj
    · obtain ⟨i, hi, rfl⟩ := Option.map_eq_some_iff.mp hj
      rcases getElem?_set_eq_some hn with ⟨-, rfl⟩ | ⟨hk, hn⟩
      · exact .inl (hkeeps.has hv)
      · exact (h.operand u i hi n v hn).imp hkeeps.has
          fun ho => ⟨ho.1, listed_tail ho.2 fun _ _ => hk⟩
    · next hu =>
      exact (h.operand u j hj n v hn).imp hkeeps.has
        fun ho => ⟨ho.1, listed_tail ho.2 fun he => absurd he hu⟩
  case target =>
    intro u j hj n t hn
    obtain ⟨i, hi, hop, ht⟩ : ∃ i, f.instr? u = some i ∧ j.op = i.op ∧ i.targets[n]? = some t := by
      rw [Func.instr?_setInstr] at hj
      split at hj
      · obtain ⟨i, hi, rfl⟩ := Option.map_eq_some_iff.mp hj
        exact ⟨i, hi, rfl, hn⟩
      · exact ⟨j, hj, rfl, hn⟩
    exact (h.target u i hi n t ht).imp (hkeeps.aims hop)
      fun ho => ⟨ho.1, listed_tail ho.2 fun _ hb => by simp [hx] at hb⟩
  case openOperand =>
    intro y hy hb
    obtain ⟨i, d, hi, hd⟩ := h.openOperand y (List.mem_cons_of_mem _ hy) hb
    rw [Func.instr?_setInstr, hi]
    split
    · by_cases hk : x.ref.index = y.ref.index
      · have hlt := (List.getElem?_eq_some_iff.mp hd).1
        exact ⟨_, id, rfl, by simp [hk, hlt]⟩
      · exact ⟨_, d, rfl, by simp [hk, hd]⟩
    · exact ⟨i, d, rfl, hd⟩
  case openTarget =>
    intro y hy hb
    obtain ⟨i, hi, hlt, hname⟩ := h.openTarget y (List.mem_cons_of_mem _ hy) hb
    rw [Func.instr?_setInstr, hi]
    split
    · exact ⟨_, rfl, hlt, hname⟩
    · exact ⟨i, rfl, hlt, hname⟩

theorem Referenced.setTarget {t : Int} (h : Referenced s f (x :: xs)) (hx : x.ref.isBlock = true)
    (ht : ∃ blk, f.block? t = some blk ∧ blk.name = x.ref.name) : Referenced s
      (f.setInstr x.instr fun i => { i with targets := i.targets.set x.ref.index t }) xs := by
  have hkeeps : f.Keeps
      (f.setInstr x.instr fun i => { i with targets := i.targets.set x.ref.index t }) :=
    Func.keeps_setInstr fun _ => rfl
  constructor
  case operand =>
    intro u j hj n v hn
    obtain ⟨i, hi, hv⟩ : ∃ i, f.instr? u = some i ∧ i.operands[n]? = some v := by
      rw [Func.instr?_setInstr] at hj
      split at hj
      · obtain ⟨i, hi, rfl⟩ := Option.map_eq_some_iff.mp hj
        exact ⟨i, hi, hn⟩
      · exact ⟨j, hj, hn⟩
    exact (h.operand u i hi n v hv).imp hkeeps.has
      fun ho => ⟨ho.1, listed_tail ho.2 fun _ hb => by simp [hx] at hb⟩
  case target =>
    intro u j hj n b hn
    rw [Func.instr?_setInstr] at hj
    split at hj
    · next hu =>
      obtain ⟨i, hi, rfl⟩ := Option.map_eq_some_iff.mp hj
      rcases getElem?_set_eq_some hn with ⟨-, rfl⟩ | ⟨hk, hn⟩
      · obtain ⟨i', hi', -, hname⟩ := h.openTarget x (List.mem_cons_self ..) hx
        rw [hu, hi] at hi'
        cases hi'
        obtain ⟨blk, hblk, he⟩ := ht
        exact .inl (hkeeps.aims rfl ⟨blk, hblk, he ▸ hname⟩)
      · exact (h.target u i hi n b hn).imp (hkeeps.aims rfl)
          fun ho => ⟨ho.1, listed_tail ho.2 fun _ _ => hk⟩
    · next hu =>
      exact (h.target u j hj n b hn).imp (hkeeps.aims rfl)
        fun ho => ⟨ho.1, listed_tail ho.2 fun he => absurd he hu⟩
  case openOperand =>
    intro y hy hb
    obtain ⟨i, d, hi, hd⟩ := h.openOperand y (List.mem_cons_of_mem _ hy) hb
    rw [Func.instr?_setInstr, hi]
    split
    · exact ⟨_, d, rfl, hd⟩
    · exact ⟨i, d, rfl, hd⟩
  case openTarget =>
    intro y hy hb
    obtain ⟨i, hi, hlt, hname⟩ := h.openTarget y (List.mem_cons_of_mem _ hy) hb
    rw [Func.instr?_setInstr, hi]
    split
    · exact ⟨_, rfl, by rwa [List.length_set], hname⟩
    · exact ⟨i, rfl, hlt, hname⟩

namespace Body

variable {b : Body}

theorem resolve_errors_nil (h : (b.resolve x).errors = []) : b.errors = [] := by
  unfold resolve at h
  split at h <;> split at h
  · exact h
  · simp [Body.report] at h
  · exact h
  · simp [Body.report] at h

theorem foldl_resolve_errors_nil (h : (xs.foldl Body.resolve b).errors = []) : b.errors = [] := by
  induction xs generalizing b with
  | nil => exact h
  | cons x xs ih => exact resolve_errors_nil (ih h)

theorem Sound.resolve (h : Sound tokens { b with fixups := x :: xs })
    (he : (b.resolve x).errors = []) : Sound tokens { b.resolve x with fixups := xs } := by
  unfold Body.resolve at he ⊢
  split
  · next hx =>
    rw [if_pos hx] at he
    split
    · next t ht => exact {
        headed := h.headed.congr Func.name_setInstr Func.params_setInstr Func.ret_setInstr
        arranged := h.arranged.setInstr
        called := h.called.setInstr fun _ => rfl
        formed := h.formed.setInstr (fun _ => rfl) (fun _ => rfl) fun _ _ _ hi => hi.setTarget
        references := h.references.setTarget hx (h.called.blocks _ _ ht)
        current := fun c hc => by simpa using h.current c hc
        unlabelled := by simpa using h.unlabelled }
    · next hnone =>
      rw [hnone] at he
      simp [Body.report] at he
  · next hx =>
    rw [if_neg hx] at he
    rw [Bool.not_eq_true] at hx
    split
    · next u hu =>
      obtain ⟨j, hj, hname, hne⟩ := h.called.locals _ _ hu
      exact {
        headed := h.headed.congr Func.name_setInstr Func.params_setInstr Func.ret_setInstr
        arranged := h.arranged.setInstr
        called := h.called.setInstr fun _ => rfl
        formed := h.formed.setInstr (fun _ => rfl) (fun _ => rfl) fun i w hi hf => by
          obtain ⟨i', d, hi', hd⟩ := h.references.openOperand x (List.mem_cons_self ..) hx
          rw [hi] at hi'
          cases hi'
          exact hf.setOperand hd
        references := h.references.setOperand hx ⟨j, hj, hname ▸ hne⟩
        current := fun c hc => by simpa using h.current c hc
        unlabelled := by simpa using h.unlabelled }
    · next hnone =>
      rw [hnone] at he
      simp [Body.report] at he

theorem Sound.foldl_resolve (h : Sound tokens { b with fixups := xs })
    (he : (xs.foldl Body.resolve b).errors = []) :
    Sound tokens { xs.foldl Body.resolve b with fixups := [] } := by
  induction xs generalizing b with
  | nil => exact h
  | cons x xs ih => exact ih (h.resolve (foldl_resolve_errors_nil he)) he

theorem Sound.linked (h : Sound tokens { b with fixups := [] }) : b.func.Linked where
  member := by
    intro c blk hblk id hid
    obtain ⟨n, rfl, hn⟩ := Func.block?_eq_some.mp hblk
    have hmem : id ∈ b.func.blocks.toList.flatMap (·.instrs) :=
      List.mem_flatMap.mpr ⟨blk, by simpa using Array.mem_of_getElem? hn, hid⟩
    rw [h.arranged.order] at hmem
    exact Func.mem_instrIds.mp hmem
  targets := by
    intro id i hi t ht
    obtain ⟨n, hn⟩ := List.getElem?_of_mem ht
    rcases h.references.target id i hi n t hn with hh | ⟨-, x, hx, -⟩
    · exact hh.imp fun _ hb => hb.1
    · cases hx

theorem Sound.has (h : Sound tokens { b with fixups := [] }) {i : Instr}
    (hi : b.func.instr? id = some i) {v : Value} (hv : v ∈ i.operands) :
    b.func.Has b.names.symbols v := by
  obtain ⟨n, hn⟩ := List.getElem?_of_mem hv
  rcases h.references.operand id i hi n v hn with hh | ⟨-, x, hx, -⟩
  · exact hh
  · cases hx

theorem Sound.globals (h : Sound tokens { b with fixups := [] }) {i : Instr}
    (hi : b.func.instr? id = some i) {n : Int} (hn : .global n ∈ i.operands) : 0 ≤ n := by
  obtain ⟨m, rfl, -⟩ := h.has hi hn
  exact Int.natCast_nonneg m

theorem Sound.read (h : Sound tokens { b with fixups := [] }) (he : b.errors = []) {g : Func}
    (hbare : g.bare = b.func.bare) (hedges : g.rebuildEdges = (g, .ok ()))
    (hwf : g.WellFormed (some b.names.symbols)) : g.Read tokens b.names.symbols := by
  have hparams : g.params = b.func.params := congrArg (·.params) hbare
  have hret : g.ret = b.func.ret := congrArg (·.ret) hbare
  have hentry : g.entry = b.func.entry := congrArg (·.entry) hbare
  have hinstr : ∀ id, g.instr? id = b.func.instr? id := fun id => Func.instr?_of_bare hbare
  have hblock : ∀ c blk, g.block? c = some blk →
      ∃ blk', b.func.block? c = some blk' ∧ blk'.name = blk.name := fun c blk hc =>
    (Func.block?_of_bare hbare.symm hc).imp fun _ hb => ⟨hb.1, congrArg (·.name) hb.2⟩
  -- Reading the edges off changes the edges only.
  have hkeeps : b.func.Keeps g := {
    params := hparams
    instr := fun id i hi => ⟨i, (hinstr id).trans hi, rfl⟩
    block := fun c blk hc =>
      (Func.block?_of_bare hbare hc).imp fun _ hb => ⟨hb.1, congrArg (·.name) hb.2⟩ }
  have hbodies : g.blocks.toList.flatMap (·.instrs) = b.func.blocks.toList.flatMap (·.instrs) := by
    have := congrArg (fun f => f.blocks.toList.flatMap (·.instrs)) hbare
    simpa [Func.bare, Block.bare, List.flatMap_map] using this
  exact {
    headed := h.headed.congr (congrArg (·.name) hbare) hparams hret
    wellFormed := hwf
    formed := fun id i hi => by
      rw [hret]
      exact h.formed id i (hinstr id ▸ hi)
    has := fun id i hi v hv => hkeeps.has (h.has (hinstr id ▸ hi) hv)
    aims := fun id i hi t ht => by
      obtain ⟨n, hn⟩ := List.getElem?_of_mem ht
      rcases h.references.target id i (hinstr id ▸ hi) n t hn with hh | ⟨-, x, hx, -⟩
      · exact hkeeps.aims rfl hh
      · cases hx
    entry := by
      obtain ⟨e, blk, he, hblk, -⟩ := hwf.entry
      rw [hentry] at he ⊢
      have hent := h.arranged.entry
      split at hent
      · rw [hent] at he
        cases he
      · exact hent
    order := by
      have hids : g.instrIds = b.func.instrIds := congrArg (·.instrIds) hbare
      rw [hbodies, h.arranged.order, hids]
    edges := hedges
    labels := fun c blk hc => by
      obtain ⟨blk', hc', hn⟩ := hblock c blk hc
      exact hn ▸ h.arranged.labels c blk' hc'
    labels_inj := fun c d blk blk' hc hd hn => by
      obtain ⟨_, hc', he₁⟩ := hblock c blk hc
      obtain ⟨_, hd', he₂⟩ := hblock d blk' hd
      have hl := h.unlabelled he c _ hc'
      have hl' := h.unlabelled he d _ hd'
      rw [he₁, hn, ← he₂, hl'] at hl
      exact (Option.some.inj hl).symm
    names_inj := fun id u i j hi hj hne hn => by
      have hl := (h.called.unique id i (hinstr id ▸ hi) hne).1
      have hl' := (h.called.unique u j (hinstr u ▸ hj) (hn ▸ hne)).1
      rw [hn, hl'] at hl
      exact (Option.some.inj hl).symm
    names_new := fun id i hi hne p hp => by
      have hnone := (h.called.unique id i (hinstr id ▸ hi) hne).2
      rw [Names.param?, List.findIdx?_eq_none_iff] at hnone
      have hns : b.names.params = b.func.params := h.called.params
      simpa using hnone p (hns ▸ hparams ▸ hp) }

/-- A function can always be closed; without an error it was read as a whole. -/
theorem Sound.finish (h : b.Sound tokens) (start : Token) : ∃ c, b.finish start = .ok c ∧
    (c.errors = [] → c.func.Read tokens b.names.symbols ∧ c.func.name = b.func.name) := by
  have hsound (he : (b.fixups.foldl Body.resolve b).errors = []) :
      Sound tokens { b.fixups.foldl Body.resolve b with fixups := [] } := Sound.foldl_resolve h he
  have htitle := foldl_resolve_title b.fixups b
  unfold Body.finish
  generalize b.fixups.foldl Body.resolve b = r at hsound htitle
  have hname : r.func.name = b.func.name := congrArg (·.1) htitle
  have hsymbols : r.names.symbols = b.names.symbols := congrArg (·.2) htitle
  dsimp only
  split
  · next hne => exact ⟨r, rfl, fun he => absurd he hne⟩
  · next he =>
    rw [not_not] at he
    split
    · exact ⟨_, rfl, fun he => by simp [Body.report] at he⟩
    · have hr := hsound he
      obtain ⟨g, hg, ⟨hbare, -, -⟩, hedges⟩ := hr.linked.endsInBlocks.exists_rebuildEdges
      have hanswers : Checked.Answers (g.verify (some r.names.symbols)) :=
        Func.answers_verify (fun id i hi n hn => hr.globals (Func.instr?_of_bare hbare ▸ hi) hn)
          (hr.linked.of_bare hbare).targets
      obtain ⟨defects, hdefects⟩ := hanswers
      rw [hg]
      refine ⟨_, by rw [hdefects]; rfl, fun hnil => ?_⟩
      have hnil : defects = [] := by simpa using hnil
      rw [hnil] at hdefects
      have hread := hr.read he hbare hedges (Func.verify_eq_nil.mp hdefects)
      exact ⟨hsymbols ▸ hread, (congrArg (·.name) hbare : g.name = _).trans hname⟩

end Body

end Parser

end RegPressure
