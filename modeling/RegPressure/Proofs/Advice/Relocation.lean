import RegPressure.Proofs.Advice.Records
import RegPressure.Proofs.IR.Update

namespace RegPressure

def Block.without (blk : Block) (id : Int) : Block := { blk with instrs := blk.instrs.erase id }

def Block.endWith (blk : Block) (id : Int) : Block :=
  { blk with instrs := blk.instrs.dropLast ++ id :: blk.instrs.getLast?.toList }

namespace Func

def relocate (dst : Int) (f : Func) (id : Int) : Func :=
  let home := ((f.instr? id).bind (·.home)).getD (-1)
  ((f.setBlock home (·.without id)).setBlock dst (·.endWith id)).setInstr id
    ({ · with home := some dst })

def relocateAll (f : Func) (dst : Int) (ids : List Int) : Func := ids.foldl (relocate dst) f

variable {scope : Option Symbols} {f : Func} {d : DomInfo} {dst src : Nat} {id : Int}
  {counts : Nat → Prop}

theorem instr?_relocate {dst x : Int} :
    (f.relocate dst id).instr? x =
      (f.instr? x).map fun i => if x = id then { i with home := some dst } else i := by
  simp only [relocate, instr?_setInstr, instr?_setBlock]
  by_cases h : id = x
  · subst h
    simp
  · cases f.instr? x <;> simp [h, Ne.symm h]

theorem graph_relocate {dst : Int} : (f.relocate dst id).graph = f.graph := by
  unfold relocate
  rw [graph_setInstr]
  refine (graph_setBlock ?_ ?_).trans (graph_setBlock ?_ ?_) <;> exact fun _ => rfl

theorem entry_relocate {dst : Int} : (f.relocate dst id).entry = f.entry := by
  simp [relocate]

@[simp] theorem opOf_relocate {dst x : Int} : (f.relocate dst id).opOf x = f.opOf x := by
  unfold opOf
  rw [instr?_relocate]
  cases f.instr? x with
  | none => rfl
  | some i =>
    simp only [Option.map_some]
    split <;> rfl

theorem resolves_relocate {dst : Int} {v : Value} (hv : f.Resolves scope v) :
    (f.relocate dst id).Resolves scope v := by
  cases v with
  | instr x =>
    simp only [Resolves, isLive, instr?_relocate] at hv ⊢
    cases hx : f.instr? x with
    | none => simp [hx] at hv
    | some i =>
      rw [hx] at hv
      simp only [Option.map_some]
      split
      · simp [Instr.isErased]
      · exact hv
  | arg n => simpa [Resolves, relocate] using hv
  | _ => exact hv

structure Movable (f : Func) (d : DomInfo) (dst src : Nat) (id : Int) : Prop where
  stands : f.Stands src id
  ne : dst ≠ src
  dominates : d.dom.dominates dst src = true
  op : f.opOf id ≠ .phi ∧ (f.opOf id).isTerminator = false
  operands : ∀ i v, f.instr? id = some i → Value.instr v ∈ i.operands →
    ∃ y : Nat, f.Belongs y v ∧ (y = dst ∨ d.dom.dominates y dst = true)

theorem belongs_relocate {dst src : Int} (hid : f.Belongs src id) {b x : Int} :
    (f.relocate dst id).Belongs b x ↔ x = id ∧ b = dst ∨ x ≠ id ∧ f.Belongs b x := by
  obtain ⟨i, hi, -⟩ := hid
  unfold Belongs
  rw [instr?_relocate]
  by_cases hx : x = id
  · subst hx
    simp [hi, eq_comm]
  · cases f.instr? x <;> simp [hx]

section Step

variable (h : f.HasDominance scope d) (m : f.Movable d dst src id)

include h m

theorem block?_relocate {b : Int} :
    (f.relocate dst id).block? b = (f.block? b).map fun blk =>
      if b = src then blk.without id else if b = dst then blk.endWith id else blk := by
  obtain ⟨i, hi, hhome, _⟩ := h.wf.home_of_stands m.stands
  have hne : (src : Int) ≠ dst := fun e => m.ne (Int.ofNat.inj e).symm
  simp only [relocate, hi, Option.bind_some, hhome, Option.getD_some, block?_setInstr,
    block?_setBlock]
  by_cases hs : (src : Int) = b
  · subst hs
    cases f.block? src <;> simp [Ne.symm hne]
  · by_cases hd : (dst : Int) = b
    · subst hd
      cases f.block? dst <;> simp [hne, Ne.symm hne]
    · cases f.block? b <;> simp [hs, hd, Ne.symm hs, Ne.symm hd]

theorem stands_relocate {b x : Int} :
    (f.relocate dst id).Stands b x ↔ x = id ∧ b = dst ∨ x ≠ id ∧ f.Stands b x := by
  have hunique : f.Stands b id → b = src := fun hb => h.wf.stands_unique hb m.stands
  have hdst := h.exists_block m.dominates
  have hne : (src : Int) ≠ dst := fun e => m.ne (Int.ofNat.inj e).symm
  unfold Stands
  rw [block?_relocate h m]
  by_cases hs : b = src
  · subst hs
    simp only [if_true, Option.map_eq_some_iff, hne, and_false, false_or]
    constructor
    · rintro ⟨_, ⟨blk, hblk, rfl⟩, hx⟩
      have hnodup := (h.wf.block _ _ hblk).body.nodup
      have := (List.Nodup.mem_erase_iff hnodup).mp hx
      exact ⟨this.1, blk, hblk, this.2⟩
    · rintro ⟨hx, blk, hblk, hmem⟩
      exact ⟨_, ⟨blk, hblk, rfl⟩, (List.mem_erase_of_ne hx).mpr hmem⟩
  · have hnot : ¬ f.Stands b id := fun hb => hs (hunique hb)
    have hx : f.Stands b x → x ≠ id := by
      rintro hb rfl
      exact hnot hb
    by_cases hd : b = dst
    · subst hd
      obtain ⟨blk, hblk⟩ := hdst
      have hmem : x ∈ (blk.endWith id).instrs ↔ x = id ∨ x ∈ blk.instrs := by
        simp only [Block.endWith]
        rcases List.eq_nil_or_concat' blk.instrs with hl | ⟨l, t, hl⟩
        · simp [hl]
        · rw [hl, List.dropLast_concat, List.getLast?_concat]
          simp only [Option.toList_some, List.mem_append, List.mem_cons]
          tauto
      simp only [hs, if_false, if_true, hblk, Option.map_some, Option.some.injEq, exists_eq_left',
        hmem, and_true]
      constructor
      · rintro (rfl | hx')
        · exact .inl rfl
        · exact .inr ⟨hx ⟨blk, hblk, hx'⟩, hx'⟩
      · rintro (rfl | hx')
        · exact .inl rfl
        · exact .inr hx'.2
    · simp only [hs, hd, if_false, Option.map_id', and_false, false_or]
      exact ⟨fun hb => ⟨hx hb, hb⟩, fun hb => hb.2⟩

theorem references_relocate {i : Instr} (hi : f.References scope i) :
    (f.relocate dst id).References scope i where
  operands := fun v hv => resolves_relocate (hi.operands v hv)
  targets := by
    intro t ht
    obtain ⟨blk, hblk⟩ := hi.targets t ht
    exact ⟨_, by rw [block?_relocate h m, hblk]; rfl⟩
  arity := hi.arity

theorem layout_relocate {b : Int} {blk : Block} (hblk : f.block? b = some blk) :
    ∃ blk', (f.relocate dst id).block? b = some blk' ∧ blk'.succs = blk.succs ∧
      blk'.preds = blk.preds ∧ blk'.instrs.Nodup ∧
        ∃ phis mid t, (f.relocate dst id).Layout blk'.instrs phis mid t ∧
          blk.instrs.getLast? = some t := by
  have hsound := h.wf.block b blk hblk
  obtain ⟨phis, mid, t, hl⟩ := hsound.body.layout hsound.ne_nil
  have ht : t ≠ id := by
    rintro rfl
    have := hl.ends
    rw [m.op.2] at this
    cases this
  have hphi : id ∉ phis := fun hmem => m.op.1 (hl.phis id hmem)
  have hlast : blk.instrs.getLast? = some t := by rw [hl.eq, List.getLast?_concat]
  have hkeep : (f.relocate dst id).Layout blk.instrs phis mid t :=
    ⟨hl.eq, by simpa using hl.phis, by simpa using hl.mid, by simpa using hl.ends⟩
  rw [block?_relocate h m, hblk, Option.map_some]
  by_cases hs : b = src
  · refine ⟨blk.without id, by simp [hs], rfl, rfl, hsound.body.nodup.erase id, phis, mid.erase id, t,
      ⟨?_, hkeep.phis, fun x hx => hkeep.mid x (List.mem_of_mem_erase hx), hkeep.ends⟩, hlast⟩
    have he : ([t] : List Int).erase id = [t] := List.erase_of_not_mem (by simpa using Ne.symm ht)
    simp only [Block.without, hl.eq, List.append_assoc, List.erase_append_right _ hphi]
    by_cases hmid : id ∈ mid
    · rw [List.erase_append_left _ hmid]
    · rw [List.erase_append_right _ hmid, he, List.erase_of_not_mem hmid]
  · have hnot : id ∉ blk.instrs := fun hid =>
      hs (h.wf.stands_unique ⟨blk, hblk, hid⟩ m.stands)
    by_cases hd : b = dst
    · have hinstrs : (blk.endWith id).instrs = phis ++ (mid ++ [id]) ++ [t] := by
        simp [Block.endWith, hl.eq]
      refine ⟨blk.endWith id, by rw [if_neg hs, if_pos hd], rfl, rfl, ?_, phis, mid ++ [id], t,
        ⟨hinstrs, hkeep.phis, fun x hx => ?_, hkeep.ends⟩, hlast⟩
      · have hperm : (blk.endWith id).instrs.Perm (id :: blk.instrs) := by
          rw [hinstrs, hl.eq]
          simp only [List.append_assoc, List.singleton_append]
          rw [← List.append_assoc, ← List.append_assoc]
          exact List.perm_middle
        exact hperm.nodup_iff.mpr (List.nodup_cons.mpr ⟨hnot, hsound.body.nodup⟩)
      · rcases List.mem_append.mp hx with hx | hx
        · exact hkeep.mid x hx
        · rw [List.mem_singleton.mp hx]
          simpa using m.op
    · exact ⟨blk, by simp [hs, hd], rfl, rfl, hsound.body.nodup, phis, mid, t, hkeep, hlast⟩

theorem wellFormed_relocate : (f.relocate dst id).WellFormed scope where
  entry := by
    obtain ⟨e, blk, he, hblk, hpreds⟩ := h.wf.entry
    obtain ⟨blk', hblk', _, hp, _⟩ := layout_relocate h m hblk
    exact ⟨e, blk', entry_relocate.trans he, hblk', hp.trans hpreds⟩
  block := by
    intro b blk' hblk'
    obtain ⟨blk, hblk⟩ : ∃ blk, f.block? b = some blk := by
      rw [block?_relocate h m] at hblk'
      obtain ⟨blk, hblk, _⟩ := Option.map_eq_some_iff.mp hblk'
      exact ⟨blk, hblk⟩
    obtain ⟨blk'', he, hsuccs, hpreds, hnodup, phis, mid, t, hl, _⟩ := layout_relocate h m hblk
    rw [hblk'] at he
    cases he
    have hsound := h.wf.block b blk hblk
    -- Moving an instruction that is no phi leaves targets and edges alone.
    have hedge : ∀ (c : Int) (t : Block), f.block? c = some t → ∃ t',
        (f.relocate dst id).block? c = some t' ∧ t'.succs = t.succs ∧ t'.preds = t.preds := by
      intro c t ht
      obtain ⟨t', ht', hs, hp, _⟩ := layout_relocate h m ht
      exact ⟨t', ht', hs, hp⟩
    refine ⟨?_, hl.bodySound hnodup fun x hx => ?_, ?_, ?_, ?_⟩
    · rw [hl.eq]
      simp
    · have hstands : (f.relocate dst id).Stands b x := ⟨blk', hblk', hx⟩
      rcases (stands_relocate h m).mp hstands with ⟨rfl, rfl⟩ | ⟨hne, hstands⟩
      · obtain ⟨i, hi, _, hrefs⟩ := h.wf.home_of_stands m.stands
        have hrefs' := references_relocate h m hrefs
        exact ⟨{ i with home := some (dst : Int) }, by rw [instr?_relocate, hi]; simp, rfl,
          hrefs'.operands, hrefs'.targets, hrefs'.arity⟩
      · obtain ⟨i, hi, hhome, hrefs⟩ := h.wf.home_of_stands hstands
        exact ⟨i, by rw [instr?_relocate, hi]; simp [hne], hhome, references_relocate h m hrefs⟩
    · intro s hs
      obtain ⟨t, ht, hb⟩ := hsound.edges.succs s (hsuccs ▸ hs)
      obtain ⟨t', ht', _, hp⟩ := hedge s t ht
      exact ⟨t', ht', hp ▸ hb⟩
    · intro p hp
      obtain ⟨t, ht, hb⟩ := hsound.edges.preds p (hpreds ▸ hp)
      obtain ⟨t', ht', hs, _⟩ := hedge p t ht
      exact ⟨t', ht', hs ▸ hb⟩
    · intro x hx i hi hphi t ht
      have hne : x ≠ id := by
        rintro rfl
        have := opOf_eq hi
        rw [opOf_relocate, hphi] at this
        exact m.op.1 this
      rcases (stands_relocate h m).mp ⟨blk', hblk', hx⟩ with ⟨he, _⟩ | ⟨_, c, hc, hxc⟩
      · exact absurd he hne
      · rw [hblk] at hc
        cases hc
        rw [instr?_relocate] at hi
        obtain ⟨j, hj, rfl⟩ := Option.map_eq_some_iff.mp hi
        rw [if_neg hne] at hphi ht
        rw [hpreds]
        exact hsound.edges.incoming x hxc j hj hphi t ht

theorem hasDominance_relocate : (f.relocate dst id).HasDominance scope d := by
  refine ⟨wellFormed_relocate h m, ?_⟩
  rw [← h.computed]
  simp only [DomInfo.compute, graph_relocate, entry_relocate]

theorem bodyOf_relocate {b : Int} {blk : Block} (hblk : f.block? b = some blk) :
    (f.relocate dst id).bodyOf b = if b = src then blk.instrs.erase id
      else if b = dst then blk.instrs.dropLast ++ id :: blk.instrs.getLast?.toList
      else blk.instrs := by
  unfold bodyOf
  rw [block?_relocate h m, hblk]
  simp only [Option.map_some, Option.getD_some]
  split
  · rfl
  · split <;> rfl

theorem bodyOf_moved {init : List Int} {t : Int} (hbody : f.bodyOf dst = init ++ [t]) :
    (f.relocate dst id).bodyOf dst = init ++ [id] ++ [t] := by
  obtain ⟨blk, hblk⟩ := h.exists_block m.dominates
  have hne : (dst : Int) ≠ src := mt Int.ofNat.inj m.ne
  have hinstrs : blk.instrs = init ++ [t] := by simpa [bodyOf, hblk] using hbody
  rw [bodyOf_relocate h m hblk, if_neg hne, if_pos rfl, hinstrs, List.dropLast_concat,
    List.getLast?_concat]
  simp

theorem sublist_relocate {b v u : Int} (hv : v ≠ id) (hu : u ≠ id)
    (hsub : [v, u].Sublist (f.bodyOf b)) : [v, u].Sublist ((f.relocate dst id).bodyOf b) := by
  cases hblk : f.block? b with
  | none => simp [bodyOf, hblk] at hsub
  | some blk =>
    have hsub : [v, u].Sublist blk.instrs := by simpa [bodyOf, hblk] using hsub
    rw [bodyOf_relocate h m hblk]
    split
    · have := hsub.erase id
      rwa [List.erase_of_not_mem (by simp [Ne.symm hv, Ne.symm hu])] at this
    · split
      · refine hsub.trans ?_
        rcases List.eq_nil_or_concat' blk.instrs with hl | ⟨l, t, hl⟩
        · simp [hl]
        · rw [hl, List.dropLast_concat, List.getLast?_concat]
          exact List.Sublist.append_left (List.sublist_cons_self ..) _
      · exact hsub

theorem dominates_beyond {y : Nat} (hy : src = y ∨ d.dom.strictlyDominates src y = true) :
    d.dom.strictlyDominates dst y = true := by
  have hdst := h.dominates_iff.mp m.dominates
  rw [DomTree.strictlyDominates_iff] at hy ⊢
  rcases hy with rfl | ⟨hne, hdom⟩
  · exact ⟨m.ne, m.dominates⟩
  · have hyb := h.dominates_iff.mp hdom
    refine ⟨?_, h.dominates_iff.mpr (hdst.trans hyb)⟩
    rintro rfl
    exact m.ne (hdst.antisymm hyb)

theorem precedes_relocate {u v : Int} (hu : u ≠ id) (hp : f.Precedes d v u) :
    (f.relocate dst id).Precedes d v u := by
  have h' := wellFormed_relocate h m
  have hid := h.wf.belongs m.stands
  obtain ⟨x, y, hx, hy⟩ := hp.belongs
  have hy' : (f.relocate dst id).Belongs y u := (belongs_relocate hid).mpr (.inr ⟨hu, hy⟩)
  have hp := (hx.precedes_iff hy (h.wf.bodyOf_nodup y)).mp hp
  by_cases hvid : v = id
  · subst hvid
    obtain rfl := hx.unique hid
    have hx' : (f.relocate dst v).Belongs dst v := (belongs_relocate hid).mpr (.inl ⟨rfl, rfl⟩)
    obtain ⟨n, rfl, hbeyond⟩ : ∃ n : Nat, y = n ∧ (src = n ∨ d.dom.strictlyDominates src n = true) := by
      rcases hp with ⟨-, -, hpos, hdom⟩ | ⟨rfl, -⟩
      · obtain ⟨n, rfl⟩ := Int.eq_ofNat_of_zero_le hpos
        exact ⟨n, rfl, .inr hdom⟩
      · exact ⟨src, rfl, .inl rfl⟩
    have hdom := dominates_beyond h m hbeyond
    have hne := (DomTree.strictlyDominates_iff.mp hdom).1
    exact (hx'.precedes_iff hy' (h'.bodyOf_nodup n)).mpr
      (.inl ⟨mt Int.ofNat.inj hne, Int.natCast_nonneg _, Int.natCast_nonneg _, hdom⟩)
  · have hx' : (f.relocate dst id).Belongs x v := (belongs_relocate hid).mpr (.inr ⟨hvid, hx⟩)
    refine (hx'.precedes_iff hy' (h'.bodyOf_nodup y)).mpr (hp.imp_right ?_)
    rintro ⟨rfl, hsub⟩
    exact ⟨rfl, sublist_relocate h m hvid hu hsub⟩

/-- An operand of the moved instruction comes before its new place, unless it is what ends the block
there or the block does not list it. -/
theorem precedes_moved {init : List Int} {t v : Int} {y : Nat} (hbody : f.bodyOf dst = init ++ [t])
    (hv : f.Belongs y v) (hinit : f.Belongs dst v → v ∈ init)
    (hy : y = dst ∨ d.dom.dominates y dst = true) : (f.relocate dst id).Precedes d v id := by
  have hid := h.wf.belongs m.stands
  have hvid : v ≠ id := by
    rintro rfl
    obtain rfl : y = src := Int.ofNat.inj (hv.unique hid)
    rcases hy with rfl | hy
    · exact m.ne rfl
    · exact m.ne ((h.dominates_iff.mp m.dominates).antisymm (h.dominates_iff.mp hy))
  have hv' : (f.relocate dst id).Belongs y v := (belongs_relocate hid).mpr (.inr ⟨hvid, hv⟩)
  have hid' : (f.relocate dst id).Belongs dst id := (belongs_relocate hid).mpr (.inl ⟨rfl, rfl⟩)
  refine (hv'.precedes_iff hid' ((wellFormed_relocate h m).bodyOf_nodup dst)).mpr ?_
  by_cases he : y = dst
  · subst he
    refine .inr ⟨rfl, ?_⟩
    rw [bodyOf_moved h m hbody, List.append_assoc]
    exact List.Sublist.append (List.singleton_sublist.mpr (hinit hv))
      (List.Sublist.cons_cons id (List.nil_sublist _))
  · exact .inl ⟨mt Int.ofNat.inj he, Int.natCast_nonneg _, Int.natCast_nonneg _,
      DomTree.strictlyDominates_iff.mpr ⟨he, hy.resolve_left he⟩⟩

theorem terminator_relocate {p t : Int} (ht : (f.relocate dst id).terminator p = .ok (some t)) :
    f.terminator p = .ok (some t) ∧ t ≠ id := by
  obtain ⟨hstands, hterm⟩ := (wellFormed_relocate h m).terminator_iff.mp ht
  rw [opOf_relocate] at hterm
  have hne : t ≠ id := by
    rintro rfl
    rw [m.op.2] at hterm
    cases hterm
  have hstands := ((stands_relocate h m).mp hstands).resolve_left fun e => hne e.1
  exact ⟨h.wf.terminator_iff.mpr ⟨hstands.2, hterm⟩, hne⟩

/-- One move keeps SSA form if what the moved instruction uses of the earlier block comes before the
end of that block. -/
theorem dominatesUses_relocate {init : List Int} {t : Int} (hbody : f.bodyOf dst = init ++ [t])
    (hinit : ∀ i v, f.instr? id = some i → Value.instr v ∈ i.operands → f.Belongs dst v → v ∈ init)
    (hssa : f.DominatesUses d counts) : (f.relocate dst id).DominatesUses d counts where
  uses := by
    intro u i a v hi hhome hreach hphi hv
    rw [instr?_relocate] at hi
    obtain ⟨j, hj, rfl⟩ := Option.map_eq_some_iff.mp hi
    by_cases hu : u = id
    · subst hu
      rw [if_pos rfl] at hv
      obtain ⟨y, hy, hdst⟩ := m.operands j v hj hv
      exact precedes_moved h m hbody hy (hinit j v hj hv) hdst
    · rw [if_neg hu] at hhome hphi hv
      exact precedes_relocate h m hu (hssa.uses u j a v hj hhome hreach hphi hv)
  incoming := by
    intro u i n v p t hi hlive hphi hv hp hcounts ht
    have hne : u ≠ id := by
      rintro rfl
      have := opOf_eq hi
      rw [opOf_relocate, hphi] at this
      exact m.op.1 this
    rw [instr?_relocate] at hi
    obtain ⟨j, hj, rfl⟩ := Option.map_eq_some_iff.mp hi
    rw [if_neg hne] at hlive hphi hv hp
    obtain ⟨ht, htne⟩ := terminator_relocate h m ht
    exact precedes_relocate h m htne (hssa.incoming u j n v p t hj hlive hphi hv hp hcounts ht)

end Step

structure AllMovable (f : Func) (d : DomInfo) (dst src : Nat) (ids : List Int) : Prop where
  ne : dst ≠ src
  dominates : d.dom.dominates dst src = true
  sublist : ∃ blk, f.block? src = some blk ∧ ids.Sublist blk.instrs
  op : ∀ x ∈ ids, f.opOf x ≠ .phi ∧ (f.opOf x).isTerminator = false
  operands : ∀ x ∈ ids, ∀ i v, f.instr? x = some i → Value.instr v ∈ i.operands →
    [v, x].Sublist ids ∨ ∃ y : Nat, f.Belongs y v ∧ (y = dst ∨ d.dom.dominates y dst = true)

/-- What the instructions `ids` use of block `dst` is in `init`. -/
def UsesWithin (f : Func) (dst : Int) (ids init : List Int) : Prop :=
  ∀ x ∈ ids, ∀ i v, f.instr? x = some i → Value.instr v ∈ i.operands → f.Belongs dst v → v ∈ init

theorem AllMovable.head {rest : List Int} (h : f.HasDominance scope d)
    (m : f.AllMovable d dst src (id :: rest)) : f.Movable d dst src id := by
  obtain ⟨blk, hblk, hsub⟩ := m.sublist
  have hnodup := (h.wf.block _ _ hblk).body.nodup.sublist hsub
  refine ⟨⟨blk, hblk, hsub.subset (List.mem_cons_self ..)⟩, m.ne, m.dominates,
    m.op id (List.mem_cons_self ..), fun i v hi hv => ?_⟩
  refine (m.operands id (List.mem_cons_self ..) i v hi hv).resolve_left fun hbefore => ?_
  -- Nothing that moves comes before the first.
  have hid : id ∈ rest := by
    cases hbefore with
    | cons _ hs => exact hs.subset (by simp)
    | cons_cons _ hs => exact hs.subset (by simp)
  exact (List.nodup_cons.mp hnodup).1 hid

theorem AllMovable.tail {rest : List Int} (h : f.HasDominance scope d)
    (m : f.AllMovable d dst src (id :: rest)) :
    (f.relocate dst id).AllMovable d dst src rest := by
  have hm := m.head h
  obtain ⟨blk, hblk, hsub⟩ := m.sublist
  have hnodup := (h.wf.block _ _ hblk).body.nodup.sublist hsub
  refine ⟨m.ne, m.dominates, ⟨blk.without id, ?_, ?_⟩, ?_, ?_⟩
  · rw [block?_relocate h hm, hblk]
    simp
  · simpa [Block.without] using hsub.erase id
  · exact fun x hx => by simpa using m.op x (List.mem_cons_of_mem _ hx)
  · intro x hx i v hi hv
    have hne : x ≠ id := by
      rintro rfl
      exact (List.nodup_cons.mp hnodup).1 hx
    rw [instr?_relocate] at hi
    obtain ⟨j, hj, rfl⟩ := Option.map_eq_some_iff.mp hi
    rw [if_neg hne] at hv
    have hid := h.wf.belongs hm.stands
    have hmoved : v = id → ∃ y : Nat, (f.relocate dst id).Belongs y v ∧
        (y = dst ∨ d.dom.dominates y dst = true) :=
      fun he => ⟨dst, (belongs_relocate hid).mpr (.inl ⟨he, rfl⟩), .inl rfl⟩
    rcases m.operands x (List.mem_cons_of_mem _ hx) j v hj hv with hbefore | ⟨y, hy, hdst⟩
    · cases hbefore with
      | cons _ hs => exact .inl hs
      | cons_cons _ _ => exact .inr (hmoved rfl)
    · by_cases he : v = id
      · exact .inr (hmoved he)
      · exact .inr ⟨y, (belongs_relocate hid).mpr (.inr ⟨he, hy⟩), hdst⟩

theorem instr?_relocateAll {dst x : Int} {ids : List Int} :
    (f.relocateAll dst ids).instr? x =
      (f.instr? x).map fun i => if x ∈ ids then { i with home := some dst } else i := by
  induction ids generalizing f with
  | nil => simp [relocateAll]
  | cons id rest ih =>
    have := ih (f := f.relocate dst id)
    rw [instr?_relocate] at this
    rw [relocateAll, List.foldl_cons, ← relocateAll, this, Option.map_map]
    congr 1
    funext i
    by_cases hx : x = id <;> by_cases hr : x ∈ rest <;> simp [hx, hr]

theorem hasDominance_relocateAll {ids : List Int} (h : f.HasDominance scope d)
    (m : f.AllMovable d dst src ids) : (f.relocateAll dst ids).HasDominance scope d := by
  induction ids generalizing f with
  | nil => exact h
  | cons id rest ih =>
    have hm := m.head h
    exact ih (hasDominance_relocate h hm) (m.tail h)

theorem bodyOf_relocateAll {ids init : List Int} {t : Int} (h : f.HasDominance scope d)
    (m : f.AllMovable d dst src ids) (hbody : f.bodyOf dst = init ++ [t]) :
    (f.relocateAll dst ids).bodyOf dst = init ++ ids ++ [t] := by
  induction ids generalizing f init with
  | nil => simpa [relocateAll] using hbody
  | cons id rest ih =>
    have hm := m.head h
    have := ih (hasDominance_relocate h hm) (m.tail h) (bodyOf_moved h hm hbody)
    simpa [relocateAll] using this

theorem dominatesUses_relocateAll {ids init : List Int} {t : Int} (h : f.HasDominance scope d)
    (m : f.AllMovable d dst src ids) (hbody : f.bodyOf dst = init ++ [t])
    (hwithin : f.UsesWithin dst ids init) (hssa : f.DominatesUses d counts) :
    (f.relocateAll dst ids).DominatesUses d counts := by
  induction ids generalizing f init with
  | nil => exact hssa
  | cons id rest ih =>
    have hm := m.head h
    refine ih (hasDominance_relocate h hm) (m.tail h) (bodyOf_moved h hm hbody) ?_
      (dominatesUses_relocate h hm hbody (hwithin id (List.mem_cons_self ..)) hssa)
    intro x hx i v hi hv hdst
    rw [instr?_relocate] at hi
    obtain ⟨j, hj, rfl⟩ := Option.map_eq_some_iff.mp hi
    have hv : Value.instr v ∈ j.operands := by
      split at hv <;> exact hv
    rcases (belongs_relocate (h.wf.belongs hm.stands)).mp hdst with ⟨rfl, -⟩ | ⟨-, hdst⟩
    · simp
    · exact List.mem_append_left _ (hwithin x (List.mem_cons_of_mem _ hx) j v hj hv hdst)

/-- The converse: where definitions still dominate their uses, nothing that was moved uses the
terminator that it now stands in front of. -/
theorem usesWithin_of_dominatesUses {ids init : List Int} {t : Int} (h : f.HasDominance scope d)
    (m : f.AllMovable d dst src ids) (hbody : f.bodyOf dst = init ++ [t])
    (hssa : (f.relocateAll dst ids).DominatesUses d counts) : f.UsesWithin dst ids init := by
  intro x hx i v hi hv hdst
  have hbody' := bodyOf_relocateAll h m hbody
  have hnodup := (hasDominance_relocateAll h m).wf.bodyOf_nodup dst
  have hvids : v ∉ ids := by
    intro hmem
    obtain ⟨blk, hblk, hsub⟩ := m.sublist
    have hsrc := h.wf.belongs ⟨blk, hblk, hsub.subset hmem⟩
    exact m.ne (Int.ofNat.inj (hdst.unique hsrc))
  have hx' : (f.relocateAll dst ids).instr? x = some { i with home := some (dst : Int) } := by
    rw [instr?_relocateAll, hi, Option.map_some, if_pos hx]
  have hv' : (f.relocateAll dst ids).Belongs dst v := by
    obtain ⟨j, hj, hhome⟩ := hdst
    exact ⟨j, by rw [instr?_relocateAll, hj, Option.map_some, if_neg hvids], hhome⟩
  have hreach : d.dom.isReachable dst = true :=
    h.isReachable_iff.mpr (h.dominates_iff.mp m.dominates).reaches_left
  have hphi : i.op ≠ .phi := opOf_eq hi ▸ (m.op x hx).1
  have hp := hssa.uses x _ dst v hx' rfl hreach hphi hv
  have hsub := ((hv'.precedes_iff ⟨_, hx', rfl⟩ hnodup).mp hp).resolve_left (fun hp => hp.1 rfl)
  have hlt := (idxOf_lt_idxOf_iff hnodup (hsub.2.subset (by simp))).mpr hsub.2
  rw [hbody'] at hnodup hlt
  have hmem : v ∈ init ++ ids ++ [t] := hbody' ▸ hsub.2.subset (by simp)
  rcases List.mem_append.mp hmem with hmem | hmem
  · exact (List.mem_append.mp hmem).resolve_right hvids
  · -- The moved instruction would have to come behind the terminator.
    have hxmem : x ∈ init ++ ids := List.mem_append_right _ hx
    obtain rfl := List.mem_singleton.mp hmem
    have hnot : v ∉ init ++ ids := fun hin =>
      List.disjoint_of_nodup_append hnodup hin (List.mem_singleton_self v)
    rw [List.idxOf_append_of_notMem hnot, List.idxOf_append_of_mem hxmem] at hlt
    have := List.idxOf_lt_length_iff.mpr hxmem
    omega

theorem WellFormed.bodyOf_eq_concat (h : f.WellFormed scope) {b : Int} {blk : Block}
    (hblk : f.block? b = some blk) : ∃ init t, f.bodyOf b = init ++ [t] := by
  have hne := (h.block b blk hblk).ne_nil
  simpa [bodyOf, hblk] using (List.eq_nil_or_concat' blk.instrs).resolve_left hne

/-- The candidates of a record may all move, in their order. -/
theorem allMovable_of_collected {o : AliasOracle} {between : List Nat} {blk : Block}
    {cs : List Candidate} (h : f.HasDominance scope d) (hssa : f.DominatesUses d counts)
    (hlink : Chain.LinkSound f.graph d.oracle dst src between) (hblk : f.block? src = some blk)
    (hc : Collected f d.oracle o between dst blk cs) :
    f.AllMovable d dst src (cs.map (·.instr)) := by
  have hsrc : d.dom.isReachable src = true :=
    h.isReachable_iff.mpr (h.dominates_iff.mp hlink.dominates).1
  have hbody : f.bodyOf src = blk.instrs := by simp [bodyOf, hblk]
  have hop : ∀ x ∈ cs.map (·.instr), f.opOf x ≠ .phi ∧ (f.opOf x).isTerminator = false := by
    intro x hx
    obtain ⟨c, hcs, rfl⟩ := List.mem_map.mp hx
    obtain ⟨i, hi, hv, hmove, _⟩ := hc.each c hcs
    have hfree := not_pinned_of_verdict hv hmove
    rw [opOf_eq hi]
    exact ⟨fun hphi => hfree (.inr (.inl (by simp [hphi]))),
      Bool.eq_false_iff.mpr fun hterm => hfree (.inl hterm)⟩
  refine ⟨hlink.ne, hlink.dominates, ⟨blk, hblk, hc.sublist⟩, hop, fun x hx i v hi hv => ?_⟩
  obtain ⟨c, hcs, rfl⟩ := List.mem_map.mp hx
  obtain ⟨j, hj, _, _, hops⟩ := hc.each c hcs
  cases hi.symm.trans hj
  rcases hops v hv with hmoved | ⟨k, b, hk, hhome, hb⟩
  · left
    -- Both stand in the same block, and the list of those that move keeps its order.
    have hx' := h.wf.belongs ⟨blk, hblk, hc.sublist.subset hx⟩
    have hv' := h.wf.belongs ⟨blk, hblk, hc.sublist.subset hmoved⟩
    obtain ⟨_, _, hhome⟩ := id hx'
    cases hi.symm.trans ‹_›
    have hprec := hssa.uses c.instr i src v hi hhome hsrc (opOf_eq hi ▸ (hop _ hx).1) hv
    rcases (hv'.precedes_iff hx' (h.wf.bodyOf_nodup src)).mp hprec with ⟨hne, _⟩ | ⟨_, hsub⟩
    · exact absurd rfl hne
    · rw [hbody] at hsub
      exact pair_sublist_of_sublist (h.wf.block _ _ hblk).body.nodup hc.sublist hmoved hx hsub
  · right
    rcases hb with rfl | ⟨hpos, hdom⟩
    · exact ⟨dst, ⟨k, hk, hhome⟩, .inl rfl⟩
    · obtain ⟨n, rfl⟩ := Int.eq_ofNat_of_zero_le hpos
      exact ⟨n, ⟨k, hk, hhome⟩, .inr hdom⟩

end Func

/-- Following a record of the advice keeps the function well formed. The candidates come to stand in
their order before the terminator of the earlier block, and definitions still dominate their uses
exactly if what the candidates use of that block stands there before its terminator. -/
theorem advice_keeps_ssa_form {scope : Option Symbols} {f : Func} {d : DomInfo} {o : AliasOracle}
    {report : Report} {r : Record} (counts : Nat → Prop) (hv : f.verify scope = .ok [])
    (hd : DomInfo.compute f = .ok d) (hssa : f.DominatesUses d counts)
    (ha : analyze f f.graph d.oracle o = .ok report) (hr : r ∈ report.records) :
    ∃ f' init t, f' = f.relocateAll r.dst (r.candidates.map (·.instr)) ∧
      f.bodyOf r.dst = init ++ [t] ∧
      f'.bodyOf r.dst = init ++ r.candidates.map (·.instr) ++ [t] ∧
      f'.verify scope = .ok [] ∧ ∃ d', DomInfo.compute f' = .ok d' ∧
        (f'.DominatesUses d' counts ↔ f.UsesWithin r.dst (r.candidates.map (·.instr)) init) := by
  have h : f.HasDominance scope d := ⟨Func.verify_eq_nil.mp hv, hd⟩
  obtain ⟨hlink, hcollect⟩ := analyze_spec ha r hr
  obtain ⟨blk, hblk, hc⟩ := collect_spec hcollect
  have hm := Func.allMovable_of_collected h hssa hlink hblk hc
  have h' := Func.hasDominance_relocateAll h hm
  obtain ⟨dstBlk, hdst⟩ := h.exists_block hlink.dominates
  obtain ⟨init, t, hbody⟩ := h.wf.bodyOf_eq_concat hdst
  exact ⟨_, init, t, rfl, hbody, Func.bodyOf_relocateAll h hm hbody, Func.verify_eq_nil.mpr h'.wf, d,
    h'.computed, Func.usesWithin_of_dominatesUses h hm hbody,
    fun hwithin => Func.dominatesUses_relocateAll h hm hbody hwithin hssa⟩

def counting : Func where
  name := "counting"
  params := [⟨"n", some .i32⟩]
  ret := .i32
  blocks := #[{ name := "start", instrs := [0], succs := [1] },
    { name := "loop", instrs := [1, 2], succs := [2], preds := [0, 2] },
    { name := "body", instrs := [3, 4, 5], succs := [1, 3], preds := [1] },
    { name := "done", instrs := [6], preds := [2] }]
  instrs := #[{ home := some 0, op := .br, targets := [1] },
    { home := some 1, op := .phi, ty := .i32, operands := [.arg 0, .instr 3], targets := [0, 2] },
    { home := some 1, op := .br, targets := [2] },
    { home := some 2, op := .sub, ty := .i32, operands := [.instr 1, .int (some .i32) 1] },
    { home := some 2, op := .icmp, ty := .i1, operands := [.instr 3, .arg 0], pred := "slt" },
    { home := some 2, op := .condbr, operands := [.instr 4], targets := [1, 3] },
    { home := some 3, op := .ret, operands := [.instr 3] }]
  entry := some 0

def counting.dominance : DomInfo :=
  ⟨counting.graph.dominators 0, counting.graph.postDominators⟩

theorem counting.dominatesUses : counting.DominatesUses counting.dominance fun _ => True := by
  have hv : counting.verify none = .ok [] := by decide +kernel
  have hssa : counting.InSsaForm counting.dominance fun _ => True :=
    Func.inSsaForm_of_holds (by decide +kernel) (by decide +kernel)
  exact hssa.dominatesUses (Func.verify_eq_nil.mp hv)
    fun id i hi _ => Func.stands_of_bodies (by decide +kernel) id i hi

/-- Both instructions of the body move into the head of the loop, and nothing that they use is the
branch there. -/
theorem counting_keeps_ssa_form :
    counting.verify none = .ok [] ∧ counting.DominatesUses counting.dominance (fun _ => True) ∧
      ∃ f' init t, f' = counting.relocateAll (1 : Nat) [3, 4] ∧
        counting.bodyOf (1 : Nat) = init ++ [t] ∧
        f'.bodyOf (1 : Nat) = init ++ [3, 4] ++ [t] ∧
        f'.verify none = .ok [] ∧ ∃ d', DomInfo.compute f' = .ok d' ∧
          f'.DominatesUses d' fun _ => True := by
  have ha : analyze counting counting.graph counting.dominance.oracle (.always false false) =
      .ok ⟨[⟨[0, 1, 2, 3], [[], [], []]⟩], [⟨2, 1, [], [⟨3, .pure, 1⟩, ⟨4, .pure, 1⟩]⟩]⟩ := by
    decide +kernel
  have hv : counting.verify none = .ok [] := by decide +kernel
  have hd : DomInfo.compute counting = .ok counting.dominance := by decide +kernel
  obtain ⟨f', init, t, rfl, hbody, hbody', hv', d', hd', hkeeps⟩ := advice_keeps_ssa_form
    (fun _ => True) hv hd counting.dominatesUses ha (List.mem_singleton.mpr rfl)
  have hinit : init = [1] := by
    have : init ++ [t] = [1] ++ [2] := hbody.symm
    exact (List.append_inj' this rfl).1
  have hwithin : counting.UsesWithin (1 : Nat) [3, 4] init := by
    subst hinit
    intro x hx i v hi hmem hdst
    obtain rfl | rfl : x = 3 ∨ x = 4 := by simpa using hx
    · cases hi
      obtain rfl : v = 1 := by simpa [counting] using hmem
      exact List.mem_singleton_self 1
    · cases hi
      obtain rfl : v = 3 := by simpa [counting] using hmem
      obtain ⟨j, hj, hhome⟩ := hdst
      cases hj
      cases hhome
  exact ⟨hv, counting.dominatesUses, _, init, t, rfl, hbody, hbody', hv', d', hd',
    hkeeps.mpr hwithin⟩

def branchAdded : Func where
  name := "branchAdded"
  ret := .i32
  blocks := #[{ name := "start", instrs := [0], succs := [1] },
    { name := "rest", instrs := [1, 2], preds := [0] }]
  instrs := #[{ home := some 0, op := .br, targets := [1] },
    { home := some 1, op := .add, ty := .i32, operands := [.instr 0, .int (some .i32) 1] },
    { home := some 1, op := .ret, operands := [.instr 1] }]
  entry := some 0

def branchAdded.dominance : DomInfo :=
  ⟨branchAdded.graph.dominators 0, branchAdded.graph.postDominators⟩

/-- The addition is advised to move in front of the branch that it uses. -/
theorem branchAdded_leaves_ssa_form :
    branchAdded.verify none = .ok [] ∧ DomInfo.compute branchAdded = .ok branchAdded.dominance ∧
      branchAdded.DominatesUses branchAdded.dominance (fun _ => True) ∧
      analyze branchAdded branchAdded.graph branchAdded.dominance.oracle (.always false false) =
        .ok ⟨[⟨[0, 1], [[]]⟩], [⟨1, 0, [], [⟨1, .pure, 1⟩]⟩]⟩ ∧
      ∀ d', DomInfo.compute (branchAdded.relocateAll (0 : Nat) [1]) = .ok d' →
        ¬ (branchAdded.relocateAll (0 : Nat) [1]).DominatesUses d' fun _ => True := by
  have hids : ∀ u i, branchAdded.instr? u = some i → u = 0 ∨ u = 1 ∨ u = 2 := by
    intro u i hi
    obtain ⟨hpos, hlt⟩ := Func.lt_of_instr? hi
    have : u < 3 := hlt
    omega
  refine ⟨by decide +kernel, by decide +kernel, ⟨?_, ?_⟩, by decide +kernel, ?_⟩
  · intro u i a v hi hhome hreach hphi hv
    obtain rfl | rfl | rfl := hids u i hi
    · cases hi
      cases hv
    · cases hi
      obtain rfl : v = 0 := by simpa [branchAdded] using hv
      decide +kernel
    · cases hi
      obtain rfl : v = 1 := by simpa [branchAdded] using hv
      decide +kernel
  · intro u i n v p t hi hlive hphi
    obtain rfl | rfl | rfl := hids u i hi
    all_goals cases hi; cases hphi
  · intro d' hd' hssa
    have hd : DomInfo.compute (branchAdded.relocateAll (0 : Nat) [1]) =
        .ok branchAdded.dominance := by decide +kernel
    cases hd.symm.trans hd'
    have hp := hssa.uses 1 _ 0 0 rfl rfl (by decide +kernel) (by decide) (by decide)
    revert hp
    decide +kernel

end RegPressure
