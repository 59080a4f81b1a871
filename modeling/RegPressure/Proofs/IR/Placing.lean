import RegPressure.Proofs.IR.Addition

namespace RegPressure.Func

variable {scope : Option Symbols} {f f' : Func} {b u : Int} {i : Instr}

theorem insertIdx_append (l r : List Int) (u : Int) : (l ++ r).insertIdx l.length u = l ++ u :: r := by
  induction l with
  | nil => rfl
  | cons x l ih => simpa using ih

theorem WellFormed.lt_of_stands (h : f.WellFormed scope) {id : Int} (hb : f.Stands b id) :
    0 ≤ id ∧ id < f.instrs.size := by
  obtain ⟨i, hi, _⟩ := h.home_of_stands hb
  exact lt_of_instr? hi

theorem instr?_push {id : Int} : instr? { f with instrs := f.instrs.push i } id =
    if id = f.instrs.size then some i else f.instr? id := by
  unfold instr?
  by_cases h0 : id < 0
  · rw [if_pos h0, if_pos h0, if_neg (by omega)]
  · rw [if_neg h0, if_neg h0, Array.getElem?_push]
    by_cases he : id = f.instrs.size
    · rw [if_pos he, if_pos (by omega)]
    · rw [if_neg he, if_neg (by omega)]

@[simp] theorem name_setBlock {change : Block → Block} : (f.setBlock b change).name = f.name := by
  unfold setBlock
  split <;> rfl

@[simp] theorem name_setInstr {id : Int} {change : Instr → Instr} :
    (f.setInstr id change).name = f.name := by
  unfold setInstr
  split <;> rfl

/-- An insertion adds one instruction, numbered behind all others, and puts it between two parts of
its block. -/
theorem insertAt_spec {pos : Int} (he : f.insertAt b pos i = .ok (f', u)) : ∃ blk l r,
    f.block? b = some blk ∧ blk.instrs = l ++ r ∧ pos = l.length ∧ u = f.instrs.size ∧
      f'.name = f.name ∧ f'.entry = f.entry ∧ f'.params = f.params ∧
        (∀ id, f'.instr? id = if id = u then some { i with home := some b } else f.instr? id) ∧
          ∀ c, f'.block? c =
            if b = c then some { blk with instrs := l ++ u :: r } else f.block? c := by
  simp only [insertAt, Checked.bind_eq_ok, block_eq_ok] at he
  obtain ⟨blk, hblk, he⟩ := he
  split at he
  · simp at he
  next hpos =>
  simp only [Bool.or_eq_true, decide_eq_true_eq, not_or] at hpos
  simp only [Checked.pure_eq_ok, Prod.mk.injEq] at he
  obtain ⟨rfl, rfl⟩ := he
  have hlen : (blk.instrs.take pos.toNat).length = pos.toNat := by
    rw [List.length_take]
    omega
  refine ⟨blk, blk.instrs.take pos.toNat, blk.instrs.drop pos.toNat, hblk,
    (List.take_append_drop ..).symm, by omega, rfl, by simp, by simp, by simp, fun id => ?_,
    fun c => ?_⟩
  · rw [instr?_setBlock, instr?_push]
  · have hsplit := insertIdx_append (blk.instrs.take pos.toNat) (blk.instrs.drop pos.toNat)
      f.instrs.size
    rw [List.take_append_drop, hlen] at hsplit
    rw [block?_setBlock]
    by_cases hc : b = c
    · subst hc
      change (if b = b then (f.block? b).map _ else _) = _
      rw [if_pos rfl, if_pos rfl, hblk, Option.map_some, hsplit]
    · rw [if_neg hc, if_neg hc]
      rfl

theorem notMem_of_insertAt (h : f.WellFormed scope) {pos : Int}
    (he : f.insertAt b pos i = .ok (f', u)) {c : Int} {blk : Block} (hblk : f.block? c = some blk) :
    u ∉ blk.instrs := by
  obtain ⟨_, _, _, _, _, _, hu, _⟩ := insertAt_spec he
  intro hmem
  have := (h.lt_of_stands ⟨blk, hblk, hmem⟩).2
  omega

theorem adds_of_insertAt (h : f.WellFormed scope) {pos : Int} (he : f.insertAt b pos i = .ok (f', u)) :
    f.Adds u f' := by
  obtain ⟨blk, l, r, hblk, hbody, -, -, hname, hentry, hparams, hinstr, hblock⟩ := insertAt_spec he
  have hself := notMem_of_insertAt h he hblk
  rw [hbody, List.mem_append, not_or] at hself
  refine ⟨hname.symm, hentry.symm, hparams.symm, fun c => ?_, fun id hid => by rw [hinstr, if_neg hid]⟩
  rw [hblock]
  split
  · next hc =>
    subst hc
    rw [hblk, Option.map_some, List.filter_append, filter_ne_of_notMem hself.1,
      List.filter_cons_of_neg (by simp), filter_ne_of_notMem hself.2, ← hbody]
  · cases hcblk : f.block? c with
    | none => rfl
    | some cblk => simp only [Option.map_some, filter_ne_of_notMem (notMem_of_insertAt h he hcblk)]

theorem inserts_of_insertAt (h : f.WellFormed scope) {pos : Int}
    (he : f.insertAt b pos i = .ok (f', u)) : ∃ l r, f.bodyOf b = l ++ r ∧ pos = l.length ∧
      (r ≠ [] → (i.op = .phi → ∀ x ∈ l, f.opOf x = .phi) →
        (i.op ≠ .phi → ∀ x ∈ r, f.opOf x ≠ .phi) → i.op.isTerminator = false →
          f.Inserts u f' b l r { i with home := some b }) := by
  obtain ⟨blk, l, r, hblk, hbody, hpos, hu, -, -, -, hinstr, hblock⟩ := insertAt_spec he
  have hself := notMem_of_insertAt h he hblk
  rw [hbody, List.mem_append, not_or] at hself
  have hblk' : f'.block? b = some { blk with instrs := l ++ u :: r } := by rw [hblock, if_pos rfl]
  refine ⟨l, r, by simp [Func.bodyOf, hblk, hbody], hpos, fun hmore hphi hnphi hterm => ?_⟩
  refine {
    toAdds := adds_of_insertAt h he
    fresh := ?_
    instr_eq := by rw [hinstr, if_pos rfl]
    home := rfl
    body := by simp [Func.bodyOf, hblk']
    once := by simp [hself.1, hself.2]
    only := fun c hc => ?_
    more := hmore, phi := hphi, not_phi := hnphi, not_terminator := hterm }
  · unfold instr?
    rw [if_neg (by omega), Array.getElem?_eq_none (by omega)]
  · obtain ⟨cblk, hcblk, hmem⟩ := hc
    by_contra hne
    rw [hblock, if_neg (Ne.symm hne)] at hcblk
    exact notMem_of_insertAt h he hcblk hmem

/-- An instruction that has a position stands in its block. -/
theorem stands_of_indexOf {n : Nat} (h : f.indexOf u = .ok n) :
    ∃ b i, f.instr? u = some i ∧ i.home = some b ∧ f.Stands b u := by
  simp only [indexOf, Checked.bind_eq_ok, instr_eq_ok] at h
  obtain ⟨i, hi, h⟩ := h
  cases hhome : i.home with
  | none => simp [hhome] at h
  | some b =>
    simp only [hhome, Checked.bind_eq_ok, block_eq_ok] at h
    obtain ⟨blk, hblk, h⟩ := h
    refine ⟨b, i, hi, hhome, blk, hblk, ?_⟩
    by_contra hnot
    simp [List.idxOf?_eq_none_iff.mpr hnot] at h

theorem WellFormed.split_of_indexOf (h : f.WellFormed scope) (hb : f.Stands b u) {n : Nat}
    (hn : f.indexOf u = .ok n) : ∃ l r, f.bodyOf b = l ++ u :: r ∧ l.length = n := by
  obtain ⟨blk, hblk, hmem⟩ := hb
  rw [h.indexOf_eq hblk hmem] at hn
  cases hn
  have hbody : f.bodyOf b = blk.instrs := by simp [Func.bodyOf, hblk]
  obtain ⟨l, r, hl⟩ := List.append_of_mem hmem
  refine ⟨l, r, hbody.trans hl, ?_⟩
  have hnot : u ∉ l := by
    have hnodup := (h.block b blk hblk).body.nodup
    rw [hl] at hnodup
    exact fun hu => List.disjoint_of_nodup_append hnodup hu (by simp)
  rw [hl, List.idxOf_append_of_notMem hnot]
  simp

section Split

variable {id : Int} {l r : List Int} (h : f.WellFormed scope) (hl : f.bodyOf b = l ++ id :: r)

include h hl

theorem WellFormed.bodySound_of_split : f.BodySound scope b (l ++ id :: r) := by
  obtain ⟨blk, hblk, _⟩ : f.Stands b id := stands_iff.mpr (by simp [hl])
  have hbody : f.bodyOf b = blk.instrs := by simp [Func.bodyOf, hblk]
  rw [← hl, hbody]
  exact (h.block b blk hblk).body

theorem WellFormed.phis_before (hop : f.opOf id = .phi) : ∀ x ∈ l, f.opOf x = .phi := by
  intro x hx
  have := (List.pairwise_append.mp (h.bodySound_of_split hl).phis_first).2.2
  exact this x hx id (List.mem_cons_self ..) hop

theorem WellFormed.no_phi_after (hop : f.opOf id ≠ .phi) : ∀ x ∈ id :: r, f.opOf x ≠ .phi := by
  intro x hx hphi
  have := (List.pairwise_append.mp (h.bodySound_of_split hl).phis_first).2.1
  rcases List.mem_cons.mp hx with rfl | hx
  · exact hop hphi
  · exact hop ((List.pairwise_cons.mp this).1 x hx hphi)

theorem WellFormed.more_after (hop : (f.opOf id).isTerminator = false) : r ≠ [] := by
  intro hr
  rw [((h.bodySound_of_split hl).ends l id r rfl).mpr hr] at hop
  cases hop

end Split

theorem inserts_of_insertBefore (h : f.WellFormed scope) {id : Int}
    (he : f.insertBefore id i = .ok (f', u)) (hphi : i.op = .phi ↔ f.opOf id = .phi)
    (hterm : i.op.isTerminator = false) :
    ∃ b l r, f.Inserts u f' b l (id :: r) { i with home := some b } := by
  simp only [insertBefore, Checked.bind_eq_ok, instr_eq_ok] at he
  obtain ⟨j, hj, n, hn, he⟩ := he
  obtain ⟨b, k, hk, hhome, hb⟩ := stands_of_indexOf hn
  rw [hj] at hk
  cases hk
  rw [hhome, Option.getD_some] at he
  obtain ⟨l, r, hlr, hlen⟩ := h.split_of_indexOf hb hn
  obtain ⟨l', r', hlr', hlen', hins⟩ := inserts_of_insertAt h he
  rw [hlr] at hlr'
  obtain ⟨rfl, rfl⟩ := List.append_inj hlr' (by omega)
  refine ⟨b, l, r, hins (List.cons_ne_nil _ _) (fun hop => ?_) (fun hop => ?_) hterm⟩
  · exact h.phis_before hlr (hphi.mp hop)
  · exact h.no_phi_after hlr fun hne => hop (hphi.mpr hne)

theorem inserts_of_insertAfter (h : f.WellFormed scope) {id : Int}
    (he : f.insertAfter id i = .ok (f', u)) (hphi : i.op ≠ .phi) (hid : f.opOf id ≠ .phi)
    (hidterm : (f.opOf id).isTerminator = false) (hterm : i.op.isTerminator = false) :
    ∃ b l r, f.Inserts u f' b (l ++ [id]) r { i with home := some b } := by
  simp only [insertAfter, Checked.bind_eq_ok, instr_eq_ok] at he
  obtain ⟨j, hj, n, hn, he⟩ := he
  obtain ⟨b, k, hk, hhome, hb⟩ := stands_of_indexOf hn
  rw [hj] at hk
  cases hk
  rw [hhome, Option.getD_some] at he
  obtain ⟨l, r, hlr, hlen⟩ := h.split_of_indexOf hb hn
  obtain ⟨l', r', hlr', hlen', hins⟩ := inserts_of_insertAt h he
  have hsplit : (l ++ [id]) ++ r = l' ++ r' := by
    rw [← hlr', hlr]
    simp
  obtain ⟨rfl, rfl⟩ := List.append_inj hsplit (by simp; omega)
  refine ⟨b, l, r, hins (h.more_after hlr hidterm) (fun hop => absurd hop hphi) (fun _ x hx => ?_) hterm⟩
  exact h.no_phi_after hlr hid x (List.mem_cons_of_mem _ hx)

theorem firstNonPhi_split {n : Nat} (he : f.firstNonPhi b = .ok n) :
    ∃ blk l r, f.block? b = some blk ∧ blk.instrs = l ++ r ∧ l.length = n ∧
      (∀ x ∈ l, f.opOf x = .phi) ∧ ∀ x, r.head? = some x → f.opOf x ≠ .phi := by
  have hgo : ∀ (ids : List Int) (m : Nat), firstNonPhi.go f ids m = .ok n →
      ∃ l r, ids = l ++ r ∧ m + l.length = n ∧ (∀ x ∈ l, f.opOf x = .phi) ∧
        ∀ x, r.head? = some x → f.opOf x ≠ .phi := by
    intro ids
    induction ids with
    | nil =>
      intro m hm
      cases hm
      exact ⟨[], [], rfl, rfl, by simp, by simp⟩
    | cons id ids ih =>
      intro m hm
      simp only [firstNonPhi.go, Checked.bind_eq_ok] at hm
      obtain ⟨i, hi, hm⟩ := hm
      have hop : f.opOf id = i.op := by
        refine opOf_eq ?_
        unfold cell at hi
        unfold instr?
        split at hi
        · next hx =>
          cases hi
          exact hx
        · cases hi
      split at hm
      · next hne =>
        cases hm
        refine ⟨[], id :: ids, rfl, rfl, by simp, ?_⟩
        rintro _ ⟨⟩
        rw [hop]
        exact hne
      · next heq =>
        obtain ⟨l, r, rfl, hlen, hphis, hhead⟩ := ih (m + 1) hm
        refine ⟨id :: l, r, rfl, by simp; omega, ?_, hhead⟩
        rintro x hx
        rcases List.mem_cons.mp hx with rfl | hx
        · rw [hop]
          exact not_not.mp heq
        · exact hphis x hx
  simp only [firstNonPhi, Checked.bind_eq_ok, block_eq_ok] at he
  obtain ⟨blk, hblk, he⟩ := he
  obtain ⟨l, r, hlr, hlen, hrest⟩ := hgo blk.instrs 0 he
  exact ⟨blk, l, r, hblk, hlr, by omega, hrest⟩

theorem inserts_of_firstNonPhi (h : f.WellFormed scope) {n : Nat} (hn : f.firstNonPhi b = .ok n)
    (he : f.insertAt b n i = .ok (f', u)) (hphi : i.op ≠ .phi) (hterm : i.op.isTerminator = false) :
    ∃ l r, f.Inserts u f' b l r { i with home := some b } ∧ (∀ x ∈ l, f.opOf x = .phi) ∧
      ∀ x ∈ r, f.opOf x ≠ .phi := by
  obtain ⟨blk, l, r, hblk, hinstrs, hlen, hphis, hhead⟩ := firstNonPhi_split hn
  obtain ⟨l', r', hlr', hlen', hins⟩ := inserts_of_insertAt h he
  have hlr : f.bodyOf b = l ++ r := by simp [Func.bodyOf, hblk, hinstrs]
  rw [hlr] at hlr'
  obtain ⟨rfl, rfl⟩ := List.append_inj hlr' (by omega)
  cases r with
  | nil =>
    -- A block does not end with a phi.
    have hsound := h.block b blk hblk
    obtain ⟨phis, mid, t, hl⟩ := hsound.body.layout hsound.ne_nil
    have hphi := hphis t (by rw [← List.append_nil l, ← hinstrs, hl.eq]; simp)
    have hends := hl.ends
    rw [hphi] at hends
    cases hends
  | cons x r =>
    have hnophi := h.no_phi_after hlr (hhead x rfl)
    exact ⟨l, x :: r, hins (List.cons_ne_nil _ _) (fun hop => absurd hop hphi) (fun _ => hnophi) hterm,
      hphis, hnophi⟩

/-- Taking an instruction out of its block. -/
theorem adds_of_erase (h : f.WellFormed scope) (he : f.erase u = .ok f') :
    f'.Adds u f ∧ ∃ b, f.Stands b u := by
  simp only [erase, Checked.bind_eq_ok, instr_eq_ok, Checked.pure_eq_ok] at he
  obtain ⟨n, hn, i, hi, hf'⟩ := he
  obtain ⟨b, j, hj, hhome, hb⟩ := stands_of_indexOf hn
  rw [hi] at hj
  cases hj
  refine ⟨?_, b, hb⟩
  have hstands := hb
  obtain ⟨blk, hblk, hmem⟩ := hb
  rw [h.indexOf_eq hblk hmem] at hn
  cases hn
  have hcut : blk.instrs.eraseIdx (blk.instrs.idxOf u) = blk.instrs.filter (· ≠ u) := by
    rw [← List.erase_eq_eraseIdx_of_idxOf rfl, (h.block b blk hblk).body.nodup.erase_eq_filter]
    exact List.filter_congr fun x _ => by simp [bne, beq_eq_decide]
  rw [hhome, Option.getD_some] at hf'
  subst hf'
  refine ⟨by simp, by simp, by simp, fun c => ?_, fun id hid => ?_⟩
  · rw [block?_setInstr, block?_setBlock]
    by_cases hc : b = c
    · subst hc
      rw [if_pos rfl, hblk, Option.map_some, Option.map_some, hcut]
    · rw [if_neg hc]
      cases hcblk : f.block? c with
      | none => rfl
      | some cblk =>
        have hnot : u ∉ cblk.instrs := fun hu => hc (h.stands_unique hstands ⟨cblk, hcblk, hu⟩)
        rw [Option.map_some, filter_ne_of_notMem hnot]
  · rw [instr?_setInstr, if_neg (Ne.symm hid), instr?_setBlock]

/-! ### Edits that answer -/

section Answers

open Checked

variable {id : Int} {blk : Block}

theorem answers_insertAt (hb : f.block? b = some blk) {n : Nat} (hn : n ≤ blk.instrs.length)
    (i : Instr) : Answers (f.insertAt b n i) := by
  have hin : (decide ((n : Int) < 0) || decide ((n : Int) > blk.instrs.length)) = false := by
    simp only [Bool.or_eq_false_iff, decide_eq_false_iff_not]
    omega
  simp only [insertAt, block_eq_ok.mpr hb, ok_bind, hin, Bool.false_eq_true, if_false]
  exact ⟨_, rfl⟩

namespace WellFormed

variable (h : f.WellFormed scope)

include h

theorem answers_insertBefore (hb : f.Stands b id) (i : Instr) : Answers (f.insertBefore id i) := by
  obtain ⟨j, hj, hhome, -⟩ := h.home_of_stands hb
  obtain ⟨blk, hblk, hmem⟩ := hb
  simp only [insertBefore, instr_eq_ok.mpr hj, ok_bind, h.indexOf_eq hblk hmem, hhome, Option.getD_some]
  exact answers_insertAt hblk (List.idxOf_lt_length_iff.mpr hmem).le i

theorem answers_insertAfter (hb : f.Stands b id) (i : Instr) : Answers (f.insertAfter id i) := by
  obtain ⟨j, hj, hhome, -⟩ := h.home_of_stands hb
  obtain ⟨blk, hblk, hmem⟩ := hb
  simp only [insertAfter, instr_eq_ok.mpr hj, ok_bind, h.indexOf_eq hblk hmem, hhome, Option.getD_some]
  exact answers_insertAt hblk (List.idxOf_lt_length_iff.mpr hmem) i

theorem answers_erase (hb : f.Stands b id) : Answers (f.erase id) := by
  obtain ⟨j, hj, hhome, -⟩ := h.home_of_stands hb
  obtain ⟨blk, hblk, hmem⟩ := hb
  simp only [erase, instr_eq_ok.mpr hj, ok_bind, h.indexOf_eq hblk hmem]
  exact ⟨_, rfl⟩

theorem answers_firstNonPhi (hb : f.block? b = some blk) : Answers (f.firstNonPhi b) := by
  have hgo : ∀ ids : List Int, (∀ id ∈ ids, ∃ i, f.instr? id = some i) → ∀ n,
      Answers (firstNonPhi.go f ids n) := by
    intro ids hids
    induction ids with
    | nil => exact fun n => answers_pure n
    | cons id ids ih =>
      intro n
      obtain ⟨i, hi⟩ := hids id (List.mem_cons_self ..)
      rw [firstNonPhi.go, cell_eq_ok.mpr hi, ok_bind]
      exact answers_ite (fun _ => answers_pure n) fun _ =>
        ih (fun x hx => hids x (List.mem_cons_of_mem _ hx)) (n + 1)
  rw [firstNonPhi, block_eq_ok.mpr hb, ok_bind]
  exact hgo _ (fun id hid => (h.home_of_stands ⟨blk, hb, hid⟩).imp fun _ hi => hi.1) 0

omit h in
theorem answers_insert_firstNonPhi (hb : f.block? b = some blk) {n : Nat}
    (hn : f.firstNonPhi b = .ok n) (i : Instr) : Answers (f.insertAt b n i) := by
  obtain ⟨blk', l, r, hblk', hlr, rfl, -⟩ := firstNonPhi_split hn
  cases hb.symm.trans hblk'
  exact answers_insertAt hb (by simp [hlr]) i

end WellFormed

end Answers

/-! ### The order of the instructions, block after block -/

variable {g : Func} {p c id : Int} {l r : List Int}

def listed (f : Func) : List Int := f.blocks.toList.flatMap (·.instrs)

theorem mem_listed : id ∈ f.listed ↔ ∃ b, f.Stands b id := mem_flatMap_instrs

theorem WellFormed.nodup_listed (h : f.WellFormed scope) : f.listed.Nodup := by
  refine List.nodup_flatMap.mpr ⟨fun blk hblk => ?_, List.pairwise_iff_getElem.mpr ?_⟩
  · obtain ⟨n, hn, rfl⟩ := Array.mem_iff_getElem.mp (Array.mem_toList_iff.mp hblk)
    exact (h.block n _ (block?_ofNat.trans (Array.getElem?_eq_getElem hn))).body.nodup
  · intro n m hn hm hlt q hq hq'
    have hstands {k : Nat} (hk : k < f.blocks.toList.length) (hq : q ∈ f.blocks.toList[k].instrs) :
        f.Stands k q :=
      ⟨_, block?_ofNat.trans (Array.getElem?_eq_getElem (Array.length_toList ▸ hk)), hq⟩
    have := h.stands_unique (hstands hn hq) (hstands hm hq')
    omega

theorem Adds.listed_eq (h : g.Adds u f) : g.listed = f.listed.filter (· ≠ u) := by
  have hblocks : g.blocks.toList = f.blocks.toList.map fun blk =>
      { blk with instrs := blk.instrs.filter (· ≠ u) } := by
    refine List.ext_getElem? fun n => ?_
    rw [Array.getElem?_toList, List.getElem?_map, Array.getElem?_toList, ← block?_ofNat,
      ← block?_ofNat, h.block]
  rw [listed, hblocks, List.flatMap_map, listed, List.filter_flatMap]

theorem Adds.sublist (h : g.Adds u f) : g.listed.Sublist f.listed := h.listed_eq ▸ List.filter_sublist

theorem bodyOf_infix (f : Func) (b : Int) : f.bodyOf b <:+: f.listed := by
  unfold bodyOf
  cases hb : f.block? b with
  | none => exact List.nil_infix
  | some blk =>
    obtain ⟨n, rfl, hn⟩ := block?_eq_some.mp hb
    rw [listed, List.flatMap_def]
    refine List.infix_of_mem_flatten (List.mem_map_of_mem ?_)
    exact Array.mem_toList_iff.mpr (Array.mem_of_getElem? hn)

theorem Inserts.listed_eq (h : g.Inserts u f b l (p :: r) i) (hf : f.WellFormed scope) :
    ∃ s t, g.listed = s ++ p :: t ∧ f.listed = s ++ u :: p :: t := by
  obtain ⟨s, t, hst⟩ := f.bodyOf_infix b
  rw [h.body] at hst
  have hsplit : f.listed = (s ++ l) ++ u :: p :: (r ++ t) := by simp [← hst]
  refine ⟨s ++ l, r ++ t, ?_, hsplit⟩
  obtain ⟨-, htail, hdisj⟩ := List.nodup_append.mp (hsplit ▸ hf.nodup_listed)
  have hleft : u ∉ s ++ l := fun hmem => hdisj u hmem u (List.mem_cons_self ..) rfl
  have hright : u ∉ p :: (r ++ t) := (List.nodup_cons.mp htail).1
  rw [h.toAdds.listed_eq, hsplit, List.filter_append, List.filter_cons_of_neg (by simp),
    filter_ne_of_notMem hleft, filter_ne_of_notMem hright]

theorem Inserts.before (h : g.Inserts u f b l (p :: r) i) (hf : f.WellFormed scope)
    (hc : [p, c].Sublist g.listed) : [u, c].Sublist f.listed := by
  obtain ⟨s, t, hg, hsplit⟩ := h.listed_eq hf
  have hfnodup : (s ++ u :: p :: t).Nodup := hsplit ▸ hf.nodup_listed
  have hgnodup : (s ++ p :: t).Nodup :=
    hfnodup.sublist ((List.sublist_cons_self ..).append_left _)
  rw [hg] at hc
  rw [hsplit]
  have hmem := (pair_sublist_iff_mem_right hgnodup).mp hc
  exact (pair_sublist_iff_mem_right hfnodup).mpr (List.mem_cons_of_mem _ hmem)

end RegPressure.Func
