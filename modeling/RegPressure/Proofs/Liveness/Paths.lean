import RegPressure.Proofs.Faultless.Base
import RegPressure.Proofs.Graph.Region

namespace RegPressure

variable {f : Func} {scope : Option Symbols} {v : Int} {a b home : Nat}

namespace Func

/-- An instruction in block `a` that is no phi uses `v`. -/
def UsedIn (f : Func) (v : Int) (a : Nat) : Prop :=
  ∃ u i, f.instr? u = some i ∧ i.home = some (a : Int) ∧ i.op ≠ .phi ∧ Value.instr v ∈ i.operands

/-- A phi takes `v` if it comes from block `a`. -/
def TakenFrom (f : Func) (v : Int) (a : Nat) : Prop :=
  ∃ u i, f.instr? u = some i ∧ i.isErased = false ∧ i.op = .phi ∧
    ∃ n : Nat, i.operands[n]? = some (.instr v) ∧ i.targets[n]? = some (a : Int)

end Func

namespace LiveSpan

theorem mem_of_nodes {bs : List Int} {ns : List Nat} (h : bs.mapM f.graph.node = .ok ns) :
    (∀ a, a ∈ ns ↔ (a : Int) ∈ bs) ∧ ∀ a ∈ ns, a < f.graph.size := by
  have hmap : ns.map Int.ofNat = bs :=
    Checked.map_of_mapM h fun _ _ _ he => (Func.node_eq_ok.mp he).1.symm
  constructor
  · intro a
    rw [← hmap]
    exact (List.mem_map_of_injective fun _ _ => Int.ofNat.inj).symm
  · intro a ha
    obtain ⟨b, -, he⟩ := Checked.mem_of_mapM h ha
    rw [Func.graph_size]
    exact (Func.node_eq_ok.mp he).2

theorem mem_phiBlocks {phi : Instr} {bs : List Nat} (h : phiBlocks f v phi = .ok bs) :
    (∀ a ∈ bs, a < f.graph.size) ∧
      ∀ a, a ∈ bs ↔ ∃ n : Nat, phi.operands[n]? = some (.instr v) ∧ phi.targets[n]? = some (a : Int) := by
  have hstep : ∀ a n : Nat, (do f.graph.node (← element phi.targets n)) = Except.ok a ↔
      phi.targets[n]? = some (a : Int) ∧ a < f.graph.size := by
    intro a n
    simp only [Checked.bind_eq_ok, element_eq_ok, Func.node_eq_ok, Func.graph_size]
    constructor
    · rintro ⟨t, ht, rfl, hlt⟩
      exact ⟨ht, hlt⟩
    · rintro ⟨ht, hlt⟩
      exact ⟨_, ht, rfl, hlt⟩
  have hmem : ∀ a ∈ bs, ∃ n : Nat, phi.operands[n]? = some (.instr v) ∧
      phi.targets[n]? = some (a : Int) ∧ a < f.graph.size := by
    intro a ha
    obtain ⟨⟨w, n⟩, hx, he⟩ := Checked.mem_of_mapM h ha
    obtain ⟨hx, hw⟩ := List.mem_filter.mp hx
    obtain rfl : w = .instr v := of_decide_eq_true hw
    exact ⟨n, List.mem_zipIdx_iff_getElem?.mp hx, (hstep a n).mp he⟩
  refine ⟨fun a ha => ?_, fun a => ⟨fun ha => ?_, ?_⟩⟩
  · obtain ⟨n, -, -, hlt⟩ := hmem a ha
    exact hlt
  · obtain ⟨n, hv, ht, -⟩ := hmem a ha
    exact ⟨n, hv, ht⟩
  · rintro ⟨n, hv, ht⟩
    have hx : (Value.instr v, n) ∈ phi.operands.zipIdx := List.mem_zipIdx_iff_getElem?.mpr hv
    obtain ⟨c, hc, he⟩ := Checked.ok_of_mapM h (List.mem_filter.mpr ⟨hx, decide_eq_true rfl⟩)
    have hac := ((hstep c n).mp he).1
    rw [ht, Option.some.injEq, Int.natCast_inj] at hac
    rwa [hac]

structure Wanted (f : Func) (v : Int) (home : Int) (us : List Int) (starts ends : List Nat) : Prop where
  atStart : ∀ a, a ∈ starts ↔ ∃ u ∈ us, ∃ i, f.instr? u = some i ∧ i.op ≠ .phi ∧
    i.home = some (a : Int) ∧ (a : Int) ≠ home
  atEnd : ∀ a, a ∈ ends ↔ ∃ u ∈ us, ∃ i, f.instr? u = some i ∧ i.op = .phi ∧
    ∃ n : Nat, i.operands[n]? = some (.instr v) ∧ i.targets[n]? = some (a : Int)
  lt : ∀ a ∈ ends ++ starts, a < f.graph.size

namespace Wanted

variable {home u : Int} {us : List Int} {starts ends : List Nat} {i : Instr}

theorem nil : Wanted f v home [] [] [] := by
  constructor <;> simp

theorem phi (h : Wanted f v home us starts ends) (hi : f.instr? u = some i) (hop : i.op = .phi)
    {bs : List Nat} (hbs : phiBlocks f v i = .ok bs) :
    Wanted f v home (u :: us) starts (bs ++ ends) where
  atStart a := by simp [h.atStart, hi, hop]
  atEnd a := by simp [h.atEnd, (mem_phiBlocks hbs).2, hi, hop]
  lt a ha := by
    rw [List.append_assoc, List.mem_append] at ha
    exact ha.elim ((mem_phiBlocks hbs).1 a) (h.lt a)

theorem here (h : Wanted f v home us starts ends) (hi : f.instr? u = some i) (hop : i.op ≠ .phi)
    {bs : List Nat} (hbs : (i.home.filter (· ≠ home)).toList.mapM f.graph.node = .ok bs) :
    Wanted f v home (u :: us) (bs ++ starts) ends := by
  obtain ⟨hmem, hlt⟩ := mem_of_nodes hbs
  constructor
  · intro a
    simp [hmem, h.atStart, hi, hop]
  · intro a
    simp [h.atEnd, hi, hop]
  · intro a ha
    simp only [List.mem_append] at ha
    rcases ha with ha | ha | ha
    · exact h.lt a (List.mem_append_left _ ha)
    · exact hlt a ha
    · exact h.lt a (List.mem_append_right _ ha)

end Wanted

theorem wanted_spec {home : Int} {us : List Int} {starts ends : List Nat}
    (h : wanted f v home us = .ok (starts, ends)) : Wanted f v home us starts ends := by
  induction us generalizing starts ends with
  | nil =>
    cases h
    exact .nil
  | cons u us ih =>
    simp only [wanted, Checked.bind_eq_ok, Func.instr_eq_ok] at h
    obtain ⟨i, hi, h⟩ := h
    split at h
    · next hop =>
      simp only [Checked.bind_eq_ok, Checked.pure_eq_ok] at h
      obtain ⟨bs, hbs, ⟨starts', ends'⟩, hrest, h⟩ := h
      cases h
      exact (ih hrest).phi hi hop hbs
    · next hop =>
      simp only [Checked.bind_eq_ok, Checked.pure_eq_ok] at h
      obtain ⟨bs, hbs, ⟨starts', ends'⟩, hrest, h⟩ := h
      cases h
      exact (ih hrest).here hi hop hbs

structure Exact (f : Func) (v : Int) (home : Nat) (span : LiveSpan) : Prop where
  starts : ∀ b, b ∈ span.starts ↔
    ∃ a l, Walk f.graph.succ b a l ∧ home ∉ l ∧ (f.UsedIn v a ∨ f.TakenFrom v a)
  ends : ∀ b, b ∈ span.ends ↔ f.TakenFrom v b ∨ ∃ s ∈ f.graph.succ b, s ∈ span.starts

theorem exact_of_compute (hwf : f.WellFormed scope) {span : LiveSpan}
    (h : compute f v home (f.users v) = .ok span) : Exact f v home span := by
  simp only [compute, Checked.bind_eq_ok, Checked.pure_eq_ok] at h
  obtain ⟨⟨starts, ends⟩, hwanted, rfl⟩ := h
  have hw := wanted_spec hwanted
  have hg := hwf.mirrored
  have hstart : ∀ a, a ∈ starts ↔ f.UsedIn v a ∧ a ≠ home := by
    intro a
    rw [hw.atStart]
    constructor
    · rintro ⟨u, hu, i, hi, hop, hhome, hne⟩
      obtain ⟨j, hj, -, hv⟩ := Func.mem_users.mp hu
      cases hi.symm.trans hj
      exact ⟨⟨u, i, hi, hhome, hop, hv⟩, mt (congrArg Int.ofNat) hne⟩
    · rintro ⟨⟨u, i, hi, hhome, hop, hv⟩, hne⟩
      have hlive : i.isErased = false := by simp [Instr.isErased, hhome]
      exact ⟨u, Func.mem_users.mpr ⟨i, hi, hlive, hv⟩, i, hi, hop, hhome, mt Int.ofNat.inj hne⟩
  have hend : ∀ a, a ∈ ends ↔ f.TakenFrom v a := by
    intro a
    rw [hw.atEnd]
    constructor
    · rintro ⟨u, hu, i, hi, hop, hphi⟩
      obtain ⟨j, hj, hlive, -⟩ := Func.mem_users.mp hu
      cases hi.symm.trans hj
      exact ⟨u, i, hi, hlive, hop, hphi⟩
    · rintro ⟨u, i, hi, hlive, hop, n, hv, ht⟩
      have hu := Func.mem_users.mpr ⟨i, hi, hlive, List.mem_of_getElem? hv⟩
      exact ⟨u, hu, i, hi, hop, n, hv, ht⟩
  have houtside : (fun x : Nat => decide ((x : Int) ≠ home)) = fun x => decide (x ≠ home) := by
    funext x
    simp
  constructor
  · intro b
    simp only [houtside, hg.mem_reach_back hw.lt, List.mem_append, hend, hstart]
    constructor
    · rintro ⟨a, ha, l, w, hl⟩
      exact ⟨a, l, w, hl, ha.elim .inr fun ha => .inl ha.1⟩
    · rintro ⟨a, l, w, hl, ha⟩
      -- The way ends outside the definition's block, so a use there is no use in that block.
      have hne : a ≠ home := fun he => hl (he ▸ w.end_mem)
      exact ⟨a, ha.symm.imp_right fun ha => ⟨ha, hne⟩, l, w, hl⟩
  · intro b
    rw [List.mem_append, hend, List.mem_flatMap]
    refine or_congr_right (exists_congr fun s => ?_)
    rw [hg.mem_pred]
    exact and_comm

/-- The spans hold the one of each value that stands in a block. -/
theorem span_of_liveSpans (hwf : f.WellFormed scope) {spans : List LiveSpan} {i : Instr}
    (h : f.liveSpans = .ok spans) (hv : f.Stands home v) (hi : f.instr? v = some i)
    (hresult : i.hasResult = true) :
    ∃ span, compute f v home (f.users v) = .ok span ∧ ∀ s, s ∈ spans ∧ s.value = v ↔ s = span := by
  simp only [Func.liveSpans, Checked.bind_eq_ok, Checked.pure_eq_ok] at h
  obtain ⟨users, husers, placed, hplaced, spans', hspans, rfl⟩ := h
  have hhome : i.home.getD (-1) = home := by rw [hwf.home_eq hv hi, Option.getD_some]
  have hstep : ∀ s, (do compute f v (i.home.getD (-1)) (← cell users v)) = .ok s ↔
      compute f v home (f.users v) = .ok s := by
    intro s
    rw [Func.cell_of_userMap husers hi, Checked.ok_bind, hhome]
  have hmem : (v, i) ∈ placed := Func.mem_placed_of_stands hplaced hv hi
  obtain ⟨span, hspan, he⟩ := Checked.ok_of_mapM hspans (List.mem_filter.mpr ⟨hmem, hresult⟩)
  have hcompute := (hstep span).mp he
  refine ⟨span, hcompute, fun s => ⟨?_, ?_⟩⟩
  · rintro ⟨hs, hvalue⟩
    obtain ⟨⟨id, j⟩, hid, hs⟩ := Checked.mem_of_mapM hspans (List.mem_mergeSort.mp hs)
    have hj := (Func.mem_placed hplaced (List.mem_of_mem_filter hid)).1
    obtain rfl : id = v := by
      obtain ⟨us, -, hs⟩ := Checked.bind_eq_ok.mp hs
      exact (value_of_compute hs).1.symm.trans hvalue
    cases hi.symm.trans hj
    exact Except.ok.inj (((hstep s).mp hs).symm.trans hcompute)
  · rintro rfl
    exact ⟨List.mem_mergeSort.mpr hspan, (value_of_compute hcompute).1⟩

theorem liveIn_iff {spans : List LiveSpan} :
    liveIn spans b v = true ↔ ∃ s, (s ∈ spans ∧ s.value = v) ∧ b ∈ s.starts := by
  simp [liveIn, startsIn, and_assoc]

theorem liveOut_iff {spans : List LiveSpan} :
    liveOut spans b v = true ↔ ∃ s, (s ∈ spans ∧ s.value = v) ∧ b ∈ s.ends := by
  simp [liveOut, endsIn, and_assoc]

end LiveSpan

/-- Liveness is exact for every verified function and each of its values. It is found whenever every
instruction stands in a block. -/
theorem liveness_exact {scope : Option Symbols} (hv : f.verify scope = .ok []) :
    ((∀ id i, f.instr? id = some i → i.isErased = false → ∃ b, f.Stands b id) →
      Checked.Answers f.liveSpans) ∧
    ∀ spans, f.liveSpans = .ok spans → ∀ (v : Int) (i : Instr) (home : Nat), f.Stands home v →
      f.instr? v = some i → i.hasResult = true → ∀ b : Nat,
        (LiveSpan.liveIn spans b v = true ↔ b ≠ home ∧
          ∃ a l, Walk f.graph.succ b a l ∧ home ∉ l ∧ (f.UsedIn v a ∨ f.TakenFrom v a)) ∧
        (LiveSpan.liveOut spans b v = true ↔ f.TakenFrom v b ∨
          ∃ s ∈ f.graph.succ b, LiveSpan.liveIn spans s v = true) := by
  have hwf := Func.verify_eq_nil.mp hv
  refine ⟨hwf.answers_liveSpans, fun spans hspans v i home hstands hi hresult b => ?_⟩
  obtain ⟨span, hcompute, hspan⟩ := LiveSpan.span_of_liveSpans hwf hspans hstands hi hresult
  have hexact := LiveSpan.exact_of_compute hwf hcompute
  have hin : ∀ b, LiveSpan.liveIn spans b v = true ↔ b ∈ span.starts := by
    intro b
    simp only [LiveSpan.liveIn_iff, hspan, exists_eq_left]
  have hout : LiveSpan.liveOut spans b v = true ↔ b ∈ span.ends := by
    simp only [LiveSpan.liveOut_iff, hspan, exists_eq_left]
  simp only [hin, hout]
  refine ⟨?_, hexact.ends b⟩
  rw [hexact.starts]
  refine ⟨fun h => ⟨?_, h⟩, fun h => h.2⟩
  obtain ⟨a, l, w, hl, -⟩ := h
  rintro rfl
  exact hl w.start_mem

def tally : Func where
  name := "tally"
  params := [⟨"n", some .i32⟩]
  ret := .i32
  blocks := #[{ name := "a", instrs := [0], succs := [1] },
    { name := "b", instrs := [1, 2, 3, 4], succs := [1, 2], preds := [0, 1] },
    { name := "c", instrs := [5], succs := [3], preds := [1] },
    { name := "d", instrs := [6], preds := [2] }]
  instrs := #[{ home := some 0, op := .br, targets := [1] },
    { home := some 1, op := .phi, ty := .i32, operands := [.arg 0, .instr 2], targets := [0, 1] },
    { home := some 1, op := .add, ty := .i32, operands := [.instr 1, .arg 0] },
    { home := some 1, op := .icmp, ty := .i1, operands := [.instr 2, .arg 0], pred := "slt" },
    { home := some 1, op := .condbr, operands := [.instr 3], targets := [1, 2] },
    { home := some 2, op := .br, targets := [3] },
    { home := some 3, op := .ret, operands := [.instr 2] }]
  entry := some 0

/-- The sum is live through the block before the return, and at the end of the loop, but not at its
start. -/
theorem tally_exact :
    tally.verify none = .ok [] ∧ ∃ spans, tally.liveSpans = .ok spans ∧
      LiveSpan.liveIn spans 2 2 = true ∧ LiveSpan.liveOut spans 2 2 = true ∧
      LiveSpan.liveOut spans 1 2 = true ∧ LiveSpan.liveIn spans 1 2 = false := by
  have hv : tally.verify none = .ok [] := by decide +kernel
  have hplaces : ∀ n : Nat, n < 7 → ∃ b : Nat, b < 4 ∧ (n : Int) ∈ tally.bodyOf b := by decide +kernel
  have hstands : ∀ id i, tally.instr? id = some i → i.isErased = false → ∃ b, tally.Stands b id := by
    intro id i hi _
    obtain ⟨hpos, hlt⟩ := Func.lt_of_instr? hi
    obtain ⟨n, rfl⟩ := Int.eq_ofNat_of_zero_le hpos
    obtain ⟨b, -, hb⟩ := hplaces n (Int.ofNat_lt.mp hlt)
    exact ⟨b, Func.stands_iff.mpr hb⟩
  obtain ⟨hanswers, hexact⟩ := liveness_exact hv
  obtain ⟨spans, hspans⟩ := hanswers hstands
  have hsum := hexact spans hspans 2 _ 1 (Func.stands_iff.mpr (by decide)) rfl rfl
  have hused : tally.UsedIn 2 3 := ⟨6, _, rfl, rfl, by decide, by decide⟩
  have htaken : tally.TakenFrom 2 1 := ⟨1, _, rfl, rfl, rfl, 1, rfl, rfl⟩
  have hsucc : 3 ∈ tally.graph.succ 2 := by decide +kernel
  have hend : LiveSpan.liveIn spans 3 2 = true :=
    (hsum 3).1.mpr ⟨by decide, 3, [3], .here, by decide, .inl hused⟩
  have hthrough : LiveSpan.liveIn spans 2 2 = true :=
    (hsum 2).1.mpr ⟨by decide, 3, [3, 2], .step .here hsucc, by decide, .inl hused⟩
  refine ⟨hv, spans, hspans, hthrough, (hsum 2).2.mpr (.inr ⟨3, hsucc, hend⟩),
    (hsum 1).2.mpr (.inl htaken), Bool.eq_false_iff.mpr fun hhome => ?_⟩
  exact ((hsum 1).1.mp hhome).1 rfl

end RegPressure
