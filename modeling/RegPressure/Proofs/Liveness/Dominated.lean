import RegPressure.Proofs.Liveness.Paths

namespace RegPressure

variable {f : Func} {scope : Option Symbols} {d : DomInfo} {spans : List LiveSpan} {v : Int}

namespace Func

/-- Between two blocks the order of two instructions is that of the blocks. -/
theorem Precedes.strictlyDominates {u v : Int} {i j : Instr} {x y : Nat} (h : f.Precedes d v u)
    (hi : f.instr? v = some i) (hx : i.home = some (x : Int)) (hj : f.instr? u = some j)
    (hy : j.home = some (y : Int)) (hne : x ≠ y) : d.dom.strictlyDominates x y = true := by
  have hne' : (x : Int) ≠ y := mt Int.ofNat.inj hne
  simpa [Precedes, DomInfo.instrDominates, instr_eq_ok.mpr hi, instr_eq_ok.mpr hj, hx, hy, hne']
    using h

end Func

namespace LiveSpan

theorem stands_of_liveSpans {s : LiveSpan} (h : f.liveSpans = .ok spans) (hs : s ∈ spans) :
    ∃ b i, f.Stands b s.value ∧ f.instr? s.value = some i ∧ i.hasResult = true := by
  simp only [Func.liveSpans, Checked.bind_eq_ok, Checked.pure_eq_ok] at h
  obtain ⟨users, -, placed, hplaced, spans', hspans, rfl⟩ := h
  obtain ⟨⟨id, i⟩, hid, hs⟩ := Checked.mem_of_mapM hspans (List.mem_mergeSort.mp hs)
  obtain ⟨hid, hresult⟩ := List.mem_filter.mp hid
  obtain ⟨hi, b, hb⟩ := Func.mem_placed hplaced hid
  obtain ⟨us, -, hs⟩ := Checked.bind_eq_ok.mp hs
  rw [(value_of_compute hs).1]
  exact ⟨b, i, hb, hi, hresult⟩

theorem strictlyDominates_use (hf : f.HasDominance scope d)
    (huses : f.DominatesUses d fun b => d.dom.isReachable b = true) {home a : Nat} (hv : f.Stands home v) (hne : home ≠ a) (ha : d.dom.isReachable a = true)
    (huse : f.UsedIn v a ∨ f.TakenFrom v a) : d.dom.strictlyDominates home a = true := by
  obtain ⟨i, hi, hhome, -⟩ := hf.wf.home_of_stands hv
  rcases huse with ⟨u, j, hj, hhome', hop, hmem⟩ | ⟨u, j, hj, hlive, hop, n, hmem, htarget⟩
  · exact (huses.uses u j a v hj hhome' ha hop hmem).strictlyDominates hi hhome hj hhome' hne
  · obtain ⟨l, w⟩ := hf.isReachable_iff.mp ha
    have hlt := w.lt hf.wf.mirrored.succ_lt hf.wf.entry_eq.2 a w.end_mem
    obtain ⟨blk, hblk⟩ := Func.exists_block_of_lt (Func.graph_size ▸ hlt)
    obtain ⟨t, ht⟩ := hf.wf.exists_terminator hblk
    have hstands := Func.stands_of_terminator ht
    obtain ⟨k, hk, hhome', -⟩ := hf.wf.home_of_stands hstands
    exact (huses.incoming u j n v a t hj hlive hop hmem htarget ha ht).strictlyDominates hi hhome
      hk hhome' hne

end LiveSpan

/-- Where definitions dominate their uses, the definition of a value strictly dominates every
reached block at whose start the value is live, and nothing is live at the start of the entry. -/
theorem liveIn_strictlyDominated (hv : f.verify scope = .ok []) (hd : DomInfo.compute f = .ok d)
    (huses : f.DominatesUses d fun b => d.dom.isReachable b = true) (hspans : f.liveSpans = .ok spans) :
    (∀ (b : Nat) v, Reaches f.graph.succ f.entryNode b → LiveSpan.liveIn spans b v = true →
      ∃ (home : Nat) (i : Instr), f.instr? v = some i ∧ i.home = some (home : Int) ∧
        d.dom.strictlyDominates home b = true) ∧
    ∀ v, LiveSpan.liveIn spans f.entryNode v = false := by
  have hf : f.HasDominance scope d := ⟨Func.verify_eq_nil.mp hv, hd⟩
  have hdominated : ∀ (b : Nat) v, Reaches f.graph.succ f.entryNode b →
      LiveSpan.liveIn spans b v = true → ∃ (home : Nat) (i : Instr), f.instr? v = some i ∧
        i.home = some (home : Int) ∧ home ≠ b ∧
        Dominates f.graph.succ f.entryNode home b := by
    intro b v hb hlive
    obtain ⟨s, ⟨hs, rfl⟩, hstart⟩ := LiveSpan.liveIn_iff.mp hlive
    obtain ⟨n, i, hstands, hi, hresult⟩ := LiveSpan.stands_of_liveSpans hspans hs
    obtain ⟨home, rfl, -⟩ := hstands.nat
    obtain ⟨span, hspan, hunique⟩ := LiveSpan.span_of_liveSpans hf.wf hspans hstands hi hresult
    obtain rfl := (hunique s).mp ⟨hs, rfl⟩
    obtain ⟨a, l, w, hl, huse⟩ := ((LiveSpan.exact_of_compute hf.wf hspan).starts b).mp hstart
    have ha : d.dom.isReachable a = true := hf.isReachable_iff.mpr (hb.trans ⟨l, w⟩)
    have hne : home ≠ a := (ne_of_mem_of_not_mem w.end_mem hl).symm
    have hdom := LiveSpan.strictlyDominates_use hf huses hstands hne ha huse
    rw [DomTree.strictlyDominates_iff, hf.dominates_iff] at hdom
    exact ⟨home, i, hi, hf.wf.home_eq hstands hi, (ne_of_mem_of_not_mem w.start_mem hl).symm,
      hdom.2.of_walk hb w hl⟩
  constructor
  · intro b v hb hlive
    obtain ⟨home, i, hi, hhome, hne, hdom⟩ := hdominated b v hb hlive
    refine ⟨home, i, hi, hhome, ?_⟩
    exact DomTree.strictlyDominates_iff.mpr ⟨hne, hf.dominates_iff.mpr hdom⟩
  · intro v
    rw [Bool.eq_false_iff]
    intro hlive
    obtain ⟨home, i, -, -, hne, hdom⟩ := hdominated f.entryNode v (.refl _ _) hlive
    exact hne hdom.eq_root

theorem tally_liveIn_strictlyDominated : ∃ d spans, tally.verify none = .ok [] ∧
    DomInfo.compute tally = .ok d ∧
      tally.DominatesUses d (fun b => d.dom.isReachable b = true) ∧ tally.liveSpans = .ok spans ∧
      LiveSpan.liveIn spans 2 2 = true ∧ d.dom.strictlyDominates 1 2 = true ∧
      ∀ v, LiveSpan.liveIn spans 0 v = false := by
  have hv : tally.verify none = .ok [] := by decide +kernel
  have hwf := Func.verify_eq_nil.mp hv
  have hstands : ∀ id i, tally.instr? id = some i → i.isErased = false → ∃ b, tally.Stands b id :=
    fun id i hi _ => Func.stands_of_bodies (by decide +kernel) id i hi
  have hd : DomInfo.compute tally =
      .ok ⟨tally.graph.dominators 0, tally.graph.postDominators⟩ := by decide +kernel
  have hssa : tally.InSsaForm ⟨tally.graph.dominators 0, tally.graph.postDominators⟩
      fun b => (tally.graph.dominators 0).isReachable b = true :=
    Func.inSsaForm_of_holds (by decide +kernel) (by decide +kernel)
  have huses := hssa.dominatesUses hwf hstands
  obtain ⟨spans, hspans⟩ := hwf.answers_liveSpans hstands
  obtain ⟨hdominated, hentry⟩ := liveIn_strictlyDominated hv hd huses hspans
  have hsum : tally.Stands (1 : Nat) 2 := Func.stands_iff.mpr (by decide)
  obtain ⟨span, hspan, hunique⟩ := LiveSpan.span_of_liveSpans hwf hspans hsum rfl rfl
  have hexact := LiveSpan.exact_of_compute hwf hspan
  have hsteps : 2 ∈ tally.graph.succ 1 ∧ 3 ∈ tally.graph.succ 2 ∧ 1 ∈ tally.graph.succ 0 := by
    decide +kernel
  have hused : tally.UsedIn 2 3 := ⟨6, _, rfl, rfl, by decide, by decide⟩
  have hstart : 2 ∈ span.starts :=
    (hexact.starts 2).mpr ⟨3, [3, 2], .step .here hsteps.2.1, by decide, .inl hused⟩
  have hlive := LiveSpan.liveIn_iff.mpr ⟨span, (hunique span).mpr rfl, hstart⟩
  obtain ⟨home, i, hi, hhome, hdom⟩ :=
    hdominated 2 2 (((Reaches.refl _ 0).step hsteps.2.2).step hsteps.1) hlive
  cases hi.symm.trans (rfl : tally.instr? 2 = some _)
  cases hhome.symm.trans (rfl : _ = some ((1 : Nat) : Int))
  exact ⟨_, spans, hv, hd, huses, hspans, hlive, hdom, hentry⟩

end RegPressure
