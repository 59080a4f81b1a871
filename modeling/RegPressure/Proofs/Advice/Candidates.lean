import RegPressure.Proofs.Advice.Scan
import RegPressure.Proofs.Advice.Verdict
import RegPressure.Proofs.IR.Precedence
import Mathlib.Order.Bounds.Basic

namespace RegPressure

variable {f : Func} {d : DomOracle} {o : AliasOracle} {dst src : Nat} {region : List Nat}
  {i : Instr} {r : Reason}

theorem verdictsOn_spec {ids : List Int} {vs : List (Int × Reason)}
    (h : verdictsOn f o region ids = .ok vs) :
    vs.map (·.1) = ids ∧
      ∀ x ∈ vs, ∃ i, f.instr? x.1 = some i ∧ verdict o region i = .ok x.2 := by
  constructor
  · refine Checked.map_of_mapM h fun id x _ he => ?_
    simp only [Checked.bind_eq_ok, Checked.pure_eq_ok] at he
    obtain ⟨_, _, _, _, rfl⟩ := he
    rfl
  · intro x hx
    obtain ⟨id, _, he⟩ := Checked.mem_of_mapM h hx
    simp only [Checked.bind_eq_ok, Func.instr_eq_ok, Checked.pure_eq_ok] at he
    obtain ⟨i, hi, r, hr, rfl⟩ := he
    exact ⟨i, hi, hr⟩

theorem answers_verdictsOn_iff {ids : List Int} :
    Checked.Answers (verdictsOn f o region ids) ↔
      ∀ id ∈ ids, ∃ i, f.instr? id = some i ∧ Checked.Answers (verdict o region i) := by
  simp only [verdictsOn, Checked.answers_mapM_iff, Checked.answers_bind_iff, Func.instr_eq_ok]
  simp only [Checked.Answers, Checked.pure_eq_ok, exists_eq', and_true]

/-- A set of instructions that leaves out none that may move and has its operands at hand once the set
has moved. -/
def Saturated (f : Func) (d : DomOracle) (o : AliasOracle) (region : List Nat) (dst : Nat)
    (blk : Block) (S : Set Int) : Prop :=
  ∀ id ∈ blk.instrs, ∀ i r, f.instr? id = some i → verdict o region i = .ok r →
    r.isMovable = true → (∀ v, Value.instr v ∈ i.operands → AtHand f d dst (· ∈ S) v) → id ∈ S

structure Collected (f : Func) (d : DomOracle) (o : AliasOracle) (region : List Nat) (dst : Nat)
    (blk : Block) (cs : List Candidate) : Prop where
  inOrder : cs.map (·.instr) = blk.instrs.filter (cs.map (·.instr)).contains
  each : ∀ c ∈ cs, ∃ i, f.instr? c.instr = some i ∧ verdict o region i = .ok c.reason ∧
    c.reason.isMovable = true ∧
      ∀ v, Value.instr v ∈ i.operands → AtHand f d dst (· ∈ cs.map (·.instr)) v
  least : IsLeast {S | Saturated f d o region dst blk S} {id | id ∈ cs.map (·.instr)}

theorem Collected.sublist {blk : Block} {cs : List Candidate}
    (h : Collected f d o region dst blk cs) : (cs.map (·.instr)).Sublist blk.instrs := by
  rw [h.inOrder]
  exact List.filter_sublist

namespace Collect

variable {vs : List (Int × Reason)} {found : List Candidate} {ids : List Int}

theorem map_inOrder : (inOrder found ids).map (·.instr) = ids.filter (found.map (·.instr)).contains := by
  induction ids with
  | nil => rfl
  | cons id ids ih =>
    simp only [inOrder, List.filterMap_cons] at ih ⊢
    cases hc : found.find? (·.instr = id) with
    | none =>
      have hnot : id ∉ found.map (·.instr) := by
        simpa [eq_comm] using List.find?_eq_none.mp hc
      simp [ih, hnot]
    | some c =>
      have he : c.instr = id := by simpa using List.find?_some hc
      have hmem : id ∈ found.map (·.instr) :=
        List.mem_map.mpr ⟨c, List.mem_of_find?_eq_some hc, he⟩
      simp [ih, hmem, he]

theorem mem_inOrder (hnodup : (found.map (·.instr)).Nodup) (hsub : found.map (·.instr) ⊆ ids)
    {c : Candidate} : c ∈ inOrder found ids ↔ c ∈ found := by
  simp only [inOrder, List.mem_filterMap]
  constructor
  · rintro ⟨id, -, hf⟩
    exact List.mem_of_find?_eq_some hf
  · intro hc
    refine ⟨c.instr, hsub (List.mem_map_of_mem hc), ?_⟩
    obtain ⟨c', hc'⟩ : ∃ c', found.find? (·.instr = c.instr) = some c' := by
      rw [← Option.isSome_iff_exists, List.find?_isSome]
      exact ⟨c, hc, by simp⟩
    have he : c'.instr = c.instr := by simpa using List.find?_some hc'
    rw [hc', List.inj_on_of_nodup_map hnodup (List.mem_of_find?_eq_some hc') hc he]

theorem Settles.isLeast {blk : Block} (hvs : verdictsOn f o region ids = .ok vs)
    (hids : ∀ id, id ∈ ids ↔ id ∈ blk.instrs) (h : Settles f d dst vs 1 [] found) :
    IsLeast {S | Saturated f d o region dst blk S} {id | Holds found id} := by
  obtain ⟨hmap, hverdict⟩ := verdictsOn_spec hvs
  constructor
  · -- An instruction that the set left out would be admitted by a further scan.
    intro id hid i r hi hr hmove hops
    obtain ⟨x, hx, rfl⟩ : ∃ x ∈ vs, x.1 = id := by
      rw [← hids, ← hmap] at hid
      exact List.mem_map.mp hid
    obtain ⟨j, hj, hr'⟩ := hverdict x hx
    cases hi.symm.trans hj
    cases hr.symm.trans hr'
    by_contra hfresh
    exact h.not_ready x hx ⟨hmove, hfresh, i, hi, hops⟩
  · intro S hS
    -- Each instruction that is admitted belongs to every saturated set.
    refine h.keeps (P := fun admitted => ∀ id, Holds admitted id → id ∈ S) ?_ (by simp [Holds])
    intro admitted round x hx hsub hready id hid
    rcases holds_concat.mp hid with hid | rfl
    · exact hsub id hid
    · obtain ⟨i, hi, hr⟩ := hverdict x hx
      obtain ⟨j, hj, hops⟩ := hready.operands
      cases hi.symm.trans hj
      have hblk : x.1 ∈ blk.instrs := by
        rw [← hids, ← hmap]
        exact List.mem_map_of_mem hx
      exact hS x.1 hblk i x.2 hi hr hready.movable fun v hv => (hops v hv).mono (hsub v)

theorem Settles.atHand (h : Settles f d dst vs 1 [] found) : ∀ c ∈ found,
    ∃ i, f.instr? c.instr = some i ∧
      ∀ v, Value.instr v ∈ i.operands → AtHand f d dst (Holds found) v := by
  refine h.keeps (P := fun admitted => ∀ c ∈ admitted, ∃ i, f.instr? c.instr = some i ∧
    ∀ v, Value.instr v ∈ i.operands → AtHand f d dst (Holds admitted) v) ?_ (by simp)
  intro admitted round x _ hall hready
  have hmono : ∀ v, Holds admitted v → Holds (admitted ++ [⟨x.1, x.2, round⟩]) v :=
    fun v hv => holds_concat.mpr (.inl hv)
  refine List.forall_mem_append.mpr ⟨fun c hc => ?_, List.forall_mem_singleton.mpr ?_⟩
  · obtain ⟨i, hi, hops⟩ := hall c hc
    exact ⟨i, hi, fun v hv => (hops v hv).mono (hmono v)⟩
  · obtain ⟨i, hi, hops⟩ := hready.operands
    exact ⟨i, hi, fun v hv => (hops v hv).mono (hmono v)⟩

theorem Settles.admitted (h : Settles f d dst vs 1 [] found) : Admitted vs found :=
  h.keeps (fun _ round _ hx hadm hr => hadm.push round hx hr) (.nil vs)

theorem Settles.collected {blk : Block} (hvs : verdictsOn f o region ids = .ok vs)
    (hids : ∀ id, id ∈ ids ↔ id ∈ blk.instrs) (h : Settles f d dst vs 1 [] found) :
    (∀ c, c ∈ inOrder found blk.instrs ↔ c ∈ found) ∧
      Collected f d o region dst blk (inOrder found blk.instrs) := by
  obtain ⟨hmap, hverdict⟩ := verdictsOn_spec hvs
  have hadm := h.admitted
  have hsub : found.map (·.instr) ⊆ blk.instrs := by
    intro id hid
    obtain ⟨c, hc, rfl⟩ := List.mem_map.mp hid
    rw [← hids, ← hmap]
    exact List.mem_map_of_mem (hadm.mem c hc)
  have hmem : ∀ c, c ∈ inOrder found blk.instrs ↔ c ∈ found := fun c => mem_inOrder hadm.nodup hsub
  have hholds : ∀ id, id ∈ (inOrder found blk.instrs).map (·.instr) ↔ Holds found id := by
    intro id
    simp only [List.mem_map, hmem, Holds]
  refine ⟨hmem, ?_, fun c hc => ?_, ?_⟩
  · rw [map_inOrder]
    refine List.filter_congr fun id _ => ?_
    rw [← map_inOrder, Bool.eq_iff_iff, List.contains_iff_mem, List.contains_iff_mem, hholds, holds_iff]
  · have hc := (hmem c).mp hc
    obtain ⟨i, hi, hops⟩ := h.atHand c hc
    obtain ⟨j, hj, hr⟩ := hverdict _ (hadm.mem c hc)
    cases hi.symm.trans hj
    exact ⟨i, hi, hr, hadm.movable c hc, fun v hv => (hops v hv).mono (hholds v).mpr⟩
  · simp only [hholds]
    exact h.isLeast hvs hids

end Collect

theorem collectAlong_eq_ok {order : List Int} {blk : Block} {cs : List Candidate}
    (hblk : f.block? src = some blk) : collectAlong f d o region src dst order = .ok cs ↔
      ∃ vs found, verdictsOn f o region order = .ok vs ∧
        Collect.scans f d dst vs (vs.length + 1) 1 [] = .ok found ∧
        Collect.inOrder found blk.instrs = cs := by
  simp only [collectAlong, Checked.bind_eq_ok, Checked.pure_eq_ok, Func.block_eq_ok, hblk,
    Option.some.injEq, exists_eq_left', exists_and_left]

theorem answers_verdict_of_collectAlong {order : List Int} {cs : List Candidate} {id : Int}
    (h : collectAlong f d o region src dst order = .ok cs) (hid : id ∈ order)
    (hi : f.instr? id = some i) : Checked.Answers (verdict o region i) := by
  obtain ⟨vs, hvs, -⟩ := Checked.bind_eq_ok.mp h
  obtain ⟨j, hj, hr⟩ := answers_verdictsOn_iff.mp ⟨vs, hvs⟩ id hid
  cases hi.symm.trans hj
  exact hr

/-- Collecting from a block gives an answer if there is a verdict on each of its instructions, and only
then. -/
theorem Func.WellFormed.answers_collectAlong_iff {scope : Option Symbols} (h : f.WellFormed scope)
    {order : List Int} {blk : Block} (hblk : f.block? src = some blk)
    (horder : ∀ id, id ∈ order ↔ id ∈ blk.instrs) :
    Checked.Answers (collectAlong f d o region src dst order) ↔
      ∀ id ∈ blk.instrs, ∀ i, f.instr? id = some i → Checked.Answers (verdict o region i) := by
  constructor
  · rintro ⟨cs, hcs⟩ id hid i hi
    exact answers_verdict_of_collectAlong hcs ((horder id).mpr hid) hi
  · intro hverdict
    obtain ⟨vs, hvs⟩ : Checked.Answers (verdictsOn f o region order) := by
      refine answers_verdictsOn_iff.mpr fun id hid => ?_
      have hid := (horder id).mp hid
      obtain ⟨i, hi, -⟩ := h.home_of_stands ⟨blk, hblk, hid⟩
      exact ⟨i, hi, hverdict id hid i hi⟩
    have hscannable : Collect.Scannable f vs := by
      intro x hx
      have hid : x.1 ∈ blk.instrs := by
        rw [← horder, ← (verdictsOn_spec hvs).1]
        exact List.mem_map_of_mem hx
      obtain ⟨i, hi, -, hrefs⟩ := h.home_of_stands ⟨blk, hblk, hid⟩
      exact ⟨i, hi, fun v hv => hrefs.operands _ hv⟩
    obtain ⟨found, hfound⟩ : Checked.Answers (Collect.scans f d dst vs (vs.length + 1) 1 []) :=
      Collect.answers_scans hscannable ..
    exact ⟨_, (collectAlong_eq_ok hblk).mpr ⟨vs, found, hvs, hfound, rfl⟩⟩

theorem collect_eq {blk : Block} (hblk : f.block? src = some blk) :
    collect f d o region src dst = collectAlong f d o region src dst blk.instrs := by
  rw [collect, Func.block_eq_ok.mpr hblk, Checked.ok_bind]

theorem collectAlong_spec {order : List Int} {blk : Block} {cs : List Candidate}
    (hblk : f.block? src = some blk) (horder : ∀ id, id ∈ order ↔ id ∈ blk.instrs)
    (h : collectAlong f d o region src dst order = .ok cs) :
    ∃ vs found, verdictsOn f o region order = .ok vs ∧ Collect.Settles f d dst vs 1 [] found ∧
      (∀ c, c ∈ cs ↔ c ∈ found) ∧ Collected f d o region dst blk cs := by
  obtain ⟨vs, found, hvs, hfound, rfl⟩ := (collectAlong_eq_ok hblk).mp h
  have hsettles : Collect.Settles f d dst vs 1 [] found :=
    Collect.settles_of_scans _ (.nil vs) (by simp) hfound
  obtain ⟨hmem, hcollected⟩ := hsettles.collected hvs horder
  exact ⟨vs, found, hvs, hsettles, hmem, hcollected⟩

theorem collect_spec {cs : List Candidate} (h : collect f d o region src dst = .ok cs) :
    ∃ blk, f.block? src = some blk ∧ Collected f d o region dst blk cs := by
  obtain ⟨blk, hblk, h⟩ := Checked.bind_eq_ok.mp h
  have hblk := Func.block_eq_ok.mp hblk
  obtain ⟨_, _, _, _, _, hc⟩ := collectAlong_spec hblk (fun _ => Iff.rfl) h
  exact ⟨blk, hblk, hc⟩

end RegPressure
