import RegPressure.Proofs.Advice.Candidates
import RegPressure.Proofs.Graph.Chain
import Mathlib.Logic.Relation

namespace RegPressure

variable {f : Func} {d : DomOracle} {o : AliasOracle} {dst src : Nat} {region : List Nat}

namespace Collected

variable {blk : Block} {cs cs' : List Candidate}

theorem moves_eq (h : Collected f d o region dst blk cs) (h' : Collected f d o region dst blk cs') :
    cs.map (fun c => (c.instr, c.reason)) = cs'.map fun c => (c.instr, c.reason) := by
  have hset : {id | id ∈ cs.map (·.instr)} = {id | id ∈ cs'.map (·.instr)} := h.least.unique h'.least
  have hinstrs : cs.map (·.instr) = cs'.map (·.instr) := by
    rw [h.inOrder, h'.inOrder]
    refine List.filter_congr fun id _ => ?_
    rw [Bool.eq_iff_iff, List.contains_iff_mem, List.contains_iff_mem]
    exact Set.ext_iff.mp hset id
  -- The verdict on an instruction is the reason for which it moves in either list.
  refine List.ext_getElem? fun n => ?_
  have hn : (cs[n]?).map (·.instr) = (cs'[n]?).map (·.instr) := by
    rw [← List.getElem?_map, ← List.getElem?_map, hinstrs]
  rw [List.getElem?_map, List.getElem?_map]
  cases hc : cs[n]? with
  | none =>
    rw [hc] at hn
    rw [Option.map_eq_none_iff.mp hn.symm]
  | some c =>
    rw [hc] at hn
    obtain ⟨c', hc', he⟩ := Option.map_eq_some_iff.mp hn.symm
    obtain ⟨i, hi, hr, -⟩ := h.each c (List.mem_of_getElem? hc)
    obtain ⟨j, hj, hr', -⟩ := h'.each c' (List.mem_of_getElem? hc')
    rw [he, hi] at hj
    cases hj
    have hreason : c.reason = c'.reason := Except.ok.inj (hr.symm.trans hr')
    simp [hc', he, hreason]

end Collected

/-- If there is a verdict on each instruction of a block, scanning it in any order ends and gives the
least set of instructions that leaves out none that may move and has its operands at hand, each once and
in program order, and it is the same for all orders. Otherwise no order gives anything. -/
theorem collectAlong_least {scope : Option Symbols} {blk : Block} (hv : f.verify scope = .ok [])
    (hblk : f.block? src = some blk) (d : DomOracle) (o : AliasOracle) (region : List Nat) (dst : Nat) :
    (∀ id ∈ blk.instrs, ∀ i, f.instr? id = some i → Checked.Answers (verdict o region i)) ↔
      ∃ moves, ∀ order : List Int, order.Perm blk.instrs → ∃ vs found cs,
        verdictsOn f o region order = .ok vs ∧ Collect.Settles f d dst vs 1 [] found ∧
        collectAlong f d o region src dst order = .ok cs ∧ cs.Perm found ∧
        IsLeast {S | Saturated f d o region dst blk S} {id | id ∈ cs.map (·.instr)} ∧
        (cs.map (·.instr)).Nodup ∧ (cs.map (·.instr)).Sublist blk.instrs ∧
        cs.map (fun c => (c.instr, c.reason)) = moves := by
  have hwf := Func.verify_eq_nil.mp hv
  have hnodup : blk.instrs.Nodup := (hwf.block src blk hblk).body.nodup
  constructor
  · intro hverdict
    have hanswers : ∀ order : List Int, order.Perm blk.instrs →
        Checked.Answers (collectAlong f d o region src dst order) := fun order hperm =>
      (hwf.answers_collectAlong_iff hblk fun _ => hperm.mem_iff).mpr hverdict
    obtain ⟨first, hfirst⟩ := hanswers blk.instrs (.refl _)
    obtain ⟨-, -, -, -, -, hc₀⟩ := collectAlong_spec hblk (fun _ => Iff.rfl) hfirst
    -- Both lists hold the least saturated set, in the order of the block.
    refine ⟨first.map fun c => (c.instr, c.reason), fun order hperm => ?_⟩
    obtain ⟨cs, hcs⟩ := hanswers order hperm
    obtain ⟨vs, found, hvs, hsettles, hmem, hc⟩ := collectAlong_spec hblk (fun _ => hperm.mem_iff) hcs
    have honce : (cs.map (·.instr)).Nodup := hnodup.sublist hc.sublist
    refine ⟨vs, found, cs, hvs, hsettles, hcs, ?_, hc.least, honce, hc.sublist, hc.moves_eq hc₀⟩
    exact (List.perm_ext_iff_of_nodup honce.of_map hsettles.admitted.nodup.of_map).mpr hmem
  · rintro ⟨moves, h⟩
    obtain ⟨-, -, cs, -, -, hcs, -⟩ := h blk.instrs (.refl _)
    exact (hwf.answers_collectAlong_iff hblk fun _ => Iff.rfl).mp ⟨cs, hcs⟩

def knot : Func where
  name := "knot"
  params := [⟨"n", some .i32⟩, ⟨"p", some .ptr⟩]
  ret := .i32
  blocks := #[{ name := "a", instrs := [0, 1], succs := [1] },
    { name := "b", instrs := [2, 3, 4, 5, 6, 7, 8], preds := [0] }]
  instrs := #[{ home := some 0, op := .add, ty := .i32, operands := [.arg 0, .int (some .i32) 1] },
    { home := some 0, op := .br, targets := [1] },
    { home := some 1, op := .mul, ty := .i32, operands := [.instr 3, .arg 0] },
    { home := some 1, op := .add, ty := .i32, operands := [.instr 0, .arg 0] },
    { home := some 1, op := .add, ty := .i32, operands := [.instr 5, .arg 0] },
    { home := some 1, op := .add, ty := .i32, operands := [.instr 4, .arg 0] },
    { home := some 1, op := .load, ty := .i32, operands := [.arg 1] },
    { home := some 1, op := .sub, ty := .i32, operands := [.instr 2, .instr 6] },
    { home := some 1, op := .ret, operands := [.instr 7] }]
  entry := some 0

/-- In whatever order the block is scanned, what moves is the product and what it multiplies. -/
theorem knot_least :
    knot.verify none = .ok [] ∧ ∀ order : List Int, order.Perm [2, 3, 4, 5, 6, 7, 8] → ∃ cs,
      collectAlong knot .inLine (.always false true) [1] 1 0 order = .ok cs ∧
      cs.map (fun c => (c.instr, c.reason)) = [(2, .pure), (3, .pure)] := by
  have hv : knot.verify none = .ok [] := by decide +kernel
  have hrun : collectAlong knot .inLine (.always false true) [1] 1 0 [2, 3, 4, 5, 6, 7, 8] =
      .ok [⟨2, .pure, 2⟩, ⟨3, .pure, 1⟩] := by decide +kernel
  have hblk : knot.block? ((1 : Nat) : Int) =
      some { name := "b", instrs := [2, 3, 4, 5, 6, 7, 8], preds := [0] } := rfl
  have hverdicts := ((Func.verify_eq_nil.mp hv).answers_collectAlong_iff hblk
    fun _ => Iff.rfl).mp ⟨_, hrun⟩
  obtain ⟨moves, h⟩ := (collectAlong_least hv hblk _ _ _ _).mp hverdicts
  have hmoves : moves = [(2, .pure), (3, .pure)] := by
    obtain ⟨-, -, cs, -, -, hcs, -, -, -, -, hm⟩ := h [2, 3, 4, 5, 6, 7, 8] (.refl _)
    cases hrun.symm.trans hcs
    exact hm.symm
  refine ⟨hv, fun order hperm => ?_⟩
  obtain ⟨-, -, cs, -, -, hcs, -, -, -, -, hm⟩ := h order hperm
  exact ⟨cs, hcs, hm.trans hmoves⟩

end RegPressure

namespace RegPressure

variable {f : Func} {d : DomOracle} {o o' : AliasOracle} {region region' : List Nat} {src dst : Nat}
  {blk : Block} {i : Instr} {r r' : Reason}

/-- `o` knows no more about memory than `o'` when they are asked about these blocks: what it takes
for immutable is so for `o'`, and what may be modified for `o'` may be so for it. -/
structure AliasOracle.Below (o : AliasOracle) (region : List Nat) (o' : AliasOracle)
    (region' : List Nat) : Prop where
  immutable : ∀ addr, o.isImmutable addr = .ok true → o'.isImmutable addr = .ok true
  modified : ∀ loc, o'.modified loc region' = .ok true → o.modified loc region = .ok true

/-- A verdict by which an instruction may move stays one with more knowledge. -/
theorem AliasOracle.Below.isMovable (hb : o.Below region o' region') (h : verdict o region i = .ok r)
    (h' : verdict o' region' i = .ok r') (hr : r.isMovable = true) : r'.isMovable = true := by
  by_cases hop : i.op = .load
  · obtain ⟨hchecked, -⟩ := verdict_movable h hr
    rw [verdict_load hop hchecked] at h h'
    rcases loadVerdict_cases h with ⟨-, rfl⟩ | ⟨hu, addr, haddr, hcases⟩
    · cases hr
    rcases loadVerdict_cases h' with ⟨hu', -⟩ | ⟨-, addr', haddr', hcases'⟩
    · cases hu.symm.trans hu'
    cases haddr.symm.trans haddr'
    rcases hcases' with ⟨-, rfl⟩ | ⟨himm', ⟨-, rfl⟩ | ⟨hinv', modified', hm', rfl⟩⟩
    · rfl
    · rfl
    -- With more knowledge the load is neither immutable nor invariant, so with less neither.
    rcases hcases with ⟨himm, -⟩ | ⟨-, ⟨hinv, -⟩ | ⟨-, modified, hm, rfl⟩⟩
    · cases (hb.immutable addr himm).symm.trans himm'
    · cases hinv.symm.trans hinv'
    cases modified' with
    | false => rfl
    | true =>
      cases (hb.modified _ hm').symm.trans hm
      cases hr
  · rw [verdict_of_ne_load hop o' region'] at h
    cases h.symm.trans h'
    exact hr

def Func.Feeds (f : Func) (b : Int) (x y : Int) : Prop :=
  f.Stands b y ∧ ∃ i, f.instr? x = some i ∧ Value.instr y ∈ i.operands

/-- `x` is a load, or it depends on a load of block `b` through operands that stand there. -/
def Func.RestsOnLoad (f : Func) (b : Int) (x : Int) : Prop :=
  ∃ y, Relation.ReflTransGen (f.Feeds b) x y ∧ f.opOf y = .load

variable {S : Set Int}

/-- A set that leaves nothing out with more knowledge leaves nothing out with less. -/
theorem Saturated.below (hS : Saturated f d o' region' dst blk S) (hb : o.Below region o' region')
    (hverdict : ∀ id ∈ blk.instrs, ∀ i, f.instr? id = some i →
      Checked.Answers (verdict o' region' i)) : Saturated f d o region dst blk S := by
  intro id hid i r hi hr hmove hops
  obtain ⟨r', hr'⟩ := hverdict id hid i hi
  exact hS id hid i r' hi hr' (hb.isMovable hr hr' hmove) hops

theorem Saturated.addResting (hS : Saturated f d o region dst blk S) (hblk : f.block? src = some blk)
    (o' : AliasOracle) (region' : List Nat) :
    Saturated f d o' region' dst blk (S ∪ {x | f.Stands src x ∧ f.RestsOnLoad src x}) := by
  intro x hx i r hi hr hmove hops
  by_cases hload : f.RestsOnLoad src x
  · exact .inr ⟨⟨blk, hblk, hx⟩, hload⟩
  left
  have hop : i.op ≠ .load := fun he => hload ⟨x, .refl, (Func.opOf_eq hi).trans he⟩
  rw [verdict_of_ne_load hop o region] at hr
  refine hS x hx i r hi hr hmove fun v hv => (hops v hv).mono fun hmoved => ?_
  rcases hmoved with hmoved | ⟨hstands, y, hpath, hy⟩
  · exact hmoved
  · exact absurd ⟨y, .head ⟨hstands, i, hi, hv⟩ hpath, hy⟩ hload

/-- Knowing less about memory never adds a candidate, and it changes nothing about instructions that
are no loads and depend on none. -/
theorem collect_subset_of_below {cs cs' : List Candidate} (hb : o.Below region o' region')
    (h : collect f d o region src dst = .ok cs) (h' : collect f d o' region' src dst = .ok cs') :
    cs.map (·.instr) ⊆ cs'.map (·.instr) ∧
      ∀ id, ¬ f.RestsOnLoad src id → (id ∈ cs.map (·.instr) ↔ id ∈ cs'.map (·.instr)) := by
  obtain ⟨blk, hblk, hc⟩ := collect_spec h
  obtain ⟨blk', hblk', hc'⟩ := collect_spec h'
  cases hblk.symm.trans hblk'
  have hverdict : ∀ id ∈ blk.instrs, ∀ i, f.instr? id = some i →
      Checked.Answers (verdict o' region' i) := by
    intro id hid i hi
    rw [collect_eq hblk] at h'
    exact answers_verdict_of_collectAlong h' hid hi
  have hsub : cs.map (·.instr) ⊆ cs'.map (·.instr) :=
    fun _ hid => hc.least.2 (hc'.least.1.below hb hverdict) hid
  refine ⟨hsub, fun id hfree => ⟨fun hid => hsub hid, fun hid => ?_⟩⟩
  have hrest := hc'.least.2 (hc.least.1.addResting hblk o' region') hid
  exact hrest.resolve_right fun hload => hfree hload.2

/-- The product of `knot` moves whether or not its memory is known to be immutable; the load and what rests
on it move only if it is. -/
theorem knot_subset :
    (AliasOracle.always false true).Below [1] (.always true false) [1] ∧
      collect knot .inLine (.always false true) [1] 1 0 = .ok [⟨2, .pure, 2⟩, ⟨3, .pure, 1⟩] ∧
      collect knot .inLine (.always true false) [1] 1 0 =
        .ok [⟨2, .pure, 2⟩, ⟨3, .pure, 1⟩, ⟨6, .immutableLoad, 1⟩, ⟨7, .pure, 2⟩] ∧
      [2, 3] ⊆ [(2 : Int), 3, 6, 7] ∧ ¬ knot.RestsOnLoad 1 2 ∧
      (2 ∈ [(2 : Int), 3] ↔ 2 ∈ [(2 : Int), 3, 6, 7]) := by
  have hb : (AliasOracle.always false true).Below [1] (.always true false) [1] :=
    ⟨fun _ h => (by cases h), fun _ h => (by cases h)⟩
  have h : collect knot .inLine (.always false true) [1] 1 0 = .ok [⟨2, .pure, 2⟩, ⟨3, .pure, 1⟩] := by
    decide +kernel
  have h' : collect knot .inLine (.always true false) [1] 1 0 =
      .ok [⟨2, .pure, 2⟩, ⟨3, .pure, 1⟩, ⟨6, .immutableLoad, 1⟩, ⟨7, .pure, 2⟩] := by decide +kernel
  -- The product needs the sum before it, and that needs nothing of the block.
  have hpath : ∀ y, Relation.ReflTransGen (knot.Feeds 1) 2 y → y = 2 ∨ y = 3 := by
    intro y hpath
    induction hpath with
    | refl => exact .inl rfl
    | @tail y z _ hstep ih =>
      obtain ⟨⟨blk, hblk, hmem⟩, i, hi, hops⟩ := hstep
      cases hblk
      rcases ih with rfl | rfl
      · cases hi
        have hz : Value.instr z ∈ [.instr 3, .arg 0] := hops
        exact .inr (by simpa using hz)
      · cases hi
        have hz : Value.instr z ∈ [.instr 0, .arg 0] := hops
        obtain rfl : z = 0 := by simpa using hz
        exact absurd hmem (by decide)
  have hfree : ¬ knot.RestsOnLoad 1 2 := by
    rintro ⟨y, hy, hop⟩
    rcases hpath y hy with rfl | rfl
    · cases hop
    · cases hop
  have hall := collect_subset_of_below hb h h'
  exact ⟨hb, h, h', hall.1, hfree, hall.2 2 hfree⟩

end RegPressure
