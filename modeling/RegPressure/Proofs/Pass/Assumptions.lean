import RegPressure.Pass.Assumption
import RegPressure.Proofs.IR.Housed
import RegPressure.Proofs.IR.Names
import Mathlib.Data.List.Induction

namespace RegPressure

open Checked

namespace Assumption

/-- What is stated of a call: the bounds of its result, the names of the two comparisons, and the
number of the first of the four instructions. -/
structure Fact where
  call : Int
  instr : Instr
  bounds : Bounds
  first : Int
  least : String
  most : String

namespace Fact

def numbers (s : Fact) : List Int := [s.first, s.first + 1, s.first + 2, s.first + 3]

def names (s : Fact) : List String := [s.least, s.most]

def instrs (s : Fact) : List Instr :=
  [{ op := .icmp, ty := .i1, name := s.least, pred := "sge", home := s.instr.home, pos := s.instr.pos
     operands := [.instr s.call, .int (some s.instr.ty) s.bounds.min] },
   { op := .icmp, ty := .i1, name := s.most, pred := "sle", home := s.instr.home, pos := s.instr.pos
     operands := [.instr s.call, .int (some s.instr.ty) s.bounds.max] },
   { op := .call, ty := .void, callee := ValueRange.assumeCallee, home := s.instr.home
     pos := s.instr.pos, operands := [.instr s.first] },
   { op := .call, ty := .void, callee := ValueRange.assumeCallee, home := s.instr.home
     pos := s.instr.pos, operands := [.instr (s.first + 1)] }]

end Fact

/-- Names that neither a parameter nor an instruction has, all different. -/
def NewNames (f : Func) (names : List String) : Prop :=
  names.Nodup ∧ ∀ x ∈ names, x ≠ "" ∧ (∀ p ∈ f.params, p.name ≠ x) ∧ ∀ id, ¬f.Named id x

theorem newNames_iff {f : Func} {names : List String} :
    NewNames f names ↔ names.Nodup ∧ ∀ x ∈ names, x ≠ "" ∧ x ∉ f.usedNames := by
  simp [NewNames, Func.mem_usedNames]

variable {f g : Func} {id b : Int} {call : Instr} {xs ys : List String}

theorem newNames_uniqueName (f : Func) {base : String} (hbase : base ≠ "") :
    NewNames f [f.uniqueName base] := by
  refine newNames_iff.mpr ⟨List.nodup_singleton _, fun x hx => ?_⟩
  rw [List.mem_singleton.mp hx]
  exact ⟨f.uniqueName_ne_empty base hbase, (f.uniqueName_spec base).1⟩

/-- Names that are new once others have been given. -/
theorem NewNames.append (hf : NewNames f xs) (hg : NewNames g ys)
    (hused : g.usedNames = f.usedNames ++ xs) : NewNames f (xs ++ ys) := by
  rw [newNames_iff] at hf hg ⊢
  have hnew : ∀ y ∈ ys, y ∉ f.usedNames ∧ y ∉ xs := fun y hy => by
    simpa [hused] using (hg.2 y hy).2
  refine ⟨List.nodup_append.mpr ⟨hf.1, hg.1, fun x hx y hy he => ?_⟩, fun y hy => ?_⟩
  · exact (hnew y hy).2 (he ▸ hx)
  · rcases List.mem_append.mp hy with hy | hy
    · exact hf.2 y hy
    · exact ⟨(hg.2 y hy).1, (hnew y hy).1⟩

/-- Stating the bounds of a call, all at once. -/
theorem state_eq (hf : f.Housed) (hid : id ∈ f.bodyOf b) (hcall : f.instr? id = some call)
    (bounds : Bounds) : ∃ s : Fact, (s.call, s.instr, s.bounds) = (id, call, bounds) ∧
      s.first = f.instrs.size ∧ NewNames f s.names ∧
      state f id call bounds = .ok (f.behind id s.numbers s.instrs) ∧
        (f.behind id s.numbers s.instrs).Housed := by
  obtain ⟨j, hj, hhome⟩ := hf.home b id hid
  obtain rfl := Option.some.inj (hcall.symm.trans hj)
  let n : Int := f.instrs.size
  let c₁ := comparison f id call "sge" bounds.min
  let f₁ := f.behind id [n] [c₁.placedIn b]
  let c₂ := comparison f₁ id call "sle" bounds.max
  let s₁ := statement call n
  let s₂ := statement call (n + 1)
  let f₂ := f.behind id [n, n + 1] [c₁.placedIn b, c₂.placedIn b]
  let f₃ := f.behind id [n, n + 1, n + 2] [c₁.placedIn b, c₂.placedIn b, s₁.placedIn b]
  let f₄ := f.behind id [n, n + 1, n + 2, n + 3]
    [c₁.placedIn b, c₂.placedIn b, s₁.placedIn b, s₂.placedIn b]
  have h₁ : f.insertAfter id c₁ = .ok (f₁, n) := hf.insertAfter_eq hid c₁
  have hf₁ : f₁.Housed := hf.behind hid c₁
  obtain ⟨h₂, hf₂⟩ : f₁.insertAfter n c₂ = .ok (f₂, n + 1) ∧ f₂.Housed :=
    hf.insertAfter_behind [] hid hf₁ (Int.le_refl _) List.not_mem_nil c₂ rfl
  obtain ⟨h₃, hf₃⟩ : f₂.insertAfter (n + 1) s₁ = .ok (f₃, n + 2) ∧ f₃.Housed :=
    hf.insertAfter_behind [n] hid hf₂ (by omega)
      (by rw [List.mem_singleton]; omega) s₁ rfl
  obtain ⟨h₄, hf₄⟩ : f₃.insertAfter (n + 2) s₂ = .ok (f₄, n + 3) ∧ f₄.Housed :=
    hf.insertAfter_behind [n, n + 1] hid hf₃ (by omega)
      (by simp only [List.mem_cons, List.not_mem_nil, or_false]; omega) s₂ rfl
  let s : Fact := ⟨id, call, bounds, n, c₁.name, c₂.name⟩
  have hinstrs : f.behind id s.numbers s.instrs = f₄ := by
    simp [Fact.instrs, Fact.numbers, s, hhome, Instr.placedIn, f₄, c₁, c₂, s₁, s₂, comparison,
      statement]
  refine ⟨s, rfl, rfl, ?_, ?_, hinstrs ▸ hf₄⟩
  · have hbase : "assume_tmp" ≠ "" := by decide
    refine (newNames_uniqueName f hbase).append (newNames_uniqueName f₁ hbase) ?_
    simp [f₁, c₁, Func.usedNames_behind, comparison, Instr.placedIn, Instr.isErased,
      f.uniqueName_ne_empty]
  · rw [hinstrs, state, h₁, ok_bind]
    dsimp only
    rw [h₂, ok_bind]
    dsimp only
    rw [h₃, ok_bind]
    dsimp only
    rw [h₄, ok_bind]
    rfl

end Assumption

namespace Func

variable {scope : Option Symbols} {f : Func} {id b : Int} {i : Instr} {facts : List Assumption.Fact}
  {s : Assumption.Fact}

/-- The function with all that is stated of its calls, right behind each of them. -/
def stating (f : Func) (facts : List Assumption.Fact) : Func :=
  { f with
    blocks := f.blocks.map fun blk => { blk with
      instrs := blk.instrs.flatMap fun id => id :: (facts.filter (·.call = id)).flatMap (·.numbers) }
    instrs := f.instrs ++ (facts.flatMap (·.instrs)).toArray }

theorem stating_nil (f : Func) : f.stating [] = f := by
  simp [stating]

theorem bodyOf_stating : (f.stating facts).bodyOf b =
    (f.bodyOf b).flatMap fun id => id :: (facts.filter (·.call = id)).flatMap (·.numbers) := by
  unfold bodyOf block? stating
  split
  · rfl
  · rw [Array.getElem?_map]
    cases f.blocks[b.toNat]? <;> rfl

theorem instr?_stating (hi : f.instr? id = some i) : (f.stating facts).instr? id = some i := by
  have hlt := lt_of_instr? hi
  unfold instr? stating at *
  rw [if_neg (by omega)] at hi ⊢
  rw [Array.getElem?_append_left (by omega), hi]

theorem size_stating : (f.stating facts).instrs.size = f.instrs.size + 4 * facts.length := by
  have hlength : (facts.flatMap (·.instrs)).length = 4 * facts.length := by
    induction facts with
    | nil => rfl
    | cons s facts ih =>
      rw [List.flatMap_cons, List.length_append, ih, List.length_cons]
      simp [Assumption.Fact.instrs]
      omega
  simp [stating, hlength]

theorem usedNames_stating (hlive : ∀ s ∈ facts, s.instr.isErased = false)
    (hnames : ∀ x ∈ facts.flatMap (·.names), x ≠ "") :
    (f.stating facts).usedNames = f.usedNames ++ facts.flatMap (·.names) := by
  have hnew : ((facts.flatMap (·.instrs)).filter fun i => !i.isErased && i.name ≠ "").map (·.name) =
      facts.flatMap (·.names) := by
    rw [List.filter_flatMap, List.map_flatMap]
    refine List.flatMap_congr fun s hs => ?_
    have hhome : s.instr.home.isSome = true := by simpa [Instr.isErased] using hlive s hs
    have hne : s.least ≠ "" ∧ s.most ≠ "" :=
      ⟨hnames _ (List.mem_flatMap.mpr ⟨s, hs, by simp [Assumption.Fact.names]⟩),
        hnames _ (List.mem_flatMap.mpr ⟨s, hs, by simp [Assumption.Fact.names]⟩)⟩
    simp [Assumption.Fact.instrs, Assumption.Fact.names, Instr.isErased, hhome, hne]
  rw [← hnew]
  simp [usedNames, stating]

theorem stating_concat (hcall : s.call ∉ facts.map (·.call))
    (hnumbers : ∀ t ∈ facts, s.call ∉ t.numbers) :
    f.stating (facts ++ [s]) = (f.stating facts).behind s.call s.numbers s.instrs := by
  have hlist (x : Int) : x :: ((facts ++ [s]).filter (·.call = x)).flatMap (·.numbers) =
      (x :: (facts.filter (·.call = x)).flatMap (·.numbers)).flatMap
        fun y => if y = s.call then y :: s.numbers else [y] := by
    have hother : s.call ∉ (facts.filter (·.call = x)).flatMap (·.numbers) := fun h => by
      obtain ⟨t, ht, hmem⟩ := List.mem_flatMap.mp h
      exact hnumbers t (List.mem_filter.mp ht).1 hmem
    rw [List.flatMap_cons, Block.flatMap_behind_of_notMem hother, List.filter_append,
      List.flatMap_append]
    by_cases hx : x = s.call
    · have hnone : facts.filter (·.call = x) = [] := List.filter_eq_nil_iff.mpr fun t ht he =>
        hcall (hx ▸ of_decide_eq_true he ▸ List.mem_map_of_mem ht)
      rw [hnone, if_pos hx]
      simp [hx]
    · simp [hx, Ne.symm hx]
  unfold stating behind
  congr 1
  · rw [Array.map_map]
    refine Array.map_congr_left fun blk _ => ?_
    simp only [Function.comp_apply, Block.behind, List.flatMap_assoc, hlist]
  · rw [List.flatMap_append, ← List.append_toArray, Array.append_assoc]
    simp

theorem notMem_numbers
    (hfirst : facts.map (·.first) =
      (List.range facts.length).map (fun k : Nat => (f.instrs.size + 4 * k : Int)))
    (hi : f.instr? id = some i) (hs : s ∈ facts) : id ∉ s.numbers := by
  have hlt := lt_of_instr? hi
  have hmem := hfirst ▸ List.mem_map_of_mem (f := Assumption.Fact.first) hs
  obtain ⟨k, -, hk⟩ := List.mem_map.mp hmem
  simp only [Assumption.Fact.numbers, List.mem_cons, List.not_mem_nil, or_false]
  omega

theorem getElem?_flatMap_instrs {k j : Nat} (hs : facts[k]? = some s) (hj : j < 4) :
    (facts.flatMap (·.instrs))[4 * k + j]? = s.instrs[j]? := by
  have hlength (t : Assumption.Fact) : t.instrs.length = 4 := rfl
  induction facts generalizing k with
  | nil => cases hs
  | cons t facts ih =>
    rw [List.flatMap_cons]
    cases k with
    | zero =>
      cases hs
      rw [List.getElem?_append_left (by rw [hlength]; omega), Nat.mul_zero, Nat.zero_add]
    | succ k =>
      rw [List.getElem?_append_right (by rw [hlength]; omega), hlength,
        show 4 * (k + 1) + j - 4 = 4 * k + j by omega]
      exact ih hs

theorem instr?_stating_new
    (hfirst : facts.map (·.first) =
      (List.range facts.length).map (fun k : Nat => (f.instrs.size + 4 * k : Int)))
    (hs : s ∈ facts) {j : Nat} (hj : j < 4) :
    (f.stating facts).instr? (s.first + j) = s.instrs[j]? := by
  obtain ⟨k, hk⟩ := List.getElem?_of_mem hs
  obtain ⟨hlt, rfl⟩ := List.getElem?_eq_some_iff.mp hk
  have hnumber : facts[k].first = f.instrs.size + 4 * k := by
    have hget := congrArg (·[k]?) hfirst
    simpa [hlt] using hget
  unfold instr? stating
  rw [if_neg (by omega), Array.getElem?_append_right (by omega),
    show (facts[k].first + j).toNat - f.instrs.size = 4 * k + j by omega, List.getElem?_toArray,
    getElem?_flatMap_instrs hk hj]

theorem stands_stating : (f.stating facts).Stands b id ↔
    f.Stands b id ∨ ∃ s ∈ facts, f.Stands b s.call ∧ id ∈ s.numbers := by
  simp only [stands_iff, bodyOf_stating, List.mem_flatMap, List.mem_cons, List.mem_filter,
    decide_eq_true_eq]
  constructor
  · rintro ⟨x, hx, rfl | ⟨s, ⟨hs, rfl⟩, hid⟩⟩
    · exact .inl hx
    · exact .inr ⟨s, hs, hx, hid⟩
  · rintro (hid | ⟨s, hs, hcall, hid⟩)
    · exact ⟨id, hid, .inl rfl⟩
    · exact ⟨s.call, hcall, .inr ⟨s, ⟨hs, rfl⟩, hid⟩⟩

/-- Stating the bounds of one call after the other. The invariant is the closed form so far. -/
theorem foldlM_state (hf : f.Housed) {calls : List (Int × Instr × Bounds)}
    (hcalls : ∀ x ∈ calls, f.instr? x.1 = some x.2.1 ∧ ∃ b, f.Stands b x.1)
    (hnodup : (calls.map (·.1)).Nodup) :
    ∃ facts : List Assumption.Fact, facts.map (fun s => (s.call, s.instr, s.bounds)) = calls ∧
      facts.map (·.first) =
        (List.range facts.length).map (fun k : Nat => (f.instrs.size + 4 * k : Int)) ∧
      Assumption.NewNames f (facts.flatMap (·.names)) ∧
      calls.foldlM (fun f x => Assumption.state f x.1 x.2.1 x.2.2) f = .ok (f.stating facts) ∧
      (f.stating facts).Housed := by
  -- From the last call backwards, since each statement is worked out on the function with those
  -- before it.
  induction calls using List.reverseRecOn with
  | nil =>
    exact ⟨[], rfl, rfl, ⟨List.nodup_nil, by simp⟩, by rw [stating_nil]; rfl, by rwa [stating_nil]⟩
  | append_singleton calls x ih =>
    rw [List.map_append, List.map_singleton] at hnodup
    obtain ⟨facts, hfacts, hfirst, hnames, hfold, hhoused⟩ :=
      ih (fun y hy => hcalls y (List.mem_append_left _ hy)) (List.nodup_append.mp hnodup).1
    obtain ⟨hx, b, hb⟩ := hcalls x (by simp)
    have hb' : x.1 ∈ (f.stating facts).bodyOf b := by
      rw [bodyOf_stating]
      exact List.mem_flatMap.mpr ⟨x.1, stands_iff.mp hb, List.mem_cons_self ..⟩
    obtain ⟨s, hs, hs', hnew, hstate, hhoused'⟩ :=
      Assumption.state_eq hhoused hb' (instr?_stating hx) x.2.2
    have hcall : s.call = x.1 := congrArg Prod.fst hs
    have hnewcall : s.call ∉ facts.map (·.call) := by
      rw [hcall, show facts.map (·.call) = calls.map (·.1) by rw [← hfacts, List.map_map]; rfl]
      exact fun h => (List.nodup_append.mp hnodup).2.2 _ h _ (List.mem_singleton.mpr rfl) rfl
    have hnumbers : ∀ t ∈ facts, s.call ∉ t.numbers := fun t ht =>
      hcall ▸ notMem_numbers hfirst hx ht
    have hlive : ∀ t ∈ facts, t.instr.isErased = false := by
      intro t ht
      have hmem : (t.call, t.instr, t.bounds) ∈ calls := hfacts ▸ List.mem_map_of_mem ht
      obtain ⟨ht, c, hc⟩ := hcalls _ (List.mem_append_left _ hmem)
      obtain ⟨j, hj, hhome⟩ := hf.home c t.call (stands_iff.mp hc)
      obtain rfl := Option.some.inj (ht.symm.trans hj)
      change t.instr.home = some c at hhome
      simp [Instr.isErased, hhome]
    have hused := usedNames_stating (f := f) hlive fun y hy => (hnames.2 y hy).1
    refine ⟨facts ++ [s], by rw [List.map_append, hfacts, List.map_singleton, hs], ?_, ?_, ?_, ?_⟩
    · rw [List.map_append, hfirst, List.map_singleton, hs', size_stating, List.length_append,
        List.length_singleton, List.range_succ, List.map_append, List.map_singleton]
      simp
    · rw [List.flatMap_append, List.flatMap_singleton]
      exact hnames.append hnew hused
    · rw [List.foldlM_append, hfold, ok_bind, stating_concat hnewcall hnumbers, hcall,
        List.foldlM_cons, hstate]
      rfl
    · rwa [stating_concat hnewcall hnumbers, hcall]

/-- Stating what a table knows of the calls of a well-formed function. Behind each call that the table
knows come its four instructions, under new names, and the rest stays. -/
theorem assumeBounds_exact (t : BoundsTable) (h : f.verify scope = .ok []) :
    ∃ placed, f.placed = .ok placed ∧ ∃ facts : List Assumption.Fact,
      facts.map (fun s => (s.call, s.instr, s.bounds)) =
        placed.filterMap (fun x => (Assumption.boundsOf? t x.2).map fun b => (x.1, x.2, b)) ∧
      (facts.map (·.call)).Nodup ∧
      facts.map (·.first) =
        (List.range facts.length).map (fun k : Nat => (f.instrs.size + 4 * k : Int)) ∧
      Assumption.NewNames f (facts.flatMap (·.names)) ∧
      f.assumeBounds t = .ok (f.stating facts, !facts.isEmpty) := by
  have hf := verify_eq_nil.mp h
  obtain ⟨placed, hplaced, hmem⟩ := hf.exists_placed
  let calls := placed.filterMap fun x => (Assumption.boundsOf? t x.2).map fun b => (x.1, x.2, b)
  have hcalls : ∀ x ∈ calls, f.instr? x.1 = some x.2.1 ∧ ∃ b, f.Stands b x.1 := by
    intro x hx
    obtain ⟨y, hy, hx⟩ := List.mem_filterMap.mp hx
    obtain ⟨b, -, rfl⟩ := Option.map_eq_some_iff.mp hx
    exact hmem y hy
  have hnodup : (calls.map (·.1)).Nodup := by
    have hids := hf.housed.nodup_placed hplaced
    rw [List.Nodup, List.pairwise_map] at hids ⊢
    refine List.Pairwise.filterMap _ (fun x y hxy p hp q hq => ?_) hids
    obtain ⟨b, -, rfl⟩ := Option.map_eq_some_iff.mp hp
    obtain ⟨c, -, rfl⟩ := Option.map_eq_some_iff.mp hq
    exact hxy
  obtain ⟨facts, hfacts, hfirst, hnames, hfold, -⟩ := foldlM_state hf.housed hcalls hnodup
  refine ⟨placed, hplaced, facts, hfacts, ?_, hfirst, hnames, ?_⟩
  · rwa [← hfacts, List.map_map] at hnodup
  · rw [assumeBounds, hplaced, ok_bind]
    refine bind_eq_ok.mpr ⟨_, hfold, ?_⟩
    rw [pure_eq_ok, show facts.isEmpty = calls.isEmpty by rw [← hfacts, List.isEmpty_map]]

theorem Housed.assumeBounds {t : BoundsTable} {r : Func × Bool} (hf : f.Housed)
    (he : f.assumeBounds t = .ok r) : r.1.Housed := by
  simp only [Func.assumeBounds, bind_eq_ok, pure_eq_ok] at he
  obtain ⟨placed, -, g, hg, rfl⟩ := he
  refine foldlM_keeps (P := Func.Housed) (fun k x _ k' hk hstate => ?_) hf hg
  simp only [Assumption.state, bind_eq_ok, pure_eq_ok] at hstate
  obtain ⟨r₁, h₁, r₂, h₂, r₃, h₃, r₄, h₄, rfl⟩ := hstate
  exact (((hk.of_insertAfter h₁).of_insertAfter h₂).of_insertAfter h₃).of_insertAfter h₄

def readsTwice : Func where
  name := "f"
  params := [⟨"assume_tmp", some .i32⟩]
  ret := .i32
  blocks := #[{ name := "entry", instrs := [0, 1, 2, 3] }]
  instrs := #[
    { op := .call, ty := .i32, name := "x", callee := "llvm.nvvm.read.ptx.sreg.tid.x",
      home := some 0 },
    { op := .call, ty := .i32, name := "y", callee := "llvm.nvvm.read.ptx.sreg.tid.x",
      home := some 0 },
    { op := .add, ty := .i32, name := "z", operands := [.instr 0, .instr 1], home := some 0 },
    { op := .ret, ty := .void, operands := [.instr 2], home := some 0 }]
  entry := some 0

theorem readsTwice_stated : readsTwice.verify none = .ok [] ∧ ∃ facts,
    readsTwice.assumeBounds .specialRegisters = .ok (readsTwice.stating facts, true) ∧
    (readsTwice.stating facts).bodyOf 0 = [0, 4, 5, 6, 7, 1, 8, 9, 10, 11, 2, 3] ∧
    (readsTwice.stating facts).usedNames = ["assume_tmp", "x", "y", "z", "assume_tmp1", "assume_tmp2",
      "assume_tmp3", "assume_tmp4"] := by
  have hverified : readsTwice.verify none = .ok [] := by decide +kernel
  obtain ⟨placed, -, facts, -, -, -, -, hresult⟩ := assumeBounds_exact .specialRegisters hverified
  have hrun : (readsTwice.assumeBounds .specialRegisters).toOption.map
      (fun r => (r.2, r.1.bodyOf 0, r.1.usedNames)) = some (true,
        [0, 4, 5, 6, 7, 1, 8, 9, 10, 11, 2, 3], ["assume_tmp", "x", "y", "z", "assume_tmp1",
          "assume_tmp2", "assume_tmp3", "assume_tmp4"]) := by
    decide +kernel
  rw [hresult] at hrun
  simp only [Except.toOption, Option.map_some, Option.some.injEq, Prod.mk.injEq] at hrun
  obtain ⟨hchanged, hbody, hnames⟩ := hrun
  exact ⟨hverified, facts, hchanged ▸ hresult, hbody, hnames⟩

end Func

end RegPressure
