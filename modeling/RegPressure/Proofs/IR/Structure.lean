import RegPressure.IR.WellFormed
import RegPressure.Proofs.IR.Checked
import Mathlib.Tactic.Common
import Mathlib.Tactic.Tauto

namespace RegPressure.Func

variable {scope : Option Symbols} {f : Func}

/-- The operation of an instruction, and `invalid` where there is none. -/
def opOf (f : Func) (id : Int) : Op := ((f.instr? id).map (·.op)).getD .invalid

theorem opOf_eq {id : Int} {i : Instr} (h : f.instr? id = some i) : f.opOf id = i.op := by
  simp [opOf, h]

theorem nonneg_of_instr? {id : Int} {i : Instr} (h : f.instr? id = some i) : 0 ≤ id := by
  unfold instr? at h
  split at h
  · cases h
  · omega

theorem lt_of_instr? {id : Int} {i : Instr} (h : f.instr? id = some i) :
    0 ≤ id ∧ id < f.instrs.size := by
  unfold instr? at h
  split at h
  · cases h
  · have := (Array.getElem?_eq_some_iff.mp h).1
    omega

theorem mem_instrIds {id : Int} :
    id ∈ f.instrIds ↔ ∃ i, f.instr? id = some i := by
  simp only [instrIds, List.mem_map, List.mem_range, instr?]
  constructor
  · rintro ⟨n, hn, rfl⟩
    exact ⟨f.instrs[n], by simp [hn]⟩
  · rintro ⟨i, hi⟩
    split at hi
    · cases hi
    · exact ⟨id.toNat, (Array.getElem?_eq_some_iff.mp hi).1, by simp; omega⟩

theorem isLive_iff {id : Int} :
    f.isLive id = true ↔ ∃ i, f.instr? id = some i ∧ i.isErased = false := by
  unfold isLive
  cases f.instr? id <;> simp

theorem mem_of_instr? {id : Int} {i : Instr} (h : f.instr? id = some i) : i ∈ f.instrs := by
  unfold instr? at h
  split at h
  · cases h
  · exact Array.mem_of_getElem? h

@[simp] theorem instr_eq_ok {id : Int} {i : Instr} : f.instr id = .ok i ↔ f.instr? id = some i := by
  unfold instr
  cases f.instr? id <;> simp

theorem cell_eq_ok {id : Int} {i : Instr} : cell f.instrs id = .ok i ↔ f.instr? id = some i := by
  unfold cell instr?
  split
  · next x hx => simp [hx]
  · next hx => simp [hx]

@[simp] theorem block_eq_ok {b : Int} {blk : Block} : f.block b = .ok blk ↔ f.block? b = some blk := by
  unfold block
  cases f.block? b <;> simp

/-- What an operand refers to is there. -/
def Resolves (scope : Option Symbols) (f : Func) : Value → Prop
  | .instr d => f.isLive d = true
  | .arg i => i < f.params.length
  | .global i => ∃ g, global? scope (.global i) = .ok (some g)
  | _ => True

structure References (scope : Option Symbols) (f : Func) (i : Instr) : Prop where
  operands : ∀ v ∈ i.operands, f.Resolves scope v
  targets : ∀ t ∈ i.targets, ∃ blk, f.block? t = some blk
  arity : i.op = .phi → i.targets.length = i.operands.length

structure BodySound (scope : Option Symbols) (f : Func) (b : Int) (ids : List Int) : Prop where
  nodup : ids.Nodup
  member : ∀ id ∈ ids, ∃ i, f.instr? id = some i ∧ i.home = some b ∧ f.References scope i
  phis_first : ids.Pairwise fun x y => f.opOf y = .phi → f.opOf x = .phi
  ends : ∀ l id r, ids = l ++ id :: r → ((f.opOf id).isTerminator = true ↔ r = [])

structure EdgesSound (f : Func) (b : Int) (blk : Block) : Prop where
  succs : ∀ s ∈ blk.succs, ∃ t, f.block? s = some t ∧ b ∈ t.preds
  preds : ∀ p ∈ blk.preds, ∃ t, f.block? p = some t ∧ b ∈ t.succs
  incoming : ∀ id ∈ blk.instrs, ∀ i, f.instr? id = some i → i.op = .phi →
    ∀ t ∈ i.targets, t ∈ blk.preds

structure BlockSound (scope : Option Symbols) (f : Func) (b : Int) (blk : Block) : Prop where
  ne_nil : blk.instrs ≠ []
  body : f.BodySound scope b blk.instrs
  edges : f.EdgesSound b blk

/-- A function that breaks no structural rule. -/
structure WellFormed (scope : Option Symbols) (f : Func) : Prop where
  entry : ∃ e blk, f.entry = some e ∧ f.block? e = some blk ∧ blk.preds = []
  block : ∀ b blk, f.block? b = some blk → f.BlockSound scope b blk

theorem operandDefects_eq_nil {id : Int} {v : Value} :
    f.operandDefects scope id v = .ok [] ↔ f.Resolves scope v := by
  cases v with
  | instr d => by_cases h : f.isLive d = true <;> simp [operandDefects, Resolves, h]
  | arg i => by_cases h : i < f.params.length <;> simp [operandDefects, Resolves, h]
  | global i =>
    simp only [operandDefects, Resolves, Checked.bind_eq_ok, Checked.pure_eq_ok]
    constructor
    · rintro ⟨g, hg, h⟩
      cases g with
      | none => simp at h
      | some g => exact ⟨g, hg⟩
    · rintro ⟨g, hg⟩
      exact ⟨some g, hg, by simp⟩
  | _ => simp [operandDefects, Resolves]

theorem referenceDefects_eq_nil {id : Int} {i : Instr} :
    f.referenceDefects scope id i = .ok [] ↔ f.References scope i := by
  have harity : (if (i.op = .phi && i.targets.length ≠ i.operands.length) = true then
      [Defect.phiArity id i.operands.length i.targets.length] else []) = [] ↔
      (i.op = .phi → i.targets.length = i.operands.length) := by
    simp
  have htargets : (i.targets.filter fun t => (f.block? t).isNone).map (Defect.unknownTarget id) = [] ↔
      ∀ t ∈ i.targets, ∃ blk, f.block? t = some blk := by
    simp [List.filter_eq_nil_iff, ← Option.ne_none_iff_exists']
  simp only [referenceDefects, Checked.bind_eq_ok, Checked.pure_eq_ok, List.append_eq_nil_iff,
    harity, htargets]
  constructor
  · rintro ⟨ops, hops, ⟨hnil, ht⟩, ha⟩
    refine ⟨fun v hv => ?_, ht, ha⟩
    exact operandDefects_eq_nil.mp (Checked.mapM_flatten_eq_nil.mp ⟨ops, hops, hnil⟩ v hv)
  · rintro ⟨hv, ht, ha⟩
    obtain ⟨ops, hops, hnil⟩ := Checked.mapM_flatten_eq_nil.mpr
      fun v h => (operandDefects_eq_nil : f.operandDefects scope id v = _ ↔ _).mpr (hv v h)
    exact ⟨ops, hops, ⟨hnil, ht⟩, ha⟩

theorem bodySound_nil {b : Int} : f.BodySound scope b [] := by
  refine ⟨List.nodup_nil, by simp, List.Pairwise.nil, fun l id r h => ?_⟩
  simp at h

theorem bodySound_cons {b id : Int} {rest : List Int} {i : Instr} (hi : f.instr? id = some i) :
    f.BodySound scope b (id :: rest) ↔
      (i.home = some b ∧ f.References scope i) ∧ id ∉ rest ∧
        (i.op ≠ .phi → ∀ x ∈ rest, f.opOf x ≠ .phi) ∧ (i.op.isTerminator = true ↔ rest = []) ∧
          f.BodySound scope b rest := by
  have hop := opOf_eq hi
  constructor
  · intro h
    obtain ⟨j, hj, hrest⟩ := h.member id (List.mem_cons_self ..)
    rw [hi] at hj
    cases hj
    have hp := List.pairwise_cons.mp h.phis_first
    refine ⟨hrest, (List.nodup_cons.mp h.nodup).1, fun hphi x hx hxphi => ?_, ?_, ?_⟩
    · exact hphi (hop ▸ hp.1 x hx hxphi)
    · exact hop ▸ h.ends [] id rest rfl
    · exact ⟨(List.nodup_cons.mp h.nodup).2, fun x hx => h.member x (List.mem_cons_of_mem _ hx),
        hp.2, fun l x r he => h.ends (id :: l) x r (by rw [he]; rfl)⟩
  · rintro ⟨hrest, hnot, hphi, hend, h⟩
    refine ⟨List.nodup_cons.mpr ⟨hnot, h.nodup⟩, ?_, ?_, ?_⟩
    · intro x hx
      rcases List.mem_cons.mp hx with rfl | hx
      · exact ⟨i, hi, hrest⟩
      · exact h.member x hx
    · refine List.pairwise_cons.mpr ⟨fun x hx hxphi => ?_, h.phis_first⟩
      by_contra hne
      exact hphi (hop ▸ hne) x hx hxphi
    · intro l x r he
      cases l with
      | nil =>
        cases he
        rw [hop]
        exact hend
      | cons y l =>
        cases he
        exact h.ends l x r rfl

theorem bodyDefects_cons {b id : Int} {rest seen : List Int} {phis : Bool} {i : Instr}
    (hi : f.instr? id = some i) :
    f.bodyDefects scope b (id :: rest) seen phis = .ok [] ↔
      id ∉ seen ∧ (i.home = some b ∧ f.References scope i) ∧ (phis = false → i.op ≠ .phi) ∧
        (i.op.isTerminator = true ↔ rest = []) ∧
          f.bodyDefects scope b rest (id :: seen) (phis && decide (i.op = .phi)) = .ok [] := by
  have hlate : (if (decide (i.op = .phi) && !phis) = true then [Defect.latePhi id b] else []) = [] ↔
      (phis = false → i.op ≠ .phi) := by
    cases phis <;> simp
  simp only [bodyDefects, hi, Checked.bind_eq_ok, Checked.pure_eq_ok, List.append_eq_nil_iff, hlate,
    List.contains_iff_mem, ite_eq_right_iff, List.cons_ne_nil, imp_false]
  constructor
  · rintro ⟨refs, hrefs, more, hmore, ⟨⟨⟨⟨hseen, hhome⟩, hphi⟩, he⟩, rfl⟩, rfl⟩
    refine ⟨hseen, ⟨not_not.mp hhome, referenceDefects_eq_nil.mp hrefs⟩, hphi, ?_, hmore⟩
    revert he
    cases i.op.isTerminator <;> cases rest <;> simp
  · rintro ⟨hseen, ⟨hhome, hrefs⟩, hphi, he, hmore⟩
    refine ⟨[], referenceDefects_eq_nil.mpr hrefs, [], hmore,
      ⟨⟨⟨⟨hseen, not_not.mpr hhome⟩, hphi⟩, ?_⟩, rfl⟩, rfl⟩
    revert he
    cases i.op.isTerminator <;> cases rest <;> simp

theorem bodyDefects_eq_nil {b : Int} {ids seen : List Int} {phis : Bool} :
    f.bodyDefects scope b ids seen phis = .ok [] ↔
      f.BodySound scope b ids ∧ (∀ id ∈ ids, id ∉ seen) ∧
        (phis = false → ∀ id ∈ ids, f.opOf id ≠ .phi) := by
  induction ids generalizing seen phis with
  | nil => simp [bodyDefects, bodySound_nil]
  | cons id rest ih =>
    cases hi : f.instr? id with
    | none =>
      constructor
      · simp [bodyDefects, hi]
      · rintro ⟨h, _⟩
        obtain ⟨i, hi', _⟩ := h.member id (List.mem_cons_self ..)
        rw [hi] at hi'
        cases hi'
    | some i =>
      rw [bodyDefects_cons hi, bodySound_cons hi, ih]
      have hop := opOf_eq hi
      simp only [List.forall_mem_cons, hop]
      simp only [List.mem_cons, not_or, Bool.and_eq_false_iff, decide_eq_false_iff_not]
      constructor
      · rintro ⟨hseen, hrest, hphi, he, h, hdis, hrestphi⟩
        refine ⟨⟨hrest, fun hm => (hdis id hm).1 rfl, fun hne => hrestphi (.inr hne), he, h⟩,
          ⟨hseen, fun x hx => (hdis x hx).2⟩, fun hp => ⟨hphi hp, hrestphi (.inl hp)⟩⟩
      · rintro ⟨⟨hrest, hnot, hrestphi, he, h⟩, ⟨hseen, hdis⟩, hphi⟩
        refine ⟨hseen, hrest, fun hp => (hphi hp).1, he, h, fun x hx => ⟨?_, hdis x hx⟩, ?_⟩
        · rintro rfl
          exact hnot hx
        · rintro (hp | hne)
          · exact (hphi hp).2
          · exact hrestphi hne

theorem edgeDefects_eq_nil {b : Int} {blk : Block} :
    f.edgeDefects b blk = .ok [] ↔ f.EdgesSound b blk := by
  simp only [edgeDefects, Checked.bind_eq_ok, Checked.pure_eq_ok, List.append_eq_nil_iff,
    List.filterMap_eq_nil_iff]
  constructor
  · rintro ⟨phis, hmap, ⟨hout, hinto⟩, hnil⟩
    refine ⟨fun s hs => ?_, fun p hp => ?_, fun id hid i hi hop t ht => ?_⟩
    · have hs := hout s hs
      split at hs
      · cases hs
      · next t ht => exact ⟨t, ht, by simpa [hasPred] using hs⟩
    · have hp := hinto p hp
      split at hp
      · cases hp
      · next t ht => exact ⟨t, ht, by simpa [hasSucc] using hp⟩
    · have hphi := Checked.mapM_flatten_eq_nil.mp ⟨phis, hmap, hnil⟩ id hid
      simp only [hi, hop, if_true, Checked.mapM_eq_ok, List.forall₂_nil_right_iff,
        List.filter_eq_nil_iff] at hphi
      simpa [hasPred] using hphi t ht
  · intro h
    refine ⟨blk.instrs.map fun _ => [], Checked.mapM_eq_ok.mpr ?_, ⟨fun s hs => ?_, fun p hp => ?_⟩, by simp⟩
    · rw [List.forall₂_map_right_iff, List.forall₂_same]
      intro id hid
      split
      · next i hi =>
        split
        · next hop =>
          simp only [Checked.mapM_eq_ok, List.forall₂_nil_right_iff, List.filter_eq_nil_iff]
          simpa [hasPred] using h.incoming id hid i hi hop
        · rfl
      · rfl
    · obtain ⟨t, ht, hmem⟩ := h.succs s hs
      simp [ht, hasPred, hmem]
    · obtain ⟨t, ht, hmem⟩ := h.preds p hp
      simp [ht, hasSucc, hmem]

theorem blockDefects_eq_nil {b : Int} {blk : Block} {seen : List Int} :
    f.blockDefects scope seen b blk = .ok [] ↔
      f.BlockSound scope b blk ∧ ∀ id ∈ blk.instrs, id ∉ seen := by
  by_cases hnil : blk.instrs = []
  · simp only [blockDefects, hnil, if_true, Checked.pure_eq_ok]
    constructor
    · simp
    · exact fun h => absurd hnil h.1.ne_nil
  · simp only [blockDefects, if_neg hnil, Checked.bind_eq_ok, Checked.pure_eq_ok,
      List.append_eq_nil_iff]
    constructor
    · rintro ⟨body, hbody, edges, hedges, rfl, rfl⟩
      obtain ⟨h, hseen, _⟩ := bodyDefects_eq_nil.mp hbody
      exact ⟨⟨hnil, h, edgeDefects_eq_nil.mp hedges⟩, hseen⟩
    · rintro ⟨h, hseen⟩
      exact ⟨[], bodyDefects_eq_nil.mpr ⟨h.body, hseen, by simp⟩, [],
        edgeDefects_eq_nil.mpr h.edges, rfl, rfl⟩

/-- Instructions that stand in earlier blocks are not met again, because each records its block. -/
theorem allBlockDefects_eq_nil (blocks : List Block) (b : Int) (seen : List Int)
    (hseen : ∀ id ∈ seen, ∀ i, f.instr? id = some i → ∃ c, i.home = some c ∧ c < b) :
    f.allBlockDefects scope blocks b seen = .ok [] ↔
      ∀ (n : Nat) blk, blocks[n]? = some blk → f.BlockSound scope (b + n) blk := by
  induction blocks generalizing b seen with
  | nil => simp [allBlockDefects]
  | cons blk rest ih =>
    have hfresh : f.BlockSound scope b blk → ∀ id ∈ blk.instrs, id ∉ seen := by
      intro h id hid hmem
      obtain ⟨i, hi, hhome, _⟩ := h.body.member id hid
      obtain ⟨c, hc, hlt⟩ := hseen id hmem i hi
      rw [hhome] at hc
      cases hc
      exact absurd hlt (Int.lt_irrefl _)
    have hseen' : f.BlockSound scope b blk → ∀ id ∈ blk.instrs ++ seen, ∀ i,
        f.instr? id = some i → ∃ c, i.home = some c ∧ c < b + 1 := by
      intro h id hid i hi
      rcases List.mem_append.mp hid with hid | hid
      · obtain ⟨j, hj, hhome, _⟩ := h.body.member id hid
        rw [hi] at hj
        cases hj
        exact ⟨b, hhome, by omega⟩
      · obtain ⟨c, hc, hlt⟩ := hseen id hid i hi
        exact ⟨c, hc, by omega⟩
    simp only [allBlockDefects, Checked.bind_eq_ok, Checked.pure_eq_ok, List.append_eq_nil_iff]
    constructor
    · rintro ⟨here, hhere, more, hmore, rfl, rfl⟩ n c hc
      have h := (blockDefects_eq_nil.mp hhere).1
      cases n with
      | zero =>
        cases hc
        simpa using h
      | succ n =>
        have := (ih (b + 1) _ (hseen' h)).mp hmore n c hc
        have he : b + (n + 1 : Nat) = b + 1 + n := by omega
        rwa [he]
    · intro h
      have h0 : f.BlockSound scope b blk := by simpa using h 0 blk rfl
      refine ⟨[], blockDefects_eq_nil.mpr ⟨h0, hfresh h0⟩, [], ?_, rfl, rfl⟩
      refine (ih (b + 1) _ (hseen' h0)).mpr fun n c hc => ?_
      have := h (n + 1) c hc
      have he : b + (n + 1 : Nat) = b + 1 + n := by omega
      rwa [he] at this

theorem block?_ofNat {n : Nat} : f.block? n = f.blocks[n]? := by
  rw [block?, if_neg (by omega), Int.toNat_natCast]

theorem block?_eq_some {b : Int} {blk : Block} :
    f.block? b = some blk ↔ ∃ n : Nat, b = n ∧ f.blocks[n]? = some blk := by
  constructor
  · intro h
    unfold block? at h
    split at h
    · cases h
    · exact ⟨b.toNat, by omega, h⟩
  · rintro ⟨n, rfl, h⟩
    rw [block?_ofNat, h]

/-- The check reports nothing exactly for well-formed functions. -/
theorem defects_eq_nil : f.defects scope = .ok [] ↔ f.WellFormed scope := by
  have hall : f.allBlockDefects scope f.blocks.toList 0 [] = .ok [] ↔ _ :=
    allBlockDefects_eq_nil f.blocks.toList 0 [] (by simp)
  have hblocks : (∀ (n : Nat) blk, f.blocks.toList[n]? = some blk → f.BlockSound scope (0 + n) blk) ↔
      ∀ b blk, f.block? b = some blk → f.BlockSound scope b blk := by
    constructor
    · intro h b blk hb
      obtain ⟨n, rfl, hn⟩ := block?_eq_some.mp hb
      simpa using h n blk (by simpa using hn)
    · intro h n blk hn
      have := h n blk (block?_eq_some.mpr ⟨n, rfl, by simpa using hn⟩)
      simpa using this
  rw [hblocks] at hall
  by_cases hempty : f.blocks.isEmpty = true
  · constructor
    · simp [defects, hempty]
    · rintro ⟨⟨e, blk, _, he, _⟩, _⟩
      obtain ⟨n, _, hn⟩ := block?_eq_some.mp he
      rw [Array.isEmpty_iff] at hempty
      simp [hempty] at hn
  · cases he : f.entry.bind f.block? with
    | none =>
      constructor
      · simp [defects, hempty, he]
      · rintro ⟨⟨e, blk, hentry, hblk, _⟩, _⟩
        simp [hentry, hblk] at he
    | some blk =>
      obtain ⟨e, hentry, hblk⟩ := Option.bind_eq_some_iff.mp he
      simp only [defects, hempty, he, Bool.false_eq_true, if_false, Checked.bind_eq_ok,
        Checked.pure_eq_ok, List.append_eq_nil_iff]
      constructor
      · rintro ⟨more, hmore, hpreds, rfl⟩
        refine ⟨⟨e, blk, hentry, hblk, ?_⟩, hall.mp hmore⟩
        by_contra hne
        simp [hne] at hpreds
      · rintro ⟨⟨e', blk', hentry', hblk', hpreds⟩, h⟩
        rw [hentry] at hentry'
        cases hentry'
        rw [hblk] at hblk'
        cases hblk'
        exact ⟨[], hall.mpr h, by simp [hpreds], rfl⟩

theorem verify_eq_nil : f.verify scope = .ok [] ↔ f.WellFormed scope := by
  rw [← defects_eq_nil]
  simp [verify]

section Symbols

variable {s t : Symbols}

theorem global?_some {i : Int} :
    (∃ g, global? (some s) (.global i) = .ok (some g)) ↔ 0 ≤ i ∧ i < s.globals.length := by
  simp only [global?, element]
  constructor
  · rintro ⟨g, h⟩
    split at h
    · next hlt =>
      split at h
      · next he =>
        split at he
        · cases he
        · omega
      · cases h
    · cases h
  · rintro ⟨hpos, hlt⟩
    have hn : i.toNat < s.globals.length := by omega
    rw [if_pos hlt, if_neg (by omega), List.getElem?_eq_getElem hn]
    exact ⟨_, rfl⟩

theorem Resolves.mono (hs : s.globals.length ≤ t.globals.length) {v : Value}
    (h : f.Resolves (some s) v) : f.Resolves (some t) v := by
  cases v with
  | global i =>
    obtain ⟨hpos, hlt⟩ := global?_some.mp h
    exact global?_some.mpr ⟨hpos, by omega⟩
  | _ => exact h

/-- Of the symbols, only the number of globals matters. -/
theorem WellFormed.mono (hs : s.globals.length ≤ t.globals.length) (h : f.WellFormed (some s)) :
    f.WellFormed (some t) where
  entry := h.entry
  block := by
    intro b blk hblk
    obtain ⟨hne, hbody, hedges⟩ := h.block b blk hblk
    refine ⟨hne, ⟨hbody.nodup, fun id hid => ?_, hbody.phis_first, hbody.ends⟩, hedges⟩
    obtain ⟨i, hi, hhome, hrefs⟩ := hbody.member id hid
    exact ⟨i, hi, hhome, fun v hv => (hrefs.operands v hv).mono hs, hrefs.targets, hrefs.arity⟩

end Symbols

end RegPressure.Func
