import RegPressure.Proofs.Narrow.Casts
import RegPressure.Proofs.IR.Checked

namespace RegPressure.Narrow

variable {scope : Option Symbols} {g g' : Func} {d : DomInfo} {w n m : Nat}

/-- A new cast of `v` stands right behind `v`, or behind the phis. -/
inductive Placed (g : Func) (v : Value) (op : Op) (w : Nat) (u : Int) (g' : Func) : Prop
  | after {id : Int} {j : Instr} {pos : Pos} : v = .instr id → g.instr? id = some j → j.op ≠ .phi →
      g.insertAfter id { op, ty := .int w, operands := [v], pos } = .ok (g', u) → Placed g v op w u g'
  | phi {id : Int} {j : Instr} {k : Nat} {pos : Pos} : v = .instr id → g.instr? id = some j →
      j.op = .phi → g.firstNonPhi (j.home.getD (-1)) = .ok k →
        g.insertAt (j.home.getD (-1)) k { op, ty := .int w, operands := [v], pos } = .ok (g', u) →
          Placed g v op w u g'
  | arg {a : Int} {k : Nat} : v = .arg a → g.firstNonPhi (g.entry.getD (-1)) = .ok k →
      g.insertAt (g.entry.getD (-1)) k { op, ty := .int w, operands := [v] } = .ok (g', u) →
        Placed g v op w u g'

inductive ResizeCase (g : Func) (w : Nat) (v v' : Value) (g' : Func) : Prop
  | same {n : Nat} : g.typeOf v = .ok (some (.int n)) → n = w → v' = v → g' = g → ResizeCase g w v v' g'
  | source {n : Nat} {y : Value} : g.typeOf v = .ok (some (.int n)) → n ≠ w →
      source g v n (.int w) = .ok (y, w) → v' = y → g' = g → ResizeCase g w v v' g'
  | const {n m : Nat} {y : Value} {c : Int64} : g.typeOf v = .ok (some (.int n)) → n ≠ w →
      source g v n (.int w) = .ok (y, m) → m ≠ w → y.intConst? = some c →
        v' = .int (some (.int w)) (lowBits c w) → g' = g → ResizeCase g w v v' g'
  | cast {n m : Nat} {y : Value} {u : Int} : g.typeOf v = .ok (some (.int n)) → n ≠ w →
      source g v n (.int w) = .ok (y, m) → m ≠ w → y.intConst? = none → v' = .instr u →
        Placed g y (if m > w then .trunc else .sext) w u g' → ResizeCase g w v v' g'

theorem resize_cases {v v' : Value} (he : (resize scope v (.int w)).run g = .ok v' g') :
    ResizeCase g w v v' g' := by
  have hrefuse : ∀ {v k : Value} {cause : String → Breach} {g' : Func},
      ¬ (refuse scope v cause).run g = .ok k g' := by
    intro v k cause g' he
    simp only [refuse, Edit.bind_eq_ok, Edit.throw_eq_ok] at he
    obtain ⟨_, _, _, _, _, _, ⟨⟩⟩ := he
  simp only [resize, Edit.bind_eq_ok, Edit.ask_eq_ok] at he
  obtain ⟨t, _, ⟨ht, rfl⟩, he⟩ := he
  split at he
  · next n =>
    split at he
    · next hn =>
      obtain ⟨rfl, rfl⟩ := Edit.pure_eq_ok.mp he
      exact .same ht hn rfl rfl
    next hn =>
    simp only [Edit.bind_eq_ok, Edit.ask_eq_ok] at he
    obtain ⟨⟨y, m⟩, _, ⟨hy, rfl⟩, he⟩ := he
    dsimp only at he
    split at he
    · next hm =>
      have hm : m = w := hm
      subst hm
      obtain ⟨rfl, rfl⟩ := Edit.pure_eq_ok.mp he
      exact .source ht hn hy rfl rfl
    next hm =>
    split at he
    · next c hc =>
      obtain ⟨rfl, rfl⟩ := Edit.pure_eq_ok.mp he
      exact .const ht hn hy hm hc rfl rfl
    next hc =>
    have hc : y.intConst? = none := by
      cases hy : y.intConst? with
      | none => rfl
      | some c => exact absurd hy (hc c)
    split at he
    · simp only [Edit.bind_eq_ok, Edit.ask_eq_ok, Func.instr_eq_ok] at he
      obtain ⟨j, _, ⟨hj, rfl⟩, he⟩ := he
      split at he
      · next hop =>
        simp only [Edit.bind_eq_ok, Edit.ask_eq_ok, Edit.insertAt, Edit.change_eq_ok, Edit.pure_eq_ok] at he
        obtain ⟨k, _, ⟨hk, rfl⟩, u, _, hu, rfl, rfl⟩ := he
        exact .cast ht hn hy hm hc rfl (.phi rfl hj hop hk hu)
      · next hop =>
        simp only [Edit.bind_eq_ok, Edit.insertAfter, Edit.change_eq_ok, Edit.pure_eq_ok] at he
        obtain ⟨u, _, hu, rfl, rfl⟩ := he
        exact .cast ht hn hy hm hc rfl (.after rfl hj hop hu)
    · simp only [Edit.bind_eq_ok, Edit.ask_eq_ok, Edit.get_eq_ok, Edit.insertAt, Edit.change_eq_ok,
        Edit.pure_eq_ok] at he
      obtain ⟨_, _, ⟨rfl, rfl⟩, k, _, ⟨hk, rfl⟩, u, _, hu, rfl, rfl⟩ := he
      exact .cast ht hn hy hm hc rfl (.arg rfl hk hu)
    · exact absurd he hrefuse
  · exact absurd he hrefuse
/-- Where a new cast of `v` stands: behind `v` and before whatever else `v` is available at. -/
theorem Placed.inserts (hg : g.HasDominance scope d) {v : Value} {op : Op} {u : Int}
    (h : Placed g v op w u g') (hv : ∀ p, v = .instr p → g.Computes p) (hphi : op ≠ .phi)
    (hterm : op.isTerminator = false) :
    ∃ (n : Nat) (l r : List Int) (i : Instr), g.Inserts u g' n l r i ∧ i.op = op ∧ i.ty = .int w ∧
      i.operands = [v] ∧ i.targets = [] ∧ (∀ p, v = .instr p → p ∈ l) ∧
        ∀ (c : Int) (y : Nat), g.Stands y c → d.dom.isReachable y = true → g.opOf c ≠ .phi →
          g.Available d v c → n ≠ y ∧ d.dom.dominates n y = true ∨ n = y ∧ c ∈ r := by
  have hbody : ∀ {y : Nat} {c : Int} {blk : Block}, g.block? y = some blk → c ∈ blk.instrs →
      g.bodyOf y = blk.instrs := fun hblk _ => by simp [Func.bodyOf, hblk]
  cases h with
  | @after id j pos he hj hop hins =>
    obtain ⟨⟨y, hy⟩, hidterm⟩ := hv id he
    subst he
    obtain ⟨b, l, r, h⟩ := Func.inserts_of_insertAfter hg.wf hins hphi (by rwa [Func.opOf_eq hj]) hidterm hterm
    obtain ⟨n, rfl, _⟩ := h.stands_self.nat
    have hid : g.Stands n id := Func.stands_iff.mpr (by simp [h.body_without])
    refine ⟨n, l ++ [id], r, _, h, rfl, rfl, rfl, rfl, by rintro _ ⟨⟩; simp, ?_⟩
    intro c y hc _ _ havail
    obtain ⟨blk, hblk, hmem⟩ := hc
    refine ((hg.wf.precedes_iff hid hblk hmem).mp (havail id rfl).2).imp_right ?_
    rintro ⟨rfl, hsub⟩
    have hnodup := (hg.wf.block _ _ hblk).body.nodup
    rw [← hbody hblk hmem, h.body_without, List.append_assoc, List.singleton_append] at hsub hnodup
    exact ⟨rfl, (Func.pair_sublist_iff_mem_right hnodup).mp hsub⟩
  | @phi id j k pos he hj hop hk hins =>
    obtain ⟨⟨y, hy⟩, _⟩ := hv id he
    subst he
    rw [hg.wf.home_eq hy hj, Option.getD_some] at hk hins
    obtain ⟨l, r, h, hl, hr⟩ := Func.inserts_of_firstNonPhi hg.wf hk hins hphi hterm
    obtain ⟨n, rfl, _⟩ := hy.nat
    have hid : id ∈ l := by
      have := Func.stands_iff.mp hy
      rw [h.body_without, List.mem_append] at this
      exact this.resolve_right fun hmem => hr id hmem (by rw [Func.opOf_eq hj, hop])
    refine ⟨n, l, r, _, h, rfl, rfl, rfl, rfl, by rintro _ ⟨⟩; exact hid, ?_⟩
    intro c y hc _ hcphi havail
    have hcs := hc
    obtain ⟨blk, hblk, hmem⟩ := hc
    refine ((hg.wf.precedes_iff hy hblk hmem).mp (havail id rfl).2).imp_right ?_
    rintro ⟨rfl, _⟩
    have := Func.stands_iff.mp hcs
    rw [h.body_without, List.mem_append] at this
    exact ⟨rfl, this.resolve_left fun hmem => hcphi (hl c hmem)⟩
  | @arg a k he hk hins =>
    subst he
    rw [hg.wf.entry_eq.1, Option.getD_some] at hk hins
    obtain ⟨l, r, h, hl, hr⟩ := Func.inserts_of_firstNonPhi hg.wf hk hins hphi hterm
    refine ⟨g.entryNode, l, r, _, h, rfl, rfl, rfl, rfl, by rintro _ ⟨⟩, ?_⟩
    intro c y hc hreach hcphi _
    by_cases hy : g.entryNode = y
    · subst hy
      have := Func.stands_iff.mp hc
      rw [h.body_without, List.mem_append] at this
      exact .inr ⟨rfl, this.resolve_left fun hmem => hcphi (hl c hmem)⟩
    · refine .inl ⟨hy, hg.dominates_iff.mpr ⟨hg.isReachable_iff.mp hreach, fun _ walk => walk.start_mem⟩⟩

/-- No sign extension is of a true bit. -/
def ExtendsNoTrueBit (g : Func) : Prop :=
  ∀ b id i, g.Stands b id → g.instr? id = some i → i.op = .sext → ∀ c, Value.int (some .i1) c ∈ i.operands →
    c = 0

def noTrueBits (g : Func) : Bool :=
  g.instrs.all fun i => i.op != .sext || i.operands.all fun
    | .int (some .i1) c => c = 0
    | _ => true

theorem extendsNoTrueBit_of_holds (h : noTrueBits g = true) : ExtendsNoTrueBit g := by
  intro b id i _ hi hop c hc
  simp only [noTrueBits, Array.all_eq_true', List.all_eq_true, Bool.or_eq_true, bne_iff_ne] at h
  simpa using (h i (Func.mem_of_instr? hi)).resolve_left (not_not.mpr hop) _ hc

theorem source_cases {v y : Value} (h : source g v n (.int w) = .ok (y, m)) :
    (y = v ∧ m = n) ∨ ∃ q i, v = .instr q ∧ g.instr? q = some i ∧ i.op.isCast = true ∧
      i.operands[0]? = some y ∧ g.typeOf y = .ok (some (.int m)) ∧
        (m = w ∨ i.op = .sext ∨ i.op = .trunc) := by
  have hself : ∀ {v : Value}, (pure (v, n) : Checked (Value × Nat)) = .ok (y, m) → y = v ∧ m = n := by
    intro v he
    cases he
    exact ⟨rfl, rfl⟩
  unfold source at h
  split at h
  · next id =>
    simp only [Checked.bind_eq_ok, Func.instr_eq_ok] at h
    obtain ⟨i, hi, h⟩ := h
    split at h
    · exact .inl (hself h)
    next hcast =>
    simp only [Checked.bind_eq_ok] at h
    obtain ⟨src, hsrc, t, ht, h⟩ := h
    split at h
    · next sb =>
      split at h
      · next hop =>
        cases h
        refine .inr ⟨id, i, rfl, hi, by simpa using hcast, (element_eq_ok (n := 0)).mp hsrc, ht, ?_⟩
        simp only [Bool.or_eq_true, decide_eq_true_eq, or_assoc] at hop
        exact hop
      · exact .inl (hself h)
    · exact .inl (hself h)
  · exact .inl (hself h)

inductive SourceCase (g : Func) (w n : Nat) (v y : Value) (m : Nat) : Prop
  | self : y = v → m = n → SourceCase g w n v y m
  | trunc {q : Int} {i : Instr} : v = .instr q → g.instr? q = some i → i.op = .trunc → i.ty = .int n →
      i.operands = [y] → n < m → SourceCase g w n v y m
  | sext {q : Int} {i : Instr} : v = .instr q → g.instr? q = some i → i.op = .sext → i.ty = .int n →
      i.operands = [y] → m < n → SourceCase g w n v y m
  | zext {q : Int} {i : Instr} : v = .instr q → g.instr? q = some i → i.op = .zext → i.ty = .int n →
      i.operands = [y] → m < n → m = w → SourceCase g w n v y m

/-- Casts have one operand and change the width of an integer as they are meant to. -/
def CastsAgree (g : Func) : Prop :=
  ∀ b q i, g.Stands b q → g.instr? q = some i → i.op.isCast = true → ∃ y, i.operands = [y] ∧
    ∀ m n, g.typeOf y = .ok (some (.int m)) → i.ty = .int n →
      (i.op = .trunc → n < m) ∧ (i.op = .sext ∨ i.op = .zext → m < n) ∧ (isResize i.op = false → n = m)

theorem castsAgree_of_wellTyped (hg : g.WellTyped) : CastsAgree g := by
  intro b q i hb hi hcast
  have htyped := (hg.instr b q i hb hi).2
  by_cases htrunc : i.op = .trunc
  · obtain ⟨y, t, hy, ht, hwidth⟩ := (Func.typed_trunc htrunc).mp htyped
    refine ⟨y, hy, fun m n hm hn => ⟨fun _ => ?_, by simp [htrunc], by simp [htrunc, isResize]⟩⟩
    obtain ⟨k, rfl, hlt⟩ := hwidth n hn
    rw [ht.typeOf] at hm
    cases hm
    exact hlt
  by_cases hextend : i.op = .sext ∨ i.op = .zext
  · obtain ⟨y, t, hy, ht, hwidth⟩ := (Func.typed_extend hextend).mp htyped
    refine ⟨y, hy, fun m n hm hn => ⟨fun he => absurd he htrunc, fun _ => ?_, fun he => ?_⟩⟩
    · obtain ⟨k, rfl, hlt⟩ := hwidth n hn
      rw [ht.typeOf] at hm
      cases hm
      exact hlt
    · rcases hextend with hop | hop <;> simp [hop, isResize] at he
  obtain ⟨y, t, hy, ht, hwidth⟩ :=
    htyped.other_cast hcast htrunc (fun he => hextend (.inl he)) fun he => hextend (.inr he)
  refine ⟨y, hy, fun m n hm hn => ⟨fun he => absurd he htrunc, fun he => absurd he hextend, fun _ => ?_⟩⟩
  rw [ht.typeOf] at hm
  cases hm
  exact hwidth n m hn rfl

theorem sourceCase (hg : CastsAgree g) {v y : Value} (hv : ∀ q, v = .instr q → ∃ b, g.Stands b q)
    (hty : g.typeOf v = .ok (some (.int n))) (hn : n ≠ w) (h : source g v n (.int w) = .ok (y, m)) :
    SourceCase g w n v y m ∧ g.typeOf y = .ok (some (.int m)) := by
  rcases source_cases h with ⟨rfl, rfl⟩ | ⟨q, i, rfl, hi, hcast, hy, ht, hop⟩
  · exact ⟨.self rfl rfl, hty⟩
  obtain ⟨b, hb⟩ := hv q rfl
  obtain ⟨y', hops, hwidth⟩ := hg b q i hb hi hcast
  rw [hops] at hy
  cases hy
  have hty : i.ty = .int n := by simpa [Func.typeOf, Func.instr_eq_ok.mpr hi] using hty
  obtain ⟨htrunc, hextend, hother⟩ := hwidth m n ht hty
  refine ⟨?_, ht⟩
  by_cases hop1 : i.op = .trunc
  · exact .trunc rfl hi hop1 hty hops (htrunc hop1)
  by_cases hop2 : i.op = .sext
  · exact .sext rfl hi hop2 hty hops (hextend (.inl hop2))
  have hm : m = w := hop.resolve_right (by simp [hop1, hop2])
  by_cases hop3 : i.op = .zext
  · exact .zext rfl hi hop3 hty hops (hextend (.inr hop3)) hm
  -- Any other cast between integers keeps the width.
  have hresize : isResize i.op = false := by
    unfold isResize
    split <;> simp_all
  exact absurd ((hother hresize).trans hm) hn

theorem hasTy_source (hg : g.WellTyped) {v y : Value} (hv : g.HasTy v (.int n)) (hn : n ≠ w)
    (h : source g v n (.int w) = .ok (y, m)) : SourceCase g w n v y m ∧ g.HasTy y (.int m) := by
  have hstands : ∀ q, v = .instr q → ∃ b, g.Stands b q := by
    rintro q rfl
    exact hv.1.1
  obtain ⟨hsrc, hy⟩ := sourceCase (castsAgree_of_wellTyped hg) hstands hv.typeOf hn h
  have hmem : ∀ {q i}, v = .instr q → g.instr? q = some i → i.operands = [y] → g.HasTy y (.int m) := by
    intro q i he hi hops
    obtain ⟨b, hb⟩ := hstands q he
    obtain ⟨t, ht⟩ := hg.operand b q i hb hi y (by simp [hops])
    rw [ht.typeOf] at hy
    cases hy
    exact ht
  refine ⟨hsrc, ?_⟩
  cases hsrc with
  | self he hm => exact he ▸ hm ▸ hv
  | trunc he hi _ _ hops => exact hmem he hi hops
  | sext he hi _ _ hops => exact hmem he hi hops
  | zext he hi _ _ hops => exact hmem he hi hops

structure NarrowOf (d : DomInfo) (g g' : Func) (w : Nat) (v v' : Value) : Prop where
  resized : Resized g' w v v'
  hasTy : g'.HasTy v' (.int w)
  available : ∀ {c : Int} {b : Nat}, g.Stands b c → d.dom.isReachable b = true → g.opOf c ≠ .phi →
    g.Available d v c → g'.Available d v' c

structure ResizesTo (scope : Option Symbols) (d : DomInfo) (g : Func) (w : Nat) (v v' : Value)
    (g' : Func) : Prop where
  proper : g'.Proper scope d
  adds : AddsCasts d g g'
  only : ∀ {b c : Int}, g'.Stands b c → g.Stands b c ∨ v' = .instr c
  narrow : NarrowOf d g g' w v v'

theorem SourceCase.available (hg : g.HasDominance scope d)
    (hssa : g.InSsaForm d fun b => d.dom.isReachable b = true) {v y : Value}
    (h : SourceCase g w n v y m) {c : Int} {b : Nat} (hc : g.Stands b c) (hb : d.dom.isReachable b = true) (hv : g.Available d v c) :
    g.Available d y c := by
  cases h with
  | self he => exact he ▸ hv
  | trunc he hi hop _ hops =>
    exact available_operand hg hssa hi (by rw [hop]; decide) (by simp [hops]) hc hb (he ▸ hv)
  | sext he hi hop _ hops =>
    exact available_operand hg hssa hi (by rw [hop]; decide) (by simp [hops]) hc hb (he ▸ hv)
  | zext he hi hop _ hops =>
    exact available_operand hg hssa hi (by rw [hop]; decide) (by simp [hops]) hc hb (he ▸ hv)

/-- Taking the low bits of what `v` is a cast of. A truncation keeps enough bits, unless a value that is
no cast is extended. -/
theorem SourceCase.resized {v v' y : Value} (h : SourceCase g w n v y m)
    (hle : w ≤ n ∨ ∀ q, v = .instr q → (g.opOf q).isCast = false) (hy : g.HasTy y (.int m))
    (hcut : Cut g w y v') (hzext : m = w → v' = y) : Resized g w v v' := by
  cases h with
  | self he => exact .direct (he ▸ hcut)
  | trunc he hi hop hty hops _ =>
    refine .trunc he hi hop hty (hle.resolve_right fun hcast => ?_) hops hcut
    have := hcast _ he
    rw [Func.opOf_eq hi, hop] at this
    cases this
  | sext he hi hop hty hops hlt => exact .sext he hi hop hty hops hy hlt.le hcut
  | zext he hi hop hty hops hlt hm => exact .zext he hi hop hty hops (hm ▸ hy) (hm ▸ hlt.le) (hzext hm)

theorem SourceCase.mono {v y : Value} (h : SourceCase g w n v y m)
    (hinstr : ∀ {q i}, v = .instr q → g.instr? q = some i → g'.instr? q = some i) :
    SourceCase g' w n v y m := by
  cases h with
  | self he hm => exact .self he hm
  | trunc he hi hop hty hops hlt => exact .trunc he (hinstr he hi) hop hty hops hlt
  | sext he hi hop hty hops hlt => exact .sext he (hinstr he hi) hop hty hops hlt
  | zext he hi hop hty hops hlt hm => exact .zext he (hinstr he hi) hop hty hops hlt hm

/-- A constant that is taken the low bits of. A bit is one here only if it was extended, and then it is
zero. -/
theorem SourceCase.const_fits (hg : g.Proper scope d) (hbit : ExtendsNoTrueBit g) {v : Value} {c : Int64}
    (hv : g.HasTy v (.int n)) (hcase : w < n ∧ w < 64 ∨ ∃ q, v = .instr q ∧ (g.opOf q).isCast = false)
    (hw : 1 ≤ w) (h : SourceCase g w n v (.int (some (.int m)) c) m) (hm : m ≠ w) :
    w < 64 ∧ (m = 1 → c = 0) := by
  have hcast : ∀ {q : Int} {i : Instr}, v = .instr q → g.instr? q = some i → i.op.isCast = true → w < 64 := by
    rintro q i rfl hi hop
    rcases hcase with ⟨_, h64⟩ | ⟨q', he, hq⟩
    · exact h64
    · cases he
      rw [Func.opOf_eq hi, hop] at hq
      cases hq
  cases h with
  | self he hmn =>
    subst he hmn
    rcases hcase with ⟨hlt, h64⟩ | ⟨q, he, _⟩
    · exact ⟨h64, by omega⟩
    · cases he
  | trunc he hi hop _ _ hlt =>
    have := (hg.typed.valid_of_hasTy hv).1
    exact ⟨hcast he hi (by rw [hop]; rfl), by omega⟩
  | sext he hi hop _ hops =>
    refine ⟨hcast he hi (by rw [hop]; rfl), ?_⟩
    rintro rfl
    subst he
    obtain ⟨⟨⟨b, hb⟩, _⟩, _⟩ := hv
    exact hbit b _ _ hb hi hop c (by rw [hops]; exact List.mem_singleton_self _)
  | zext _ _ _ _ _ _ hmw => exact absurd hmw hm

theorem resize_spec (hg : g.Proper scope d) (hbit : ExtendsNoTrueBit g) {v v' : Value}
    (hv : g.HasTy v (.int n)) (hw : (Ty.int w).Valid)
    (hcase : w < n ∧ w < 64 ∨ ∃ q, v = .instr q ∧ (g.opOf q).isCast = false)
    (he : (resize scope v (.int w)).run g = .ok v' g') : ResizesTo scope d g w v v' g' := by
  have hle : w ≤ n ∨ ∀ q, v = .instr q → (g.opOf q).isCast = false := by
    rcases hcase with ⟨hlt, _⟩ | ⟨q, rfl, hq⟩
    · exact .inl hlt.le
    · exact .inr (by rintro _ ⟨⟩; exact hq)
  have hwidth : ∀ {k : Nat}, g.typeOf v = .ok (some (.int k)) → k = n := by
    intro k hk
    rw [hv.typeOf] at hk
    cases hk
    rfl
  cases resize_cases he with
  | same ht hn hv' hg' =>
    subst hv' hg'
    have hv : g'.HasTy v' (.int w) := by rw [← hn, hwidth ht]; exact hv
    exact ⟨hg, .refl g', .inl, .direct (.same hv), hv, fun _ _ _ h => h⟩
  | source ht hn hsource hv' hg' =>
    cases hwidth ht
    subst hv' hg'
    obtain ⟨hsrc, hy⟩ := hasTy_source hg.typed hv hn hsource
    exact ⟨hg, .refl g', .inl, hsrc.resized hle hy (.same hy) fun _ => rfl, hy,
      fun hc hb _ => hsrc.available hg.toHasDominance hg.ssa hc hb⟩
  | @const _ m y c ht hn hsource hm hc hv' hg' =>
    cases hwidth ht
    subst hv' hg'
    obtain ⟨hsrc, hy⟩ := hasTy_source hg.typed hv hn hsource
    obtain ⟨ty, rfl⟩ : ∃ ty, y = .int ty c := by
      cases y <;> simp_all [Value.intConst?]
    obtain ⟨rfl, hvalid, hfits⟩ := hy
    obtain ⟨hw64, hbit⟩ := hsrc.const_fits hg hbit hv hcase hw.1 hm
    refine ⟨hg, .refl g', .inl, hsrc.resized hle ⟨rfl, hvalid, hfits⟩ (.const hw64 hbit)
      fun h => absurd h hm, ⟨rfl, hw, .inr ?_⟩, fun _ _ _ _ => by rintro _ ⟨⟩⟩
    rw [toInt_lowBits hw64]
    exact Ty.holds_toInt _
  | @cast _ m y u ht hn hsource hm hc hv' hplaced =>
    cases hwidth ht
    subst hv'
    obtain ⟨hsrc, hy⟩ := hasTy_source hg.typed hv hn hsource
    have hop : (if m > w then Op.trunc else Op.sext) = .trunc ∧ w < m ∨
        (if m > w then Op.trunc else Op.sext) = .sext ∧ m < w := by
      by_cases hlt : m > w
      · exact .inl ⟨if_pos hlt, hlt⟩
      · exact .inr ⟨if_neg hlt, by omega⟩
    obtain ⟨k, l, r, i, hins, hiop, hty, hops, htargets, hleft, hright⟩ := hplaced.inserts hg.toHasDominance
      (fun p hp => (hp ▸ hy : g.HasTy (.instr p) _).1) (by split <;> decide) (by split <;> rfl)
    obtain ⟨hproper, hadds, hasTy, hcut⟩ :=
      cast_inserted hg hins hy hc hops htargets hty hw (hiop.symm ▸ hop) hleft
    refine ⟨hproper, hadds, fun {b c} hb => ?_, ?_, hasTy, ?_⟩
    · by_cases hcu : c = u
      · exact .inr (by rw [hcu])
      · exact .inl (hins.stands.mpr ⟨hb, hcu⟩)
    · have hsrc' := hsrc.mono fun he hi => hadds.instr_of_hasTy (he ▸ hv) ▸ hi
      refine hsrc'.resized (hle.imp_right fun hcast q hq => ?_) (hadds.hasTy hy) hcut fun h => absurd h hm
      subst hq
      obtain ⟨⟨⟨b, hb⟩, _⟩, _⟩ := hv
      rw [hadds.opOf hb]
      exact hcast q rfl
    · intro c b hcs hb hphi havail p hp
      cases hp
      refine ⟨hins.computes_self, (hins.self_precedes rfl hproper.wf (hins.stands.mp hcs).1).mpr ?_⟩
      exact hright c b hcs hb hphi (hsrc.available hg.toHasDominance hg.ssa hcs hb havail)

end RegPressure.Narrow
