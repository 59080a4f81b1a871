import RegPressure.Proofs.ValueRange.Assumed
import RegPressure.Proofs.ValueRange.Transfer

namespace RegPressure.ValueRange

variable {scope : Option Symbols} {f : Func} {d : DomInfo} {k : Context}

def Bounds (f : Func) (id : Int) (r : Interval) : Prop :=
  ∀ W : World, W.Fits f → ∀ s e t rest, Reached W f s → s.rest = id :: rest →
    (f.opOf id).isTerminator = false → Step W f s e t → r.Has (t.env id)

def BoundsAt (f : Func) (d : DomInfo) (v : Value) (site : Int) (r : Interval) : Prop :=
  ∀ W : World, W.Fits f → ∀ s rest, Reached W f s → s.rest = site :: rest →
    (∀ p, v = .instr p → f.Computes p ∧ f.Precedes d p site) → ∀ x, Reads W s.env v x → r.Has x

theorem Bounds.available (h : f.Proper scope d) {id : Int} {r : Interval} (hr : Bounds f id r)
    (site : Int) : BoundsAt f d (.instr id) site r := by
  intro W hW s rest hs hrest hv x hx
  obtain ⟨hc, hprec⟩ := hv id rfl
  have hk : s.Knows f d fun p env => p = id → r.Has (env p) := by
    refine hs.knows h.toHasDominance ?_ ?_
    · intro p env env' _ hagree hQ hp
      rw [← hagree p (.inl rfl)]
      exact hQ hp
    · rintro s e t c rest hs _ hrest hterm hst rfl
      exact hr W hW s e t rest hs hrest hterm hst
  cases hx
  exact hk.available h.toHasDominance hs.located hrest hc hprec rfl

theorem bounds_full (h : f.Proper scope d) {id b : Int} {i : Instr} {n : Nat} (hb : f.Stands b id)
    (hi : f.instr? id = some i) (hty : i.ty = .int n) : Bounds f id (.full n) := by
  intro W hW s e t rest hs hrest hc hst
  have hvalid := (h.typed.instr b id i hb hi).1
  rw [hty] at hvalid
  rw [Interval.has_full hvalid.1 hvalid.2, ← hty]
  exact hst.ofType h hW hs (hs.ofType h hW) hrest hc i hi

def Good (f : Func) (id : Int) (r : Interval) : Prop :=
  ∀ b i n, f.Stands b id → f.instr? id = some i → i.ty = .int n → Interval.Of n r ∧ Bounds f id r

structure RightAt (f : Func) (d : DomInfo) (v : Value) (site : Int) (r : Interval) : Prop where
  available : BoundsAt f d v site r
  own : v = .instr site → Bounds f site r

/-- What may be answered for a value at an instruction, or anywhere. -/
def Answers (f : Func) (d : DomInfo) (v : Value) (site : Option Int) (r : Interval) : Prop :=
  ∀ n, f.HasTy v (.int n) → Interval.Of n r ∧ ∀ c, site = some c → RightAt f d v c r

def Memo.Good (f : Func) (m : Memo) : Prop :=
  ∀ id r, 0 ≤ id → m.get? id = some r → ValueRange.Good f id r

theorem good_of {id : Int} {i : Instr} {n : Nat} {r : Interval} (hi : f.instr? id = some i)
    (hty : i.ty = .int n) (h : ∀ b, f.Stands b id → Interval.Of n r ∧ Bounds f id r) : Good f id r := by
  intro b j m hb hj hm
  rw [hi] at hj
  cases hj
  rw [hty] at hm
  cases hm
  exact h b hb

theorem good_full (h : f.Proper scope d) {id : Int} {i : Instr} {n : Nat}
    (hi : f.instr? id = some i) (hty : i.ty = .int n) : Good f id (.full n) := by
  refine good_of hi hty fun b hb => ?_
  have hvalid := (h.typed.instr b id i hb hi).1
  rw [hty] at hvalid
  exact ⟨Interval.of_full hvalid.1 hvalid.2, bounds_full h hb hi hty⟩

theorem Memo.get?_empty (id : Int) : (Memo.empty f).get? id = none := by
  simp only [Memo.get?, Memo.empty, Array.getD_eq_getD_getElem?, Array.getElem?_replicate]
  split <;> rfl

theorem Memo.get?_set {m : Memo} {id x : Int} {r q : Interval} (hid : 0 ≤ id) (hx : 0 ≤ x)
    (h : (m.set id r).get? x = some q) : (x = id ∧ q = r) ∨ m.get? x = some q := by
  by_cases he : x = id
  · subst he
    by_cases hlt : x.toNat < m.known.size
    · simp [Memo.get?, Memo.set, Array.getD_eq_getD_getElem?, hlt] at h
      exact .inl ⟨rfl, h.symm⟩
    · simp [Memo.get?, Memo.set, Array.getD_eq_getD_getElem?, hlt] at h
  · have hne : id.toNat ≠ x.toNat := by omega
    refine .inr ?_
    simpa [Memo.get?, Memo.set, Array.getD_eq_getD_getElem?, Array.getElem?_setIfInBounds, hne]
      using h

theorem Memo.good_empty : (Memo.empty f).Good f := fun id r _ h => by
  rw [Memo.get?_empty] at h
  cases h

theorem Memo.Good.set {m : Memo} (hm : m.Good f) {id : Int} {r : Interval} (hid : 0 ≤ id)
    (hr : ValueRange.Good f id r) : (m.set id r).Good f := by
  intro x q hx hq
  rcases Memo.get?_set hid hx hq with ⟨rfl, rfl⟩ | hq
  · exact hr
  · exact hm x q hx hq

def Ensures {α : Type} (f : Func) (fine : Prop) (x : RangeM α) (P : α → Prop) : Prop :=
  ∀ m : Memo, m.Good f →
    match x m with
    | .ok (a, m') => m'.Good f ∧ P a
    | .error _ => ¬ fine

namespace Ensures

variable {α β : Type} {fine : Prop} {P : α → Prop} {Q : β → Prop} {x : RangeM α}

theorem pure {a : α} (h : P a) : Ensures f fine (Pure.pure a) P := fun _ hm => ⟨hm, h⟩

theorem bind {g : α → RangeM β} (hx : Ensures f fine x P) (hg : ∀ a, P a → Ensures f fine (g a) Q) :
    Ensures f fine (x >>= g) Q := by
  intro m hm
  have hxm := hx m hm
  simp only [Bind.bind, StateT.bind, Except.bind]
  cases he : x m with
  | error e =>
    rw [he] at hxm
    exact hxm
  | ok p =>
    obtain ⟨a, m'⟩ := p
    rw [he] at hxm
    exact hg a hxm.2 m' hxm.1

theorem lift {c : Checked α} (hfine : fine → ∃ a, c = .ok a) (h : ∀ a, c = .ok a → P a) :
    Ensures f fine (liftM c : RangeM α) P := by
  intro m hm
  cases c with
  | error e =>
    rintro hf
    obtain ⟨a, ha⟩ := hfine hf
    cases ha
  | ok a => exact ⟨hm, h a rfl⟩

theorem mono {P' : α → Prop} (hx : Ensures f fine x P) (h : ∀ a, P a → P' a) : Ensures f fine x P' := by
  intro m hm
  have hxm := hx m hm
  split at hxm
  · exact ⟨hxm.1, h _ hxm.2⟩
  · exact hxm

theorem weaken {fine' : Prop} (hx : Ensures f fine x P) (hf : fine' → fine) :
    Ensures f fine' x P := by
  intro m hm
  have hxm := hx m hm
  split at hxm
  · exact hxm
  · exact fun h => hxm (hf h)

theorem getMemo : Ensures f fine (get : RangeM Memo) fun m => m.Good f := fun _ hm => ⟨hm, hm⟩

theorem remember {g : Memo → Memo} (hg : ∀ m, m.Good f → (g m).Good f) :
    Ensures f fine (modify g : RangeM PUnit) fun _ => True := fun m hm => ⟨hg m hm, trivial⟩

end Ensures

theorem Context.of_eq (hk : Context.of f (some d) = .ok k) : k.func = f ∧ k.dom = some d ∧ factsOf f = .ok k.facts := by
  simp only [Context.of, Option.isSome_some, if_true, Checked.bind_eq_ok, Checked.pure_eq_ok] at hk
  obtain ⟨facts, hfacts, rfl⟩ := hk
  exact ⟨rfl, rfl, hfacts⟩

theorem eq_of_sameAs {u v : Value} {n : Nat} (hv : f.HasTy v (.int n)) (h : u.sameAs v = true) :
    u = v := by
  unfold Value.sameAs at h
  split at h
  · rw [beq_iff_eq.mp h]
  · rw [beq_iff_eq.mp h]
  · rw [beq_iff_eq.mp h]
  · simp only [Bool.and_eq_true, beq_iff_eq] at h
    rw [h.1, h.2]
  · exact absurd hv.2 nofun
  · rfl
  · rw [beq_iff_eq.mp h]
  · rw [beq_iff_eq.mp h]
  · cases h

section Transfer

variable {W : World} {s : State} {id : Int} {rest : List Int} {i : Instr} {n : Nat}

theorem operand_has (h : f.Proper scope d) (hW : W.Fits f) (hs : Reached W f s)
    (hrest : s.rest = id :: rest) (hi : f.instr? id = some i) (hphi : i.op ≠ .phi) {v : Value}
    (hv : v ∈ i.operands) {r : Interval} (hr : BoundsAt f d v id r) {x : Int}
    (hx : Reads W s.env v x) : r.Has x := by
  refine hr W hW s rest hs hrest (fun p hp => ?_) x hx
  subst hp
  exact h.ssa.uses s.block id i p (h.isReachable_iff.mpr hs.located.reaches) (hs.located.stands hrest)
    hi hphi hv

theorem binary_good (h : f.Proper scope d) {g : Interval → Interval → Interval}
    (hi : f.instr? id = some i) (hty : i.ty = .int n) (hn : n ≤ 64) (hg : binary? i.op = some g)
    {r q : Interval} (hr : ∀ v, i.operands[0]? = some v → Answers f d v (some id) r)
    (hq : ∀ v, i.operands[1]? = some v → Answers f d v (some id) q) : Good f id (g r q) := by
  refine good_of hi hty fun b hb => ?_
  have hop := isArith_of_binary? hg
  have hphi : i.op ≠ .phi := by
    intro e
    rw [e] at hop
    cases hop
  obtain ⟨hvalid, htyped⟩ := h.typed.instr b id i hb hi
  rw [hty] at hvalid
  obtain ⟨u, v, hops, hu, hv⟩ := (Func.typed_arith hop).mp htyped
  rw [hty] at hu hv
  obtain ⟨hrof, hrat⟩ := hr u (by simp [hops]) n hu
  obtain ⟨hqof, hqat⟩ := hq v (by simp [hops]) n hv
  refine ⟨of_binary? hvalid.1 hn hg hrof hqof, ?_⟩
  intro W hW s e t rest hs hrest hc hst
  -- Whatever numbers the operands are, they lie in their intervals.
  have hhas : ∀ {x y : Int}, List.Forall₂ (Reads W s.env) i.operands [x, y] →
      r.Has (BitVec.ofInt n x).toInt ∧ q.Has (BitVec.ofInt n y).toInt := by
    intro x y hvals
    rw [hops, List.forall₂_cons, List.forall₂_cons] at hvals
    have hx := operand_has h hW hs hrest hi hphi (by simp [hops]) (hrat id rfl).available hvals.1
    have hy := operand_has h hW hs hrest hi hphi (by simp [hops]) (hqat id rfl).available hvals.2.1
    rw [ofInt_toInt_of_holds hvalid.1 (hrof.holds hx), ofInt_toInt_of_holds hvalid.1 (hqof.holds hy)]
    exact ⟨hx, hy⟩
  obtain ⟨_, vals, hvals, hgives | ⟨_, ⟨_, m, x, y, hm, rfl, hnone⟩, hholds⟩⟩ :=
    (result_iff (Op.isPure_of_isArith hop)).mp (hst.result hrest hc hi)
  · obtain ⟨x, y, z, rfl, hz, hsome⟩ := (gives_arith hop hty).mp hgives
    rw [hz]
    exact binary?_has hvalid.1 hn hg hrof hqof (hhas hvals).1 (hhas hvals).2 (.inl hsome)
  · rw [hty] at hm hholds
    cases hm
    rw [← ofInt_toInt_of_holds hvalid.1 hholds]
    exact binary?_has hvalid.1 hn hg hrof hqof (hhas hvals).1 (hhas hvals).2 (.inr hnone)

theorem resize?_eq_some {op : Op} {g : Interval → Int → Interval} :
    resize? op = some g ↔ op = .trunc ∧ g = .trunc ∨ op = .sext ∧ g = .sext ∨
      op = .zext ∧ g = .zext := by
  cases op <;> simp [resize?, eq_comm]

theorem operand_of_resize? {g : Interval → Int → Interval} (hg : resize? i.op = some g)
    (hty : i.ty = .int n) (htyped : f.Typed i) :
    ∃ u m, i.operands = [u] ∧ f.HasTy u (.int m) ∧ if i.op = .trunc then n < m else m < n := by
  rcases resize?_eq_some.mp hg with ⟨hop, _⟩ | hext
  · obtain ⟨u, t, hops, hu, hwidth⟩ := (Func.typed_trunc hop).mp htyped
    obtain ⟨m, rfl, hm⟩ := hwidth n hty
    exact ⟨u, m, hops, hu, by rwa [if_pos hop]⟩
  · have hop : i.op = .sext ∨ i.op = .zext := hext.imp And.left And.left
    obtain ⟨u, t, hops, hu, hwidth⟩ := (Func.typed_extend hop).mp htyped
    obtain ⟨m, rfl, hm⟩ := hwidth n hty
    exact ⟨u, m, hops, hu, by rwa [if_neg (by rcases hop with h | h <;> rw [h] <;> decide)]⟩

theorem bounds_of_resize? (h : f.Proper scope d) {g : Interval → Int → Interval}
    (hi : f.instr? id = some i) (hg : resize? i.op = some g) {u : Value} {m : Nat}
    (hops : i.operands = [u]) (hu : f.HasTy u (.int m)) {r q : Interval} (hof : Interval.Of m r)
    (hr : RightAt f d u id r) (hgives : ∀ W a x, r.Has a → (Ty.int m).Holds a →
      Gives W (some m) i [a] x → q.Has x) : Bounds f id q := by
  have hop : i.op.isPure = true ∧ i.op.isArith = false ∧ i.op ≠ .phi := by
    rcases resize?_eq_some.mp hg with ⟨hop, _⟩ | ⟨hop, _⟩ | ⟨hop, _⟩ <;> rw [hop] <;> decide
  intro W hW s e t rest hs hrest hc hst
  obtain ⟨_, vals, hvals, hresult⟩ :=
    (result_iff_gives hop.1 hop.2.1).mp (hst.result hrest hc hi)
  rw [Func.widthOf_eq hops hu] at hresult
  rw [hops] at hvals
  cases hvals with
  | cons ha hnil =>
    cases hnil
    have ha := operand_has h hW hs hrest hi hop.2.2 (by simp [hops]) hr.available ha
    exact hgives W _ _ ha (hof.holds ha) hresult

theorem resize_good (h : f.Proper scope d) {g : Interval → Int → Interval}
    (hi : f.instr? id = some i) (hty : i.ty = .int n) (hn : n ≤ 64) (hg : resize? i.op = some g)
    {r : Interval} (hr : ∀ v, i.operands[0]? = some v → Answers f d v (some id) r) :
    Good f id (g r n) := by
  refine good_of hi hty fun b hb => ?_
  obtain ⟨hvalid, htyped⟩ := h.typed.instr b id i hb hi
  rw [hty] at hvalid
  obtain ⟨u, m, hops, hu, hm⟩ := operand_of_resize? hg hty htyped
  obtain ⟨hrof, hrat⟩ := hr u (by simp [hops]) m hu
  have hmvalid := h.typed.valid_of_hasTy hu
  have hbounds := fun q => bounds_of_resize? (q := q) h hi hg hops hu hrof (hrat id rfl)
  rcases resize?_eq_some.mp hg with ⟨hop, rfl⟩ | ⟨hop, rfl⟩ | ⟨hop, rfl⟩
  · refine ⟨Interval.of_trunc hvalid.1 hvalid.2, hbounds _ fun W a x ha _ hgives => ?_⟩
    obtain ⟨_, he, rfl⟩ := (gives_trunc hop hty).mp hgives
    cases he
    exact Interval.trunc_has hvalid.1 hvalid.2 ha
  · have hm : m < n := by simpa [hop] using hm
    refine ⟨Interval.of_sext hm.le hrof, hbounds _ fun W a x ha hholds hgives => ?_⟩
    obtain ⟨_, he, rfl⟩ := (gives_sext hop hty).mp hgives
    cases he
    rw [toInt_signExtend hm.le, ofInt_toInt_of_holds hmvalid.1 hholds]
    exact ha
  · have hm : m < n := by simpa [hop] using hm
    refine ⟨Interval.of_zext hm hn hrof, hbounds _ fun W a x ha _ hgives => ?_⟩
    obtain ⟨_, he, rfl⟩ := (gives_zext hop hty).mp hgives
    cases he
    exact Interval.zext_has hmvalid.1 hm hn hrof ha

theorem select_good (h : f.Proper scope d) (hi : f.instr? id = some i) (hty : i.ty = .int n)
    (hop : i.op = .select) {r q : Interval}
    (hr : ∀ v, i.operands[1]? = some v → Answers f d v (some id) r)
    (hq : ∀ v, i.operands[2]? = some v → Answers f d v (some id) q) : Good f id (r.union q) := by
  refine good_of hi hty fun b hb => ?_
  obtain ⟨_, htyped⟩ := h.typed.instr b id i hb hi
  obtain ⟨c, u, v, hops, _, hu, hv⟩ := (Func.typed_select hop).mp htyped
  rw [hty] at hu hv
  obtain ⟨hrof, hrat⟩ := hr u (by simp [hops]) n hu
  obtain ⟨hqof, hqat⟩ := hq v (by simp [hops]) n hv
  refine ⟨Interval.of_union hrof hqof, ?_⟩
  intro W hW s e t rest hs hrest hc hst
  have hphi : i.op ≠ .phi := by
    rw [hop]
    decide
  obtain ⟨_, vals, hvals, hgives⟩ :=
    (result_iff_gives (by rw [hop]; rfl) (by rw [hop]; rfl)).mp (hst.result hrest hc hi)
  obtain ⟨_, x, y, rfl, hz⟩ := (gives_select hop).mp hgives
  rw [hops, List.forall₂_cons, List.forall₂_cons, List.forall₂_cons] at hvals
  have hx := operand_has h hW hs hrest hi hphi (by simp [hops]) (hrat id rfl).available hvals.2.1
  have hy := operand_has h hW hs hrest hi hphi (by simp [hops]) (hqat id rfl).available hvals.2.2.1
  rw [hz]
  split
  · exact Interval.union_has (.inr hy)
  · exact Interval.union_has (.inl hx)

def BoundsIncoming (f : Func) (id : Int) (i : Instr) (j : Nat) (r : Interval) : Prop :=
  ∀ W : World, W.Fits f → ∀ s rest, Reached W f s → s.rest = id :: rest → ∀ (p : Nat) v,
    s.source = some p → i.targets[j]? = some (p : Int) → i.operands[j]? = some v → ∀ x,
      Reads W s.entered v x → r.Has x

theorem boundsIncoming (h : f.Proper scope d) (hi : f.instr? id = some i) (hop : i.op = .phi) {j : Nat}
    {v : Value} (hv : i.operands[j]? = some v) {q c : Int} (hq : i.targets[j]? = some q)
    (hc : f.terminator q = .ok (some c)) {r : Interval} (hr : BoundsAt f d v c r) :
    BoundsIncoming f id i j r := by
  intro W hW s rest hs hrest p u hp ht hu x hx
  rw [hv] at hu
  rw [hq] at ht
  cases hu
  cases ht
  obtain ⟨_, s', t, rest', hs', rfl, hrest', hterm, henv⟩ := hs.jumped hp
  have hloc := hs'.located
  rw [h.wf.terminator_eq (hloc.stands hrest') hterm] at hc
  cases hc
  rw [← henv] at hx
  refine hr W hW s' rest' hs' hrest' (fun w hw => ?_) x hx
  subst hw
  exact h.ssa.incoming s.block id i j w s'.block c (hs.located.stands hrest) hi hop hv hq
    (h.isReachable_iff.mpr hloc.reaches) (h.wf.terminator_eq (hloc.stands hrest') hterm)

theorem BoundsIncoming.mono {j : Nat} {r q : Interval} (hr : BoundsIncoming f id i j r)
    (h : ∀ x, r.Has x → q.Has x) : BoundsIncoming f id i j q :=
  fun W hW s rest hs hrest p v hp ht hv x hx => h x (hr W hW s rest hs hrest p v hp ht hv x hx)

def BoundsFirst (f : Func) (id : Int) (i : Instr) (n j : Nat) (r : Interval) : Prop :=
  Interval.Of n r ∧ ∀ l, l < j → BoundsIncoming f id i l r

theorem BoundsIncoming.first {r : Interval} (hr : BoundsIncoming f id i 0 r)
    (hof : Interval.Of n r) : BoundsFirst f id i n 1 r := by
  refine ⟨hof, fun l hl => ?_⟩
  obtain rfl : l = 0 := by omega
  exact hr

theorem BoundsFirst.union {j : Nat} {q r : Interval} (hq : BoundsFirst f id i n j q)
    (hof : Interval.Of n r) (hr : BoundsIncoming f id i j r) :
    BoundsFirst f id i n (j + 1) (q.union r) := by
  refine ⟨Interval.of_union hq.1 hof, fun l hl => ?_⟩
  obtain hlt | rfl : l < j ∨ l = j := by omega
  · exact (hq.2 l hlt).mono fun x hx => Interval.union_has (.inl hx)
  · exact hr.mono fun x hx => Interval.union_has (.inr hx)

theorem phi_good (hi : f.instr? id = some i) (hty : i.ty = .int n) (hop : i.op = .phi)
    {r : Interval} {j : Nat} (hj : i.operands.length ≤ j)
    (hr : ∀ b, f.Stands b id → BoundsFirst f id i n j r) : Good f id r := by
  refine good_of hi hty fun b hb => ⟨(hr b hb).1, ?_⟩
  intro W hW s e t rest hs hrest hc hst
  obtain ⟨_, p, v, hp, ht, hv, hx⟩ := (result_phi hop).mp (hst.result hrest hc hi)
  have hlt := (List.getElem?_eq_some_iff.mp hv).1
  exact (hr b hb).2 _ (by omega) W hW s rest hs hrest p v hp ht hv _ hx

end Transfer

theorem const_has {n : Nat} {c : Int64} (hc : Func.ConstFits (.int n) c) :
    Interval.Of n (if n = 1 && c ≠ 0 then .const 1 (-1) else .const n c) ∧
      (if n = 1 && c ≠ 0 then Interval.const 1 (-1) else .const n c).Has
        (constValue (some (.int n)) c) := by
  by_cases hn : n = 1
  · subst hn
    by_cases hc0 : c = 0
    · subst hc0
      exact ⟨⟨rfl, ⟨by decide, by decide⟩, by decide, by decide⟩, by decide, by decide⟩
    · rw [if_pos (by simp [hc0]), constValue, if_pos rfl, if_neg hc0]
      exact ⟨⟨rfl, ⟨by decide, by decide⟩, by decide, by decide⟩, by decide, by decide⟩
  · have hty : Ty.int n ≠ .i1 := fun e => hn (Ty.int.inj e)
    have hholds := hc.resolve_left hty
    rw [if_neg (by simp [hn]), constValue, if_neg (by simpa using hty)]
    exact ⟨⟨rfl, hholds, hholds⟩, Int.le_refl _, Int.le_refl _⟩

section Query

variable (h : f.Proper scope d) (hk : Context.of f (some d) = .ok k)

include h hk

/-- A fact narrows the interval of its value to one that is still right. -/
theorem narrow_answers {v : Value} {n : Nat} (hv : f.HasTy v (.int n)) {fact : Fact}
    (hfact : fact ∈ k.facts) (hsame : fact.value = v) {site : Int} {r : Interval} (hr : Interval.Of n r)
    (hb : BoundsAt f d v site r) (hprec : f.Precedes d fact.site site) {q : Interval}
    (hq : r.intersect? fact.range = some q) : Interval.Of n q ∧ RightAt f d v site q := by
  obtain ⟨_, _, hfacts⟩ := Context.of_eq hk
  obtain ⟨i, c, cmp, j, m, hg⟩ := factsOf_grounded hfacts hfact
  subst hsame
  have hm : m = n := by
    have := hg.typed.symm.trans hv.typeOf
    cases this
    rfl
  subst hm
  have hvalid := h.typed.valid_of_hasTy hv
  have hcomputes : f.Computes fact.site := by
    refine ⟨hg.stands, ?_⟩
    rw [Func.opOf_eq hg.instr, hg.call.1]
    rfl
  obtain ⟨b, hstands⟩ := hg.stands
  obtain ⟨b, rfl, _⟩ := hstands.nat
  have hreach : ∀ {W s rest}, Reached W f s → s.rest = site :: rest → d.dom.isReachable b = true :=
    fun hs hrest => h.reachable_of_precedes hstands (hs.located.stands hrest)
      (h.isReachable_iff.mpr hs.located.reaches) hprec
  refine ⟨Interval.of_intersect? hr (of_factRange? hvalid.1 hg.small hg.range) hq, ?_, ?_⟩
  · intro W hW s rest hs hrest hsite x hx
    refine Interval.intersect?_has hq (hb W hW s rest hs hrest hsite x hx) ?_
    have hknown := confirmed_of_reached h hW (fun fact hmem => factsOf_grounded hfacts hmem) hs
    exact (hknown.available h.toHasDominance hs.located hrest hcomputes hprec b hstands
      (hreach hs hrest)).2 fact hfact rfl x hx
  · -- The value comes before the assumption, so the assumption does not come before the value.
    intro hvalue W hW s e t rest hs hrest
    obtain ⟨_, hq⟩ := (hg.value_precedes h hstands (hreach hs hrest)).2 site hvalue
    have hsite := hs.located.stands hrest
    exact absurd (h.precedes_trans hsite hstands hsite hq hprec) (h.not_precedes_self hsite)

theorem exists_narrowBy {v : Value} {site : Option Int} (hsite : ∀ c, site = some c → ∃ b, f.Stands b c)
    (r : Interval) : ∃ q, narrowBy k v site r = .ok q := by
  obtain ⟨hfunc, hdom, hfacts⟩ := Context.of_eq hk
  cases site with
  | none => exact ⟨r, rfl⟩
  | some c =>
    refine Checked.exists_foldlM (fun r fact hfact => ?_) r
    obtain ⟨_, _, _, _, _, hg⟩ := factsOf_grounded hfacts hfact
    obtain ⟨b, hb⟩ := hg.stands
    obtain ⟨b, rfl, _⟩ := hb.nat
    obtain ⟨y, hy⟩ := hsite c rfl
    obtain ⟨y, rfl, _⟩ := hy.nat
    obtain ⟨blk, hblk, hmem⟩ := hy
    split
    · exact ⟨r, rfl⟩
    · have hprec := h.wf.instrDominates_eq (d := d) hb hblk hmem
      generalize (if b = y then _ else _ : Bool) = dominates at hprec
      simp only [hdom, hfunc, hprec, Checked.bind_eq_ok, Except.ok.injEq, exists_eq_left']
      cases dominates with
      | false => exact ⟨r, rfl⟩
      | true => exact ⟨_, rfl⟩

theorem narrowBy_answers {v : Value} {n : Nat} (hv : f.HasTy v (.int n)) {site : Option Int}
    {r q : Interval} (hr : Interval.Of n r ∧ ∀ c, site = some c → RightAt f d v c r)
    (hq : narrowBy k v site r = .ok q) :
    Interval.Of n q ∧ ∀ c, site = some c → RightAt f d v c q := by
  obtain ⟨hfunc, hdom, hfacts⟩ := Context.of_eq hk
  cases site with
  | none =>
    cases hq
    exact hr
  | some c =>
    refine Checked.foldlM_keeps (P := fun r => Interval.Of n r ∧
      ∀ e, some c = some e → RightAt f d v e r) ?_ hr hq
    intro r fact hfact q hr hq
    split at hq
    · cases hq
      exact hr
    · next hsame =>
      simp only [Bool.or_eq_true, Bool.not_eq_true', decide_eq_true_eq, not_or,
        Bool.not_eq_false] at hsame
      simp only [hdom, hfunc, Checked.bind_eq_ok] at hq
      obtain ⟨dominates, hprec, hq⟩ := hq
      cases dominates with
      | false =>
        cases hq
        exact hr
      | true =>
        cases hq
        cases hcut : r.intersect? fact.range with
        | none => exact hr
        | some q =>
          have hnarrow := narrow_answers h hk hv hfact (eq_of_sameAs hv hsame.1) hr.1
            (hr.2 c rfl).available hprec hcut
          refine ⟨hnarrow.1, ?_⟩
          rintro e he
          cases he
          exact hnarrow.2

def Askable (f : Func) (v : Value) (site : Option Int) : Prop :=
  (∃ t, f.HasTy v t) ∧ ∀ c, site = some c → ∃ b, f.Stands b c

omit hk in
theorem incomingSite_ensures {id : Int} {i : Instr} (hi : f.instr? id = some i) (hop : i.op = .phi)
    {j : Nat} {v : Value} (hv : i.operands[j]? = some v) :
    Ensures f (∃ b, f.Stands b id)
      (do liftM (f.terminator (← liftM (element i.targets j))) : RangeM (Option Int))
      fun site => ∀ b, f.Stands b id → ∃ q c, i.targets[j]? = some q ∧ site = some c ∧
        f.terminator q = .ok (some c) := by
  have hrefs : ∀ b, f.Stands b id → f.References scope i := fun b hb => h.wf.references hb hi
  refine .bind (P := fun q => i.targets[j]? = some q) (.lift ?_ ?_) fun q hq => ?_
  · rintro ⟨b, hb⟩
    have hlt : j < i.targets.length := by
      rw [(hrefs b hb).arity hop]
      exact (List.getElem?_eq_some_iff.mp hv).1
    exact ⟨i.targets[j], element_eq_ok.mpr (List.getElem?_eq_getElem hlt)⟩
  · exact fun q hq => element_eq_ok.mp hq
  have hterm : ∀ b, f.Stands b id → ∃ c, f.terminator q = .ok (some c) := by
    intro b hb
    obtain ⟨blk, hblk⟩ := (hrefs b hb).targets q (List.mem_of_getElem? hq)
    exact h.wf.exists_terminator hblk
  refine .lift ?_ ?_
  · rintro ⟨b, hb⟩
    obtain ⟨c, hc⟩ := hterm b hb
    exact ⟨some c, hc⟩
  · intro site hsite b hb
    obtain ⟨c, hc⟩ := hterm b hb
    rw [hc] at hsite
    cases hsite
    exact ⟨q, c, hq, rfl, hc⟩

theorem phiRange_ensures {range : Value → Option Int → RangeM Interval}
    (hrange : ∀ v site, Ensures f (Askable f v site) (range v site) (Answers f d v site))
    {id : Int} {i : Instr} {n : Nat} (hi : f.instr? id = some i) (hty : i.ty = .int n)
    (hop : i.op = .phi) (rest : List Value) (j : Nat) (sofar : Option Interval)
    (hrest : i.operands.drop j = rest) (hnone : sofar = none → j = 0)
    (hsome : ∀ r, sofar = some r → ∀ b, f.Stands b id → BoundsFirst f id i n j r) :
    Ensures f (∃ b, f.Stands b id) (phiRange k range i n rest j sofar) (Good f id) := by
  obtain ⟨hfunc, _, _⟩ := Context.of_eq hk
  -- `sofar` bounds what comes in from the first `j` blocks.
  induction rest generalizing j sofar with
  | nil =>
    rw [phiRange]
    refine .pure ?_
    cases sofar with
    | none => exact good_full h hi hty
    | some r => exact phi_good hi hty hop (List.drop_eq_nil_iff.mp hrest) (hsome r rfl)
  | cons v rest ih =>
    have hv : i.operands[j]? = some v := by rw [← List.head?_drop, hrest]; rfl
    have hnext : i.operands.drop (j + 1) = rest := by rw [← List.tail_drop, hrest]; rfl
    rw [phiRange, hfunc, ← bind_assoc]
    refine .bind (incomingSite_ensures h hi hop hv) fun site hsite => ?_
    refine .bind ((hrange v site).weaken ?_) fun r hr => ?_
    · rintro ⟨b, hb⟩
      obtain ⟨q, c, _, rfl, hc⟩ := hsite b hb
      refine ⟨h.typed.operand b id i hb hi v (List.mem_of_getElem? hv), ?_⟩
      rintro _ ⟨⟩
      exact ⟨q, Func.stands_of_terminator hc⟩
    split
    · exact .pure (good_full h hi hty)
    · refine ih (j + 1) _ hnext nofun ?_
      rintro _ ⟨⟩ b hb
      obtain ⟨q, c, hq, rfl, hc⟩ := hsite b hb
      have htyped := (Func.typed_phi hop).mp (h.typed.instr b id i hb hi).2
      rw [hty] at htyped
      obtain ⟨hrof, hrat⟩ := hr n (htyped v (List.mem_of_getElem? hv))
      have hthis := boundsIncoming h hi hop hv hq hc (hrat c rfl).available
      cases sofar with
      | none =>
        obtain rfl := hnone rfl
        exact hthis.first hrof
      | some q => exact (hsome q rfl b hb).union hrof hthis

omit hk in
theorem operand_ensures {range : Value → Option Int → RangeM Interval}
    (hrange : ∀ v site, Ensures f (Askable f v site) (range v site) (Answers f d v site))
    {id : Int} {i : Instr} (hi : f.instr? id = some i) (j : Nat)
    (hj : ∀ b, f.Stands b id → j < i.operands.length) :
    Ensures f (∃ b, f.Stands b id) (do range (← element i.operands j) (some id) : RangeM Interval)
      fun r => ∀ v, i.operands[j]? = some v → Answers f d v (some id) r := by
  refine .bind (P := fun v => i.operands[j]? = some v) (.lift ?_ ?_) fun v hv => ?_
  · rintro ⟨b, hb⟩
    exact ⟨i.operands.get ⟨j, hj b hb⟩, element_eq_ok.mpr (List.getElem?_eq_getElem (hj b hb))⟩
  · exact fun v hv => element_eq_ok.mp hv
  · refine ((hrange v (some id)).weaken ?_).mono fun r hr u hu => ?_
    · rintro ⟨b, hb⟩
      refine ⟨h.typed.operand b id i hb hi v (List.mem_of_getElem? hv), ?_⟩
      rintro _ ⟨⟩
      exact ⟨b, hb⟩
    · rw [hv] at hu
      cases hu
      exact hr

theorem instrValue_ensures {range : Value → Option Int → RangeM Interval}
    (hrange : ∀ v site, Ensures f (Askable f v site) (range v site) (Answers f d v site))
    {id : Int} {i : Instr} {n : Nat} (hi : f.instr? id = some i) (hty : i.ty = .int n) :
    Ensures f (∃ b, f.Stands b id) (instrValue k range id i n) (Good f id) := by
  have hoperand := operand_ensures h hrange hi
  have htyped : ∀ b, f.Stands b id → f.Typed i := fun b hb => (h.typed.instr b id i hb hi).2
  rw [instrValue]
  split
  · exact .pure (good_full h hi hty)
  · next hsmall =>
    have hn : n ≤ 64 := by
      simp only [Bool.or_eq_true, decide_eq_true_eq, not_or, not_lt] at hsmall
      exact hsmall.1
    split
    · next g hg =>
      have hlen : ∀ b, f.Stands b id → i.operands.length = 2 := by
        intro b hb
        obtain ⟨u, v, hops, _⟩ := (Func.typed_arith (isArith_of_binary? hg)).mp (htyped b hb)
        rw [hops]
        rfl
      refine .bind (hoperand 0 fun b hb => by rw [hlen b hb]; decide) fun r hr => ?_
      refine .bind (hoperand 1 fun b hb => by rw [hlen b hb]; decide) fun q hq => ?_
      exact .pure (binary_good h hi hty hn hg hr hq)
    · split
      · next g hg =>
        refine .bind (hoperand 0 fun b hb => ?_) fun r hr => .pure (resize_good h hi hty hn hg hr)
        obtain ⟨u, _, hops, _⟩ := operand_of_resize? hg hty (htyped b hb)
        simp [hops]
      · split
        · next hop =>
          have hlen : ∀ b, f.Stands b id → i.operands.length = 3 := by
            intro b hb
            obtain ⟨c, u, v, hops, _⟩ := (Func.typed_select hop).mp (htyped b hb)
            rw [hops]
            rfl
          refine .bind (hoperand 1 fun b hb => by rw [hlen b hb]; decide) fun r hr => ?_
          refine .bind (hoperand 2 fun b hb => by rw [hlen b hb]; decide) fun q hq => ?_
          exact .pure (select_good h hi hty hop hr hq)
        · next hop =>
          exact phiRange_ensures h hk hrange hi hty hop i.operands 0 none rfl (fun _ => rfl)
            (by rintro _ ⟨⟩)
        · exact .pure (good_full h hi hty)

theorem rangeBy_ensures {instr : Int → Nat → RangeM Interval}
    (hinstr : ∀ id i n, f.instr? id = some i → i.ty = .int n →
      Ensures f (∃ b, f.Stands b id) (instr id n) (Good f id)) (v : Value) (site : Option Int) :
    Ensures f (Askable f v site) (rangeBy k instr v site) (Answers f d v site) := by
  obtain ⟨hfunc, _, _⟩ := Context.of_eq hk
  rw [rangeBy, hfunc]
  refine .bind (P := fun t => f.typeOf v = .ok t) (.lift ?_ fun _ ht => ht) fun t ht => ?_
  · rintro ⟨⟨t, ht⟩, _⟩
    exact ⟨_, ht.typeOf⟩
  -- Only an answer for an integer has to be right.
  have hsame : ∀ {m : Nat}, f.HasTy v (.int m) → t = some (.int m) := by
    intro m hm
    rw [hm.typeOf] at ht
    cases ht
    rfl
  split
  · next n =>
    have hnarrow : ∀ r, Answers f d v site r →
        Ensures f (Askable f v site) (liftM (narrowBy k v site r) : RangeM Interval)
          (Answers f d v site) := by
      intro r hr
      refine .lift (fun hask => exists_narrowBy h hk hask.2 r) fun q hq m hm => ?_
      exact narrowBy_answers h hk hm (hr m hm) hq
    have hfull : ∀ {u : Value}, u = v → (∀ p, u ≠ .instr p) → Answers f d v site (.full n) := by
      rintro _ rfl hinstr m hm
      cases hsame hm
      have hvalid := h.typed.valid_of_hasTy hm
      refine ⟨Interval.of_full hvalid.1 hvalid.2, fun c _ => ⟨?_, fun e => absurd e (hinstr c)⟩⟩
      intro W hW s rest hs hrest _ x hx
      rw [Interval.has_full hvalid.1 hvalid.2]
      exact reads_holds hW hm (fun p hp => absurd hp (hinstr p)) hx
    dsimp only
    split
    · next ty c =>
      refine .bind (.pure rfl) fun r hr => hnarrow r fun m hm => ?_
      cases hsame hm
      obtain ⟨rfl, _, hc⟩ := hm
      rw [← hr]
      refine ⟨(const_has hc).1, fun e _ => ⟨?_, nofun⟩⟩
      intro W hW s rest hs hrest _ x hx
      cases hx
      exact (const_has hc).2
    · next id =>
      obtain ⟨i, hi, hty⟩ : ∃ i, f.instr? id = some i ∧ i.ty = .int n := by
        simp only [Func.typeOf, Checked.bind_eq_ok, Func.instr_eq_ok, Checked.pure_eq_ok,
          Option.some.injEq] at ht
        exact ht
      refine .bind ((hinstr id i n hi hty).weaken ?_) fun r hr => hnarrow r fun m hm => ?_
      · rintro ⟨⟨_, ⟨hb, _⟩, _⟩, _⟩
        exact hb
      · cases hsame hm
        obtain ⟨⟨⟨b, hb⟩, _⟩, _⟩ := hm
        obtain ⟨hof, hbounds⟩ := hr b i n hb hi hty
        refine ⟨hof, fun c _ => ⟨hbounds.available h c, ?_⟩⟩
        rintro ⟨⟩
        exact hbounds
    · next hint hinstr => exact .bind (.pure rfl) fun r hr => hnarrow r (hr ▸ hfull rfl hinstr)
  · next hint =>
    refine .pure fun m hm => ?_
    exact absurd (hsame hm) (hint m)

theorem instrRange_ensures (depth : Nat) (id : Int) (i : Instr) (n : Nat) (hi : f.instr? id = some i)
    (hty : i.ty = .int n) :
    Ensures f (∃ b, f.Stands b id) (instrRange k depth id n) (Good f id) := by
  obtain ⟨hfunc, _, _⟩ := Context.of_eq hk
  -- Each instruction in progress takes one from the depth.
  induction depth generalizing id i n with
  | zero =>
    have hid := Func.nonneg_of_instr? hi
    rw [instrRange]
    refine .bind .getMemo fun m hm => ?_
    split
    · next r hr => exact .pure (hm id r hid hr)
    · refine .bind .getMemo fun m hm => ?_
      split
      · exact .pure (good_full h hi hty)
      · exact .pure (good_full h hi hty)
  | succ depth ih =>
    have hid := Func.nonneg_of_instr? hi
    rw [instrRange, hfunc]
    refine .bind .getMemo fun m hm => ?_
    split
    · next r hr => exact .pure (hm id r hid hr)
    · refine .bind .getMemo fun m hm => ?_
      split
      · exact .pure (good_full h hi hty)
      · refine .bind (.remember fun m hm => hm) fun _ _ => ?_
        refine .bind (P := fun j => j = i) (.lift (fun _ => ⟨i, Func.instr_eq_ok.mpr hi⟩) ?_) ?_
        · intro j hj
          rw [Func.instr_eq_ok, hi] at hj
          cases hj
          rfl
        rintro _ rfl
        have hrange := rangeBy_ensures h hk ih
        refine .bind (instrValue_ensures h hk hrange hi hty) fun r hr => ?_
        refine .bind (.remember fun m hm => hm) fun _ _ => ?_
        exact .bind (.remember fun m hm => hm.set hid hr) fun _ _ => .pure hr

theorem rangeAt_ensures (v : Value) (site : Option Int) :
    Ensures f (Askable f v site) (rangeAt k v site) (Answers f d v site) :=
  rangeBy_ensures h hk (instrRange_ensures h hk _) v site

end Query

/-- What may be remembered after some questions. -/
inductive Queried (k : Context) : Memo → Prop
  | none : Queried k (Memo.empty k.func)
  | ask {m m' : Memo} {v : Value} {site : Option Int} {r : Interval} : Queried k m →
      rangeAt k v site m = .ok (r, m') → Queried k m'

theorem Queried.good (h : f.Proper scope d) (hk : Context.of f (some d) = .ok k) {m : Memo}
    (hm : Queried k m) : m.Good f := by
  induction hm with
  | none => rw [(Context.of_eq hk).1]; exact Memo.good_empty
  | @ask m m' v site r _ hask ih =>
    have := rangeAt_ensures h hk v site m ih
    rw [hask] at this
    exact this.1

/-- After any questions, the interval of a value at an instruction holds what the value is whenever
a run gets there. -/
theorem rangeAt_sound (hverify : f.verify scope = .ok []) (hdom : DomInfo.compute f = .ok d)
    (hssa : f.InSsaForm d fun b => d.dom.isReachable b = true) (htyped : f.WellTyped) :
    ∃ k, Context.of f (some d) = .ok k ∧ ∀ m, Queried k m → ∀ v n b c, f.HasTy v (.int n) →
      f.Stands b c → ∃ r m', rangeAt k v (some c) m = .ok (r, m') ∧
        ∀ W : World, W.Fits f → ∀ s rest, Reached W f s → s.rest = c :: rest →
          (∀ p, v = .instr p → f.Precedes d p c) → ∀ x, Reads W s.env v x → r.Has x := by
  have h : f.Proper scope d := ⟨⟨Func.verify_eq_nil.mp hverify, hdom⟩, hssa, htyped⟩
  obtain ⟨facts, hfacts⟩ := exists_factsOf h
  have hk : Context.of f (some d) = .ok ⟨f, some d, facts⟩ := by simp [Context.of, hfacts]
  refine ⟨_, hk, fun m hm v n b c hv hc => ?_⟩
  have hanswer := rangeAt_ensures h hk v (some c) m (hm.good h hk)
  have hask : Askable f v (some c) := by
    refine ⟨⟨_, hv⟩, ?_⟩
    rintro _ ⟨⟩
    exact ⟨b, hc⟩
  split at hanswer
  · next r m' he =>
    refine ⟨r, m', he, fun W hW s rest hs hrest hp => ?_⟩
    refine ((hanswer.2 n hv).2 c rfl).available W hW s rest hs hrest fun p hvp => ⟨?_, hp p hvp⟩
    subst hvp
    exact hv.1
  · exact absurd hask hanswer

def assuming : Func where
  name := "assuming"
  params := [⟨"n", some .i32⟩]
  ret := .i32
  blocks := #[{ name := "start", instrs := [0], succs := [1] },
    { name := "loop", instrs := [1, 2, 3, 4, 5, 6], succs := [1, 2], preds := [0, 1] },
    { name := "done", instrs := [7], preds := [1] }]
  instrs := #[{ home := some 0, op := .br, targets := [1] },
    { home := some 1, op := .phi, ty := .i32, operands := [.int (some .i32) 0, .instr 4],
      targets := [0, 1] },
    { home := some 1, op := .icmp, ty := .i1, operands := [.instr 1, .int (some .i32) 100],
      pred := "ule" },
    { home := some 1, op := .call, callee := assumeCallee, operands := [.instr 2] },
    { home := some 1, op := .add, ty := .i32, operands := [.instr 1, .int (some .i32) 1] },
    { home := some 1, op := .icmp, ty := .i1, operands := [.instr 4, .arg 0], pred := "slt" },
    { home := some 1, op := .condbr, operands := [.instr 5], targets := [1, 2] },
    { home := some 2, op := .ret, operands := [.instr 4] }]
  entry := some 0

def assuming.dominance : DomInfo :=
  ⟨assuming.graph.dominators 0, assuming.graph.postDominators⟩

/-- In every run the new count is at most a hundred and one when it is returned. -/
theorem assuming_rangeAt_sound :
    ∃ k r m, Context.of assuming (some assuming.dominance) = .ok k ∧
      rangeAt k (.instr 4) (some 7) (Memo.empty assuming) = .ok (r, m) ∧ r = ⟨32, 1, 101⟩ ∧
        ∀ W : World, W.Fits assuming → ∀ s rest, Reached W assuming s → s.rest = 7 :: rest →
          1 ≤ s.env 4 ∧ s.env 4 ≤ 101 := by
  have hv : assuming.verify none = .ok [] := by decide +kernel
  have hd : DomInfo.compute assuming = .ok assuming.dominance := by decide +kernel
  have hssa : assuming.InSsaForm assuming.dominance
      fun b => assuming.dominance.dom.isReachable b = true :=
    Func.inSsaForm_of_holds (by decide +kernel) (by decide +kernel)
  have ht : assuming.WellTyped := Func.wellTyped_of_holds (by decide +kernel)
  have hty : assuming.HasTy (.instr 4) .i32 := Func.hasTy_iff.mpr (by decide +kernel)
  have hstands : assuming.Stands 2 7 := Func.stands_iff.mpr (by decide +kernel)
  have hprec : assuming.Precedes assuming.dominance 4 7 := by decide +kernel
  have hsound := rangeAt_sound hv hd hssa ht
  obtain ⟨k, hk, hsound⟩ := hsound
  have hfacts : factsOf assuming = .ok [⟨3, .instr 1, ⟨32, 0, 100⟩⟩] := by decide +kernel
  obtain rfl : ⟨assuming, some assuming.dominance, [⟨3, .instr 1, ⟨32, 0, 100⟩⟩]⟩ = k := by
    simpa [Context.of, hfacts] using hk
  obtain ⟨r, m, hr, hhas⟩ := hsound _ .none (.instr 4) 32 2 7 hty hstands
  have hrange : (rangeAt ⟨assuming, some assuming.dominance, [⟨3, .instr 1, ⟨32, 0, 100⟩⟩]⟩
      (.instr 4) (some 7) (Memo.empty assuming)).map (·.1) = .ok ⟨32, 1, 101⟩ := by
    decide +kernel
  obtain rfl : r = ⟨32, 1, 101⟩ := by
    rw [hr] at hrange
    exact Except.ok.inj hrange
  refine ⟨_, _, m, hk, hr, rfl, fun W hW s rest hs hrest => ?_⟩
  exact hhas W hW s rest hs hrest (by rintro _ ⟨⟩; exact hprec) _ rfl

end RegPressure.ValueRange
