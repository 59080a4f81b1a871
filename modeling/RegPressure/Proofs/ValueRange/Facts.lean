import RegPressure.Proofs.ValueRange.Interval

namespace RegPressure

section Comparison

variable {n : Nat} {x y : Int}

theorem compareBits_swap {pred : String} (hp : pred ∈ icmpPreds) (u v : BitVec n) :
    compareBits (ValueRange.swapPred pred) v u = compareBits pred u v := by
  have hne : (v != u) = (u != v) := by rw [bne, bne, Bool.beq_comm]
  simp only [icmpPreds, List.mem_cons, List.not_mem_nil, or_false] at hp
  rcases hp with rfl | rfl | rfl | rfl | rfl | rfl | rfl | rfl | rfl | rfl
  · exact Bool.beq_comm
  · exact hne
  all_goals rfl

variable (hn : 1 ≤ n) (hx : (Ty.int n).Holds x) (hy : (Ty.int n).Holds y)

include hn hx hy

theorem ofInt_inj_of_holds (h : BitVec.ofInt n x = BitVec.ofInt n y) : x = y := by
  rw [← ofInt_toInt_of_holds hn hx, h, ofInt_toInt_of_holds hn hy]

theorem slt_ofInt : (BitVec.ofInt n x).slt (BitVec.ofInt n y) = true ↔ x < y := by
  rw [BitVec.slt_iff_toInt_lt, ofInt_toInt_of_holds hn hx, ofInt_toInt_of_holds hn hy]

theorem sle_ofInt : (BitVec.ofInt n x).sle (BitVec.ofInt n y) = true ↔ x ≤ y := by
  rw [BitVec.sle_iff_toInt_le, ofInt_toInt_of_holds hn hx, ofInt_toInt_of_holds hn hy]

theorem nonneg_of_ule (hy0 : 0 ≤ y) (h : (BitVec.ofInt n x).toNat ≤ (BitVec.ofInt n y).toNat) :
    0 ≤ x ∧ ((BitVec.ofInt n x).toNat : Int) = x ∧ ((BitVec.ofInt n y).toNat : Int) = y := by
  have hx' := ofInt_toInt_of_holds hn hx
  have hy' := ofInt_toInt_of_holds hn hy
  have hyn := Interval.toNat_eq_toInt (hy'.symm ▸ hy0 : 0 ≤ (BitVec.ofInt n y).toInt)
  have hx0 : 0 ≤ x := by
    by_contra hneg
    have hpow : (2 : Int) ^ n = 2 * 2 ^ (n - 1) := by rw [← pow_succ', Nat.sub_add_cancel hn]
    have hcond := BitVec.toInt_eq_toNat_cond (BitVec.ofInt n x)
    have hlt : ((BitVec.ofInt n x).toNat : Int) < 2 ^ n := by
      exact_mod_cast (BitVec.ofInt n x).isLt
    split at hcond
    · omega
    · have := hx.1
      have := hy.2
      push_cast at hcond
      omega
  have hxn := Interval.toNat_eq_toInt (hx'.symm ▸ hx0 : 0 ≤ (BitVec.ofInt n x).toInt)
  exact ⟨hx0, hxn.trans hx', hyn.trans hy'⟩

end Comparison

namespace ValueRange

variable {n : Nat}

/-- The bounds that a true comparison with a number sets. -/
theorem factRange?_has_of_holds {pred : String} {c : Int64} {r : Interval} (hn : 1 ≤ n)
    (hn' : n ≤ 64) (h : factRange? pred c n = some r) {x : Int} (hx : (Ty.int n).Holds x)
    (hc : (Ty.int n).Holds c.toInt)
    (hcmp : compareBits pred (BitVec.ofInt n x) (BitVec.ofInt n c.toInt) = true) : r.Has x := by
  obtain ⟨hlo, hhi⟩ := Interval.extremes hn (show n ≤ 256 by omega)
  have hall : (Interval.full n).lo = -2 ^ (n - 1) ∧ (Interval.full n).hi = 2 ^ (n - 1) - 1 :=
    ⟨hlo, hhi⟩
  have hself := Interval.bmod_eq_of_holds hn hx
  -- It is enough that the value lies between the bounds before they are clamped.
  have hclamp : ∀ lo hi : Int, lo ≤ x → x ≤ hi →
      (if (Interval.clamp n lo hi).isFull = true then none else some (Interval.clamp n lo hi)) =
        some r → r.Has x := by
    intro lo hi h1 h2 he
    split at he
    · cases he
    · cases he
      exact hself ▸ Interval.has_clamp hn (by omega) h1 h2
  obtain ⟨hx1, hx2⟩ := hx
  simp only [factRange?] at h
  unfold compareBits at hcmp
  split at hcmp
  · have := ofInt_inj_of_holds hn ⟨hx1, hx2⟩ hc (by simpa using hcmp)
    exact hclamp c.toInt c.toInt (by omega) (by omega) h
  · cases h
  · have := (slt_ofInt hn ⟨hx1, hx2⟩ hc).mp hcmp
    by_cases hm : c.toInt = Word.minSigned
    · simp [hm] at h
    · rw [if_neg hm] at h
      exact hclamp _ _ (by omega) (by omega) h
  · have := (sle_ofInt hn ⟨hx1, hx2⟩ hc).mp hcmp
    exact hclamp _ _ (by omega) (by omega) h
  · have := (slt_ofInt hn hc ⟨hx1, hx2⟩).mp hcmp
    by_cases hm : c.toInt = Word.maxSigned
    · simp [hm] at h
    · rw [if_neg hm] at h
      exact hclamp _ _ (by omega) (by omega) h
  · have := (sle_ofInt hn hc ⟨hx1, hx2⟩).mp hcmp
    exact hclamp _ _ (by omega) (by omega) h
  · have hlt : (BitVec.ofInt n x).toNat < (BitVec.ofInt n c.toInt).toNat := by
      simpa [BitVec.ult] using hcmp
    by_cases hm : c.toInt ≤ 0
    · simp [hm] at h
    · rw [if_neg hm] at h
      have := nonneg_of_ule hn ⟨hx1, hx2⟩ hc (by omega) hlt.le
      exact hclamp _ _ (by omega) (by omega) h
  · have hle : (BitVec.ofInt n x).toNat ≤ (BitVec.ofInt n c.toInt).toNat := by
      simpa [BitVec.ule] using hcmp
    by_cases hm : c.toInt < 0
    · simp [hm] at h
    · rw [if_neg hm] at h
      have := nonneg_of_ule hn ⟨hx1, hx2⟩ hc (by omega) hle
      exact hclamp _ _ (by omega) (by omega) h
  · cases h
  · cases h
  · cases hcmp

theorem factRange?_eq_some {pred : String} {c : Int64} {r : Interval}
    (h : factRange? pred c n = some r) :
    ∃ lo hi, r = Interval.clamp n lo hi ∧ r.isFull = false := by
  simp only [factRange?] at h
  split at h
  · next lo hi _ =>
    split at h
    · cases h
    · next hfull =>
      cases h
      exact ⟨lo, hi, rfl, by simpa using hfull⟩
  · cases h

theorem of_factRange? {pred : String} {c : Int64} {r : Interval} (hn : 1 ≤ n) (hn' : n ≤ 64)
    (h : factRange? pred c n = some r) : Interval.Of n r := by
  obtain ⟨lo, hi, rfl, _⟩ := factRange?_eq_some h
  exact Interval.of_clamp hn (by omega) lo hi

theorem clamp_bit_ne {lo hi : Int} (hout : lo < -1 ∨ 0 < hi ∨ hi < lo ∨ lo = -1 ∧ hi = 0)
    (r : Interval) :
    (if (Interval.clamp (1 : Nat) lo hi).isFull = true then none
      else some (Interval.clamp (1 : Nat) lo hi)) ≠ some r := by
  have hextremes := Interval.extremes (n := 1) (by decide) (by decide)
  have hclamp : Interval.clamp (1 : Nat) lo hi = Interval.full (1 : Nat) := by
    unfold Interval.clamp
    rw [hextremes.1, hextremes.2]
    split
    · rfl
    · next hin =>
      simp only [Bool.or_eq_true, decide_eq_true_eq, not_or] at hin
      have : lo = -1 ∧ hi = 0 := by omega
      simp only [Interval.full, hextremes.1, hextremes.2, this]
      rfl
  rw [hclamp, if_pos (by simp [Interval.isFull, Interval.full])]
  exact (Option.some_ne_none _).symm

/-- A true bit is minus one, whatever number its constant has. A constant other than that number
sets a bound in one case only: what is less without a sign is zero. -/
theorem factRange?_has_bit {pred : String} {c : Int64} {r : Interval}
    (h : factRange? pred c 1 = some r) {x : Int} (hx : Ty.i1.Holds x) (hc : c ≠ 0)
    (hcmp : compareBits pred (BitVec.ofInt 1 x) (BitVec.ofInt 1 (-1)) = true) : r.Has x := by
  by_cases hneg : c.toInt = -1
  · have hholds : Ty.i1.Holds c.toInt := by
      rw [hneg]
      exact ⟨by decide, by decide⟩
    exact factRange?_has_of_holds (n := 1) (by decide) (by decide) h hx hholds (hneg ▸ hcmp)
  · -- Any other word lies outside one bit, and so do the bounds of its fact, unless they tell zero
    -- apart.
    have hc0 : c.toInt ≠ 0 := fun e => hc (Int64.toInt_inj.mp (e.trans Int64.toInt_zero.symm))
    have hall : (Interval.full (1 : Nat)).lo = -1 ∧ (Interval.full (1 : Nat)).hi = 0 := by
      decide +kernel
    obtain ⟨hx1, hx2⟩ := hx
    simp only [factRange?] at h
    unfold compareBits at hcmp
    split at hcmp
    · exact absurd h (clamp_bit_ne (by omega) r)
    · cases h
    · by_cases hm : c.toInt = Word.minSigned
      · simp [hm] at h
      · rw [if_neg hm] at h
        exact absurd h (clamp_bit_ne (by omega) r)
    · exact absurd h (clamp_bit_ne (by omega) r)
    · by_cases hm : c.toInt = Word.maxSigned
      · simp [hm] at h
      · rw [if_neg hm] at h
        exact absurd h (clamp_bit_ne (by omega) r)
    · exact absurd h (clamp_bit_ne (by omega) r)
    · have hx0 : x = 0 := by
        have hlt : (BitVec.ofInt 1 x).toNat < 1 := by simpa [BitVec.ult] using hcmp
        have hzero : BitVec.ofInt 1 x = BitVec.ofInt 1 0 :=
          BitVec.eq_of_toNat_eq ((Nat.lt_one_iff.mp hlt).trans rfl)
        exact ofInt_inj_of_holds (by decide) ⟨hx1, hx2⟩ ⟨by decide, by decide⟩ hzero
      by_cases hm : c.toInt ≤ 0
      · simp [hm] at h
      · rw [if_neg hm] at h
        by_cases hone : c.toInt - 1 = 0
        · rw [hone] at h
          have h : (if (Interval.clamp (1 : Nat) 0 0).isFull = true then none
              else some (Interval.clamp (1 : Nat) 0 0)) = some r := h
          split at h
          · cases h
          · cases h
            rw [hx0]
            exact Interval.has_clamp (n := 1) (x := 0) (by decide) (by decide) (by decide) (by decide)
        · exact absurd h (clamp_bit_ne (by omega) r)
    · by_cases hm : c.toInt < 0
      · simp [hm] at h
      · rw [if_neg hm] at h
        exact absurd h (clamp_bit_ne (by omega) r)
    · cases h
    · cases h
    · cases hcmp

theorem factRange?_has {pred : String} {c : Int64} {r : Interval} (hn : 1 ≤ n) (hn' : n ≤ 64)
    (h : factRange? pred c n = some r) {x : Int} (hx : (Ty.int n).Holds x)
    (hc : Func.ConstFits (.int n) c)
    (hcmp : compareBits pred (BitVec.ofInt n x)
      (BitVec.ofInt n (constValue (some (.int n)) c)) = true) : r.Has x := by
  by_cases hbit : n = 1
  · subst hbit
    by_cases hc0 : c = 0
    · subst hc0
      exact factRange?_has_of_holds hn hn' h hx ⟨by decide, by decide⟩ hcmp
    · rw [constValue, if_pos rfl, if_neg hc0] at hcmp
      exact factRange?_has_bit h hx hc0 hcmp
  · have hne : Ty.int n ≠ .i1 := fun e => hbit (Ty.int.inj e)
    rw [constValue, if_neg (by simpa using hne)] at hcmp
    exact factRange?_has_of_holds hn hn' h hx (hc.resolve_left hne) hcmp

section Function

variable {scope : Option Symbols} {f : Func} {d : DomInfo} {W : World}

structure Grounded (f : Func) (fact : Fact) (i : Instr) (c : Int) (cmp : Instr) (k : Comparison)
    (n : Nat) : Prop where
  stands : ∃ b, f.Stands b fact.site
  instr : f.instr? fact.site = some i
  call : i.op = .call ∧ i.callee = assumeCallee
  operands : i.operands = [.instr c]
  condition : f.instr? c = some cmp
  icmp : cmp.op = .icmp
  comparison : comparison? cmp = .ok (some k)
  value : k.value = fact.value
  typed : f.typeOf fact.value = .ok (some (.int n))
  small : n ≤ 64
  range : factRange? k.pred k.const n = some fact.range

theorem factOf?_grounded {id : Int} {i : Instr} {fact : Fact} (hs : ∃ b, f.Stands b id)
    (hi : f.instr? id = some i) (h : factOf? f id i = .ok (some fact)) :
    fact.site = id ∧ ∃ c cmp k n, Grounded f fact i c cmp k n := by
  unfold factOf? at h
  split at h
  · cases h
  · next hcall =>
    simp only [Bool.or_eq_true, decide_eq_true_eq, not_or, not_not] at hcall
    split at h
    · next c hoperands =>
      simp only [Checked.bind_eq_ok, Func.instr_eq_ok] at h
      obtain ⟨cmp, hcmp, h⟩ := h
      split at h
      · cases h
      · next hicmp =>
        obtain ⟨k, hk, h⟩ := Checked.bind_eq_ok.mp h
        cases k with
        | none => cases h
        | some k =>
          obtain ⟨t, ht, h⟩ := Checked.bind_eq_ok.mp h
          split at h
          · next n =>
            split at h
            · cases h
            · next hsmall =>
              simp only [Checked.pure_eq_ok, Option.map_eq_some_iff] at h
              obtain ⟨r, hr, rfl⟩ := h
              simp only [Interval.maxBits, not_lt] at hsmall
              exact ⟨rfl, c, cmp, k, n, hs, hi, hcall, hoperands, hcmp, not_not.mp hicmp, hk, rfl, ht,
                hsmall, hr⟩
          · cases h
    · cases h

theorem factsOf_grounded {facts : List Fact} (h : factsOf f = .ok facts) {fact : Fact}
    (hmem : fact ∈ facts) : ∃ i c cmp k n, Grounded f fact i c cmp k n := by
  simp only [factsOf, Checked.bind_eq_ok, Checked.pure_eq_ok] at h
  obtain ⟨ps, hps, found, hfound, rfl⟩ := h
  obtain ⟨x, hx, hxf⟩ := List.mem_filterMap.mp hmem
  cases hxf
  obtain ⟨⟨id, i⟩, hp, he⟩ := Checked.mem_of_mapM hfound hx
  obtain ⟨hi, hs⟩ := Func.mem_placed hps hp
  obtain ⟨_, c, cmp, k, n, hg⟩ := factOf?_grounded hs hi he
  exact ⟨i, c, cmp, k, n, hg⟩

/-- The comparison that a fact comes from, operand by operand. -/
theorem comparison?_cases {cmp : Instr} {k : Comparison} {a b : Value}
    (hops : cmp.operands = [a, b]) (h : comparison? cmp = .ok (some k)) :
    k.value.isConst = false ∧ (k.value = a ∧ k.pred = cmp.pred ∧ (∃ t, b = .int t k.const) ∨
      k.value = b ∧ k.pred = swapPred cmp.pred ∧ ∃ t, a = .int t k.const) := by
  have hconst : ∀ {v : Value} {c : Int64}, v.intConst? = some c → ∃ t, v = .int t c := by
    intro v c hv
    cases v <;> simp_all [Value.intConst?]
  simp only [comparison?, hops, Checked.bind_eq_ok] at h
  obtain ⟨l, hl, r, hr, h⟩ := h
  cases hl
  cases hr
  split at h
  · next hv _ =>
    simp only [Checked.pure_eq_ok, Option.map_eq_some_iff] at h
    obtain ⟨c, hc, rfl⟩ := h
    exact ⟨hv, .inl ⟨rfl, rfl, hconst hc⟩⟩
  · next _ hv =>
    simp only [Checked.pure_eq_ok, Option.map_eq_some_iff] at h
    obtain ⟨c, hc, rfl⟩ := h
    exact ⟨hv, .inr ⟨rfl, rfl, hconst hc⟩⟩
  · cases h

end Function

end ValueRange

end RegPressure
