import RegPressure.Proofs.Narrow.Meaning
import RegPressure.Proofs.Narrow.Progress

namespace RegPressure

open Relation

namespace Func

variable {scope : Option Symbols} {f : Func} {d : DomInfo} {a b c : Int}

/-! ### Ranks of comparisons -/

theorem Intact.live_of_compares (hf : f.Intact scope) (ha : f.isLive a = true)
    (hab : f.Compares a b) : f.isLive b = true := by
  obtain ⟨i, hi, -, hmem⟩ := hab
  obtain ⟨j, hj, hlive⟩ := isLive_iff.mp ha
  cases hi.symm.trans hj
  exact (hf.references hi hlive).operands _ hmem

theorem Intact.rank_lt (hf : f.Intact scope) {rank : Int → Nat}
    (hrank : ∀ c d, f.isLive c = true → f.Compares c d → rank d < rank c) (ha : f.isLive a = true)
    (hab : TransGen f.Compares a b) : f.isLive b = true ∧ rank b < rank a := by
  induction hab with
  | single hab => exact ⟨hf.live_of_compares ha hab, hrank _ _ ha hab⟩
  | tail _ hbc ih => exact ⟨hf.live_of_compares ih.1 hbc, (hrank _ _ ih.1 hbc).trans ih.2⟩

open Classical in
theorem Intact.ranked_of_acyclic (hf : f.Intact scope)
    (h : ∀ c, f.isLive c = true → ¬ TransGen f.Compares c c) : f.ComparesRanked := by
  refine ⟨fun c => {d ∈ f.instrIds.toFinset | TransGen f.Compares c d}.card,
    fun a b ha hab => Finset.card_lt_card (Finset.ssubset_iff_subset_ne.mpr ⟨?_, fun he => ?_⟩)⟩
  · intro d hd
    obtain ⟨hd, hbd⟩ := Finset.mem_filter.mp hd
    exact Finset.mem_filter.mpr ⟨hd, .head hab hbd⟩
  · have hb := hf.live_of_compares ha hab
    obtain ⟨i, hi, -⟩ := isLive_iff.mp hb
    have hmem : b ∈ {d ∈ f.instrIds.toFinset | TransGen f.Compares a d} :=
      Finset.mem_filter.mpr ⟨List.mem_toFinset.mpr (mem_instrIds.mpr ⟨i, hi⟩), .single hab⟩
    rw [← he] at hmem
    exact h b hb (Finset.mem_filter.mp hmem).2

theorem InSsaForm.precedes_of_compares (hd : f.HasDominance scope d)
    (hf : f.InSsaForm d fun b => d.dom.isReachable b = true) {x : Nat} (ha : f.Stands x a)
    (hx : d.dom.isReachable x = true) (hab : TransGen f.Compares a b) :
    f.Precedes d b a ∧ ∃ y : Nat, f.Stands y b ∧ d.dom.isReachable y = true := by
  have hone {a b : Int} {x : Nat} (ha : f.Stands x a) (hx : d.dom.isReachable x = true)
      (hab : f.Compares a b) : f.Precedes d b a ∧ ∃ y : Nat, f.Stands y b ∧ d.dom.isReachable y = true := by
    obtain ⟨i, hi, hop, hmem⟩ := hab
    obtain ⟨⟨⟨y, hy⟩, -⟩, hprec⟩ := hf.uses x a i b hx ha hi (by rw [hop]; decide) hmem
    obtain ⟨y, rfl, -⟩ := hy.nat
    exact ⟨hprec, y, hy, hd.reachable_of_precedes hy ha hx hprec⟩
  induction hab with
  | single hab => exact hone ha hx hab
  | tail _ hbc ih =>
    obtain ⟨hprec, y, hy, hreach⟩ := ih
    obtain ⟨hprec', z, hz, hreach'⟩ := hone hy hreach hbc
    exact ⟨hd.precedes_trans hz hy ha hprec' hprec, z, hz, hreach'⟩

theorem InSsaForm.ranked (hd : f.HasDominance scope d) (hintact : f.Intact scope)
    (hf : f.InSsaForm d fun b => d.dom.isReachable b = true)
    (h : ∀ (b : Nat) c, f.Stands b c → d.dom.isReachable b = false → ¬ TransGen f.Compares c c) :
    f.ComparesRanked := by
  refine hintact.ranked_of_acyclic fun c hc hcircle => ?_
  obtain ⟨i, hi, hlive⟩ := isLive_iff.mp hc
  obtain ⟨b, hb⟩ := hintact.stands c i hi hlive
  obtain ⟨n, rfl, -⟩ := hb.nat
  cases hreach : d.dom.isReachable n with
  | false => exact h n c hb hreach hcircle
  | true => exact hd.not_precedes_self hb (hf.precedes_of_compares hd hb hreach hcircle).1

end Func

namespace Narrow

open ValueRange RangeM Func

variable {scope : Option Symbols} {f g : Func} {k : Context} {widths : List Int} {d : DomInfo}
  {w : Int} {id : Int} {i : Instr} {v : Value} {m m' : Memo}

/-! ### The loop of conversions -/

theorem not_circular (hf : k.func.Intact scope) (hr : k.func.ComparesRanked)
    (hid : k.func.isLive id = true) : ¬ Circular k w m (.instr id) := by
  intro h
  obtain ⟨rank, hrank⟩ := hr
  obtain ⟨_, c, ⟨⟩, hidc, hcircle⟩ := h.compares
  have hc : k.func.isLive c = true := by
    rcases reflTransGen_iff_eq_or_transGen.mp hidc with rfl | hidc
    · exact hid
    · exact (hf.rank_lt hrank hid hidc).1
  exact Nat.lt_irrefl _ (hf.rank_lt hrank hc hcircle).2

theorem halts_candidate? (hf : k.func.Intact scope) (hr : k.func.ComparesRanked) (hm : m.Idle k.func) :
    Checked.Halts ((candidate? k widths).run m) := by
  have hgo : ∀ places : List (Int × Int), (∀ p ∈ places, k.func.isLive p.1 = true) → ∀ m : Memo,
      m.Idle k.func → Checked.Halts ((candidate?.go k places).run m) := by
    intro places hplaces
    induction places with
    | nil => exact fun m _ => Checked.halts_ok _
    | cons p places ih =>
      obtain ⟨hp, hplaces⟩ := List.forall_mem_cons.mp hplaces
      intro m hm
      rw [run_go_cons]
      refine (Func.halts_instr _).bind fun _ _ => .bind (fun he => ?_) fun q hq => ?_
      · exact not_circular hf hr hp (circular_of_endless hm he)
      · have hlater := (stable_canNarrow _ _ _ m q.1 q.2 hm hq).1
        exact Checked.halts_ite (Checked.halts_ok _) (ih hplaces _ (hm.later hlater))
  rw [candidate?_eq]
  refine hgo _ (fun p hp => ?_) m hm
  obtain ⟨id, hid, hp⟩ := List.mem_flatMap.mp hp
  obtain ⟨_, -, rfl⟩ := List.mem_map.mp hp
  obtain ⟨b, hb⟩ := mem_listed.mp hid
  obtain ⟨i, hi, hhome, -⟩ := hf.wellFormed.home_of_stands hb
  exact isLive_iff.mpr ⟨i, hi, by simp [Instr.isErased, hhome]⟩

/-- What was chosen is converted. -/
theorem Chosen.intact (hi : Chosen f widths id i w) (hf : f.Intact scope)
    (he : (convert scope id w).run f = .ok () g) : g.Intact scope := by
  obtain ⟨hterm, hcast⟩ := kind_of_narrowed i.op hi.op_mem
  obtain ⟨b, hb⟩ := hf.stands id i hi.instr hi.live
  exact convert_keeps hf hb hi.instr hterm hcast (hi.shrinks.exists_int hf hi.instr) he

theorem Chosen.exists_outcome (hi : Chosen f widths id i w) (hf : f.Intact scope)
    (hpairs : f.ComparesPairs) (hw : 0 < w) (he : (convert scope id w).run f = .ok () g) :
    ∃ u wide, Outcome f id i w u wide g := by
  obtain ⟨hterm, hcast⟩ := kind_of_narrowed i.op hi.op_mem
  obtain ⟨b, hb⟩ := hf.stands id i hi.instr hi.live
  obtain ⟨_, _, _, u, _, wide, _, _, hc, rfl⟩ :=
    exists_converted hf hb hi.instr hterm hcast (hi.shrinks.exists_int hf hi.instr) he
  exact ⟨u, wide, hc.outcome hf hi.instr hi.live hw hi.shrinks (hpairs id i hi.instr hi.live)
    hi.operands i.name⟩

/-- One conversion after the other, each of what is found first. -/
inductive Conversions (scope : Option Symbols) (d : DomInfo) (widths : List Int) :
    Nat → Func → Func → Prop
  | none (f : Func) : Conversions scope d widths 0 f f
  | next {f g h : Func} {k : Context} {id w : Int} {n : Nat} (hk : Context.of f (some d) = .ok k)
      (hnext : (candidate? k widths).run' (Memo.empty f) = .ok (some (id, w)))
      (he : (convert scope id w).run f = .ok () g) (hrest : Conversions scope d widths n g h) :
      Conversions scope d widths (n + 1) f h

theorem Conversions.intact {n : Nat} (h : Conversions scope d widths n f g) (hf : f.Intact scope) :
    g.Intact scope := by
  induction h with
  | none => exact hf
  | next hk hnext he _ ih =>
    obtain ⟨i, hi⟩ := chosen_of_candidate hf hk hnext
    exact ih (hi.intact hf he)

theorem conversions_of_convertAll {steps : Nat} {changed : Bool}
    (he : (convertAll scope d widths steps).run f = .ok changed g) :
    ∃ n, Conversions scope d widths n f g := by
  induction steps generalizing f changed with
  | zero => exact absurd he Edit.throw_eq_ok.mp
  | succ steps ih =>
    simp only [convertAll, Edit.bind_eq_ok, Edit.ask_eq_ok, Checked.bind_eq_ok] at he
    obtain ⟨next, _, ⟨⟨k, hk, hnext⟩, rfl⟩, he⟩ := he
    split at he
    · obtain ⟨_, rfl⟩ := Edit.pure_eq_ok.mp he
      exact ⟨0, .none f⟩
    · simp only [Edit.bind_eq_ok, Edit.pure_eq_ok] at he
      obtain ⟨_, g', hg', _, _, hrest, _, rfl⟩ := he
      obtain ⟨n, hn⟩ := ih hrest
      exact ⟨n + 1, .next hk hnext hg' hn⟩

section Loop

variable (hf : Settling scope widths f) (hw : ∀ w ∈ widths, 0 < w)

include hf hw

theorem Settling.convert (hk : Context.of f (some d) = .ok k)
    (hnext : (candidate? k widths).run' (Memo.empty f) = .ok (some (id, w)))
    (he : (convert scope id w).run f = .ok () g) : Settling scope widths g ∧
      potential g widths < potential f widths ∧ (f.ComparesRanked → g.ComparesRanked) := by
  obtain ⟨i, hi⟩ := chosen_of_candidate hf.intact hk hnext
  have hpos := hw w hi.mem
  obtain ⟨u, wide, hout⟩ := hi.exists_outcome hf.intact hf.pairs hpos he
  exact ⟨hout.settling hf hi (hi.intact hf.intact he), hout.potential_lt hf hi hpos,
    hout.ranked hf.intact hi⟩

theorem Conversions.le_potential {n : Nat} (h : Conversions scope d widths n f g) :
    n + potential g widths ≤ potential f widths := by
  induction h with
  | none => omega
  | next hk hnext he _ ih =>
    obtain ⟨hg, hlt, -⟩ := hf.convert hw hk hnext he
    have := ih hg
    omega

theorem Settling.halts_convertAll (hr : f.ComparesRanked) {steps : Nat}
    (hsteps : potential f widths < steps) : Edit.Halts f (convertAll scope d widths steps) := by
  induction steps generalizing f with
  | zero => omega
  | succ steps ih =>
    rw [convertAll]
    refine (Edit.halts_ask ?_).bind fun next f' hask => ?_
    · refine (Context.halts_of f (some d)).bind fun k hk => ?_
      obtain ⟨rfl, -, -⟩ := Context.of_eq hk
      exact (halts_candidate? hf.intact hr (Memo.idle_empty k.func)).map _
    · obtain ⟨hnext, rfl⟩ := Edit.ask_eq_ok.mp hask
      obtain ⟨k, hk, hnext⟩ := Checked.bind_eq_ok.mp hnext
      cases next with
      | none => exact Edit.halts_pure _
      | some p =>
        obtain ⟨id, w⟩ := p
        refine (halts_convert id w).bind fun _ g hg => ?_
        obtain ⟨hg, hlt, hrank⟩ := hf.convert hw hk hnext hg
        exact (ih hg (hrank hr) (by omega)).bind fun _ _ _ => Edit.halts_pure _

end Loop

/-! ### Casts that nothing uses -/

def liveCount (f : Func) : Nat := {id ∈ f.instrIds.toFinset | f.isLive id = true}.card

/-- A resize that is not erased has users. -/
def NoDeadCast (f : Func) : Prop :=
  ∀ id i, f.instr? id = some i → i.isErased = false → isResize i.op = true → f.users id ≠ []

theorem liveCount_lt_of_erase (he : f.erase id = .ok g) (hid : f.isLive id = true) :
    liveCount g < liveCount f := by
  have hmem {f : Func} {q : Int} : q ∈ {q ∈ f.instrIds.toFinset | f.isLive q = true} ↔
      f.isLive q = true := by
    refine ⟨fun h => (Finset.mem_filter.mp h).2, fun h => Finset.mem_filter.mpr ⟨?_, h⟩⟩
    exact List.mem_toFinset.mpr (mem_instrIds.mpr ((isLive_iff.mp h).imp fun _ hi => hi.1))
  have hlive {q : Int} (hq : g.isLive q = true) : f.isLive q = true ∧ q ≠ id := by
    obtain ⟨j, hj, hlive⟩ := isLive_iff.mp hq
    rw [instr?_of_erase he] at hj
    split at hj
    · obtain ⟨_, -, rfl⟩ := Option.map_eq_some_iff.mp hj
      cases hlive
    · next hne => exact ⟨isLive_iff.mpr ⟨j, hj, hlive⟩, Ne.symm hne⟩
  refine Finset.card_lt_card (Finset.ssubset_iff_subset_ne.mpr ⟨fun q hq => ?_, fun heq => ?_⟩)
  · exact hmem.mpr (hlive (hmem.mp hq)).1
  · exact (hlive (hmem.mp (heq ▸ hmem.mpr hid))).2 rfl

theorem liveCount_le (f : Func) : liveCount f ≤ f.instrs.size := by
  have hle := (Finset.card_filter_le f.instrIds.toFinset (f.isLive · = true)).trans
    (List.toFinset_card_le f.instrIds)
  simpa [liveCount, instrIds] using hle

theorem exists_eraseAll {dead : List Int} (hf : f.Intact scope) (hnodup : dead.Nodup)
    (hdead : ∀ id ∈ dead, DeadCast f id) : ∃ g, (dead.forM Edit.erase).run f = .ok () g ∧
      g.Intact scope ∧ liveCount g + dead.length ≤ liveCount f := by
  induction dead generalizing f with
  | nil => exact ⟨f, rfl, hf, Nat.le_refl _⟩
  | cons id dead ih =>
    have hid := hdead id (List.mem_cons_self ..)
    obtain ⟨i, hi, hlive, -⟩ := hid.cast
    obtain ⟨b, hb⟩ := hf.stands id i hi hlive
    obtain ⟨g, hg⟩ := hf.wellFormed.answers_erase hb
    obtain ⟨hnew, hnodup⟩ := List.nodup_cons.mp hnodup
    have hlt := liveCount_lt_of_erase hg (isLive_iff.mpr ⟨i, hi, hlive⟩)
    obtain ⟨g', hg', hintact, hle⟩ := ih (hid.intact hf hg) hnodup fun x hx =>
      (hdead x (List.mem_cons_of_mem _ hx)).of_erase hf.wellFormed hg (ne_of_mem_of_not_mem hx hnew)
    refine ⟨g', ?_, hintact, ?_⟩
    · rw [List.forM, Edit.bind_eq_ok]
      exact ⟨(), g, Edit.erase_eq_ok.mpr hg, hg'⟩
    · rw [List.length_cons]
      omega

theorem answers_userMap (hf : f.Intact scope) : Checked.Answers f.userMap :=
  answers_userMap_iff.mpr fun _ _ hi hlive _ hd => (hf.references hi hlive).operands _ hd

theorem exists_eraseDeadCasts (hf : f.Intact scope) {rounds : Nat} (hrounds : liveCount f < rounds) :
    ∃ g, (eraseDeadCasts rounds).run f = .ok () g := by
  induction rounds generalizing f with
  | zero => omega
  | succ rounds ih =>
    obtain ⟨users, husers⟩ := answers_userMap hf
    obtain ⟨dead, heq⟩ : ∃ dead, dead = f.instrIds.filter fun id => (f.instr? id).any (fun i =>
        !i.isErased && isResize i.op) && users.getD id.toNat [] = [] := ⟨_, rfl⟩
    obtain ⟨hnodup, hdead⟩ := dead_casts hf.wellFormed husers heq
    obtain ⟨g, hg, hintact, hle⟩ := exists_eraseAll hf hnodup hdead
    suffices hround : ∃ g, (if dead.isEmpty then pure () else do
        dead.forM Edit.erase
        eraseDeadCasts rounds : Edit Unit).run f = .ok () g by
      obtain ⟨g, hround⟩ := hround
      refine ⟨g, ?_⟩
      simp only [eraseDeadCasts, Edit.bind_eq_ok, Edit.get_eq_ok, Edit.ask_eq_ok]
      exact ⟨f, f, ⟨rfl, rfl⟩, users, f, ⟨husers, rfl⟩, heq ▸ hround⟩
    cases dead with
    | nil => exact ⟨f, rfl⟩
    | cons id dead =>
      rw [List.length_cons] at hle
      obtain ⟨g', hg'⟩ := ih hintact (by omega)
      exact ⟨g', Edit.bind_eq_ok.mpr ⟨(), g, hg, hg'⟩⟩

theorem noDeadCast_of_eraseDeadCasts {rounds : Nat} (he : (eraseDeadCasts rounds).run f = .ok () g) :
    NoDeadCast g := by
  induction rounds generalizing f with
  | zero => exact absurd he Edit.throw_eq_ok.mp
  | succ rounds ih =>
    simp only [eraseDeadCasts, Edit.bind_eq_ok, Edit.get_eq_ok, Edit.ask_eq_ok] at he
    obtain ⟨_, _, ⟨rfl, rfl⟩, users, _, ⟨husers, rfl⟩, he⟩ := he
    split at he
    · next hnone =>
      obtain ⟨-, rfl⟩ := Edit.pure_eq_ok.mp he
      intro id i hi hlive hop hunused
      obtain ⟨hpos, hlt⟩ := lt_of_instr? hi
      obtain ⟨n, rfl⟩ := Int.eq_ofNat_of_zero_le hpos
      have hcell := cell_eq_ok.mp (cell_of_userMap husers hi)
      have hdead := List.filter_eq_nil_iff.mp (List.isEmpty_iff.mp hnone) n (mem_instrIds.mpr ⟨i, hi⟩)
      refine hdead ?_
      simp [hi, hlive, hop, hcell, hunused]
    · obtain ⟨_, g', -, he⟩ := Edit.bind_eq_ok.mp he
      exact ih he

theorem settling_of_read {tokens : List Token} {s : Symbols} (h : f.Read tokens s)
    (horder : 1 ∈ widths → f.ComparesInOrder) : Settling (some s) widths f where
  intact := h.intact
  pairs c i hi _ hop := by
    have hc := h.complete hi
    simp only [Instr.Complete, hop] at hc
    exact hc.1
  order := horder

theorem tried_ne_nil (widths : List Int) : tried widths ≠ [] := by
  unfold tried
  split
  · decide
  · next h => simpa using h

theorem Settling.halts_narrow {widths : List Int} (hf : Settling scope (tried widths) f)
    (hw : ∀ w ∈ tried widths, 0 < w) (hr : f.ComparesRanked) : Edit.Halts f (narrow scope widths) := by
  rw [narrow]
  refine (Edit.halts_ask ?_).bind fun d f' hask => Edit.halts_get.bind fun f'' _ hget => ?_
  · rw [hf.intact.wellFormed.compute_eq]
    exact Checked.halts_ok _
  obtain ⟨-, rfl⟩ := Edit.ask_eq_ok.mp hask
  obtain ⟨rfl, rfl⟩ := Edit.get_eq_ok.mp hget
  have hsteps : potential f (tried widths) < f.instrs.size * ((tried widths).length + 1) + 1 := by
    have := potential_le f (tried_ne_nil widths)
    rw [Nat.mul_succ]
    omega
  refine (hf.halts_convertAll hw hr hsteps).bind fun changed g hg => ?_
  obtain ⟨n, hn⟩ := conversions_of_convertAll hg
  dsimp only
  split
  · refine Edit.halts_get.bind fun g' _ hget => Edit.Halts.bind (fun g' herror => ?_) fun _ _ _ =>
      Edit.halts_pure _
    obtain ⟨rfl, rfl⟩ := Edit.get_eq_ok.mp hget
    obtain ⟨g'', hok⟩ :=
      exists_eraseDeadCasts (hn.intact hf.intact) (Nat.lt_succ_of_le (liveCount_le g))
    cases hok.symm.trans herror
  · exact Edit.halts_pure _

theorem noDeadCast_of_narrow {widths : List Int} (he : (narrow scope widths).run f = .ok true g) :
    NoDeadCast g := by
  simp only [narrow, Edit.bind_eq_ok, Edit.ask_eq_ok, Edit.get_eq_ok] at he
  obtain ⟨_, _, -, _, _, -, changed, g', -, he⟩ := he
  split at he
  · simp only [Edit.bind_eq_ok, Edit.get_eq_ok, Edit.pure_eq_ok] at he
    obtain ⟨_, _, -, _, _, hdead, -, rfl⟩ := he
    exact noDeadCast_of_eraseDeadCasts hdead
  · next hchanged => exact absurd (Edit.pure_eq_ok.mp he).1 hchanged

/-! ### Comparisons of comparisons at one bit -/

/-- Done at one bit, a comparison of comparisons is replaced by an identical one in its place. -/
theorem Converted.same {ops : List Value} {g₁ g₂ g₃ g₄ : Func} {b u p q : Int} {wide : Value}
    (h : Converted scope f id i 1 ops g₁ b u g₂ wide g₃ g₄) (hf : f.Intact scope)
    (hi : f.instr? id = some i) (hop : i.op = .icmp) (hops : i.operands = [.instr p, .instr q])
    (hp : f.opOf p = .icmp) (hq : f.opOf q = .icmp) :
    ops = i.operands ∧ g₁ = f ∧ wide = .instr u ∧ g₃ = g₂ ∧
      (g₄.setInstr u ({ · with name := i.name })).listed =
        f.listed.map fun c => if c = id then u else c := by
  have hbit {c : Int} (hc : f.opOf c = .icmp) : f.typeOf (.instr c) = .ok (some (.int 1)) := by
    obtain ⟨j, hj, hcmp⟩ := exists_of_opOf hc (by decide)
    exact (typeOf_instr hj).trans (by rw [hf.bit c j hj hcmp])
  have hoperands := h.operands
  simp only [narrowOperands, hop, hops, Edit.bind_eq_ok, Edit.ask_eq_ok, Edit.pure_eq_ok] at hoperands
  obtain ⟨_, _, ⟨⟨⟩, rfl⟩, p', _, hp', _, _, ⟨⟨⟩, rfl⟩, q', _, hq', rfl, rfl⟩ := hoperands
  obtain ⟨rfl, rfl⟩ := resize_same (hbit hp) hp'
  obtain ⟨rfl, rfl⟩ := resize_same (hbit hq) hq'
  obtain ⟨l, r, hins⟩ := h.inserts
  have hform : (formAt i 1 [.instr p, .instr q] b).ty = .i1 := if_pos hop
  have hresize := h.resize
  rw [hf.bit id i hi hop] at hresize
  obtain ⟨rfl, rfl⟩ := resize_same ((typeOf_instr hins.instr_eq).trans (by rw [hform])) hresize
  refine ⟨hops.symm, rfl, rfl, rfl, ?_⟩
  obtain ⟨s, t, hs, ht⟩ := hins.listed_eq h.intact₂.wellFormed
  -- The instruction is listed once, and behind its narrow form.
  have hnodup : (s ++ u :: id :: t).Nodup := ht ▸ h.intact₂.wellFormed.nodup_listed
  obtain ⟨-, hright, hdisj⟩ := List.nodup_append.mp hnodup
  have hne : u ≠ id := by
    rintro rfl
    simp at hright
  have hs' : id ∉ s := fun hmem => hdisj id hmem id (by simp) rfl
  have ht' : id ∉ t := (List.nodup_cons.mp (List.nodup_cons.mp hright).2).1
  have hmap {l : List Int} (hl : id ∉ l) : l.map (fun c => if c = id then u else c) = l :=
    (List.map_congr_left fun c hc => if_neg (ne_of_mem_of_not_mem hc hl)).trans (List.map_id' l)
  rw [h.listed_eq, ht, hs, List.filter_append, List.filter_cons_of_pos (by simpa using hne),
    List.filter_cons_of_neg (by simp), filter_ne_of_notMem hs', filter_ne_of_notMem ht',
    List.map_append, List.map_cons, if_pos rfl, hmap hs', hmap ht']

structure Spinning (scope : Option Symbols) (q : Int) (f : Func) : Prop where
  steady : Steady scope f
  listed : f.listed = [0, q, 2, 3, 4, 5]
  jump : f.opOf 0 = .br
  outer : ∃ i, f.instr? q = some i ∧ i.op = .icmp ∧ i.operands = [.instr 4, .instr 4]
  inner : ∃ i, f.instr? 4 = some i ∧ i.op = .icmp ∧ i.operands = [.instr 3, .instr 3]
  sum : ∃ i, f.instr? 3 = some i ∧ i.op = .add ∧ i.ty = .int 2 ∧
    i.operands = [.int (some (.int 2)) 0, .int (some (.int 2)) 0]
  calls : ∀ c i, f.instr? c = some i → i.op ≠ .call

theorem canNarrow_wide {depth n : Nat} {site : Int} (hi : k.func.instr? id = some i) (hop : i.op ≠ .icmp)
    (hty : i.ty = .int n) (hlt : w < n) : canNarrow k w (depth + 1) (.instr id) site = (do
      let r ← rangeAt k (.instr id) (some site)
      if r.fitsIn w then isLocal k w id i else return false) := by
  funext m
  have hwide : ¬ ((!i.ty.isInt || (i.ty.bits : Int) ≤ w) = true) := by
    simp [hty, Ty.isInt, Ty.bits, hlt]
  simp only [canNarrow, Func.instr_eq_ok.mpr hi]
  exact congrFun ((if_neg hop).trans (if_neg hwide)) m

theorem run_allM_twice {α : Type} {x : α → RangeM Bool} {a : α} (hx : Stable f (x a)) (hm : m.Idle f)
    (h : (x a).run m = .ok (true, m')) : ([a, a].allM x).run m = .ok (true, m') := by
  have hagain := (hx m true m' hm h).2 m' (Std.Refl.refl m')
  exact run_allM_cons_eq_ok.mpr ⟨_, h, run_allM_cons_eq_ok.mpr ⟨_, hagain, rfl⟩⟩

namespace Spinning

variable {q : Int}

theorem facts_eq_nil (h : Spinning scope q f) (hk : Context.of f (some d) = .ok k) : k.facts = [] := by
  obtain ⟨rfl, -, hfacts⟩ := Context.of_eq hk
  simp only [factsOf, Checked.bind_eq_ok, Checked.pure_eq_ok] at hfacts
  obtain ⟨placed, hplaced, facts, hall, heq⟩ := hfacts
  refine heq ▸ List.filterMap_eq_nil_iff.mpr fun fact? hmem => ?_
  obtain ⟨x, hx, hfact⟩ := Checked.mem_of_mapM hall hmem
  obtain ⟨hi, -⟩ := mem_placed hplaced hx
  rw [factOf?, if_pos (by simp [h.calls x.1 x.2 hi])] at hfact
  exact (Checked.pure_eq_ok.mp hfact).symm

/-- The sum is known to be zero, and that fits a bit. -/
theorem canNarrow_sum (h : Spinning scope q f) (hk : Context.of f (some d) = .ok k) (depth : Nat) :
    ∃ m, (canNarrow k 1 (depth + 1) (.instr 3) 4).run (.empty f) = .ok (true, m) := by
  obtain ⟨i, hi, hop, hty, hops⟩ := h.sum
  have hfacts := h.facts_eq_nil hk
  obtain ⟨rfl, -, -⟩ := Context.of_eq hk
  have hnarrow (v : Value) (site : Option Int) (r : Interval) : narrowBy k v site r = .ok r := by
    cases site with
    | none => rfl
    | some site =>
      rw [narrowBy, hfacts]
      rfl
  have hzero (instr : Int → Nat → RangeM Interval) :
      rangeBy k instr (.int (some (.int 2)) 0) (some 3) = pure (.const 2 0) := by
    simp only [rangeBy, Func.typeOf, hnarrow]
    rfl
  have hvalue (instr : Int → Nat → RangeM Interval) (m : Memo) :
      (instrValue k (rangeBy k instr) 3 i 2).run m = .ok (.const 2 0, m) := by
    simp only [instrValue, hop, hty, hops, binary?]
    change (do
      let a ← rangeBy k instr (.int (some (.int 2)) 0) (some 3)
      let b ← rangeBy k instr (.int (some (.int 2)) 0) (some 3)
      return a.add b : RangeM Interval).run m = _
    rw [hzero]
    rfl
  obtain ⟨depth', hdepth⟩ : ∃ depth, k.func.instrs.size = depth + 1 := by
    have := (lt_of_instr? hi).2
    exact ⟨k.func.instrs.size - 1, by omega⟩
  have hinstr : (instrRange k k.func.instrs.size 3 2).run (.empty k.func) =
      .ok (.const 2 0, (Memo.enter (.empty k.func) 3).finish 3 (.const 2 0)) := by
    rw [hdepth, run_instrRange_succ hi (Memo.get?_empty 3) (by simp [Memo.empty]), hvalue]
    rfl
  have hrange : (rangeAt k (.instr 3) (some 4)).run (.empty k.func) =
      .ok (.const 2 0, (Memo.enter (.empty k.func) 3).finish 3 (.const 2 0)) := by
    rw [rangeAt, rangeBy]
    simp only [typeOf_instr hi, hty, hnarrow]
    change (instrRange k k.func.instrs.size 3 2 >>= pure).run _ = _
    rw [bind_pure, hinstr]
  refine ⟨(Memo.enter (.empty k.func) 3).finish 3 (.const 2 0), ?_⟩
  rw [canNarrow_wide hi (by rw [hop]; decide) hty (by decide), StateT.run_bind, hrange]
  simp only [Checked.ok_bind, isLocal, hop]
  rfl

theorem canNarrow_outer (h : Spinning scope q f) (hk : Context.of f (some d) = .ok k) :
    ∃ m, (canNarrow k 1 (k.func.instrs.size + 1) (.instr q) q).run (.empty f) = .ok (true, m) := by
  obtain ⟨i, hi, hop, hops⟩ := h.outer
  obtain ⟨j, hj, hjop, hjops⟩ := h.inner
  have hsize : 4 < f.instrs.size := by
    have := (lt_of_instr? hj).2
    omega
  obtain ⟨depth, hdepth⟩ : ∃ depth, f.instrs.size = depth + 1 + 1 := ⟨f.instrs.size - 2, by omega⟩
  obtain ⟨m, hm⟩ := h.canNarrow_sum hk depth
  obtain ⟨rfl, -, -⟩ := Context.of_eq hk
  have hidle := Memo.idle_empty k.func
  rw [hdepth, canNarrow_compare hi hop, hops]
  have hinner : (canNarrow k 1 (depth + 1 + 1) (.instr 4) q).run (.empty k.func) = .ok (true, m) := by
    rw [canNarrow_compare hj hjop, hjops]
    exact run_allM_twice (stable_canNarrow _ _ _) hidle hm
  exact ⟨m, run_allM_twice (stable_canNarrow _ _ _) hidle hinner⟩

theorem candidate (h : Spinning scope q f) (hk : Context.of f (some d) = .ok k) :
    (candidate? k [1]).run' (.empty f) = .ok (some (q, 1)) := by
  obtain ⟨m, hm⟩ := h.canNarrow_outer hk
  obtain ⟨rfl, -, -⟩ := Context.of_eq hk
  obtain ⟨i, hi, -⟩ := h.outer
  obtain ⟨j, hj, hjop⟩ := exists_of_opOf h.jump (by decide)
  have hjump : (canNarrow k 1 (k.func.instrs.size + 1) (.instr 0) 0).run (.empty k.func) =
      .ok (false, .empty k.func) := by
    have hvoid := h.steady.intact.void 0 j hj (by rw [hjop]; rfl)
    have hwide : (!j.ty.isInt || (j.ty.bits : Int) ≤ 1) = true := by simp [hvoid, Ty.isInt]
    simp only [canNarrow, Func.instr_eq_ok.mpr hj]
    exact congrFun ((if_neg (by rw [hjop]; decide)).trans (if_pos hwide)) _
  have hrun : (candidate? k [1]).run (.empty k.func) = .ok (some (q, 1), m) := by
    rw [candidate?_eq, h.listed]
    simp only [List.flatMap_cons, List.map_cons, List.map_nil, List.cons_append, List.nil_append]
    rw [run_go_cons, instr_eq_ok.mpr hj, Checked.ok_bind, hjump, Checked.ok_bind,
      if_neg Bool.false_ne_true, run_go_cons, instr_eq_ok.mpr hi, Checked.ok_bind, hm]
    rfl
  rw [StateT.run', Checked.map_eq_ok]
  exact ⟨_, hrun, rfl⟩

theorem convert (h : Spinning scope q f) : ∃ g u, (convert scope q 1).run f = .ok () g ∧
    Spinning scope u g := by
  obtain ⟨i, hi, hop, hops⟩ := h.outer
  obtain ⟨b, hb⟩ := mem_listed.mp (h.listed ▸ List.mem_cons_of_mem 0 (List.mem_cons_self (a := q)))
  have hlive : i.isErased = false := by
    simp [Instr.isErased, h.steady.intact.wellFormed.home_eq hb hi]
  have hbit {c : Int} {j : Instr} (hj : f.instr? c = some j) (hjop : j.op = .icmp) :
      f.typeOf (.instr c) = .ok (some (.int 1)) :=
    (typeOf_instr hj).trans (by rw [h.steady.intact.bit c j hj hjop])
  have hfit : Fit f i := by
    obtain ⟨j, hj, hjop, -⟩ := h.inner
    refine ⟨.inr hop, ⟨1, h.steady.intact.bit q i hi hop⟩, fun v hv => ?_⟩
    have hv : v = .instr 4 := by simpa [Instr.resized, hop, hops] using hv
    exact hv ▸ ⟨⟨1, hbit hj hjop⟩, trivial⟩
  obtain ⟨g, hg⟩ : ∃ g, (Narrow.convert scope q 1).run f = .ok () g := by
    cases hrun : (Narrow.convert scope q 1).run f with
    | ok _ g => exact ⟨g, rfl⟩
    | error e g =>
      cases safe_convert h.steady.intact h.steady.supplied hb hi hfit 1 e g hrun
      exact absurd hrun (halts_convert q 1 g)
  obtain ⟨ops, g₁, c, u, g₂, wide, g₃, g₄, hc, rfl⟩ :=
    exists_converted h.steady.intact hb hi hfit.not_terminator hfit.not_cast hfit.ty hg
  obtain ⟨j, hj, hjop, hjops⟩ := h.inner
  have hcmp : f.opOf 4 = .icmp := (opOf_eq hj).trans hjop
  obtain ⟨rfl, rfl, rfl, rfl, hlisted⟩ := hc.same h.steady.intact hi hop hops hcmp hcmp
  obtain ⟨l, r, hins⟩ := hc.inserts
  have hnodup := h.listed ▸ h.steady.intact.wellFormed.nodup_listed
  simp only [List.nodup_cons, List.mem_cons, List.not_mem_nil, or_false, not_or] at hnodup
  obtain ⟨⟨h0, -⟩, ⟨h2, h3, h4, h5⟩, -⟩ := hnodup
  -- None of the others uses the comparison, so they stay as they are.
  have hkept {c : Int} {j : Instr} (hj : g₃.instr? c = some j) (hops : ∀ v ∈ j.operands, v ≠ .instr q) :
      ∃ j', (g₄.setInstr u ({ · with name := i.name })).instr? c = some j' ∧ j'.op = j.op ∧
        j'.ty = j.ty ∧ j'.operands = j.operands := by
    obtain ⟨j', hj', hop, hty, -, hops'⟩ := hc.exists_after i.name hj
    refine ⟨j', hj', hop, hty, hops'.trans ?_⟩
    have hmap : j.operands.map (replaced q (.instr u)) = j.operands :=
      (List.map_congr_left fun v hv => if_neg (hops v hv)).trans (List.map_id' _)
    rw [hmap, ite_self]
  refine ⟨_, u, hg, ?_⟩
  constructor
  case steady => exact h.steady.convert hb hi hfit hg
  case listed =>
    rw [hlisted, h.listed]
    simp [h0, Ne.symm h2, Ne.symm h3, Ne.symm h4, Ne.symm h5]
  case jump =>
    obtain ⟨j, hj, hjop⟩ := exists_of_opOf h.jump (by decide)
    obtain ⟨j', hj', hop', -⟩ := hc.exists_after i.name (hins.grows.instr 0 j hj)
    exact (opOf_eq hj').trans (hop'.trans hjop)
  case outer =>
    have hself : ∀ v ∈ i.operands, v ≠ .instr q := by simp [hops, Ne.symm h4]
    obtain ⟨j', hj', hop', -, hops'⟩ := hkept hins.instr_eq hself
    exact ⟨j', hj', hop'.trans hop, hops'.trans hops⟩
  case inner =>
    obtain ⟨j', hj', hop', -, hops'⟩ := hkept (hins.grows.instr 4 j hj) (by simp [hjops, Ne.symm h3])
    exact ⟨j', hj', hop'.trans hjop, hops'.trans hjops⟩
  case sum =>
    obtain ⟨j, hj, hjop, hjty, hjops⟩ := h.sum
    obtain ⟨j', hj', hop', hty', hops'⟩ := hkept (hins.grows.instr 3 j hj) (by simp [hjops])
    exact ⟨j', hj', hop'.trans hjop, hty'.trans hjty, hops'.trans hjops⟩
  case calls =>
    intro c j hj
    obtain ⟨k, hk⟩ := hc.exists_before hj
    obtain ⟨j', hj', hop', -⟩ := hc.exists_after i.name hk
    cases hj.symm.trans hj'
    rw [hop']
    by_cases hcu : c = u
    · subst hcu
      cases hk.symm.trans hins.instr_eq
      exact fun he => by cases hop.symm.trans he
    · exact h.calls c k (by rw [hins.instr c hcu, hk])

theorem conversions (h : Spinning scope q f) (n : Nat) : ∃ g, Conversions scope d [1] n f g := by
  induction n generalizing f q with
  | zero => exact ⟨f, .none f⟩
  | succ n ih =>
    obtain ⟨k, hk, -⟩ := Context.Sturdy.exists_of (some d) h.steady.sturdy
    obtain ⟨g, u, hg, hspin⟩ := h.convert
    obtain ⟨g', hg'⟩ := ih hspin
    exact ⟨g', .next hk (h.candidate hk) hg hg'⟩

end Spinning

end Narrow

open Narrow

/-- For a function in SSA form that reading accepts and widths that the configuration accepts: narrowing
makes at most so many conversions as there are instructions and widths, unless one bit is among the
widths and a comparison of nothing but comparisons is listed before all of these. Under the same
condition narrowing ends, unless comparisons that control cannot get to compare themselves. The
erasure of casts ends wherever the conversions have led, and then every resize has users. -/
theorem narrow_settles {c : Config} {file : String} {src : Bytes} {p : Parsed} {f : Func} {d : DomInfo}
    (haccepted : c.problem? = none) (h : parse file src = .ok p) (he : p.errors = [])
    (hf : f ∈ p.module.funcs) (hdom : DomInfo.compute f = .ok d)
    (hssa : f.InSsaForm d fun b => d.dom.isReachable b = true) :
    ((1 ∈ tried c.settings.widths → f.ComparesInOrder) →
      (∀ n g, Conversions (some p.module.symbols) d (tried c.settings.widths) n f g →
        n ≤ f.instrs.size * (tried c.settings.widths).length) ∧
      ((∀ (b : Nat) x, f.Stands b x → d.dom.isReachable b = false → ¬ TransGen f.Compares x x) →
        ∀ g, (narrow (some p.module.symbols) c.settings.widths).run f ≠ .error .endless g)) ∧
    (∀ n g, Conversions (some p.module.symbols) d (tried c.settings.widths) n f g →
      ∀ rounds > g.instrs.size, ∃ g', (eraseDeadCasts rounds).run g = .ok () g') ∧
    ∀ g, (narrow (some p.module.symbols) c.settings.widths).run f = .ok true g → NoDeadCast g := by
  have hread := (read_of_parse h he).funcs f hf
  have hw : ∀ w ∈ tried c.settings.widths, 0 < w := fun w hw =>
    (Config.tried_of_accepted haccepted w hw).1
  refine ⟨fun horder => ?_, fun n g hn rounds hrounds => ?_, fun g hg => noDeadCast_of_narrow hg⟩
  · have hsettling : Settling (some p.module.symbols) (tried c.settings.widths) f :=
      settling_of_read hread horder
    refine ⟨fun n g hn => ?_, fun hcircles => ?_⟩
    · have hle := hn.le_potential hsettling hw
      have := potential_le f (tried_ne_nil c.settings.widths)
      omega
    · exact hsettling.halts_narrow hw (hssa.ranked ⟨hread.intact.wellFormed, hdom⟩ hread.intact hcircles)
  · exact exists_eraseDeadCasts (hn.intact hread.intact) ((liveCount_le g).trans_lt hrounds)

theorem Edit.exists_run_of_apply {α : Type} {e : Edit α} {f : Func} {a : α}
    (h : (e.apply f).2 = .ok a) : ∃ g, e.run f = .ok a g := by
  unfold Edit.apply at h
  split at h
  · next b g hb =>
    cases h
    exact ⟨g, hb⟩
  · cases h

def comparedAhead : Bytes := Bytes.ofString
  ("func @f() -> i1 \x7b\na:\n  br c\nb:\n  %c = icmp eq i2 %x, %x\n  %d = icmp eq i1 %c, %c\n" ++
    "  ret i1 %d\nc:\n  %x = add i2 0, 0\n  br b\n\x7d\n")

/-- Narrowing to one bit ends, and no cast is left over. -/
theorem comparedAhead_settles : ({ widths := [1] } : Config).problem? = none ∧ ∃ p f d g,
    parse "f.mir" comparedAhead = .ok p ∧ p.errors = [] ∧ f ∈ p.module.funcs ∧
    DomInfo.compute f = .ok d ∧ f.InSsaForm d (fun b => d.dom.isReachable b = true) ∧
    f.ComparesInOrder ∧ (narrow (some p.module.symbols) [1]).run f = .ok true g ∧ NoDeadCast g ∧
    ∀ n h, Conversions (some p.module.symbols) d [1] n f h → n ≤ 6 := by
  have hrun : ((parse "f.mir" comparedAhead).toOption.bind fun p => p.module.funcs.head?.bind fun f =>
      (DomInfo.compute f).toOption.map fun d => (p.errors.isEmpty && f.usesHold d &&
        (f.incomingHold d fun b => d.dom.isReachable b = true) && decide f.ComparesInOrder,
        f.instrs.size, ((narrow (some p.module.symbols) [1]).apply f).2.toOption)) =
      some (true, 6, some true) := by decide +kernel
  simp only [Option.bind_eq_some_iff, Option.map_eq_some_iff, Checked.toOption_eq_some,
    Prod.mk.injEq, Bool.and_eq_true, decide_eq_true_eq] at hrun
  obtain ⟨p, hp, f, hf, d, hd, ⟨⟨⟨he, huses⟩, hincoming⟩, horder⟩, hsize, hnarrow⟩ := hrun
  have he : p.errors = [] := List.isEmpty_iff.mp he
  have hf : f ∈ p.module.funcs := List.mem_of_mem_head? hf
  have hssa := Func.inSsaForm_of_holds huses hincoming
  have haccepted : ({ widths := [1] } : Config).problem? = none := by decide +kernel
  obtain ⟨g, hg⟩ := Edit.exists_run_of_apply hnarrow
  obtain ⟨hends, -, hdead⟩ := narrow_settles haccepted hp he hf hd hssa
  refine ⟨haccepted, p, f, d, g, hp, he, hf, hd, hssa, horder, hg, hdead g hg, fun n h hn => ?_⟩
  have hle := (hends fun _ => horder).1 n h hn
  rwa [hsize] at hle

def comparedBehind : Bytes := Bytes.ofString
  ("func @f() -> i1 \x7b\na:\n  br c\nb:\n  %d = icmp eq i1 %c, %c\n  ret i1 %d\n" ++
    "c:\n  %x = add i2 0, 0\n  %c = icmp eq i2 %x, %x\n  br b\n\x7d\n")

/-- A comparison of a comparison that comes behind it is converted to one bit again and again. -/
theorem comparedBehind_spins : ({ widths := [1] } : Config).problem? = none ∧ ∃ p f d,
    parse "f.mir" comparedBehind = .ok p ∧ p.errors = [] ∧ f ∈ p.module.funcs ∧
    DomInfo.compute f = .ok d ∧ (∀ b < f.blocks.size, d.dom.isReachable b = true) ∧
    f.InSsaForm d (fun b => d.dom.isReachable b = true) ∧
    ∀ n, ∃ g, Conversions (some p.module.symbols) d [1] n f g := by
  have hrun : ((parse "f.mir" comparedBehind).toOption.bind fun p => p.module.funcs.head?.bind fun f =>
      (DomInfo.compute f).toOption.map fun d => p.errors.isEmpty && f.usesHold d &&
        (f.incomingHold d fun b => d.dom.isReachable b = true) &&
        ((List.range f.blocks.size).all fun b => d.dom.isReachable b) &&
        f.OperandsAgree && f.ResizesDefined && f.listed = [0, 1, 2, 3, 4, 5] &&
        (f.instrs.toList.map fun i => (i.op, i.ty, i.operands)) =
          [(.br, .void, []), (.icmp, .i1, [.instr 4, .instr 4]), (.ret, .void, [.instr 1]),
            (.add, .int 2, [.int (some (.int 2)) 0, .int (some (.int 2)) 0]),
            (.icmp, .i1, [.instr 3, .instr 3]), (.br, .void, [])]) = some true := by decide +kernel
  simp only [Option.bind_eq_some_iff, Option.map_eq_some_iff, Checked.toOption_eq_some,
    Bool.and_eq_true, decide_eq_true_eq] at hrun
  obtain ⟨p, hp, f, hf, d, hd, ⟨⟨⟨⟨⟨⟨he, huses⟩, hincoming⟩, hreach⟩, hagree⟩, hdefined⟩, hlisted⟩,
    hinstrs⟩ := hrun
  have he : p.errors = [] := List.isEmpty_iff.mp he
  have hf : f ∈ p.module.funcs := List.mem_of_mem_head? hf
  have hread := (read_of_parse hp he).funcs f hf
  refine ⟨by decide +kernel, p, f, d, hp, he, hf, hd, by simpa using hreach,
    Func.inSsaForm_of_holds huses hincoming, fun n => Spinning.conversions (q := 1) ?_ n⟩
  have hinstr {n : Nat} {op : Op} {ty : Ty} {ops : List Value}
      (hn : (f.instrs.toList.map fun i => (i.op, i.ty, i.operands))[n]? = some (op, ty, ops)) :
      ∃ i, f.instr? n = some i ∧ i.op = op ∧ i.ty = ty ∧ i.operands = ops := by
    rw [List.getElem?_map, Array.getElem?_toList] at hn
    obtain ⟨i, hi, he⟩ := Option.map_eq_some_iff.mp hn
    simp only [Prod.mk.injEq] at he
    exact ⟨i, by simpa [Func.instr?] using hi, he⟩
  rw [hinstrs] at hinstr
  refine ⟨⟨hread.intact, hread.supplied hagree hdefined⟩, hlisted, ?_, ?_, ?_, ?_, ?_⟩
  · obtain ⟨i, hi, hop, -⟩ := hinstr (n := 0) rfl
    exact (Func.opOf_eq hi).trans hop
  · obtain ⟨i, hi, hop, -, hops⟩ := hinstr (n := 1) rfl
    exact ⟨i, hi, hop, hops⟩
  · obtain ⟨i, hi, hop, -, hops⟩ := hinstr (n := 4) rfl
    exact ⟨i, hi, hop, hops⟩
  · exact hinstr (n := 3) rfl
  · intro c i hi hop
    have hmem : (i.op, i.ty, i.operands) ∈ f.instrs.toList.map fun i => (i.op, i.ty, i.operands) :=
      List.mem_map_of_mem (Array.mem_toList_iff.mpr (Func.mem_of_instr? hi))
    rw [hinstrs] at hmem
    simp [hop] at hmem

end RegPressure
