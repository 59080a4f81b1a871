import RegPressure.Proofs.Asm.Resolved

namespace RegPressure.Parser

open Reader Grammar

variable {m : Module} {s t : Stream} {n : Nat} {f : Func} {d e : Decl} {g : Global}
  {ps qs : List Param}

theorem forward_params (n : Nat) (ps : List Param) : (params n ps).Forward n := by
  induction n generalizing ps with
  | zero => exact forward_endless
  | succ n ih =>
    unfold params
    have hmore (x : Token) (ty : Ty) : Forward (do
        if !(← sees .rparen) then let _ ← expect .comma
        params n (ps ++ [⟨x.word, some ty⟩])) n :=
      forward_bind (forward_sees .rparen) fun _ => forward_ite
        (forward_bind (forward_expect .comma) fun _ => ih _) (ih _)
    have hrest (x : Token) : Forward (do
        let _ ← expect .colon
        let ty ← Grammar.type
        if !(← sees .rparen) then let _ ← expect .comma
        params n (ps ++ [⟨x.word, some ty⟩])) n :=
      forward_bind (forward_expect .colon) fun _ => forward_bind forward_type fun ty => hmore x ty
    refine forward_bind (forward_sees .rparen) fun _ => forward_ite (forward_pure _) ?_
    refine forward_step (forward_expect .local) fun x => .inl ⟨takes_expect (by decide) x, ?_⟩
    exact forward_ite (forward_bind (forward_failAt _ _) fun _ => hrest x) (hrest x)

theorem forward_header (m : Module) : (header m).Forward n := by
  have hresult (x : Token) (ps : List Param) : Forward (do
      let _ ← expect .rparen
      let ret ← if ← accept .arrow then Grammar.type else pure Ty.void
      let _ ← expect .lbrace
      return ({ name := x.word, params := ps, ret } : Func)) n :=
    forward_bind (forward_expect _) fun _ => forward_bind (forward_accept _) fun _ => forward_ite
      (forward_bind forward_type fun _ => forward_bind (forward_expect _) fun _ => forward_pure _)
      (forward_bind (forward_pure _) fun _ => forward_bind (forward_expect _) fun _ => forward_pure _)
  have hrest (x : Token) : Forward (do
      let _ ← expect .lparen
      let ps ← params ((← get).rest.length + 1) []
      let _ ← expect .rparen
      let ret ← if ← accept .arrow then Grammar.type else pure Ty.void
      let _ ← expect .lbrace
      return ({ name := x.word, params := ps, ret } : Func)) n :=
    forward_bind (forward_expect _) fun _ => forward_rounds_bind (fun i => forward_params i []) fun ps =>
      hresult x ps
  exact forward_bind (forward_expect .global) fun x => forward_ite
    (forward_bind (forward_failAt _ _) fun _ => hrest x) (hrest x)

theorem forward_global (m : Module) : (global m).Forward n := by
  have hrest (x : Token) : Forward (do
      let _ ← expect .colon
      let ty ← Grammar.type
      return ({ name := x.word, ty := some ty, isConst := ← acceptWord "const" } : Global)) n :=
    forward_bind (forward_expect _) fun _ => forward_bind forward_type fun _ =>
      forward_bind (forward_acceptWord _) fun _ => forward_pure _
  exact forward_bind (forward_expect .global) fun x => forward_ite
    (forward_bind (forward_failAt _ _) fun _ => hrest x) (hrest x)

theorem forward_declAttributes (n : Nat) (d : Decl) : (declAttributes n d).Forward n := by
  induction n generalizing d with
  | zero => exact forward_endless
  | succ n ih =>
    exact forward_word _ (ih _) (forward_word _ (ih _) (forward_pure _))

theorem forward_declare : declare.Forward n := by
  have hattributes (d : Decl) : Forward (do declAttributes ((← get).rest.length + 1) d) n :=
    forward_rounds fun i => (forward_declAttributes i d).mono (Nat.min_le_left ..)
  exact forward_bind (forward_expect _) fun _ => forward_bind (forward_expect _) fun _ =>
    forward_bind (forward_commaList forward_type takes_type _) fun _ =>
      forward_bind (forward_expect _) fun _ => forward_bind (forward_accept _) fun _ => forward_ite
        (forward_bind forward_type fun _ => hattributes _)
        (forward_bind (forward_pure _) fun _ => hattributes _)

structure Listed (ps : List Param) : Prop where
  each : ∀ p ∈ ps, IsName p.name ∧ ∃ u, p.ty = some u ∧ u.Readable
  distinct : (ps.map (·.name)).Nodup

theorem Listed.concat {name : String} {ty : Ty} (h : Listed ps) (hn : IsName name)
    (hnew : ∀ p ∈ ps, p.name ≠ name) (hty : ty.Readable) : Listed (ps ++ [⟨name, some ty⟩]) where
  each := by
    intro p hp
    rcases List.mem_append.mp hp with hp | hp
    · exact h.each p hp
    · rw [List.mem_singleton.mp hp]
      exact ⟨hn, ty, rfl, hty⟩
  distinct := by
    rw [List.map_append, List.nodup_append]
    refine ⟨h.distinct, List.nodup_singleton _, ?_⟩
    simpa using hnew

theorem declAttributes_eq (h : Reads (declAttributes n d) s e t) :
    e.name = d.name ∧ e.params = d.params ∧ e.ret = d.ret := by
  induction n generalizing s d with
  | zero => simp [declAttributes] at h
  | succ n ih =>
    simp [declAttributes] at h
    rcases h with ⟨-, ⟨-, rfl, -⟩ | ⟨-, h⟩⟩ | ⟨-, h⟩
    · exact ⟨rfl, rfl, rfl⟩
    · obtain ⟨hn, hp, hr⟩ := ih h
      exact ⟨hn, hp, hr⟩
    · obtain ⟨hn, hp, hr⟩ := ih h
      exact ⟨hn, hp, hr⟩

section

variable (hproper : ∀ x ∈ s.rest, x.Proper)

include hproper

theorem isName_cur (hk : s.cur.kind = .local ∨ s.cur.kind = .global) : IsName s.cur.word :=
  (hproper _ (cur_mem (by rcases hk with hk | hk <;> simp [hk]))).isName hk

theorem listed_of_params (hps : Listed ps) (h : Reads (params n ps) s qs t) : Listed qs := by
  induction n generalizing s ps with
  | zero => simp [params] at h
  | succ n ih =>
    simp [params] at h
    rcases h with ⟨-, rfl, -⟩ | ⟨-, hk, hnew, -, ty, u, hty, h⟩
    · exact hps
    · have hps' := hps.concat (isName_cur hproper (.inl hk)) hnew (readable_of_type hty)
      have hpass : Passes s.rest u.rest :=
        s.passes_advance.trans (s.advance.passes_advance.trans ((forward_type (n := 0)).ok hty))
      have hproper' : ∀ x ∈ u.rest, x.Proper := fun x hx => hproper x (hpass.suffix.subset hx)
      rcases h with ⟨-, -, h⟩ | ⟨-, h⟩
      · exact ih (fun x hx => hproper' x (u.passes_advance.suffix.subset hx)) hps' h
      · exact ih hproper' hps' h

theorem headed_of_header (h : Reads (header m) s f t) :
    f.Headed ∧ m.func? f.name = none ∧ f = { name := f.name, params := f.params, ret := f.ret } := by
  simp [header] at h
  obtain ⟨hk, hnew, -, ps, u, hps, -, h⟩ := h
  have hpass := s.passes_advance.trans s.advance.passes_advance
  have hlist := listed_of_params (fun x hx => hproper x (hpass.suffix.subset hx))
    ⟨by simp, by simp⟩ hps
  have hname := isName_cur hproper (.inr hk)
  rcases h with ⟨-, -, rfl⟩ | ⟨-, ty, v, hty, -, rfl⟩
  · exact ⟨⟨hname, hlist.each, hlist.distinct, .void⟩, hnew, rfl⟩
  · exact ⟨⟨hname, hlist.each, hlist.distinct, readable_of_type hty⟩, hnew, rfl⟩

theorem formed_of_global (hm : m.symbols.Formed) (h : Reads (global m) s g t) :
    { m.symbols with globals := m.symbols.globals ++ [g] }.Formed := by
  simp [global] at h
  obtain ⟨hk, hnew, -, ty, u, hty, h⟩ := h
  have hg : g.name = s.cur.word ∧ g.ty = some ty := by
    rcases h with ⟨-, rfl⟩ | ⟨-, rfl⟩
    all_goals exact ⟨rfl, rfl⟩
  refine ⟨fun x hx => ?_, ?_, hm.decls, hm.params⟩
  · rcases List.mem_append.mp hx with hx | hx
    · exact hm.globals x hx
    · rw [List.mem_singleton.mp hx, hg.1, hg.2]
      exact ⟨isName_cur hproper (.inr hk), ty, rfl, readable_of_type hty⟩
  · rw [List.map_append, List.nodup_append]
    refine ⟨hm.distinct, List.nodup_singleton _, ?_⟩
    rw [Symbols.globalIndex?, List.findIdx?_eq_none_iff] at hnew
    simpa [hg.1] using hnew

theorem formed_of_declare (hm : m.symbols.Formed) (h : Reads declare s d t) :
    { m.symbols with decls := m.symbols.decls ++ [d] }.Formed := by
  simp [declare] at h
  obtain ⟨hk, -, ps, u, hps, -, h⟩ := h
  have hps := forall_of_reads_commaList (P := Ty.Readable) (fun _ _ _ => readable_of_type) hps
  have hd : d.name = s.cur.word ∧ d.params = ps.map some ∧ ∃ ty, d.ret = some ty ∧ ty.Readable := by
    rcases h with ⟨-, h⟩ | ⟨-, ty, v, hty, h⟩
    · obtain ⟨hn, hp, hr⟩ := declAttributes_eq h
      exact ⟨hn, hp, .void, hr, .void⟩
    · obtain ⟨hn, hp, hr⟩ := declAttributes_eq h
      exact ⟨hn, hp, ty, hr, readable_of_type hty⟩
  refine ⟨hm.globals, hm.distinct, fun x hx => ?_, fun x hx p hp => ?_⟩
  · rcases List.mem_append.mp hx with hx | hx
    · exact hm.decls x hx
    · rw [List.mem_singleton.mp hx, hd.1]
      exact ⟨isName_cur hproper (.inr hk), hd.2.2⟩
  · rcases List.mem_append.mp hx with hx | hx
    · exact hm.params x hx p hp
    · rw [List.mem_singleton.mp hx, hd.2.1] at hp
      obtain ⟨ty, hty, rfl⟩ := List.mem_map.mp hp
      exact ⟨ty, rfl, hps ty hty⟩

end

namespace State

variable {tokens : List Token} {file : String} {s t : State}

structure Good (tokens : List Token) (s : State) : Prop where
  passes : Passes tokens s.stream.rest
  symbols : s.module.symbols.Formed
  funcs : s.errors = [] → (s.module.funcs.map (·.name)).Nodup ∧
    ∀ f ∈ s.module.funcs, f.Read tokens s.module.symbols

theorem Good.bail (h : Good tokens s) {u : Stream} (hu : Passes s.stream.rest u.rest) (e : Located) :
    Good tokens (s.bail e u) where
  passes := (h.passes.trans hu).trans u.passes_passToItem
  symbols := h.symbols
  funcs := fun he => by simp [State.bail] at he

theorem Good.extend (h : Good tokens s) {u : Stream} (hu : Passes s.stream.rest u.rest)
    {symbols : Symbols} (hsym : symbols.Formed)
    (hs : s.module.symbols.globals <+: symbols.globals) :
    Good tokens { s with stream := u, module := { s.module with symbols } } where
  passes := h.passes.trans hu
  symbols := hsym
  funcs := fun he => (h.funcs he).imp_right fun hf f hmem => (hf f hmem).mono hs

/-- A function without any block. -/
theorem sound_opening (tokens : List Token) {f : Func} (symbols : Symbols) (h : f.Headed) (file : String)
    (hf : f = { name := f.name, params := f.params, ret := f.ret }) :
    Body.Sound tokens
      { func := { f with file }, names := { symbols, ret := f.ret, params := f.params } } := by
  obtain ⟨hblocks, hinstrs, hentry⟩ : f.blocks = #[] ∧ f.instrs = #[] ∧ f.entry = none := by
    rw [hf]
    exact ⟨rfl, rfl, rfl⟩
  have hblock : ∀ c, ({ f with file } : Func).block? c = none := by simp [Func.block?, hblocks]
  have hinstr : ∀ id, ({ f with file } : Func).instr? id = none := by simp [Func.instr?, hinstrs]
  exact {
    headed := h.congr rfl rfl rfl
    arranged := {
      entry := by simp [hblocks, hentry]
      edges := fun c blk hc => by simp [hblock] at hc
      order := by simp [hblocks, hinstrs, Func.instrIds]
      labels := fun c blk hc => by simp [hblock] at hc }
    called := {
      ret := rfl
      params := rfl
      locals := fun _ _ hl => by cases hl
      unique := fun id i hi => by simp [hinstr] at hi
      blocks := fun _ _ hl => by cases hl }
    formed := fun id i hi => by simp [hinstr] at hi
    references := {
      operand := fun id i hi => by simp [hinstr] at hi
      target := fun id i hi => by simp [hinstr] at hi
      openOperand := fun x hx => by cases hx
      openTarget := fun x hx => by cases hx }
    current := fun c hc => by cases hc
    unlabelled := fun _ c blk hc => by simp [hblock] at hc }

section

variable (file) (hproper : ∀ x ∈ tokens, x.Proper)

include hproper

theorem Good.func (h : Good tokens s) (start : Token) : ∃ t, s.func file start = .ok t ∧
    Good tokens t ∧ Passes s.stream.rest t.stream.rest := by
  unfold State.func
  rcases (forward_header s.module).attempt with ⟨f, u, hhead, hattempt⟩ | ⟨e, u, hhead, hattempt⟩
  · rw [hattempt, Checked.ok_bind]
    have hu := (forward_header (n := 0) s.module).ok hhead
    obtain ⟨hf, hnew, heq⟩ :=
      headed_of_header (fun x hx => hproper x (h.passes.suffix.subset hx)) hhead
    obtain ⟨b, v, hbody, hb, hv, -⟩ := (sound_opening tokens s.module.symbols hf
      file heq).body hproper (u.rest.length + 1) h.symbols (h.passes.trans hu) (Nat.lt_succ_self _)
    have htitle := body_title _ hbody
    simp only [hbody, Checked.ok_bind]
    rcases (forward_expect .rbrace).attempt with ⟨x, w, hclose, hattempt⟩ | ⟨e, w, hclose, hattempt⟩
    · rw [hattempt, Checked.ok_bind]
      have hw := (hu.trans hv).trans ((forward_expect (n := 0) .rbrace).ok hclose)
      obtain ⟨c, hc, hread⟩ := hb.finish start
      simp only [hc, Checked.ok_bind]
      refine ⟨_, rfl, ⟨h.passes.trans hw, h.symbols, fun he => ?_⟩, hw⟩
      obtain ⟨hes, hec⟩ := List.append_eq_nil_iff.mp he
      obtain ⟨hdistinct, hfuncs⟩ := h.funcs hes
      obtain ⟨hcread, hcname⟩ := hread hec
      have hcname : c.func.name = f.name := hcname.trans (congrArg (·.1) htitle)
      have hsymbols : b.names.symbols = s.module.symbols := congrArg (·.2) htitle
      constructor
      · change ((s.module.funcs ++ [c.func]).map (·.name)).Nodup
        rw [List.map_append, List.nodup_append]
        refine ⟨hdistinct, List.nodup_singleton _, ?_⟩
        rw [Module.func?, List.find?_eq_none] at hnew
        simpa [hcname] using hnew
      · intro g hg
        rcases List.mem_append.mp hg with hg | hg
        · exact hfuncs g hg
        · rw [List.mem_singleton.mp hg]
          exact hsymbols ▸ hcread
    · rw [hattempt, Checked.ok_bind]
      have hw := (hu.trans hv).trans ((forward_expect (n := 0) .rbrace).error hclose)
      refine ⟨_, rfl, ⟨?_, h.symbols, fun he => ?_⟩, hw.trans w.passes_passToItem⟩
      · exact (h.passes.trans hw).trans w.passes_passToItem
      · simp [State.bail] at he
  · rw [hattempt, Checked.ok_bind]
    have hu := (forward_header (n := 0) s.module).error hhead
    exact ⟨_, rfl, h.bail hu e, hu.trans u.passes_passToItem⟩

/-- An item is passed, or what stands in its place. -/
theorem Good.item (h : Good tokens s) (hmore : s.stream.atEnd = false) : ∃ t, s.item file = .ok t ∧
    Good tokens t ∧ t.stream.rest.length < s.stream.rest.length := by
  have hadv := s.stream.passes_advance
  have hlen := Stream.length_advance hmore
  -- Whatever follows the first word of an item comes behind that word.
  have hless : ∀ {u : Stream}, Passes s.stream.advance.rest u.rest →
      u.rest.length < s.stream.rest.length := fun hu => by
    have := hu.length_le
    omega
  have hbail : ∀ {u : Stream} (e : Located), Passes s.stream.advance.rest u.rest →
      Good tokens (s.bail e u) ∧ u.passToItem.rest.length < s.stream.rest.length := fun {u} e hu =>
    ⟨h.bail (hadv.trans hu) e, hless (hu.trans u.passes_passToItem)⟩
  have hskip : s.stream.cur.startsItem = false → ∀ e, Good tokens (s.bail e s.stream) ∧
      s.stream.passToItem.rest.length < s.stream.rest.length := fun hno e =>
    ⟨h.bail (.refl _) e, Stream.length_passToItem_lt hmore hno⟩
  have hproper' : ∀ x ∈ s.stream.advance.rest, x.Proper := fun x hx =>
    hproper x ((h.passes.trans hadv).suffix.subset hx)
  unfold State.item
  dsimp only
  split
  · next hk =>
    exact ⟨_, rfl, hskip (by simp [Token.startsItem, hk]) _⟩
  · split
    · rcases (forward_global s.module).attempt with ⟨g, u, hr, hattempt⟩ | ⟨e, u, hr, hattempt⟩
      · rw [hattempt, Checked.ok_bind]
        have hu := (forward_global (n := 0) s.module).ok hr
        refine ⟨_, rfl, h.extend (hadv.trans hu) (formed_of_global hproper' h.symbols hr) ?_, hless hu⟩
        exact List.prefix_append ..
      · rw [hattempt, Checked.ok_bind]
        exact ⟨_, rfl, hbail e ((forward_global (n := 0) s.module).error hr)⟩
    · rcases forward_declare.attempt with ⟨d, u, hr, hattempt⟩ | ⟨e, u, hr, hattempt⟩
      · rw [hattempt, Checked.ok_bind]
        have hu := (forward_declare (n := 0)).ok hr
        refine ⟨_, rfl, h.extend (hadv.trans hu) (formed_of_declare hproper' h.symbols hr) ?_, hless hu⟩
        exact List.prefix_refl _
      · rw [hattempt, Checked.ok_bind]
        exact ⟨_, rfl, hbail e ((forward_declare (n := 0)).error hr)⟩
    · have hafter : Good tokens { s with stream := s.stream.advance } :=
        ⟨h.passes.trans hadv, h.symbols, h.funcs⟩
      obtain ⟨t, ht, hgood, hpass⟩ := hafter.func file hproper s.stream.cur
      exact ⟨t, ht, hgood, hless hpass⟩
    · next hg hd hf =>
      have hno : s.stream.cur.startsItem = false := by
        have hword : s.stream.cur.word ∉ ["global", "declare", "func"] := by simp_all
        simp [Token.startsItem, hword]
      exact ⟨_, rfl, hskip hno _⟩

/-- Reading goes on to the end of the text, and with enough steps their number does not matter. -/
theorem Good.items (h : Good tokens s) (hend : ∃ x ∈ tokens, x.kind = .eof) : ∃ t,
    Good tokens t ∧ t.stream.atEnd = true ∧
      ∀ n, s.stream.rest.length ≤ n → s.items file n = .ok t := by
  induction hlen : s.stream.rest.length using Nat.strong_induction_on generalizing s with
  | _ k ih =>
    cases hend' : s.stream.atEnd with
    | true =>
      refine ⟨s, h, hend', fun n hn => ?_⟩
      -- The end mark is still to be read.
      obtain ⟨x, hx, -⟩ := h.passes.closed hend
      have hpos := List.length_pos_of_mem hx
      obtain ⟨m, rfl⟩ : ∃ m, n = m + 1 := ⟨n - 1, by omega⟩
      simp [State.items, hend']
    | false =>
      obtain ⟨t, ht, hgood, hlt⟩ := h.item file hproper hend'
      obtain ⟨t', hgood', hstop, hitems⟩ := ih _ (hlen ▸ hlt) hgood rfl
      refine ⟨t', hgood', hstop, fun n hn => ?_⟩
      obtain ⟨m, rfl⟩ : ∃ m, n = m + 1 := ⟨n - 1, by omega⟩
      simp only [State.items, hend', ht, Checked.ok_bind]
      exact hitems m (by omega)

end

end State

end RegPressure.Parser
