import RegPressure.Asm.Parser
import RegPressure.Proofs.IR.Placing

namespace RegPressure

namespace Parser

def Body.title (b : Body) : String × Symbols := (b.func.name, b.names.symbols)

theorem Body.resolve_title (b : Body) (x : Fixup) : (b.resolve x).title = b.title := by
  unfold resolve
  split <;> split <;> simp [title, report]

theorem Body.foldl_resolve_title (xs : List Fixup) (b : Body) :
    (xs.foldl Body.resolve b).title = b.title := by
  induction xs generalizing b with
  | nil => rfl
  | cons x xs ih => rw [List.foldl_cons, ih, resolve_title]

theorem Body.finish_sound {b c : Body} {start : Token} (h : b.finish start = .ok c)
    (he : c.errors = []) : c.func.WellFormed (some b.names.symbols) := by
  simp only [finish] at h
  have hnames : (b.fixups.foldl Body.resolve b).names.symbols = b.names.symbols :=
    congrArg (·.2) (foldl_resolve_title b.fixups b)
  generalize b.fixups.foldl Body.resolve b = r at h hnames
  split at h
  · next hne =>
    cases h
    exact absurd he hne
  · split at h
    · cases h
      simp [report] at he
    · simp only [Checked.bind_eq_ok, Checked.pure_eq_ok] at h
      obtain ⟨_, _, defects, hd, rfl⟩ := h
      have hnil : defects = [] := by simpa using he
      rw [hnil, hnames] at hd
      exact Func.verify_eq_nil.mp hd

theorem Body.push_title {b c : Body} {d : Draft} (h : b.push d = .ok c) : c.title = b.title := by
  simp only [push, Func.append, Checked.bind_eq_ok, Checked.pure_eq_ok] at h
  obtain ⟨⟨f, id⟩, ⟨_, _, happend⟩, rfl⟩ := h
  obtain ⟨_, _, _, _, _, _, _, hname, -⟩ := Func.insertAt_spec happend
  simp [title, hname]

theorem Body.step_title {b c : Body} {s t : Stream} (h : b.step s = .ok (c, t)) :
    c.title = b.title := by
  obtain ⟨⟨x, u⟩, -, h⟩ := Checked.bind_eq_ok.mp h
  cases x with
  | ok d =>
    simp only [Checked.bind_eq_ok, Checked.pure_eq_ok] at h
    obtain ⟨_, hpush, h⟩ := h
    cases h
    exact push_title hpush
  | error e =>
    cases h
    rfl

theorem Body.label_title (b : Body) (t : Token) : (b.label t).title = b.title := by
  unfold label
  split <;> rfl

theorem body_title (n : Nat) {b c : Body} {s t : Stream} (h : body n b s = .ok (c, t)) :
    c.title = b.title := by
  induction n generalizing b s with
  | zero => cases h
  | succ n ih =>
    unfold body at h
    split at h
    · cases h
      rfl
    · split at h
      · exact (ih h).trans (Body.label_title b s.cur)
      · simp only [Checked.bind_eq_ok] at h
        obtain ⟨⟨b', s'⟩, hstep, h⟩ := h
        exact (ih h).trans (Body.step_title hstep)

namespace State

variable {file : String}

def Sound (s : State) : Prop :=
  s.errors = [] → ∀ f ∈ s.module.funcs, f.WellFormed (some s.module.symbols)

theorem bail_sound (s : State) (e : Located) (stream : Stream) : (s.bail e stream).Sound := by
  intro h
  simp [bail] at h

theorem Sound.extend {s : State} (h : s.Sound) {symbols : Symbols} {stream : Stream}
    (hs : s.module.symbols.globals <+: symbols.globals) :
    Sound { s with stream, module := { s.module with symbols } } :=
  fun he f hf => (h he f hf).mono hs.length_le

theorem func_sound {s t : State} {start : Token} (hs : s.Sound) (h : s.func file start = .ok t) :
    t.Sound := by
  obtain ⟨⟨x, u⟩, -, h⟩ := Checked.bind_eq_ok.mp h
  cases x with
  | error e =>
    cases h
    exact bail_sound _ _ _
  | ok f =>
    simp only [Checked.bind_eq_ok] at h
    obtain ⟨⟨b, stream⟩, hbody, ⟨y, v⟩, -, h⟩ := h
    cases y with
    | error e =>
      cases h
      exact bail_sound _ _ _
    | ok x =>
      simp only [Checked.bind_eq_ok, Checked.pure_eq_ok] at h
      obtain ⟨c, hfin, rfl⟩ := h
      intro he f hf
      obtain ⟨hse, hce⟩ := List.append_eq_nil_iff.mp he
      rcases List.mem_append.mp hf with hf | hf
      · exact hs hse f hf
      · rw [List.mem_singleton.mp hf]
        have := Body.finish_sound hfin hce
        rwa [show b.names.symbols = s.module.symbols from
          congrArg (·.2) (body_title _ hbody)] at this

theorem item_sound {s t : State} (hs : s.Sound) (h : s.item file = .ok t) : t.Sound := by
  unfold item at h
  dsimp only at h
  split at h
  · cases h
    exact bail_sound _ _ _
  · split at h
    · obtain ⟨⟨x, u⟩, -, h⟩ := Checked.bind_eq_ok.mp h
      cases x with
      | ok g =>
        cases h
        exact hs.extend (List.prefix_append ..)
      | error e =>
        cases h
        exact bail_sound _ _ _
    · obtain ⟨⟨x, u⟩, -, h⟩ := Checked.bind_eq_ok.mp h
      cases x with
      | ok d =>
        cases h
        exact hs.extend (List.prefix_refl _)
      | error e =>
        cases h
        exact bail_sound _ _ _
    · exact func_sound (s := { s with stream := s.stream.advance }) hs h
    · cases h
      exact bail_sound _ _ _

theorem items_sound (n : Nat) {s t : State} (hs : s.Sound) (h : s.items file n = .ok t) :
    t.Sound := by
  induction n generalizing s with
  | zero => cases h
  | succ n ih =>
    unfold items at h
    split at h
    · cases h
      exact hs
    · obtain ⟨u, hu, h⟩ := Checked.bind_eq_ok.mp h
      exact ih (item_sound hs hu) h

end State

end Parser

theorem wellFormed_of_parse {file : String} {src : Bytes} {p : Parsed}
    (h : parse file src = .ok p) (he : p.errors = []) :
    ∀ f ∈ p.module.funcs, f.WellFormed (some p.module.symbols) := by
  simp only [parse, Checked.bind_eq_ok, Checked.pure_eq_ok] at h
  obtain ⟨s, hs, rfl⟩ := h
  exact Parser.State.items_sound _ (fun _ f hf => by simp at hf) hs
    (List.append_eq_nil_iff.mp he).2

end RegPressure
