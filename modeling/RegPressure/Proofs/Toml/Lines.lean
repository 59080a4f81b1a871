import RegPressure.Proofs.Toml.Values

namespace RegPressure.Toml

variable {σ ε : Type} {malformed : ε} {step : σ → Expression → Except ε σ}

structure Line where
  text : List Char
  reading? : Option (Option Expression)
  reads : ∀ rest, line (text ++ '\n' :: rest) = reading?.map (·, '\n' :: rest)

namespace Line

def run (malformed : ε) (step : σ → Expression → Except ε σ) (s : σ) (l : Line) : Except ε σ :=
  match l.reading? with
  | none => .error malformed
  | some none => .ok s
  | some (some e) => step s e

def join (ls : List Line) : List Char := ls.flatMap fun l => l.text ++ ['\n']

end Line

section Keys

variable {name : String} {cs rest : List Char} {c : Char}

def Bare (name : String) : Prop := name.toList ≠ [] ∧ name.toList.all isBareKeyChar = true

instance (name : String) : Decidable (Bare name) := inferInstanceAs (Decidable (_ ∧ _))

theorem ne_of_bare (hc : isBareKeyChar c = true) {d : Char} (hd : isBareKeyChar d = false) : c ≠ d := by
  rintro rfl
  exact absurd (hd.symm.trans hc) (by decide)

theorem skipBlanks_cons (hc : isBlank c = false) : skipBlanks (c :: cs) = c :: cs :=
  List.dropWhile_cons_of_neg (by simp [hc])

theorem exists_first (hname : Bare name) : ∃ d ds, name.toList = d :: ds ∧ isBareKeyChar d = true := by
  obtain ⟨d, ds, hd⟩ := List.exists_cons_of_ne_nil hname.1
  exact ⟨d, ds, hd, List.all_eq_true.mp hname.2 d (hd ▸ List.mem_cons_self)⟩

theorem not_isBlank_of_bare (hc : isBareKeyChar c = true) : isBlank c = false := by
  simp [isBlank, ne_of_bare hc (d := ' ') (by decide), ne_of_bare hc (d := '\t') (by decide)]

theorem skipBlanks_bare (hname : Bare name) : skipBlanks (name.toList ++ cs) = name.toList ++ cs := by
  obtain ⟨d, ds, hd, hfirst⟩ := exists_first hname
  rw [hd, List.cons_append, skipBlanks_cons (not_isBlank_of_bare hfirst)]

theorem keyPart_bare (hname : Bare name) (hc : isBareKeyChar c = false) :
    keyPart (name.toList ++ c :: rest) = some (name, c :: rest) := by
  have htake : (name.toList ++ c :: rest).takeWhile isBareKeyChar = name.toList := by
    rw [List.takeWhile_append_of_pos (List.all_eq_true.mp hname.2), List.takeWhile_cons_of_neg (by simp [hc]),
      List.append_nil]
  obtain ⟨d, ds, hd, hfirst⟩ := exists_first hname
  have hof : String.ofList (d :: ds) = name := by rw [← hd, String.ofList_toList]
  rw [hd, List.cons_append] at htake ⊢
  rw [keyPart, htake]
  · simp [hof]
  · exact fun more h => ne_of_bare hfirst (by decide) (List.cons.inj h).1
  · exact fun more h => ne_of_bare hfirst (by decide) (List.cons.inj h).1

theorem keyWithin_last {d : Char} {more : List Char} (n : Nat) (hname : Bare name)
    (hc : isBareKeyChar c = false) (hskip : skipBlanks (c :: rest) = d :: more) (hd : d ≠ '.') :
    keyWithin (n + 1) (name.toList ++ c :: rest) = some ([name], d :: more) := by
  rw [keyWithin, keyPart_bare hname hc]
  simp only [Option.bind_eq_bind, Option.bind_some, hskip]
  split
  · next h => exact absurd (List.cons.inj h).1 hd
  · rfl

theorem keyWithin_dot (n : Nat) (hname : Bare name) :
    keyWithin (n + 1) (name.toList ++ '.' :: rest) =
      (keyWithin n (skipBlanks rest)).map fun x => (name :: x.1, x.2) := by
  rw [keyWithin, keyPart_bare hname (by decide)]
  have hskip : skipBlanks ('.' :: rest) = '.' :: rest := rfl
  simp only [Option.bind_eq_bind, Option.bind_some, hskip]
  cases keyWithin n (skipBlanks rest) <;> rfl

end Keys

namespace Line

theorem skipComment_text {cs rest : List Char} (h : ∀ c ∈ cs, isText c = true) :
    skipComment (cs ++ '\n' :: rest) = some ('\n' :: rest) := by
  induction cs with
  | nil => rfl
  | cons c cs ih =>
    obtain ⟨hc, hcs⟩ := List.forall_mem_cons.mp h
    have hne : c ≠ '\n' ∧ c ≠ '\r' := by
      constructor
      · rintro rfl
        exact absurd hc (by decide)
      · rintro rfl
        exact absurd hc (by decide)
    rw [List.cons_append, skipComment, if_pos hc, ih hcs]
    · exact fun h => absurd h hne.1
    · exact fun more h => absurd h hne.2

def remark (text : String) (h : text = "" ∨ text.toList.head? = some '#' ∧
    text.toList.all isText = true) : Line where
  text := text.toList
  reading? := some none
  reads := by
    intro rest
    obtain rfl | ⟨hfirst, htext⟩ := h
    · rfl
    · obtain ⟨cs, hcs⟩ := List.head?_eq_some_iff.mp hfirst
      have hcomment : skipComment (cs ++ '\n' :: rest) = some ('\n' :: rest) :=
        skipComment_text fun c hc =>
          List.all_eq_true.mp htext c (hcs ▸ List.mem_cons_of_mem _ hc)
      have hskip : skipBlanks ('#' :: (cs ++ '\n' :: rest)) = '#' :: (cs ++ '\n' :: rest) := rfl
      rw [hcs, List.cons_append, line, hskip]
      simp only [hcomment]
      rfl

theorem line_header {cs rest : List Char} {e : Expression}
    (h : header ('[' :: cs) = some (e, '\n' :: rest)) :
    Toml.line ('[' :: cs) = some (some e, '\n' :: rest) := by
  have hend : skipLineEnd ('\n' :: rest) = some ('\n' :: rest) := rfl
  rw [Toml.line, skipBlanks_cons (by decide)]
  simp only [h, hend, Option.bind_eq_bind, Option.bind_some]
  rfl

/-- The header of a table. -/
def table (name : String) (h : Bare name) : Line where
  text := '[' :: (name.toList ++ [']'])
  reading? := some (some (.table [name]))
  reads := by
    intro rest
    have hkey : key (name.toList ++ ']' :: '\n' :: rest) = some ([name], ']' :: '\n' :: rest) :=
      keyWithin_last _ h (by decide) rfl (by decide)
    rw [List.cons_append, List.append_assoc]
    refine line_header ?_
    obtain ⟨d, ds, hd, hfirst⟩ := exists_first h
    rw [header, skipBlanks_bare h]
    · change (key (name.toList ++ ']' :: '\n' :: rest)).bind _ = _
      rw [hkey]
      rfl
    · intro more hmore
      rw [hd] at hmore
      exact ne_of_bare hfirst (by decide) (List.cons.inj hmore).1

def item (outer inner : String) (ho : Bare outer) (hi : Bare inner) : Line where
  text := '[' :: '[' :: (outer.toList ++ '.' :: (inner.toList ++ [']', ']']))
  reading? := some (some (.tableArray [outer, inner]))
  reads := by
    intro rest
    have hinner : ∀ n, keyWithin (n + 1) (inner.toList ++ ']' :: ']' :: '\n' :: rest) =
        some ([inner], ']' :: ']' :: '\n' :: rest) :=
      fun n => keyWithin_last n hi (by decide) rfl (by decide)
    have hkey : key (outer.toList ++ '.' :: (inner.toList ++ ']' :: ']' :: '\n' :: rest)) =
        some ([outer, inner], ']' :: ']' :: '\n' :: rest) := by
      rw [key, keyWithin_dot _ ho, skipBlanks_bare hi]
      obtain ⟨n, hn⟩ : ∃ n, (outer.toList ++ '.' :: (inner.toList ++ ']' :: ']' :: '\n' :: rest)).length =
          n + 1 := ⟨_, by rw [List.length_append, List.length_cons, ← Nat.add_assoc]⟩
      rw [hn, hinner]
      rfl
    simp only [List.cons_append, List.append_assoc, List.nil_append]
    refine line_header ?_
    rw [header, skipBlanks_bare ho, hkey]
    rfl

/-- A key and its value. -/
def entry (name : String) (hname : Bare name) (text : List Char) (v? : Option Value)
    (h : Spells text v?) : Line where
  text := name.toList ++ ' ' :: '=' :: ' ' :: text
  reading? := v?.map fun v => some (.entry [name] v)
  reads := by
    intro rest
    obtain ⟨⟨c, cs, rfl, hc⟩, hvalue⟩ := h
    have hread : value (c :: (cs ++ '\n' :: rest)) = v?.map (·, '\n' :: rest) :=
      hvalue _ _ (by simp; omega) ⟨'\n', rest, rfl, by decide⟩
    have hkey : key (name.toList ++ ' ' :: '=' :: ' ' :: c :: (cs ++ '\n' :: rest)) =
        some ([name], '=' :: ' ' :: c :: (cs ++ '\n' :: rest)) :=
      keyWithin_last _ hname (by decide) rfl (by decide)
    have hblank : isBlank c = false := by
      simp only [List.mem_cons, not_or] at hc
      simp [isBlank, hc.1, hc.2.1]
    have hentry : Toml.entry (name.toList ++ ' ' :: '=' :: ' ' :: c :: (cs ++ '\n' :: rest)) =
        v?.map fun v => (.entry [name] v, '\n' :: rest) := by
      have hskip : skipBlanks (' ' :: c :: (cs ++ '\n' :: rest)) = c :: (cs ++ '\n' :: rest) :=
        skipBlanks_cons hblank
      have hequals : skipBlanks ('=' :: ' ' :: c :: (cs ++ '\n' :: rest)) =
          '=' :: ' ' :: c :: (cs ++ '\n' :: rest) := rfl
      rw [Toml.entry, hkey]
      simp only [Option.bind_eq_bind, Option.bind_some, hequals, hskip, hread]
      cases v? <;> rfl
    obtain ⟨d, ds, hd, hfirst⟩ := exists_first hname
    have hend : skipLineEnd ('\n' :: rest) = some ('\n' :: rest) := rfl
    rw [List.append_assoc]
    simp only [List.cons_append]
    rw [hd, List.cons_append] at hentry ⊢
    rw [Toml.line, skipBlanks_cons (not_isBlank_of_bare hfirst)]
    split
    · next h => cases h
    · next h => exact absurd (List.cons.inj h).1 (ne_of_bare hfirst (by decide))
    · next h => exact absurd (List.cons.inj h).1 (ne_of_bare hfirst (by decide))
    · next h => exact absurd (List.cons.inj h).1 (ne_of_bare hfirst (by decide))
    · next h => exact absurd (List.cons.inj h).1 (ne_of_bare hfirst (by decide))
    · rw [hentry]
      cases v? with
      | none => rfl
      | some v =>
        simp only [Option.bind_eq_bind, Option.map_some, Option.bind_some, hend]
        rfl

end Line

end RegPressure.Toml
