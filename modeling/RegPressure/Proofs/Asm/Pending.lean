import RegPressure.Proofs.Asm.Formed

namespace RegPressure

def Names.Knows (ns : Names) : Value → Prop
  | .arg i => ∃ n : Nat, i = n ∧ n < ns.params.length
  | .global i => ∃ n : Nat, i = n ∧ n < ns.symbols.globals.length
  | .instr id => ∃ name, ns.locals.lookup name = some id
  | _ => True

namespace Draft

/-- Each operand and target is known or listed as open, and what is listed is open. The names of
blocks satisfy `P`. -/
structure Sound (ns : Names) (P : String → Prop) (d : Draft) : Prop where
  operand : ∀ n v, d.instr.operands[n]? = some v →
    ns.Knows v ∨ v = .instr (-1) ∧ ∃ x ∈ d.pending, x.isBlock = false ∧ x.index = n
  target : ∀ n b, d.instr.targets[n]? = some b →
    (∃ name, P name ∧ ns.blocks.lookup name = some b) ∨
      b = -1 ∧ ∃ x ∈ d.pending, x.isBlock = true ∧ x.index = n
  openOperand : ∀ x ∈ d.pending, x.isBlock = false →
    d.instr.operands[x.index]? = some (.instr (-1))
  openTarget : ∀ x ∈ d.pending, x.isBlock = true →
    d.instr.targets[x.index]? = some (-1) ∧ P x.name

variable {ns : Names} {P : String → Prop} {d e : Draft} {v : Value} {later : Option Token}
  {x : Token}

theorem Sound.edit {change : Instr → Instr} (h : d.Sound ns P)
    (ho : (change d.instr).operands = d.instr.operands := by rfl)
    (ht : (change d.instr).targets = d.instr.targets := by rfl) : (d.edit change).Sound ns P where
  operand := by simpa only [Draft.edit, ho] using h.operand
  target := by simpa only [Draft.edit, ht] using h.target
  openOperand := by simpa only [Draft.edit, ho] using h.openOperand
  openTarget := by simpa only [Draft.edit, ht] using h.openTarget

theorem Sound.push (h : d.Sound ns P) (hv : later = none ∧ ns.Knows v ∨ v = .instr (-1) ∧ later ≠ none) :
    (d.push v later).Sound ns P where
  operand := by
    intro n w hn
    rcases getElem?_concat_eq_some.mp hn with hn | ⟨rfl, rfl⟩
    · rcases h.operand n w hn with hk | ⟨rfl, y, hy, hyb⟩
      · exact .inl hk
      · exact .inr ⟨rfl, y, List.mem_append_left _ hy, hyb⟩
    · rcases hv with ⟨-, hk⟩ | ⟨rfl, hne⟩
      · exact .inl hk
      · obtain ⟨x, rfl⟩ := Option.ne_none_iff_exists'.mp hne
        exact .inr ⟨rfl, ⟨_, x.word, x, false⟩, List.mem_append_right _ (by simp), rfl, rfl⟩
  target := by
    intro n b hb
    rcases h.target n b hb with hk | ⟨rfl, y, hy, hyb⟩
    · exact .inl hk
    · exact .inr ⟨rfl, y, List.mem_append_left _ hy, hyb⟩
  openOperand := by
    intro y hy hb
    rcases List.mem_append.mp hy with hy | hy
    · exact getElem?_concat_eq_some.mpr (.inl (h.openOperand y hy hb))
    · obtain ⟨z, hz, rfl⟩ := List.mem_map.mp hy
      rcases hv with ⟨rfl, -⟩ | ⟨rfl, -⟩
      · cases hz
      · exact getElem?_concat_eq_some.mpr (.inr ⟨rfl, rfl⟩)
  openTarget := by
    intro y hy hb
    rcases List.mem_append.mp hy with hy | hy
    · exact h.openTarget y hy hb
    · obtain ⟨z, -, rfl⟩ := List.mem_map.mp hy
      cases hb

theorem Sound.aim (h : d.Sound ns P) (hP : P x.word) : (d.aim ns x).Sound ns P where
  operand := by
    intro n v hv
    rcases h.operand n v hv with hk | ⟨rfl, y, hy, hyb⟩
    · exact .inl hk
    · exact .inr ⟨rfl, y, List.mem_append_left _ hy, hyb⟩
  target := by
    intro n b hn
    rcases getElem?_concat_eq_some.mp hn with hn | ⟨rfl, rfl⟩
    · rcases h.target n b hn with hk | ⟨rfl, y, hy, hyb⟩
      · exact .inl hk
      · exact .inr ⟨rfl, y, List.mem_append_left _ hy, hyb⟩
    · cases hl : ns.blocks.lookup x.word with
      | some b => exact .inl ⟨x.word, hP, hl⟩
      | none =>
        exact .inr ⟨rfl, ⟨_, x.word, x, true⟩, List.mem_append_right _ (by simp [hl]), rfl, rfl⟩
  openOperand := by
    intro y hy hb
    rcases List.mem_append.mp hy with hy | hy
    · exact h.openOperand y hy hb
    · split at hy
      · cases hy
      · cases List.mem_singleton.mp hy
        cases hb
  openTarget := by
    intro y hy hb
    rcases List.mem_append.mp hy with hy | hy
    · exact (h.openTarget y hy hb).imp_left fun h => getElem?_concat_eq_some.mpr (.inl h)
    · split at hy
      · cases hy
      · next hl =>
        cases List.mem_singleton.mp hy
        refine ⟨getElem?_concat_eq_some.mpr (.inr ⟨rfl, ?_⟩), hP⟩
        rw [Option.isSome_iff_ne_none, not_not] at hl
        rw [hl]
        rfl

end Draft

theorem Denotes.known {ns : Names} {ctx : Option Ty} {x : Token} {v : Value} {later : Option Token}
    (h : Denotes ns ctx x v later) : later = none ∧ ns.Knows v ∨ v = .instr (-1) ∧ later ≠ none := by
  cases h with
  | param hk hp => exact .inl ⟨rfl, _, rfl, (List.findIdx?_eq_some_iff_findIdx_eq.mp hp).1⟩
  | global hk hg => exact .inl ⟨rfl, _, rfl, (List.findIdx?_eq_some_iff_findIdx_eq.mp hg).1⟩
  | result hk hp hl => exact .inl ⟨rfl, _, hl⟩
  | later => exact .inr ⟨rfl, by simp⟩
  | _ => exact .inl ⟨rfl, trivial⟩

namespace Grammar

open DraftReader Draft

variable {α : Type} {ns : Names} {P : String → Prop} {d e : Draft} {s t : Stream} {a : α}

theorem knows_of_isConst {v : Value} (h : v.isConst = true) : ns.Knows v := by
  cases v with
  | arg | global | instr => cases h
  | _ => trivial

theorem knows_retype {ty : Ty} {v : Value} (h : ns.Knows v) : ns.Knows (retype ty v) := by
  unfold retype
  split
  · split <;> trivial
  · exact h

theorem sound_retype {n : Nat} {ty : Ty} (h : d.Sound ns P) :
    (d.edit fun i => { i with operands := i.operands.modify n (retype ty) }).Sound ns P where
  operand := by
    intro m v hv
    simp only [Draft.edit, List.getElem?_modify, Option.map_eq_map, Option.map_eq_some_iff] at hv
    obtain ⟨w, hw, rfl⟩ := hv
    rcases h.operand m w hw with hk | ⟨rfl, hx⟩
    · split
      · exact .inl (knows_retype hk)
      · exact .inl hk
    · exact .inr ⟨by split <;> rfl, hx⟩
  target := h.target
  openOperand := by
    intro x hx hb
    simp only [Draft.edit, List.getElem?_modify, h.openOperand x hx hb, Option.map_eq_map,
      Option.map_some]
    split <;> rfl
  openTarget := h.openTarget

theorem sound_of_built {r : DraftReader α} {n : Nat} (hr : Built ns n r) (hP : ∀ w, P w) (hd : d.Sound ns P)
    (h : Reads r d s a e t) : e.Sound ns P := by
  induction hr generalizing d s e t with
  | pure a =>
    obtain ⟨-, rfl, -⟩ := reads_pure.mp h
    exact hd
  | lift hr =>
    obtain ⟨-, rfl⟩ := reads_lift.mp h
    exact hd
  | step m _ _ _ ihr ihk =>
    obtain ⟨b, d', u, hb, h⟩ := reads_bind.mp h
    exact ihk b (ihr hd hb) h
  | rounds _ ihk =>
    obtain ⟨b, d', u, hb, h⟩ := reads_bind.mp h
    obtain ⟨rfl, rfl, rfl⟩ := reads_stream.mp hb
    exact ihk _ hd h
  | edit ho ht =>
    obtain ⟨rfl, -⟩ := reads_edit.mp h
    exact hd.edit (ho _) (ht _)
  | const hv =>
    obtain ⟨rfl, -⟩ := reads_pushOperand.mp h
    exact hd.push (.inl ⟨rfl, knows_of_isConst hv⟩)
  | retype n ty =>
    obtain ⟨rfl, -⟩ := reads_edit.mp h
    exact sound_retype hd
  | operand ctx =>
    obtain ⟨v, later, hv, rfl⟩ := reads_addOperand.mp h
    exact hd.push (reads_value.mp hv).1.known
  | target =>
    obtain ⟨-, rfl, -⟩ := reads_addTarget.mp h
    exact hd.aim (hP _)

def Targetable (op : Op) (name : String) : Prop := op = .br → name ∉ flagWords

theorem sound_rest {op : Op} {y : Unit} (hd : d.Sound ns (Targetable op))
    (ha : d.instr.access.noAlias = []) (hproper : ∀ x ∈ s.rest, x.Proper)
    (h : Reads (rest ns op) d s y e t) : e.Sound ns (Targetable op) := by
  by_cases hop : op = .br
  · subst hop
    simp only [rest, DraftReader.reads_bind] at h
    obtain ⟨_, d₁, u₁, hflags, _, d₂, u₂, hbody, hmeta⟩ := h
    have hpass := (@Built.flags ns 0).forward d |>.ok hflags
    obtain ⟨⟨_, _, _, rfl⟩, hpast⟩ := reads_flags hflags
    obtain ⟨hk, rfl, -⟩ := reads_addTarget.mp hbody
    have hword := isWord_of_pastFlags hpast (fun x hx => hproper x (hpass.suffix.subset hx)) hk
    obtain ⟨access, rfl, -⟩ := reads_metadata hmeta ha
    exact Sound.edit (Sound.aim (Sound.edit hd) fun _ => hword.2)
  · exact sound_of_built (Built.rest (n := 0) op) (fun w hw => absurd hw hop) hd h

theorem sound_of_reads {inBlock : Bool} (hproper : ∀ x ∈ s.rest, x.Proper)
    (hsym : ∀ x ∈ ns.symbols.decls, ∀ p ∈ x.params, ∃ u, p = some u ∧ u.Readable)
    (h : Reader.Reads (instruction ns inBlock) s d t) : d.Sound ns (Targetable d.instr.op) := by
  obtain ⟨-, -, -, hat⟩ := formed_of_reads hproper hsym h
  obtain ⟨op, -, hop, -, hrest, -⟩ := reads_operation.mp (reads_instruction.mp h)
  rw [hat.op] at hop
  cases hop
  have hpass := (passes_unnamed s).trans (unnamed s).passes_advance
  refine sound_rest ?_ rfl (fun x hx => hproper x (hpass.suffix.subset hx)) hrest
  constructor
  all_goals simp [opened]

theorem fresh_of_reads {inBlock : Bool} (hat : StandsAt s d.instr) (hname : d.instr.name ≠ "")
    (h : Reader.Reads (instruction ns inBlock) s d t) :
    ns.locals.lookup d.instr.name = none ∧ ns.param? d.instr.name = none := by
  obtain ⟨op, -, -, -, -, hfresh⟩ := reads_operation.mp (reads_instruction.mp h)
  cases hn : named s with
  | false => simp [hat.name, hn] at hname
  | true =>
    rw [hat.name, hn]
    exact (hfresh hn).2

end Grammar

end RegPressure
