import RegPressure.Proofs.Asm.Assembly
import RegPressure.Proofs.Asm.Lexeme
import RegPressure.Proofs.Asm.Shape

namespace RegPressure

def flagWords : List String := ["volatile", "checked", "atomic"]

def Stream.PastFlags (s : Stream) : Prop := ∀ w ∈ flagWords, s.atWord w = false

namespace Grammar

open DraftReader

variable {ns : Names} {d e : Draft} {s t : Stream} {y : Unit} {n : Nat}

theorem reads_flags_go (h : Reads (flags.go n) d s y e t) :
    (∃ volatile checked ordering,
      e = d.edit ({ · with volatile, checked, ordering })) ∧ t.PastFlags := by
  induction n generalizing d s with
  | zero => simp [flags.go] at h
  | succ n ih =>
    simp [flags.go] at h
    rcases h with ⟨hv, ⟨hc, ⟨⟨ha, rfl⟩, rfl⟩ | ⟨ha, o, u, ho, h⟩⟩ | ⟨hc, h⟩⟩ | ⟨hv, h⟩
    · refine ⟨⟨_, _, _, rfl⟩, fun w hw => ?_⟩
      simp only [flagWords, List.mem_cons, List.not_mem_nil, or_false] at hw
      rcases hw with rfl | rfl | rfl
      · exact hv
      · exact hc
      · exact ha
    all_goals
      obtain ⟨⟨_, _, _, rfl⟩, hpast⟩ := ih h
      exact ⟨⟨_, _, _, rfl⟩, hpast⟩

theorem reads_flags (h : Reads flags d s y e t) :
    (∃ volatile checked ordering,
      e = d.edit ({ · with volatile, checked, ordering })) ∧ t.PastFlags := by
  simp [flags] at h
  exact reads_flags_go h

/-- Metadata sets nothing else, and a scope in it is an item of a list. -/
theorem reads_metadata_go (h : Reads (metadata.go n) d s y e t)
    (hd : ∀ x ∈ d.instr.access.noAlias, ∃ list, x ∈ scopes list) :
    ∃ access : AccessMeta, e = d.edit ({ · with access }) ∧
      ∀ x ∈ access.noAlias, ∃ list, x ∈ scopes list := by
  induction n generalizing d s with
  | zero => simp [metadata.go] at h
  | succ n ih =>
    simp [metadata.go] at h
    rcases h with ⟨-, -, h⟩ | ⟨-, rfl, -⟩
    · split at h
      · simp [setMeta] at h
        obtain ⟨-, h⟩ := h
        obtain ⟨access, rfl, ha⟩ := ih h hd
        exact ⟨access, rfl, ha⟩
      · simp [setMeta] at h
        obtain ⟨-, h⟩ := h
        obtain ⟨access, rfl, ha⟩ := ih h hd
        exact ⟨access, rfl, ha⟩
      · simp [setMeta] at h
        obtain ⟨-, h⟩ := h
        obtain ⟨access, rfl, ha⟩ := ih h fun x hx => by
          rcases List.mem_append.mp hx with hx | hx
          · exact hd x hx
          · exact ⟨_, hx⟩
        exact ⟨access, rfl, ha⟩
      · simp [setMeta] at h
        obtain ⟨access, rfl, ha⟩ := ih h hd
        exact ⟨access, rfl, ha⟩
      · simp at h
    · exact ⟨_, rfl, hd⟩

theorem reads_metadata (h : Reads metadata d s y e t) (hd : d.instr.access.noAlias = []) :
    ∃ access : AccessMeta, e = d.edit ({ · with access }) ∧
      ∀ x ∈ access.noAlias, ∃ list, x ∈ scopes list := by
  simp [metadata] at h
  exact reads_metadata_go h (by simp [hd])

end Grammar

/-- An instruction as reading makes it in a function that gives `ret`; `w` is the type that stands
behind its operation. -/
structure Instr.Formed (ret w : Ty) (i : Instr) : Prop where
  layout : ∃ slots, i.Layout ret w slots i.targets.length ∧
    List.Forall₂ Slot.Holds slots i.operands
  ty : i.ty.Readable
  elem : if i.op.hasElem then ∃ u, i.elem = some u ∧ u.Readable else i.elem = none
  pred : if i.op.isCompare then IsWord i.pred ∧ i.pred ∉ flagWords else i.pred = ""
  rmw : if i.op = .atomicrmw then IsWord i.rmw ∧ i.rmw ∉ flagWords else i.rmw = ""
  callee : i.callee ≠ "" → i.op = .call ∧ IsName i.callee
  name : i.name ≠ "" → i.ty.isVoid = false ∧ IsName i.name
  noAlias : ∀ x ∈ i.access.noAlias, ∃ list, x ∈ Grammar.scopes list
  written : i.op.restatesType = true → w.Readable

namespace Grammar

open DraftReader

variable {ns : Names} {d e : Draft} {s t : Stream} {op : Op} {inBlock : Bool}

def Writes (s : Stream) (w : Ty) : Prop :=
  ∃ op d t u, (unnamed s).cur.kind = .ident ∧ Op.ofName? (unnamed s).cur.word = some op ∧
    Reads flags (opened (named s) s.cur op) (unnamed s).advance () d t ∧
    Reader.Reads (typeBehind op) t w u

structure StandsAt (s : Stream) (i : Instr) : Prop where
  name : i.name = if named s then s.cur.word else ""
  op : Op.ofName? (unnamed s).cur.word = some i.op
  pos : i.pos = ⟨s.cur.line, s.cur.column⟩

theorem passes_unnamed (s : Stream) : Passes s.rest (unnamed s).rest := by
  unfold unnamed
  split
  · exact s.passes_advance.trans s.advance.passes_advance
  · exact .refl _

theorem isWord_of_pastFlags (hpast : s.PastFlags) (hproper : ∀ x ∈ s.rest, x.Proper)
    (hk : s.cur.kind = .ident) : IsWord s.cur.word ∧ s.cur.word ∉ flagWords := by
  refine ⟨(hproper _ (cur_mem (by simp [hk]))).isWord hk, fun hw => ?_⟩
  have := hpast _ hw
  simp [Stream.atWord, Stream.sees, hk] at this

theorem Shaped.formed {d g : Draft} {w : Ty} {slots : List Slot} {vs : List Value}
    {ts : List Int} {access : AccessMeta} (hg : Shaped ns op s d g w slots ts.length)
    (hd : Blank d op) (hpast : s.PastFlags) (hproper : ∀ x ∈ s.rest, x.Proper)
    (hvs : List.Forall₂ Slot.Holds slots vs)
    (hname : g.instr.name ≠ "" → g.instr.ty.isVoid = false ∧ IsName g.instr.name)
    (hscopes : ∀ x ∈ access.noAlias, ∃ list, x ∈ scopes list) :
    Instr.Formed ns.ret w { g.instr with operands := vs, targets := ts, access } := by
  have hop : g.instr.op = op := by rw [hg.dressed]; exact hd.op
  subst hop
  refine ⟨⟨slots, hg.layout, hvs⟩, hg.ty, ?_, ?_, ?_, fun hne => ?_, hname, hscopes,
    fun h => (hg.written h).1⟩
  · have := hg.elem
    rwa [hd.elem] at this
  · have := hg.pred
    rw [hd.pred] at this
    split at this
    · next hc =>
      rw [if_pos hc, this.2]
      exact isWord_of_pastFlags hpast hproper this.1
    · next hc => rwa [if_neg hc]
  · have := hg.rmw
    rw [hd.rmw] at this
    split at this
    · next hc =>
      rw [if_pos hc, this.2]
      exact isWord_of_pastFlags hpast hproper this.1
    · next hc => rwa [if_neg hc]
  · have hne : g.instr.callee ≠ "" := hne
    obtain ⟨hcall, x, hx, hk, hw⟩ := hg.callee (by rwa [hd.callee])
    exact ⟨hcall, hw ▸ (hproper x hx).isName (.inr hk)⟩

theorem formed_of_reads (hproper : ∀ x ∈ s.rest, x.Proper)
    (hsym : ∀ x ∈ ns.symbols.decls, ∀ p ∈ x.params, ∃ u, p = some u ∧ u.Readable)
    (h : Reader.Reads (instruction ns inBlock) s d t) :
    ∃ w, d.instr.Formed ns.ret w ∧ (d.instr.op.restatesType = true → Writes s w) ∧
      StandsAt s d.instr := by
  obtain ⟨op, hk, hop, -, hrest, hname⟩ := reads_operation.mp (reads_instruction.mp h)
  simp only [rest, DraftReader.reads_bind] at hrest
  obtain ⟨_, d₁, u₁, hflags, _, d₂, u₂, hbody, hmeta⟩ := hrest
  obtain ⟨⟨volatile, checked, ordering, hd₁⟩, hpast⟩ := reads_flags hflags
  -- The body is read from an end of the text that holds proper tokens only.
  have hpass : Passes s.rest u₁.rest :=
    ((passes_unnamed s).trans (unnamed s).passes_advance).trans
      ((@Built.flags ns 0).forward _ |>.ok hflags)
  have hproper₁ : ∀ x ∈ u₁.rest, x.Proper := fun x hx => hproper x (hpass.suffix.subset hx)
  have hblank : Blank d₁ op := by
    subst hd₁
    exact ⟨rfl, rfl, rfl, rfl, rfl, rfl, rfl, rfl⟩
  obtain ⟨g, w, slots, n, ⟨vs, ts, hi, hvs, rfl⟩, hg⟩ := adds_body hblank
    (fun x hx hk => (hproper₁ x hx).isName (.inr hk) |>.ne_empty) hsym hbody
  have hdress := hg.dressed
  obtain ⟨access, rfl, hscopes⟩ := reads_metadata hmeta (by
    rw [hi, hdress, hd₁]
    rfl)
  have hinstr : (d₂.edit ({ · with access })).instr =
      { g.instr with operands := vs, targets := ts, access } := by
    have ho : g.instr.operands = [] := by rw [hdress]; exact hblank.operands
    have ht : g.instr.targets = [] := by rw [hdress]; exact hblank.targets
    simp [Draft.edit, hi, ho, ht]
  have hgname : g.instr.name = if named s then s.cur.word else "" := by rw [hdress, hd₁]; rfl
  have hgop : g.instr.op = op := by rw [hdress]; exact hblank.op
  rw [hinstr]
  refine ⟨w, hg.formed hblank hpast hproper₁ hvs (fun hne => ?_) hscopes, fun hr => ?_,
    hgname, by rw [hop, ← hgop], ?_⟩
  · cases hn : named s with
    | false => simp [hgname, hn] at hne
    | true =>
      have hk : s.cur.kind = .local := by
        simp [named, Stream.sees] at hn
        exact hn.1
      have hvoid := (hname hn).1
      rw [hinstr] at hvoid
      rw [hgname, hn, if_pos rfl]
      exact ⟨hvoid, (hproper _ (cur_mem (by simp [hk]))).isName (.inl hk)⟩
  · obtain ⟨-, u, hu⟩ := hg.written (hgop ▸ hr)
    exact ⟨op, d₁, u₁, u, hk, hop, hflags, hu⟩
  · change g.instr.pos = _
    rw [hdress, hd₁]
    rfl

end Grammar

end RegPressure
