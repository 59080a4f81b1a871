import RegPressure.Proofs.Asm.Items

namespace RegPressure

/-- The instruction has the operands and targets that its operation needs in a function that gives
`ret`. -/
def Instr.Complete (ret : Ty) (i : Instr) : Prop :=
  match i.op with
  | .invalid => False
  | .phi | .switch => 0 < i.operands.length ∧ i.targets.length = i.operands.length
  | .br => i.operands.length = 0 ∧ i.targets.length = 1
  | .condbr => i.operands.length = 1 ∧ i.targets.length = 2
  | .ret => i.operands.length = (if ret.isVoid then 0 else 1) ∧ i.targets.length = 0
  | .call => (i.callee = "" → 0 < i.operands.length) ∧ i.targets.length = 0
  | .gep | .extractvalue => 0 < i.operands.length ∧ i.targets.length = 0
  | .insertvalue => 1 < i.operands.length ∧ i.targets.length = 0
  | .alloca => i.operands.length ≤ 1 ∧ i.targets.length = 0
  | .select | .insertelement | .shufflevector | .cmpxchg =>
    i.operands.length = 3 ∧ i.targets.length = 0
  | .fence | .unreachable => i.operands.length = 0 ∧ i.targets.length = 0
  | .fneg | .load | .trunc | .zext | .sext | .fptrunc | .fpext | .fptosi | .fptoui | .sitofp
  | .uitofp | .ptrtoint | .inttoptr | .bitcast => i.operands.length = 1 ∧ i.targets.length = 0
  | .icmp | .fcmp | .extractelement | .store | .atomicrmw | .add | .sub | .mul | .udiv | .sdiv
  | .urem | .srem | .shl | .lshr | .ashr | .and | .or | .xor | .fadd | .fsub | .fmul | .fdiv
  | .frem => i.operands.length = 2 ∧ i.targets.length = 0

theorem Instr.Formed.complete {ret w : Ty} {i : Instr} (h : i.Formed ret w) : i.Complete ret := by
  obtain ⟨slots, hl, hv⟩ := h.layout
  rw [Complete, ← hv.length_eq]
  unfold Layout at hl
  cases hop : i.op <;> rw [hop] at hl
  case invalid => exact hl
  case ret =>
    obtain ⟨hs, ht, -⟩ := hl
    split at hs
    · next hr => simp [hs, ht, hr]
    · next hr =>
      obtain ⟨ty, -, rfl⟩ := hs
      simp [ht, hr]
  case call =>
    obtain ⟨n, rfl, ht⟩ := hl
    exact ⟨fun hc => by simp [hc], ht⟩
  case alloca => rcases hl with ⟨rfl | rfl, ht, -⟩ <;> simp [ht]
  case store =>
    obtain ⟨_, _, rfl, ht, -⟩ := hl
    exact ⟨rfl, ht⟩
  case phi =>
    obtain ⟨n, rfl, ht⟩ := hl
    simp [ht]
  case switch =>
    obtain ⟨n, rfl, ht, -⟩ := hl
    simp [ht]
  case gep =>
    obtain ⟨n, rfl, ht, -⟩ := hl
    simp [ht]
  case extractvalue =>
    obtain ⟨is, rfl, ht, -⟩ := hl
    simp [ht]
  case insertvalue =>
    obtain ⟨is, _, rfl, ht, -⟩ := hl
    simp [ht]
  case extractelement | insertelement =>
    obtain ⟨_, _, -, rfl, ht, -⟩ := hl
    exact ⟨rfl, ht⟩
  case shufflevector =>
    obtain ⟨_, _, -, rfl, ht⟩ := hl
    exact ⟨rfl, ht⟩
  all_goals simp [hl]

namespace Func.Read

variable {tokens : List Token} {s : Symbols} {f : Func} {id : Int} {i : Instr}

/-- Every instruction stands in a block. -/
theorem stands (h : f.Read tokens s) (hi : f.instr? id = some i) : ∃ b, f.Stands b id := by
  rw [← Func.mem_flatMap_instrs, h.order]
  exact Func.mem_instrIds.mpr ⟨i, hi⟩

theorem references (h : f.Read tokens s) (hi : f.instr? id = some i) :
    f.References (some s) i := by
  obtain ⟨b, hb⟩ := h.stands hi
  exact h.wellFormed.references hb hi

theorem complete (h : f.Read tokens s) (hi : f.instr? id = some i) : i.Complete f.ret := by
  obtain ⟨w, hw, -⟩ := h.formed id i hi
  exact hw.complete

end Func.Read

/-- A module that was read without an error. -/
structure Module.Read (tokens : List Token) (m : Module) : Prop where
  symbols : m.symbols.Formed
  distinct : (m.funcs.map (·.name)).Nodup
  funcs : ∀ f ∈ m.funcs, f.Read tokens m.symbols

/-- The state in which the reading of a text starts. -/
def Parser.State.start (file : String) (tokens : List Token) : State where
  stream := ⟨tokens, none⟩
  module := { name := moduleName file }
  errors := []

theorem exists_parse (file : String) (src : Bytes) : ∃ s : Parser.State,
    parse file src = .ok ⟨s.module, (Lexer.tokens src).errors ++ s.errors⟩ ∧
      Parser.State.Good (Lexer.tokens src).tokens s ∧ s.stream.atEnd = true ∧
        ∀ n, (Lexer.tokens src).tokens.length ≤ n →
          (Parser.State.start file (Lexer.tokens src).tokens).items file n = .ok s := by
  obtain ⟨hproper, hend⟩ := Lexer.tokensFrom_spec src 1 1
  have hstart : Parser.State.Good (Lexer.tokens src).tokens
      (Parser.State.start file (Lexer.tokens src).tokens) := {
    passes := .refl _
    symbols := ⟨by simp [Parser.State.start], by simp [Parser.State.start],
      by simp [Parser.State.start], by simp [Parser.State.start]⟩
    funcs := fun _ => by simp [Parser.State.start] }
  obtain ⟨s, hgood, hstop, hitems⟩ := hstart.items file hproper hend
  refine ⟨s, ?_, hgood, hstop, hitems⟩
  exact Checked.bind_eq_ok.mpr ⟨s, hitems _ (Nat.le_refl _), rfl⟩

theorem read_of_parse {file : String} {src : Bytes} {p : Parsed} (h : parse file src = .ok p)
    (he : p.errors = []) : p.module.Read (Lexer.tokens src).tokens := by
  obtain ⟨s, hs, hgood, -⟩ := exists_parse file src
  rw [h] at hs
  cases hs
  obtain ⟨hdistinct, hfuncs⟩ := hgood.funcs (List.append_eq_nil_iff.mp he).2
  exact ⟨hgood.symbols, hdistinct, hfuncs⟩

/-- What running the reader on a text tells if it reads as one function without an error. -/
theorem parse_alone (file : String) (src : Bytes) (f : Func)
    (h : ((parse file src).toOption.map fun p => (p.errors, p.module.funcs)) = some ([], [f])) :
    ∃ p, parse file src = .ok p ∧ p.errors = [] ∧ f ∈ p.module.funcs := by
  obtain ⟨p, hp, hread⟩ := Option.map_eq_some_iff.mp h
  obtain ⟨he, hfuncs⟩ := Prod.ext_iff.mp hread
  refine ⟨p, Checked.toOption_eq_some.mp hp, he, ?_⟩
  rw [show p.module.funcs = [f] from hfuncs]
  exact List.mem_singleton_self _

end RegPressure
