import RegPressure.Proofs.Asm.Reader
import RegPressure.Proofs.Number.Spans

namespace RegPressure

/-- The token stands for the value in the context of a type. A name that is not known yet is an
operand that stays open. -/
inductive Denotes (ns : Names) (ctx : Option Ty) (x : Token) : Value → Option Token → Prop
  | param {i : Nat} (hk : x.kind = .local) (hp : ns.param? x.word = some i) :
      Denotes ns ctx x (.arg i) none
  | result {id : Int} (hk : x.kind = .local) (hp : ns.param? x.word = none)
      (hl : ns.locals.lookup x.word = some id) : Denotes ns ctx x (.instr id) none
  | later (hk : x.kind = .local) (hp : ns.param? x.word = none)
      (hl : ns.locals.lookup x.word = none) : Denotes ns ctx x (.instr (-1)) (some x)
  | global {i : Nat} (hk : x.kind = .global) (hg : ns.symbols.globalIndex? x.word = some i) :
      Denotes ns ctx x (.global i) none
  | round {b : Nat} (hk : x.kind = .int) (hc : ctx = some (.float b)) :
      Denotes ns ctx x (.float ctx (.ofInt ((Decimal.word? x.lexeme).getD 0).toInt)) none
  | int (hk : x.kind = .int) (hc : ∀ b, ctx ≠ some (.float b)) :
      Denotes ns ctx x (.int ctx ((Decimal.word? x.lexeme).getD 0)) none
  | float (hk : x.kind = .float) :
      Denotes ns ctx x (.float (some ((ctx.filter (·.isFloat)).getD .f64))
        ((Binary64.decimal? x.lexeme).getD .zero)) none
  | str (hk : x.kind = .string) : Denotes ns ctx x (.str x.lexeme) none
  | yes (hk : x.kind = .ident) (hw : x.word = "true") : Denotes ns ctx x (.int (some .i1) 1) none
  | no (hk : x.kind = .ident) (hw : x.word = "false") : Denotes ns ctx x (.int (some .i1) 0) none
  | null (hk : x.kind = .ident) (hw : x.word = "null") : Denotes ns ctx x .null none
  | undef (hk : x.kind = .ident) (hw : x.word = "undef") :
      Denotes ns ctx x (.undef (some (ctx.getD .i64))) none

theorem Grammar.reads_value {ns : Names} {ctx : Option Ty} {s t : Stream} {v : Value}
    {later : Option Token} :
    Reader.Reads (value ns ctx) s (v, later) t ↔ Denotes ns ctx s.cur v later ∧ s.advance = t := by
  constructor
  · intro h
    simp only [value, Reader.reads_bind, Reader.reads_next] at h
    obtain ⟨_, _, ⟨rfl, rfl⟩, h⟩ := h
    split at h
    · next hk =>
      split at h
      · next hp =>
        simp at h
        obtain ⟨⟨rfl, rfl⟩, rfl⟩ := h
        exact ⟨.param hk hp, rfl⟩
      · next hp =>
        split at h <;> simp at h <;> obtain ⟨⟨rfl, rfl⟩, rfl⟩ := h
        · exact ⟨.result hk hp ‹_›, rfl⟩
        · exact ⟨.later hk hp ‹_›, rfl⟩
    · next hk =>
      split at h <;> simp at h
      obtain ⟨⟨rfl, rfl⟩, rfl⟩ := h
      exact ⟨.global hk ‹_›, rfl⟩
    · next hk =>
      split at h <;> simp at h <;> obtain ⟨⟨rfl, rfl⟩, rfl⟩ := h
      · exact ⟨.round hk rfl, rfl⟩
      · exact ⟨.int hk (by simpa using ‹_›), rfl⟩
    · next hk =>
      simp at h
      obtain ⟨⟨rfl, rfl⟩, rfl⟩ := h
      exact ⟨.float hk, rfl⟩
    · next hk =>
      simp at h
      obtain ⟨⟨rfl, rfl⟩, rfl⟩ := h
      exact ⟨.str hk, rfl⟩
    · next hk =>
      split at h <;> simp at h <;> obtain ⟨⟨rfl, rfl⟩, rfl⟩ := h
      · exact ⟨.yes hk ‹_›, rfl⟩
      · exact ⟨.no hk ‹_›, rfl⟩
      · exact ⟨.null hk ‹_›, rfl⟩
      · exact ⟨.undef hk ‹_›, rfl⟩
    · simp at h
  · rintro ⟨h, rfl⟩
    cases h with
    | later hk hp hl => simp [value, hk, hp, hl, -List.lookup_eq_none_iff]
    | int hk hc =>
      simp only [value, Reader.reads_bind, Reader.reads_next]
      refine ⟨_, _, ⟨rfl, rfl⟩, ?_⟩
      simp only [hk, Reader.reads_pure, and_self]
    | _ => simp_all [value]

/-- A value that one token can stand for in the context of a type: it is named, or a constant
whose type follows from the context or from its text. The numbers that are read are finite. -/
def Value.Fits (ctx : Option Ty) : Value → Prop
  | .int t n => (t = ctx ∧ ∀ b, ctx ≠ some (.float b)) ∨ (t = some .i1 ∧ (n = 0 ∨ n = 1))
  | .float t x => t = some ((ctx.filter (·.isFloat)).getD .f64) ∧ x.isNaN = false ∧ x.isInfinite = false
  | .undef t => t = some (ctx.getD .i64)
  | _ => True

theorem Denotes.fits {ns : Names} {ctx : Option Ty} {x : Token} {v : Value} {later : Option Token}
    (h : Denotes ns ctx x v later) : v.Fits ctx := by
  cases h with
  | round hk hc =>
    subst hc
    exact ⟨rfl, Binary64.finite_ofInt _⟩
  | int hk hc => exact .inl ⟨rfl, hc⟩
  | yes => exact .inr ⟨rfl, .inr rfl⟩
  | no => exact .inr ⟨rfl, .inl rfl⟩
  | float => exact ⟨rfl, Binary64.finite_decimal _⟩
  | undef => rfl
  | _ => trivial

/-- The types that a text can name. -/
inductive Ty.Readable : Ty → Prop
  | void : Readable .void
  | ptr : Readable .ptr
  | label : Readable .label
  | int {n : Nat} (hpos : 0 < n) (hle : n ≤ 256) : Readable (.int n)
  | f32 : Readable .f32
  | f64 : Readable .f64
  | vector {n : Int} {t : Ty} (hn : Word.wrap n = n) (ht : Readable t) : Readable (.vector n t)
  | array {n : Int} {t : Ty} (hn : Word.wrap n = n) (ht : Readable t) : Readable (.array n t)
  | struct {ts : List Ty} (h : ∀ t ∈ ts, Readable t) : Readable (.struct ts)

theorem Word.wrap_clamp (n : Int) : wrap (clamp n) = clamp n := by
  have h : minSigned ≤ clamp n ∧ clamp n ≤ maxSigned := by
    unfold clamp minSigned maxSigned
    omega
  unfold minSigned maxSigned at h
  exact Int64.toInt_ofInt_of_le (by simpa using h.1) (by omega)

namespace Grammar

open Reader

variable {s t : Stream} {ty : Ty}

theorem readable_of_namedType? {w : String} (h : namedType? w = some ty) : ty.Readable := by
  unfold namedType? at h
  split at h
  · cases h; exact .void
  · cases h; exact .ptr
  · cases h; exact .label
  · cases h; exact .f32
  · cases h; exact .f64
  · split at h
    · split at h
      · next n _ =>
        split at h
        · next hn =>
          cases h
          simp at hn
          exact .int (by omega) (by omega)
        · cases h
      · cases h
    · cases h

theorem forall_of_reads_commaList {α : Type} {close : TokenKind} {item : Reader α} {P : α → Prop}
    (hitem : ∀ s a t, Reads item s a t → P a) {xs : List α}
    (h : Reads (commaList close item) s xs t) : ∀ x ∈ xs, P x := by
  have hgo : ∀ (n : Nat) (ys : List α) (s : Stream), (∀ y ∈ ys, P y) →
      Reads (commaList.go close item n ys) s xs t → ∀ x ∈ xs, P x := by
    intro n
    induction n with
    | zero =>
      intro ys s _ h
      exact absurd h (by simp [commaList.go])
    | succ n ih =>
      intro ys s hys h
      simp [commaList.go] at h
      rcases h with ⟨-, rfl, -⟩ | ⟨-, y, u, hy, h⟩
      · simpa using hys
      · have hys' : ∀ x ∈ y :: ys, P x := by
          simpa using ⟨hitem _ _ _ hy, hys⟩
        rcases h with ⟨-, -, h⟩ | ⟨-, h⟩
        all_goals exact ih _ _ hys' h
  simp [commaList] at h
  exact hgo _ _ _ (by simp) h

theorem readable_of_typeWithin {depth : Nat} (h : Reads (typeWithin depth) s ty t) :
    ty.Readable := by
  induction depth generalizing s t ty with
  | zero => simp [typeWithin] at h
  | succ depth ih =>
    simp [typeWithin] at h
    split at h
    · split at h
      · next hn =>
        obtain ⟨rfl, -⟩ := reads_pure.mp h
        exact readable_of_namedType? hn
      · simp at h
    · simp at h
      obtain ⟨-, -, u, v, hu, -, rfl⟩ := h
      exact .vector (Word.wrap_clamp _) (ih hu)
    · simp at h
      obtain ⟨-, -, u, v, hu, -, rfl⟩ := h
      exact .array (Word.wrap_clamp _) (ih hu)
    · simp at h
      obtain ⟨ts, u, hts, -, rfl⟩ := h
      exact .struct (forall_of_reads_commaList (fun _ _ _ h => ih h) hts)
    · simp at h

theorem readable_of_type (h : Reads type s ty t) : ty.Readable := by
  simp [type] at h
  exact readable_of_typeWithin h

theorem reads_vectorType {n : Int} {elem : Ty} :
    Reads vectorType s (n, elem) t ↔ Reads type s (.vector n elem) t := by
  simp only [vectorType, reads_bind, reads_peek]
  constructor
  · rintro ⟨_, _, ⟨rfl, rfl⟩, ty, u, hty, h⟩
    split at h
    · obtain ⟨h, rfl⟩ := reads_pure.mp h
      cases h
      exact hty
    · simp at h
  · intro h
    exact ⟨_, _, ⟨rfl, rfl⟩, _, _, h, by simp⟩

theorem readable_of_part? {u : Ty} {i : Int} (h : part? ty i = some u) (hty : ty.Readable) :
    u.Readable := by
  unfold part? at h
  split at h
  · split at h
    · cases hty with
      | struct hts => exact hts u (List.mem_of_getElem? h)
    · cases h
  · split at h
    · cases h
      cases hty
      assumption
    · cases h
  · cases h

theorem ne_none_of_ordering {o : MemOrder} (h : Reads ordering s o t) : o ≠ .none := by
  simp [ordering] at h
  obtain ⟨-, h⟩ := h
  split at h
  · next o' ho =>
    obtain ⟨rfl, -⟩ := reads_pure.mp h
    rintro rfl
    have := List.mem_of_find?_eq_some ho
    exact absurd this (by decide)
  · simp at h

end Grammar

end RegPressure
