import RegPressure.Asm.Lexer
import Mathlib.Data.List.TakeWhile
import Mathlib.Data.Nat.Init
import Mathlib.Tactic.Common

namespace RegPressure

def Bytes.IsName (bs : Bytes) : Prop := bs ≠ [] ∧ ∀ b ∈ bs, Lexer.isNameChar b = true

def Bytes.IsWord (bs : Bytes) : Prop :=
  ∃ b rest, bs = b :: rest ∧ Lexer.isNameStart b = true ∧ ∀ c ∈ rest, Lexer.isNameChar c = true

theorem Bytes.IsWord.isName {bs : Bytes} (h : bs.IsWord) : bs.IsName := by
  obtain ⟨b, rest, rfl, hb, hrest⟩ := h
  refine ⟨List.cons_ne_nil _ _, fun c hc => ?_⟩
  rcases List.mem_cons.mp hc with rfl | hc
  · simp [Lexer.isNameChar, hb]
  · exact hrest c hc

theorem Bytes.toText_ne_empty {bs : Bytes} (h : bs ≠ []) : bs.toText ≠ "" := by
  obtain ⟨b, rest, rfl⟩ := List.exists_cons_of_ne_nil h
  unfold toText runes
  split <;> simp [String.ext_iff]

def IsName (w : String) : Prop := ∃ bs : Bytes, bs.IsName ∧ w = bs.toText

def IsWord (w : String) : Prop := ∃ bs : Bytes, bs.IsWord ∧ w = bs.toText

theorem IsName.ne_empty {w : String} (h : IsName w) : w ≠ "" := by
  obtain ⟨bs, hbs, rfl⟩ := h
  exact Bytes.toText_ne_empty hbs.1

def Token.Proper (x : Token) : Prop :=
  match x.kind with
  | .ident => x.lexeme.IsWord
  | .global | .local | .metadata => x.lexeme.IsName
  | _ => True

namespace Token

variable {x : Token}

theorem Proper.isWord (h : x.Proper) (hk : x.kind = .ident) : IsWord x.word := by
  rw [Proper, hk] at h
  exact ⟨_, h, rfl⟩

theorem Proper.isName (h : x.Proper) (hk : x.kind = .local ∨ x.kind = .global) :
    IsName x.word := by
  rcases hk with hk | hk
  all_goals
    rw [Proper, hk] at h
    exact ⟨_, h, rfl⟩

end Token

namespace Lexer

theorem takeWhile_isNameChar (rest : Bytes) : ∀ b ∈ rest.takeWhile isNameChar, isNameChar b = true :=
  fun _ hb => List.mem_takeWhile_imp hb

theorem scanNamed_isName {sign : UInt8} {kind k : TokenKind} {rest bs : Bytes}
    (h : (scanNamed sign kind rest).result = .ok (k, bs)) : bs.IsName ∧ k = kind := by
  unfold scanNamed at h
  dsimp only at h
  split at h
  · cases h
  · next hne =>
    cases h
    exact ⟨⟨hne, takeWhile_isNameChar rest⟩, rfl⟩

theorem scanNumber_kind {b : UInt8} {rest bs : Bytes} {k : TokenKind}
    (h : (scanNumber b rest).result = .ok (k, bs)) : k = .int ∨ k = .float := by
  unfold scanNumber at h
  dsimp only at h
  split at h
  · split at h
    · cases h
      exact .inr rfl
    · cases h
  · split at h
    · cases h
      exact .inl rfl
    · cases h

theorem punctuation_kind {b : UInt8} {k : TokenKind} (h : punctuation? b = some k) :
    k ∉ [.ident, .global, .local, .metadata] := by
  unfold punctuation? at h
  split at h
  case h_12 => cases h
  all_goals
    cases h
    decide

theorem scan_proper {b : UInt8} {rest bs : Bytes} {k : TokenKind} (line column : Nat)
    (h : (scan b rest).result = .ok (k, bs)) : (Token.mk k bs line column).Proper := by
  unfold scan at h
  split at h
  · next k' hk =>
    cases h
    have := punctuation_kind hk
    cases k <;> simp at this <;> trivial
  · split at h
    · obtain ⟨hname, rfl⟩ := scanNamed_isName h
      exact hname
    · obtain ⟨hname, rfl⟩ := scanNamed_isName h
      exact hname
    · obtain ⟨hname, rfl⟩ := scanNamed_isName h
      exact hname
    · split at h
      · cases h
        trivial
      · cases h
    · split at h
      · cases h
        trivial
      · split at h
        · rcases scanNumber_kind h with rfl | rfl <;> trivial
        · split at h
          · next hb =>
            cases h
            exact ⟨b, _, rfl, hb, takeWhile_isNameChar rest⟩
          · cases h

theorem tokensFrom_eq (src : Bytes) (line column : Nat) :
    tokensFrom src line column =
      match skip src false line column with
      | ⟨[], l, c⟩ => ⟨[{ kind := .eof, line := l, column := c }], []⟩
      | ⟨b :: rest, l, c⟩ =>
        let s := scan b rest
        let more := tokensFrom (rest.drop s.length) l (c + 1 + min s.length rest.length)
        match s.result with
        | .ok (kind, lexeme) =>
          { more with tokens := { kind, lexeme, line := l, column := c } :: more.tokens }
        | .error e => { more with errors := ⟨e, l, c⟩ :: more.errors } := by
  rw [tokensFrom]
  split
  · next h => exact h ▸ rfl
  · next h => exact h ▸ rfl

/-- Every token is proper, and an end mark is among them. -/
theorem tokensFrom_spec (src : Bytes) (line column : Nat) :
    (∀ x ∈ (tokensFrom src line column).tokens, x.Proper) ∧
      ∃ x ∈ (tokensFrom src line column).tokens, x.kind = .eof := by
  induction hn : src.length using Nat.strong_induction_on generalizing src line column with
  | _ n ih =>
    rw [tokensFrom_eq]
    have hlen := length_skip_le src false line column
    split
    · simp [Token.Proper]
    · next b rest l c hskip =>
      rw [hskip] at hlen
      obtain ⟨hall, hend⟩ := ih _ (by simp at hlen ⊢; omega) (rest.drop (scan b rest).length) l
        (c + 1 + min (scan b rest).length rest.length) rfl
      dsimp only
      split
      · next k bs hres =>
        exact ⟨by simpa using ⟨scan_proper l c hres, hall⟩, by simp; exact .inr hend⟩
      · exact ⟨hall, hend⟩

end Lexer

end RegPressure
