import RegPressure.Asm.Parser
import RegPressure.Proofs.Asm.Reader

namespace RegPressure

variable {α β : Type}

def Passes (ts us : List Token) : Prop := ∃ ps, ps ++ us = ts ∧ ∀ x ∈ ps, x.kind ≠ .eof

namespace Passes

variable {ts us vs : List Token}

theorem refl (ts : List Token) : Passes ts ts := ⟨[], rfl, by simp⟩

theorem trans (h : Passes ts us) (k : Passes us vs) : Passes ts vs := by
  obtain ⟨ps, rfl, hps⟩ := h
  obtain ⟨qs, rfl, hqs⟩ := k
  refine ⟨ps ++ qs, List.append_assoc .., fun x hx => ?_⟩
  rcases List.mem_append.mp hx with hx | hx
  · exact hps x hx
  · exact hqs x hx

theorem suffix (h : Passes ts us) : us <:+ ts := h.imp fun _ hps => hps.1

theorem length_le (h : Passes ts us) : us.length ≤ ts.length := h.suffix.length_le

/-- An end mark that lies ahead stays ahead. -/
theorem closed (h : Passes ts us) (hc : ∃ x ∈ ts, x.kind = .eof) : ∃ x ∈ us, x.kind = .eof := by
  obtain ⟨ps, rfl, hps⟩ := h
  obtain ⟨x, hx, he⟩ := hc
  rcases List.mem_append.mp hx with hx | hx
  · exact absurd he (hps x hx)
  · exact ⟨x, hx, he⟩

end Passes

namespace Stream

theorem passes_advance (s : Stream) : Passes s.rest s.advance.rest := by
  cases he : s.atEnd with
  | true =>
    simp only [advance, he, if_true]
    exact .refl _
  | false =>
    cases hr : s.rest with
    | nil => simp [atEnd, cur, hr, endToken] at he
    | cons x ts =>
      refine ⟨[x], by simp [advance, he, hr], fun y hy => ?_⟩
      rw [List.mem_singleton.mp hy]
      simpa [atEnd, cur, hr] using he

theorem length_advance {s : Stream} (h : s.atEnd = false) :
    s.advance.rest.length + 1 = s.rest.length := by
  have hne : s.rest ≠ [] := by
    rintro he
    simp [atEnd, cur, he, endToken] at h
  have := List.length_pos_iff.mpr hne
  simp [advance, h]
  omega

theorem atEnd_of_rest_eq {s t : Stream} (h : t.rest = s.rest) : t.atEnd = s.atEnd := by
  simp [atEnd, cur, h]

theorem passWhile_eq (p : Token → Bool) (s : Stream) :
    s.passWhile p = if !s.atEnd && p s.cur then s.advance.passWhile p else s := by
  obtain ⟨ts, line⟩ := s
  cases ts with
  | nil => simp [passWhile, passWhile.go, atEnd, cur, endToken]
  | cons t ts => by_cases h : t.kind = .eof <;> simp [passWhile, passWhile.go, atEnd, cur, advance, h]

theorem passes_passWhile (p : Token → Bool) (s : Stream) : Passes s.rest (s.passWhile p).rest := by
  have hgo : ∀ ts line, Passes ts (passWhile.go p ts line).rest := by
    intro ts
    induction ts with
    | nil => exact fun _ => .refl _
    | cons t ts ih =>
      intro line
      unfold passWhile.go
      split
      · next hmore =>
        have hkind : t.kind ≠ .eof := by simp_all
        exact Passes.trans ⟨[t], rfl, by simpa using hkind⟩ (ih _)
      · exact .refl _
  exact hgo s.rest s.lastLine

theorem passes_passLine (s : Stream) : Passes s.rest s.passLine.rest := passes_passWhile ..

theorem passes_passToItem (s : Stream) : Passes s.rest s.passToItem.rest := passes_passWhile ..

theorem length_passToItem_lt {s : Stream} (he : s.atEnd = false) (hi : s.cur.startsItem = false) :
    s.passToItem.rest.length < s.rest.length := by
  have hlen := length_advance he
  have := (passes_passToItem s.advance).length_le
  rw [passToItem, passWhile_eq, he, hi]
  simp only [Bool.not_false, Bool.and_true, if_true]
  rw [← passToItem]
  omega

end Stream

namespace Reader

/-- What a reader leaves to read, whether it succeeds or not. -/
def left (r : Reader α) (s : Stream) : List Token :=
  match r.run s with
  | .ok _ t | .error _ t => t.rest

structure Forward (r : Reader α) (n : Nat) : Prop where
  passes : ∀ s, Passes s.rest (r.left s)
  ends : ∀ s, s.rest.length < n → ∀ t, r.run s ≠ .error .endless t

def Takes (r : Reader α) (a : α) : Prop := ∀ s t, Reads r s a t → t.rest.length < s.rest.length

section

variable {n : Nat}

theorem Forward.ok {r : Reader α} {s t : Stream} {a : α} (hr : r.Forward n)
    (h : r.run s = .ok a t) : Passes s.rest t.rest := by
  simpa [left, h] using hr.passes s

theorem Forward.error {r : Reader α} {s t : Stream} {e : ReadError} (hr : r.Forward n)
    (h : r.run s = .error e t) : Passes s.rest t.rest := by
  simpa [left, h] using hr.passes s

/-- A reader that comes to an end either succeeds or finds the text wrong. -/
theorem Forward.attempt {r : Reader α} {s : Stream} (hr : r.Forward (s.rest.length + 1)) :
    (∃ a t, r.run s = .ok a t ∧ r.attempt s = .ok (.ok a, t)) ∨
      ∃ e t, r.run s = .error (.wrong e) t ∧ r.attempt s = .ok (.error e, t) := by
  unfold Reader.attempt
  cases h : r.run s with
  | ok a t => exact .inl ⟨a, t, rfl, rfl⟩
  | error e t =>
    cases e with
    | wrong e => exact .inr ⟨e, t, rfl, rfl⟩
    | endless => exact absurd h (hr.ends s (Nat.lt_succ_self _) t)

theorem Reads.attempt {r : Reader α} {s t : Stream} {a : α} (h : Reads r s a t) :
    r.attempt s = .ok (.ok a, t) := by
  rw [Reader.attempt, show r.run s = .ok a t from h]
  rfl

theorem attempt_eq_ok {r : Reader α} {s t : Stream} {x : Except Located α} (h : r.attempt s = .ok (x, t)) :
    (∃ a, x = .ok a ∧ Reads r s a t) ∨ ∃ e, x = .error e := by
  unfold Reader.attempt at h
  split at h
  · next a u hr =>
    cases h
    exact .inl ⟨a, rfl, hr⟩
  · next e u hr =>
    cases h
    exact .inr ⟨e, rfl⟩
  · cases h

theorem forward_pure (a : α) : Forward (pure a) n := ⟨fun s => .refl s.rest, fun _ _ _ h => by cases h⟩

theorem forward_chain {m : Nat} {r : Reader α} {k : α → Reader β} (hr : r.Forward m)
    (hk : ∀ a, ∃ n, (k a).Forward n ∧
      ∀ s t, s.rest.length < m → Reads r s a t → t.rest.length < n) : (r >>= k).Forward m where
  passes s := by
    have hs := hr.passes s
    simp only [left, EStateM.run, Bind.bind, EStateM.bind] at hs ⊢
    cases h : r s with
    | ok a t =>
      obtain ⟨n, hk, -⟩ := hk a
      exact Passes.trans (by simpa [h] using hs) (hk.passes t)
    | error e t => simpa [h] using hs
  ends s hs t he := by
    simp only [EStateM.run, Bind.bind, EStateM.bind] at he
    cases h : r s with
    | ok a u =>
      rw [h] at he
      obtain ⟨n, hk, hless⟩ := hk a
      exact hk.ends u (hless s u hs h) t he
    | error e u =>
      rw [h] at he
      cases he
      exact hr.ends s hs t h

theorem forward_bind {r : Reader α} {k : α → Reader β} (hr : r.Forward n)
    (hk : ∀ a, (k a).Forward n) : (r >>= k).Forward n :=
  forward_chain hr fun a => ⟨n, hk a, fun _ _ hs h => Nat.lt_of_le_of_lt (hr.ok h).length_le hs⟩

theorem forward_step {r : Reader α} {k : α → Reader β} (hr : r.Forward n)
    (hk : ∀ a, r.Takes a ∧ (k a).Forward (n - 1) ∨ (k a).Forward n) : (r >>= k).Forward n := by
  refine forward_chain hr fun a => ?_
  rcases hk a with ⟨htakes, hk⟩ | hk
  · refine ⟨n - 1, hk, fun s t hs h => ?_⟩
    have := htakes s t h
    omega
  · exact ⟨n, hk, fun _ _ hs h => Nat.lt_of_le_of_lt (hr.ok h).length_le hs⟩

theorem Forward.mono {m : Nat} {r : Reader α} (hr : r.Forward n) (h : m ≤ n) : r.Forward m :=
  ⟨hr.passes, fun s hs => hr.ends s (Nat.lt_of_lt_of_le hs h)⟩

theorem forward_map {r : Reader α} (f : α → β) (hr : r.Forward n) : (f <$> r).Forward n := by
  rw [← bind_pure_comp]
  exact forward_bind hr fun a => forward_pure (f a)

theorem forward_get : Forward (get : Reader Stream) n :=
  ⟨fun s => .refl s.rest, fun _ _ _ h => by cases h⟩

theorem forward_failAt (t : Token) (e : SourceError) : (failAt t e : Reader α).Forward n :=
  ⟨fun s => .refl s.rest, fun _ _ _ h => by cases h⟩

theorem forward_endless : (throw .endless : Reader α).Forward 0 :=
  ⟨fun s => .refl s.rest, fun _ hs => absurd hs (Nat.not_lt_zero _)⟩

theorem forward_rounds {k : Nat → Reader α} (hk : ∀ i, (k i).Forward (min i n)) :
    (do k ((← get).rest.length + 1) : Reader α).Forward n :=
  ⟨fun s => (hk (s.rest.length + 1)).passes s,
    fun s hs => (hk (s.rest.length + 1)).ends s (by omega)⟩

theorem forward_rounds_bind {k : Nat → Reader α} {q : α → Reader β} (hk : ∀ i, (k i).Forward i)
    (hq : ∀ a, (q a).Forward n) :
    (do let a ← k ((← get).rest.length + 1); q a : Reader β).Forward n :=
  forward_rounds fun i => forward_bind ((hk i).mono (Nat.min_le_left ..))
    fun a => (hq a).mono (Nat.min_le_right ..)

theorem forward_ite {p : Prop} [Decidable p] {r q : Reader α} (hr : r.Forward n)
    (hq : q.Forward n) : (if p then r else q).Forward n := by
  split
  · exact hr
  · exact hq

theorem forward_next : next.Forward n := ⟨fun s => s.passes_advance, fun _ _ _ h => by cases h⟩

theorem forward_peek : peek.Forward n := forward_map _ forward_get

theorem forward_sees (k : TokenKind) : (sees k).Forward n := forward_map _ forward_get

theorem forward_atWord (w : String) : (atWord w).Forward n := forward_map _ forward_get

theorem forward_expect (k : TokenKind) : (expect k).Forward n :=
  forward_bind forward_peek fun t => forward_ite
    (forward_bind (forward_failAt t _) fun _ => forward_next) forward_next

theorem forward_expectWord (w : String) : (expectWord w).Forward n :=
  forward_bind (forward_atWord w) fun _ => forward_ite
    (forward_bind forward_peek fun t => forward_bind (forward_failAt t _) fun _ =>
      forward_bind forward_next fun _ => forward_pure ())
    (forward_bind forward_next fun _ => forward_pure ())

theorem forward_accept (k : TokenKind) : (accept k).Forward n :=
  forward_bind (forward_sees k) fun _ => forward_ite
    (forward_bind forward_next fun _ => forward_pure true) (forward_pure false)

theorem forward_acceptWord (w : String) : (acceptWord w).Forward n :=
  forward_bind (forward_atWord w) fun _ => forward_ite
    (forward_bind forward_next fun _ => forward_pure true) (forward_pure false)

theorem length_advance_lt {s : Stream} (h : s.cur.kind ≠ .eof) :
    s.advance.rest.length < s.rest.length := by
  have := Stream.length_advance (s := s) (by simpa [Stream.atEnd] using h)
  omega

theorem takes_next {t : Token} (ht : t.kind ≠ .eof) : next.Takes t := by
  intro s u h
  obtain ⟨rfl, rfl⟩ := reads_next.mp h
  exact length_advance_lt ht

theorem forward_next_bind {k : Token → Reader α} (hk : ∀ t, t.kind ≠ .eof → (k t).Forward (n - 1))
    (hend : ∀ t, t.kind = .eof → ∃ e, k t = failAt t e) :
    (next >>= k).Forward n ∧ ∀ a, (next >>= k).Takes a := by
  constructor
  · refine forward_step forward_next fun t => ?_
    by_cases ht : t.kind = .eof
    · obtain ⟨e, he⟩ := hend t ht
      exact .inr (he ▸ forward_failAt t e)
    · exact .inl ⟨takes_next ht, hk t ht⟩
  · intro a s u h
    obtain ⟨t, v, hnext, h⟩ := reads_bind.mp h
    by_cases ht : t.kind = .eof
    · obtain ⟨e, he⟩ := hend t ht
      simp [he] at h
    · exact Nat.lt_of_le_of_lt ((hk t ht).ok h).length_le (takes_next ht s v hnext)

theorem takes_expect {k : TokenKind} (hk : k ≠ .eof) (t : Token) : (expect k).Takes t := by
  intro s u h
  obtain ⟨hkind, -, rfl⟩ := reads_expect.mp h
  exact length_advance_lt (hkind ▸ hk)

theorem takes_acceptWord (w : String) : (acceptWord w).Takes true := by
  intro s u h
  obtain ⟨hword, rfl⟩ := reads_acceptWord_true.mp h
  have hkind : s.cur.kind = .ident := by simp_all [Stream.atWord, Stream.sees]
  exact length_advance_lt (by simp [hkind])

theorem forward_word (w : String) {r q : Reader α} (hr : r.Forward n) (hq : q.Forward (n + 1)) :
    (do if ← acceptWord w then r else q : Reader α).Forward (n + 1) := by
  refine forward_step (forward_acceptWord w) fun b => ?_
  cases b with
  | false => exact .inr hq
  | true => exact .inl ⟨takes_acceptWord w, hr⟩

theorem forward_commaList_go {r : Reader α} (hr : r.Forward n) (ht : ∀ a, r.Takes a)
    (close : TokenKind) (i : Nat) (xs : List α) : (commaList.go close r i xs).Forward (min i n) := by
  induction i generalizing xs with
  | zero => exact forward_endless.mono (Nat.min_le_left ..)
  | succ i ih =>
    have hih : ∀ xs, (commaList.go close r i xs).Forward (min (i + 1) n - 1) :=
      fun xs => (ih xs).mono (by omega)
    unfold commaList.go
    refine forward_bind (forward_sees close) fun _ => forward_ite (forward_pure _) ?_
    refine forward_step (hr.mono (Nat.min_le_right ..)) fun x => .inl ⟨ht x, ?_⟩
    refine forward_bind (forward_sees close) fun _ => forward_ite ?_ (hih _)
    exact forward_bind (forward_expect .comma) fun _ => hih _

theorem forward_commaList {r : Reader α} (hr : r.Forward n) (ht : ∀ a, r.Takes a)
    (close : TokenKind) : (commaList close r).Forward n :=
  forward_rounds fun i => forward_commaList_go hr ht close i []

end

end Reader

namespace Grammar

open Reader

variable {n : Nat}

theorem forward_typeWithin (depth : Nat) :
    (typeWithin depth).Forward depth ∧ ∀ ty, (typeWithin depth).Takes ty := by
  induction depth with
  | zero => exact ⟨forward_endless, fun ty s t h => by simp [typeWithin] at h⟩
  | succ depth ih =>
    have hseq : Forward (do
        let n ← expect .int
        expectWord "x"
        return (count n, ← typeWithin depth)) depth :=
      forward_bind (forward_expect .int) fun _ => forward_bind (forward_expectWord "x") fun _ =>
        forward_bind ih.1 fun _ => forward_pure _
    unfold typeWithin
    refine forward_next_bind (fun t ht => ?_) fun t ht => ⟨.unknownType t, by simp [ht]⟩
    dsimp only
    split
    · split
      · exact forward_pure _
      · exact forward_failAt t _
    · exact forward_bind hseq fun _ => forward_bind (forward_expect .gt) fun _ => forward_pure _
    · exact forward_bind hseq fun _ => forward_bind (forward_expect .rbracket) fun _ =>
        forward_pure _
    · exact forward_bind (forward_commaList ih.1 ih.2 .rbrace) fun _ =>
        forward_bind (forward_expect .rbrace) fun _ => forward_pure _
    · exact forward_failAt t _

theorem forward_type : type.Forward n :=
  forward_rounds fun i => (forward_typeWithin i).1.mono (Nat.min_le_left ..)

theorem takes_type (ty : Ty) : type.Takes ty := by
  intro s t h
  simp only [type, reads_bind, reads_get] at h
  obtain ⟨_, _, ⟨rfl, rfl⟩, h⟩ := h
  exact (forward_typeWithin _).2 ty s t h

theorem forward_vectorType : vectorType.Forward n := by
  refine forward_bind forward_peek fun t => forward_bind forward_type fun ty => ?_
  split
  · exact forward_pure _
  · exact forward_failAt t _

theorem forward_ordering : ordering.Forward n := by
  refine forward_bind (forward_expect .ident) fun t => ?_
  split
  · exact forward_pure _
  · exact forward_failAt t _

theorem forward_value (ns : Names) (ctx : Option Ty) :
    (value ns ctx).Forward n ∧ ∀ v, (value ns ctx).Takes v := by
  refine forward_next_bind (fun t ht => ?_) fun t ht => ⟨.expectedValue t, by simp [ht]⟩
  dsimp only
  split
  · split
    · exact forward_pure _
    · split
      · exact forward_pure _
      · exact forward_pure _
  · split
    · exact forward_pure _
    · exact forward_failAt t _
  · split
    · exact forward_pure _
    · exact forward_pure _
  · exact forward_pure _
  · exact forward_pure _
  · split
    · exact forward_pure _
    · exact forward_pure _
    · exact forward_pure _
    · exact forward_pure _
    · exact forward_failAt t _
  · exact forward_failAt t _

end Grammar

end RegPressure
