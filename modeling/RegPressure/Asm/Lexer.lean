import RegPressure.Asm.SourceError
import RegPressure.Number.Binary64

namespace RegPressure.Lexer

def isNameStart (b : UInt8) : Bool :=
  b = 95 || (97 ≤ b && b ≤ 122) || (65 ≤ b && b ≤ 90)

def isNameChar (b : UInt8) : Bool :=
  isNameStart b || Decimal.isDigit b || b = 46 || b = 36

structure Cursor where
  rest : Bytes
  line : Nat
  column : Nat

def skip : (rest : Bytes) → (comment : Bool) → (line column : Nat) → Cursor
  | [], _, l, c => ⟨[], l, c⟩
  | b :: rest, comment, l, c =>
    if b = 10 then skip rest false (l + 1) 1
    else if comment || b = 32 || b = 9 || b = 13 then skip rest comment l (c + 1)
    else if b = 59 then skip rest true l (c + 1)
    else ⟨b :: rest, l, c⟩

theorem length_skip_le (rest : Bytes) (comment : Bool) (l c : Nat) :
    (skip rest comment l c).rest.length ≤ rest.length := by
  induction rest generalizing comment l c with
  | nil => simp [skip]
  | cons b rest ih =>
    unfold skip
    split
    · exact Nat.le_succ_of_le (ih ..)
    · split
      · exact Nat.le_succ_of_le (ih ..)
      · split
        · exact Nat.le_succ_of_le (ih ..)
        · simp

def numberLength : (rest : Bytes) → (prev : UInt8) → (float : Bool) → Nat × Bool
  | [], _, float => (0, float)
  | b :: rest, prev, float =>
    let isMark (x : UInt8) := x = 101 || x = 69
    let go (float : Bool) :=
      let (n, float) := numberLength rest b float
      (n + 1, float)
    if Decimal.isDigit b then go float
    else if b = 46 || isMark b then go true
    else if (b = 43 || b = 45) && float && isMark prev then go float
    else (0, float)

/-- The content of a string up to its closing quote, and the octets it takes. A backslash takes
the next octet with it, whatever that is; a line end elsewhere leaves the string open. -/
def stringBody : Bytes → Option Bytes × Nat
  | [] => (none, 0)
  | [b] => if b = 34 then (some [], 1) else if b = 10 then (none, 0) else (none, 1)
  | b :: e :: rest =>
    if b = 10 then (none, 0)
    else if b = 34 then (some [], 1)
    else if b = 92 then
      let (s, n) := stringBody rest
      let e : UInt8 := if e = 110 then 10 else if e = 116 then 9 else e
      (s.map (e :: ·), n + 2)
    else
      let (s, n) := stringBody (e :: rest)
      (s.map (b :: ·), n + 1)

/-- A lexeme: its kind and text or what is wrong with it, and the octets it takes beyond the
first. -/
structure Scan where
  result : Except SourceError (TokenKind × Bytes)
  length : Nat

def scanNumber (b : UInt8) (rest : Bytes) : Scan :=
  let (n, float) := numberLength rest b false
  let lexeme := b :: rest.take n
  if float then
    if (Binary64.decimal? lexeme).isSome then ⟨.ok (.float, lexeme), n⟩
    else ⟨.error (.invalidNumber lexeme), n⟩
  else if (Decimal.word? lexeme).isSome then ⟨.ok (.int, lexeme), n⟩
  else ⟨.error (.invalidNumber lexeme), n⟩

def scanNamed (sign : UInt8) (kind : TokenKind) (rest : Bytes) : Scan :=
  let name := rest.takeWhile isNameChar
  if name = [] then ⟨.error (.nameExpected sign), 0⟩ else ⟨.ok (kind, name), name.length⟩

def punctuation? (b : UInt8) : Option TokenKind :=
  match Char.ofNat b.toNat with
  | '(' => some .lparen
  | ')' => some .rparen
  | '\x7b' => some .lbrace
  | '\x7d' => some .rbrace
  | '[' => some .lbracket
  | ']' => some .rbracket
  | '<' => some .lt
  | '>' => some .gt
  | ',' => some .comma
  | ':' => some .colon
  | '=' => some .assign
  | _ => none

def scan (b : UInt8) (rest : Bytes) : Scan :=
  match punctuation? b with
  | some k => ⟨.ok (k, [b]), 0⟩
  | none =>
    match Char.ofNat b.toNat with
    | '@' => scanNamed b .global rest
    | '%' => scanNamed b .local rest
    | '!' => scanNamed b .metadata rest
    | '"' =>
      match stringBody rest with
      | (some s, n) => ⟨.ok (.string, s), n⟩
      | (none, n) => ⟨.error .unterminatedString, n⟩
    | _ =>
      if b = 45 && rest.head? = some 62 then ⟨.ok (.arrow, [45, 62]), 1⟩
      else if Decimal.isDigit b || (b = 45 && rest.head?.any Decimal.isDigit) then
        scanNumber b rest
      else if isNameStart b then
        let more := rest.takeWhile isNameChar
        ⟨.ok (.ident, b :: more), more.length⟩
      else ⟨.error (.unexpectedByte b), 0⟩

structure Result where
  tokens : List Token
  errors : List Located
  deriving DecidableEq, Repr

def tokensFrom (src : Bytes) (line column : Nat) : Result :=
  match _h : skip src false line column with
  | ⟨[], l, c⟩ => ⟨[{ kind := .eof, line := l, column := c }], []⟩
  | ⟨b :: rest, l, c⟩ =>
    let s := scan b rest
    let more := tokensFrom (rest.drop s.length) l (c + 1 + min s.length rest.length)
    match s.result with
    | .ok (kind, lexeme) =>
      { more with tokens := { kind, lexeme, line := l, column := c } :: more.tokens }
    | .error e => { more with errors := ⟨e, l, c⟩ :: more.errors }
termination_by src.length
decreasing_by
  have := length_skip_le src false line column
  simp only [_h] at this
  simp at this ⊢
  omega

/-- All tokens of a text, closed by an end mark. Octets that form no token are reported and
passed over. -/
def tokens (src : Bytes) : Result := tokensFrom src 1 1

end RegPressure.Lexer
