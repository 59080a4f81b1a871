import RegPressure.Asm.Lexer

namespace RegPressure

/-- The tokens still to read, and the line of the last one read. -/
structure Stream where
  rest : List Token
  lastLine : Option Nat := none

def endToken : Token := { kind := .eof, line := 0, column := 0 }

def Token.startsItem (t : Token) : Bool :=
  t.kind = .ident && t.word ∈ ["global", "declare", "func"]

namespace Stream

def cur (s : Stream) : Token := s.rest.headD endToken

def ahead (s : Stream) : Token :=
  match s.rest with
  | _ :: t :: _ => t
  | _ => s.cur

def atEnd (s : Stream) : Bool := s.cur.kind = .eof

def advance (s : Stream) : Stream :=
  if s.atEnd then s else ⟨s.rest.tail, some s.cur.line⟩

def sees (s : Stream) (k : TokenKind) : Bool := s.cur.kind = k

def atWord (s : Stream) (w : String) : Bool := s.sees .ident && s.cur.word = w

def passWhile (p : Token → Bool) (s : Stream) : Stream := go s.rest s.lastLine
where
  go : List Token → Option Nat → Stream
    | [], line => ⟨[], line⟩
    | t :: ts, line => if t.kind ≠ .eof && p t then go ts (some t.line) else ⟨t :: ts, line⟩

def passLine (s : Stream) : Stream :=
  let line := s.lastLine.getD s.cur.line
  s.passWhile (·.line ≤ line)

def passToItem (s : Stream) : Stream := s.passWhile fun t => !t.startsItem

end Stream

/-- Why a reader stops: the text is wrong, or a loop has gone round more often than there are
tokens. -/
inductive ReadError
  | wrong (e : Located)
  | endless

abbrev Reader := EStateM ReadError Stream

namespace Reader

def peek : Reader Token := return (← get).cur

def next : Reader Token := do
  let s ← get
  set s.advance
  return s.cur

def failAt {α : Type} (t : Token) (e : SourceError) : Reader α := throw (.wrong (e.atToken t))

def sees (k : TokenKind) : Reader Bool := return (← get).sees k

def atWord (w : String) : Reader Bool := return (← get).atWord w

def expect (k : TokenKind) : Reader Token := do
  let t ← peek
  if t.kind ≠ k then failAt t (.expected k t)
  next

def expectWord (w : String) : Reader Unit := do
  if !(← atWord w) then
    let t ← peek
    failAt t (.expectedWord w t)
  let _ ← next

def accept (k : TokenKind) : Reader Bool := do
  if ← sees k then
    let _ ← next
    return true
  return false

def acceptWord (w : String) : Reader Bool := do
  if ← atWord w then
    let _ ← next
    return true
  return false

def commaList {α : Type} (close : TokenKind) (item : Reader α) : Reader (List α) := do
  go ((← get).rest.length + 1) []
where
  go : Nat → List α → Reader (List α)
    | 0, _ => throw .endless
    | n + 1, xs => do
      if ← sees close then return xs.reverse
      let x ← item
      if !(← sees close) then let _ ← expect .comma
      go n (x :: xs)

end Reader

namespace Grammar

def namedType? (w : String) : Option Ty :=
  match w with
  | "void" => some .void
  | "ptr" => some .ptr
  | "label" => some .label
  | "f32" => some .f32
  | "f64" => some .f64
  | _ =>
    match Bytes.ofString w with
    | 105 :: ds =>
      match Decimal.int? ds with
      | some n => if 0 < n && n ≤ 256 then some (.int n.toNat) else none
      | none => none
    | _ => none

/-- A count; one that a signed word cannot hold becomes the largest one it can. -/
def count (t : Token) : Int := Word.clamp ((Decimal.int? t.lexeme).getD 0)

def typeWithin : (depth : Nat) → Reader Ty
  | 0 => throw .endless
  | depth + 1 => do
    let t ← Reader.next
    let sequence : Reader (Int × Ty) := do
      let n ← Reader.expect .int
      Reader.expectWord "x"
      return (count n, ← typeWithin depth)
    match t.kind with
    | .ident =>
      match namedType? t.word with
      | some ty => return ty
      | none => Reader.failAt t (.unknownType t)
    | .lt =>
      let (n, elem) ← sequence
      let _ ← Reader.expect .gt
      return .vector n elem
    | .lbracket =>
      let (n, elem) ← sequence
      let _ ← Reader.expect .rbracket
      return .array n elem
    | .lbrace =>
      let fields ← Reader.commaList .rbrace (typeWithin depth)
      let _ ← Reader.expect .rbrace
      return .struct fields
    | _ => Reader.failAt t (.unknownType t)

/-- A type. It cannot nest deeper than there are tokens. -/
def type : Reader Ty := do typeWithin ((← get).rest.length + 1)

def vectorType : Reader (Int × Ty) := do
  let t ← Reader.peek
  match ← type with
  | .vector n elem => return (n, elem)
  | ty => Reader.failAt t (.expectedVector ty)

def startsType (t : Token) : Bool :=
  match t.kind with
  | .lt | .lbrace | .lbracket => true
  | .ident => (namedType? t.word).isSome
  | _ => false

def ordering : Reader MemOrder := do
  let t ← Reader.expect .ident
  match MemOrder.ofName? t.word with
  | some o => return o
  | none => Reader.failAt t (.invalidOrdering t.word)

end Grammar

end RegPressure
