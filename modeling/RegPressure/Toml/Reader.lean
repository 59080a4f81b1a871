import RegPressure.Toml.Value

namespace RegPressure.Toml

abbrev Reader (α : Type) := List Char → Option (α × List Char)

def isText (c : Char) : Bool := c = '\t' || (32 ≤ c.toNat && c.toNat ≠ 127)

def isBlank (c : Char) : Bool := c = ' ' || c = '\t'

def skipBlanks (cs : List Char) : List Char := cs.dropWhile isBlank

def skipGap (inComment : Bool) : List Char → Option (List Char)
  | [] => some []
  | '\n' :: cs => skipGap false cs
  | '\r' :: '\n' :: cs => skipGap false cs
  | c :: cs =>
    if inComment then if isText c then skipGap true cs else none
    else if isBlank c then skipGap false cs
    else if c = '#' then skipGap true cs
    else if c = '\r' then none
    else some (c :: cs)

def skipComment : List Char → Option (List Char)
  | [] => some []
  | '\n' :: cs => some ('\n' :: cs)
  | '\r' :: '\n' :: cs => some ('\r' :: '\n' :: cs)
  | c :: cs => if isText c then skipComment cs else none

def scalar? (cs : List Char) : Option Char :=
  if cs.all (Value.isDigitIn 16) then
    let n := (cs.map Value.digitValue).foldl (fun n d => 16 * n + d) 0
    if n.isValidChar then some (Char.ofNat n) else none
  else none

def escaped? : Char → Option Char
  | '"' => some '"'
  | '\\' => some '\\'
  | 'b' => some '\x08'
  | 'e' => some '\x1b'
  | 'f' => some '\x0c'
  | 'n' => some '\n'
  | 'r' => some '\r'
  | 't' => some '\t'
  | _ => none

def cons (c : Char) : Option (List Char × List Char) → Option (List Char × List Char) :=
  Option.map fun (s, rest) => (c :: s, rest)

def basicString : Reader (List Char)
  | [] => none
  | '"' :: cs => some ([], cs)
  | '\\' :: 'u' :: a :: b :: c :: d :: cs =>
    match scalar? [a, b, c, d] with
    | some x => cons x (basicString cs)
    | none => none
  | '\\' :: 'U' :: a :: b :: c :: d :: e :: f :: g :: h :: cs =>
    match scalar? [a, b, c, d, e, f, g, h] with
    | some x => cons x (basicString cs)
    | none => none
  | '\\' :: c :: cs =>
    match escaped? c with
    | some x => cons x (basicString cs)
    | none => none
  | c :: cs => if isText c then cons c (basicString cs) else none

def literalString : Reader (List Char)
  | [] => none
  | '\'' :: cs => some ([], cs)
  | c :: cs => if isText c then cons c (literalString cs) else none

def endsLine (cs : List Char) : Bool :=
  match skipBlanks cs with
  | '\n' :: _ => true
  | '\r' :: '\n' :: _ => true
  | _ => false

def longBasicString (trim : Bool) : Reader (List Char)
  | '"' :: '"' :: '"' :: '"' :: '"' :: '"' :: _ => none
  | '"' :: '"' :: '"' :: '"' :: '"' :: cs => some (['"', '"'], cs)
  | '"' :: '"' :: '"' :: '"' :: cs => some (['"'], cs)
  | '"' :: '"' :: '"' :: cs => some ([], cs)
  | '\r' :: '\n' :: cs =>
    if trim then longBasicString true cs else cons '\r' (cons '\n' (longBasicString false cs))
  | '\\' :: 'u' :: a :: b :: c :: d :: cs =>
    match scalar? [a, b, c, d] with
    | some x => cons x (longBasicString false cs)
    | none => none
  | '\\' :: 'U' :: a :: b :: c :: d :: e :: f :: g :: h :: cs =>
    match scalar? [a, b, c, d, e, f, g, h] with
    | some x => cons x (longBasicString false cs)
    | none => none
  | '\\' :: c :: cs =>
    if endsLine (c :: cs) then longBasicString true cs
    else
      match escaped? c with
      | some x => cons x (longBasicString false cs)
      | none => none
  | c :: cs =>
    if trim && (isBlank c || c = '\n') then longBasicString true cs
    else if isText c || c = '\n' then cons c (longBasicString false cs)
    else none
  | [] => none

def longLiteralString : Reader (List Char)
  | '\'' :: '\'' :: '\'' :: '\'' :: '\'' :: '\'' :: _ => none
  | '\'' :: '\'' :: '\'' :: '\'' :: '\'' :: cs => some (['\'', '\''], cs)
  | '\'' :: '\'' :: '\'' :: '\'' :: cs => some (['\''], cs)
  | '\'' :: '\'' :: '\'' :: cs => some ([], cs)
  | '\r' :: '\n' :: cs => cons '\r' (cons '\n' (longLiteralString cs))
  | c :: cs => if isText c || c = '\n' then cons c (longLiteralString cs) else none
  | [] => none

def skipFirstNewline : List Char → List Char
  | '\n' :: cs => cs
  | '\r' :: '\n' :: cs => cs
  | cs => cs

def isBareKeyChar (c : Char) : Bool := c.isAlphanum || c = '-' || c = '_'

def keyPart : Reader String
  | '\'' :: cs => (literalString cs).map fun (s, rest) => (String.ofList s, rest)
  | '"' :: cs => (basicString cs).map fun (s, rest) => (String.ofList s, rest)
  | cs =>
    let name := cs.takeWhile isBareKeyChar
    if name = [] then none else some (String.ofList name, cs.drop name.length)

def keyWithin : (parts : Nat) → Reader Key
  | 0, _ => none
  | n + 1, cs => do
    let (part, rest) ← keyPart cs
    match skipBlanks rest with
    | '.' :: more =>
      let (parts, rest) ← keyWithin n (skipBlanks more)
      return (part :: parts, rest)
    | rest => return ([part], rest)

def key (cs : List Char) : Option (Key × List Char) := keyWithin (cs.length + 1) cs

def decimal (cs : List Char) : Option (Value × List Char) :=
  let isSimple (c : Char) : Bool := c.isDigit || c = '_' || c = '+' || c = '-'
  let isFloat (c : Char) : Bool := isSimple c || c = '.' || c = 'e' || c = 'E'
  let text := cs.takeWhile isFloat
  match text, cs.drop text.length with
  | _, 'i' :: 'n' :: 'f' :: rest => some (.float, rest)
  | _, 'n' :: 'a' :: 'n' :: rest => some (.float, rest)
  | _, 'i' :: _ | _, 'n' :: _ | [], _ => none
  | _, rest => some (if text.all isSimple then .integer text else .float, rest)

/-- A number. A zero in front with more than one character to come stands alone, unless a point,
an exponent or the letter of a base follows. -/
def number (cs : List Char) : Option (Value × List Char) :=
  let based (base : Nat) : Option (Value × List Char) :=
    let ds := (cs.drop 2).takeWhile fun c => Value.isDigitIn base c || c = '_'
    let n := ds.length + 2
    some (.integer (cs.take n), cs.drop n)
  match cs with
  | '0' :: c :: _ :: _ =>
    match c with
    | 'x' => based 16
    | 'o' => based 8
    | 'b' => based 2
    | '.' | 'e' | 'E' => decimal cs
    | _ => some (.integer ['0'], cs.drop 1)
  | _ => decimal cs

def startsDate (cs : List Char) : Bool :=
  match cs.takeWhile Char.isDigit, cs.dropWhile Char.isDigit with
  | [_, _], ':' :: _ => true
  | [_, _, _, _], '-' :: _ => true
  | _, _ => false

structure DateMarks where
  hasDate : Bool := false
  hasTime : Bool := false
  hasZone : Bool := false
  spaced : Bool := false
  deriving DecidableEq, Repr, Inhabited

def DateMarks.kind (m : DateMarks) : DateKind :=
  if !m.hasTime then .localDate
  else if !m.hasDate then .localTime
  else if m.hasZone then .dateTime
  else .localDateTime

/-- Skips a date or a time, of which `done` characters are behind. One blank may stand between the
two; the first digit after it brings along the character that follows, whatever it is. A dash is
the sign of a zone once the day is complete. -/
def skipDate (m : DateMarks) (done : Nat) : List Char → DateMarks × List Char
  | ' ' :: d :: cs =>
    if m.spaced || !d.isDigit then (m, ' ' :: d :: cs)
    else
      let m := { m with hasTime := true, spaced := true }
      match cs with
      | c :: cs => if c.toNat < 128 then skipDate m (done + 3) cs else (m, c :: cs)
      | [] => (m, [])
  | c :: cs =>
    if c.isDigit then skipDate m (done + 1) cs
    else if c = '-' then
      skipDate { m with hasDate := true, hasZone := m.hasZone || 8 ≤ done } (done + 1) cs
    else if "Tt:.".toList.contains c then skipDate { m with hasTime := true } (done + 1) cs
    else if "+Zz".toList.contains c then skipDate { m with hasZone := true } (done + 1) cs
    else (m, c :: cs)
  | [] => (m, [])

def date (cs : List Char) : Value × List Char :=
  let (m, rest) := skipDate {} 0 cs
  (.date ⟨m.kind, cs.take (cs.length - rest.length)⟩, rest)

mutual

def valueWithin : (depth : Nat) → Reader Value
  | 0, _ => none
  | _ + 1, '"' :: '"' :: '"' :: cs =>
    (longBasicString false (skipFirstNewline cs)).map fun (s, r) => (.string (String.ofList s), r)
  | _ + 1, '"' :: cs => (basicString cs).map fun (s, r) => (.string (String.ofList s), r)
  | _ + 1, '\'' :: '\'' :: '\'' :: cs =>
    (longLiteralString (skipFirstNewline cs)).map fun (s, r) => (.string (String.ofList s), r)
  | _ + 1, '\'' :: cs => (literalString cs).map fun (s, r) => (.string (String.ofList s), r)
  | _ + 1, 't' :: 'r' :: 'u' :: 'e' :: cs => some (.bool true, cs)
  | _ + 1, 'f' :: 'a' :: 'l' :: 's' :: 'e' :: cs => some (.bool false, cs)
  | n + 1, '[' :: cs => do
    let (items, rest) ← itemsWithin n (← skipGap false cs)
    return (.array items, rest)
  | n + 1, '\x7b' :: cs => do
    match skipBlanks cs with
    | '\x7d' :: rest => return (.table [], rest)
    | cs =>
      let (rows, rest) ← rowsWithin n cs
      return (.table rows, rest)
  | _ + 1, cs =>
    match cs with
    | 't' :: _ | 'f' :: _ => none
    | cs => if startsDate cs then some (date cs) else number cs

def itemsWithin : (depth : Nat) → Reader (List Value)
  | 0, _ => none
  | _ + 1, ']' :: cs => some ([], cs)
  | n + 1, cs => do
    let (v, rest) ← valueWithin n cs
    match ← skipGap false rest with
    | ',' :: rest =>
      let (vs, rest) ← itemsWithin n (← skipGap false rest)
      return (v :: vs, rest)
    | ']' :: rest => return ([v], rest)
    | _ => none

def rowsWithin : (depth : Nat) → Reader (List (Key × Value))
  | 0, _ => none
  | n + 1, cs => do
    let (k, rest) ← key cs
    match skipBlanks rest with
    | '=' :: rest =>
      let (v, rest) ← valueWithin n (skipBlanks rest)
      match skipBlanks rest with
      | ',' :: rest =>
        let (rows, rest) ← rowsWithin n (skipBlanks rest)
        return ((k, v) :: rows, rest)
      | '\x7d' :: rest => return ([(k, v)], rest)
      | _ => none
    | _ => none

end

/-- Each nested value takes up characters, so their number bounds the depth. -/
def value (cs : List Char) : Option (Value × List Char) := valueWithin (2 * cs.length + 2) cs

def entry (cs : List Char) : Option (Expression × List Char) := do
  let (k, rest) ← key cs
  match skipBlanks rest with
  | '=' :: rest =>
    let (v, rest) ← value (skipBlanks rest)
    return (.entry k v, rest)
  | _ => none

def header : List Char → Option (Expression × List Char)
  | '[' :: '[' :: cs => do
    let (k, rest) ← key (skipBlanks cs)
    match skipBlanks rest with
    | ']' :: ']' :: rest => return (.tableArray k, rest)
    | _ => none
  | '[' :: cs => do
    let (k, rest) ← key (skipBlanks cs)
    match skipBlanks rest with
    | ']' :: rest => return (.table k, rest)
    | _ => none
  | _ => none

def skipLineEnd (cs : List Char) : Option (List Char) :=
  match skipBlanks cs with
  | '#' :: cs => skipComment cs
  | cs => some cs

/-- One line, which may hold nothing, and what follows its text. -/
def line (cs : List Char) : Option (Option Expression × List Char) := do
  match skipBlanks cs with
  | [] => return (none, [])
  | '#' :: cs => return (none, ← skipComment cs)
  | '\n' :: cs => return (none, '\n' :: cs)
  | '\r' :: cs => return (none, '\r' :: cs)
  | '[' :: cs =>
    let (e, rest) ← header ('[' :: cs)
    return (some e, ← skipLineEnd rest)
  | cs =>
    let (e, rest) ← entry cs
    return (some e, ← skipLineEnd rest)

def foldLines {σ ε : Type} (malformed : ε) (step : σ → Expression → Except ε σ) :
    (lines : Nat) → σ → List Char → Except ε σ
  | 0, _, _ => .error malformed
  | n + 1, s, cs => do
    let some (e?, rest) := line cs | .error malformed
    let s ← match e? with
      | some e => step s e
      | none => pure s
    match rest with
    | [] => return s
    | '\n' :: rest => foldLines malformed step n s rest
    | '\r' :: '\n' :: rest => foldLines malformed step n s rest
    | _ => .error malformed

def fold {σ ε : Type} (malformed : ε) (step : σ → Expression → Except ε σ) (s : σ)
    (text : String) : Except ε σ :=
  foldLines malformed step (text.toList.length + 1) s text.toList

end RegPressure.Toml
