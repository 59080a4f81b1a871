import RegPressure.Number.Word

namespace RegPressure.Toml

inductive DateKind
  | dateTime | localDateTime | localDate | localTime
  deriving DecidableEq, Repr, Inhabited

def DateKind.typeName : DateKind → String
  | .dateTime => "time.Time"
  | .localDateTime => "toml.LocalDateTime"
  | .localDate => "toml.LocalDate"
  | .localTime => "toml.LocalTime"

structure DateText where
  kind : DateKind
  text : List Char
  deriving DecidableEq, Repr, Inhabited

namespace DateText

def char? (c : Char) : List Char → Option (List Char)
  | x :: cs => if x = c then some cs else none
  | [] => none

def number? (width : Nat) (cs : List Char) : Option (Nat × List Char) :=
  let ds := cs.take width
  if ds.length = width && ds.all Char.isDigit then
    some (ds.foldl (fun n d => 10 * n + (d.toNat - 48)) 0, cs.drop width)
  else none

def isLeap (year : Nat) : Bool := year % 4 = 0 && (year % 100 ≠ 0 || year % 400 = 0)

def daysIn (year month : Nat) : Nat :=
  if month = 2 then if isLeap year then 29 else 28
  else if [4, 6, 9, 11].contains month then 30
  else 31

def isDay (year month day : Nat) : Bool :=
  1 ≤ month && month ≤ 12 && 1 ≤ day && day ≤ daysIn year month

def date? (cs : List Char) : Option (List Char) := do
  let (year, cs) ← number? 4 cs
  let (month, cs) ← number? 2 (← char? '-' cs)
  let (day, cs) ← number? 2 (← char? '-' cs)
  if isDay year month day then some cs else none

def fraction? : List Char → Option (List Char)
  | '.' :: cs => if cs.takeWhile Char.isDigit = [] then none else some (cs.dropWhile Char.isDigit)
  | cs => some cs

def time? (cs : List Char) : Option (List Char) := do
  let (hour, cs) ← number? 2 cs
  let (minute, cs) ← number? 2 (← char? ':' cs)
  let (second, cs) ← number? 2 (← char? ':' cs)
  if hour ≤ 23 && minute ≤ 59 && second ≤ 60 then fraction? cs else none

def dateTime? (cs : List Char) : Option (List Char) := do
  match ← date? cs with
  | c :: cs => if c = 'T' || c = 't' || c = ' ' then time? cs else none
  | [] => none

def zone? : List Char → Option (List Char)
  | 'Z' :: cs | 'z' :: cs => some cs
  | '+' :: cs | '-' :: cs => do
    let (hours, cs) ← number? 2 cs
    let (minutes, cs) ← number? 2 (← char? ':' cs)
    if hours ≤ 23 && minutes ≤ 59 then some cs else none
  | _ => none

def isValid (d : DateText) : Bool :=
  let rest := match d.kind with
    | .dateTime => (dateTime? d.text).bind zone?
    | .localDateTime => dateTime? d.text
    | .localDate => date? d.text
    | .localTime => time? d.text
  rest = some []

end DateText

/-! ### Documents -/

abbrev Key := List String

inductive Value
  | string (s : String)
  | integer (text : List Char)
  | bool (b : Bool)
  /-- A floating point number, whose value nobody asks for. -/
  | float
  | date (d : DateText)
  | array (items : List Value)
  | table (rows : List (Key × Value))
  deriving Repr, Inhabited

inductive Expression
  | entry (key : Key) (value : Value)
  | table (key : Key)
  | tableArray (key : Key)
  deriving Repr, Inhabited

namespace Value

def isDigitIn (base : Nat) (c : Char) : Bool :=
  c.isDigit && c.toNat - 48 < base || base = 16 && (('a' ≤ c && c ≤ 'f') || ('A' ≤ c && c ≤ 'F'))

def digitValue (c : Char) : Nat :=
  if c.isDigit then c.toNat - 48 else if 'a' ≤ c then c.toNat - 87 else c.toNat - 55

def digits? (base : Nat) (cs : List Char) : Option Nat :=
  let groups := (String.ofList cs).splitOn "_"
  if groups.all fun g => g ≠ "" && g.toList.all (isDigitIn base) then
    some (((cs.filter (· ≠ '_')).map digitValue).foldl (fun n d => base * n + d) 0)
  else none

def decimal? (cs : List Char) : Option Nat :=
  match cs with
  | '0' :: _ :: _ => none
  | _ => digits? 10 cs

def unbounded? : List Char → Option Int
  | '0' :: 'x' :: cs => (digits? 16 cs).map Int.ofNat
  | '0' :: 'o' :: cs => (digits? 8 cs).map Int.ofNat
  | '0' :: 'b' :: cs => (digits? 2 cs).map Int.ofNat
  | '+' :: cs => (decimal? cs).map Int.ofNat
  | '-' :: cs => (decimal? cs).map fun n => -Int.ofNat n
  | cs => (decimal? cs).map Int.ofNat

def int64? (text : List Char) : Option Int64 := (unbounded? text).bind Word.ofInt?

end Value

end RegPressure.Toml
