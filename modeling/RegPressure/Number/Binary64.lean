import RegPressure.Number.Word

namespace RegPressure

/-- A binary floating point number of 64 bits, as its bit pattern. -/
structure Binary64 where
  bits : UInt64
  deriving DecidableEq, Repr, Inhabited

namespace Binary64

def hiddenBit : Nat := 4503599627370496

def signBit : Nat := 9223372036854775808

def isNegative (x : Binary64) : Bool := signBit ≤ x.bits.toNat

def biased (x : Binary64) : Nat := x.bits.toNat / hiddenBit % 2048

def fraction (x : Binary64) : Nat := x.bits.toNat % hiddenBit

def isNaN (x : Binary64) : Bool := x.biased = 2047 && x.fraction ≠ 0

def isInfinite (x : Binary64) : Bool := x.biased = 2047 && x.fraction = 0

def isZero (x : Binary64) : Bool := x.biased = 0 && x.fraction = 0

def mantissa (x : Binary64) : Nat :=
  if x.biased = 0 then x.fraction else hiddenBit + x.fraction

def exponent (x : Binary64) : Int := (if x.biased = 0 then 1 else x.biased : Nat) - 1075

def same (x y : Binary64) : Bool :=
  !x.isNaN && !y.isNaN && (x.bits = y.bits || (x.isZero && y.isZero))

def assemble (neg : Bool) (magnitude : Nat) : Binary64 :=
  ⟨UInt64.ofNat ((if neg then signBit else 0) + magnitude)⟩

def zero : Binary64 := ⟨0⟩

def infinity (neg : Bool) : Binary64 := assemble neg (2047 * hiddenBit)

def nan : Binary64 := ⟨0x7FF8000000000001⟩

def roundDiv (num den : Nat) : Nat :=
  let q := num / den
  let r := num % den
  if 2 * r < den || (2 * r = den && q % 2 = 0) then q else q + 1

def scale (num den : Nat) : Int :=
  let e : Int := num.log2 - den.log2
  let reaches := if 0 ≤ e then den * Nat.pow 2 e.toNat ≤ num else den ≤ num * Nat.pow 2 (-e).toNat
  if reaches then e else e - 1

def ofRatio (neg : Bool) (num den : Nat) : Binary64 :=
  let q := max (scale num den - 52) (-1074)
  let m :=
    if 0 ≤ q then roundDiv num (den * Nat.pow 2 q.toNat)
    else roundDiv (num * Nat.pow 2 (-q).toNat) den
  -- The hidden bit of a full mantissa adds one to the exponent field, and so does a carry.
  let magnitude := (q + 1074).toNat * hiddenBit + m
  if 2047 * hiddenBit ≤ magnitude then infinity neg else assemble neg magnitude

def ofInt (n : Int) : Binary64 :=
  if n = 0 then zero else ofRatio (n < 0) n.natAbs 1

def ofScientific (neg : Bool) (digits : Nat) (e : Int) : Binary64 :=
  let size : Int := (toString digits).length + e
  if digits = 0 || size < -330 then assemble neg 0
  else if 310 < size then infinity neg
  else if 0 ≤ e then ofRatio neg (digits * Nat.pow 10 e.toNat) 1
  else ofRatio neg digits (Nat.pow 10 (-e).toNat)

def whole? (x : Binary64) : Option Int :=
  let sign : Int := if x.isNegative then -1 else 1
  if x.biased = 2047 then none
  else if 0 ≤ x.exponent then some (sign * (x.mantissa * Nat.pow 2 x.exponent.toNat))
  else
    let unit := Nat.pow 2 (-x.exponent).toNat
    if x.mantissa % unit = 0 then some (sign * (x.mantissa / unit)) else none

def expPart : Bytes → Option Int
  | [] => some 0
  | b :: rest => if b = 101 || b = 69 then Decimal.int? rest else none

def unsigned? (neg : Bool) (bs : Bytes) : Option Binary64 :=
  let whole := bs.takeWhile Decimal.isDigit
  let rest := bs.dropWhile Decimal.isDigit
  let (part, rest) :=
    match rest with
    | 46 :: more => (more.takeWhile Decimal.isDigit, more.dropWhile Decimal.isDigit)
    | _ => ([], rest)
  if whole = [] && part = [] then none
  else
    (expPart rest).map fun e =>
      ofScientific neg (Decimal.value (whole ++ part)) (e - part.length)

private def named? (neg : Bool) (bs : Bytes) : Option Binary64 :=
  match Text.lower (Bytes.toText bs) with
  | "inf" | "infinity" => some (infinity neg)
  | "nan" => some nan
  | _ => none

def read? (bs : Bytes) : Option Binary64 :=
  let (neg, rest) : Bool × Bytes :=
    match bs with
    | 43 :: rest => (false, rest)
    | 45 :: rest => (true, rest)
    | _ => (false, bs)
  named? neg rest <|> unsigned? neg rest

def decimal? (bs : Bytes) : Option Binary64 :=
  let x := match bs with
    | 45 :: rest => unsigned? true rest
    | 43 :: rest => unsigned? false rest
    | _ => unsigned? false bs
  x.filter fun x => !x.isInfinite

end Binary64

end RegPressure

/-! ### The shortest decimal that reads back as a number, and the text made of it -/

namespace RegPressure.Binary64

/-- The reals that round to a number, as numerators over one denominator; the ends belong to it
when its mantissa is even. -/
structure Span where
  low : Nat
  mid : Nat
  high : Nat
  den : Nat
  closed : Bool

def span (x : Binary64) : Span :=
  let m := x.mantissa
  let q := x.exponent - 2
  let below := if x.fraction = 0 && 1 < x.biased then 1 else 2
  let up := if 0 ≤ q then Nat.pow 2 q.toNat else 1
  { low := (4 * m - below) * up, mid := 4 * m * up, high := (4 * m + 2) * up
    den := if 0 ≤ q then 1 else Nat.pow 2 (-q).toNat
    closed := m % 2 = 0 }

def Span.contains (s : Span) (num den : Nat) : Bool :=
  let a := num * s.den
  if s.closed then s.low * den ≤ a && a ≤ s.high * den
  else s.low * den < a && a < s.high * den

def magnitude (num den : Nat) : Int :=
  let len (n : Nat) : Int := (toString n).length
  if den ≤ num then len (num / den) - 1
  else
    let d := len (den / num)
    if den ≤ num * Nat.pow 10 (d - 1).toNat then 1 - d else -d

structure Digits where
  digits : Nat
  exp : Int

def onGrid (s : Span) (e : Int) : Option Digits :=
  let (unit, parts) := if 0 ≤ e then (Nat.pow 10 e.toNat, 1) else (1, Nat.pow 10 (-e).toNat)
  let d := s.mid * parts / (s.den * unit)
  let rest := s.mid * parts % (s.den * unit)
  let fits (n : Nat) := s.contains (n * unit) parts
  let roundUp := s.den * unit < 2 * rest || (s.den * unit = 2 * rest && d % 2 = 1)
  match fits d, fits (d + 1) with
  | false, false => none
  | true, false => some ⟨d, e⟩
  | false, true => some ⟨d + 1, e⟩
  | true, true => some ⟨if roundUp then d + 1 else d, e⟩

/-- The shortest decimal that reads back as the number. -/
def shortest (x : Binary64) : Digits :=
  let s := x.span
  let top := magnitude s.mid s.den
  let grids := (List.range 17).map fun (n : Nat) => top - n
  (grids.findSome? (onGrid s)).getD ⟨0, 0⟩

def dropZeros (cs : List Char) : List Char := (cs.reverse.dropWhile (· = '0')).reverse

def exponentText (e : Int) : String :=
  let ds := toString e.natAbs
  (if e < 0 then "-" else "+") ++ (if ds.length < 2 then "0" ++ ds else ds)

/-- Positional below a million and from a ten-thousandth on, else with a power of ten of at least
two digits. -/
def layout (ds : List Char) (first : Int) : String :=
  if first < -4 || 6 ≤ first then
    let head := ds.take 1
    let tail := ds.drop 1
    String.ofList (head ++ (if tail = [] then [] else '.' :: tail)) ++ "e" ++ exponentText first
  else if first < 0 then
    "0." ++ String.ofList (List.replicate (-first - 1).toNat '0' ++ ds)
  else
    let n := first.toNat + 1
    let whole := ds.take n ++ List.replicate (n - ds.length) '0'
    let part := ds.drop n
    String.ofList (whole ++ (if part = [] then [] else '.' :: part))

def text (x : Binary64) : String :=
  if x.isNaN then "NaN"
  else if x.isInfinite then if x.isNegative then "-Inf" else "+Inf"
  else
    let sign := if x.isNegative then "-" else ""
    if x.isZero then sign ++ "0"
    else
      let d := x.shortest
      let all := (toString d.digits).toList
      sign ++ layout (dropZeros all) (d.exp + all.length - 1)

end RegPressure.Binary64
