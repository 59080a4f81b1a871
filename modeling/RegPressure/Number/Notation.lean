import RegPressure.Number.Binary64

namespace RegPressure.Notation

def digit? (b : UInt8) : Option Nat :=
  if 48 ≤ b && b ≤ 57 then some (b.toNat - 48)
  else if 97 ≤ b && b ≤ 102 then some (b.toNat - 87)
  else if 65 ≤ b && b ≤ 70 then some (b.toNat - 55)
  else none

def underscore : UInt8 := 95

def isSeparated (isDigit : UInt8 → Bool) (after : Bool) : Bytes → Bool
  | [] => true
  | b :: rest =>
    if b = underscore then after && (rest.head?.any isDigit) && isSeparated isDigit false rest
    else isSeparated isDigit (isDigit b) rest

def digits? (base : Nat) (bs : Bytes) : Option Nat :=
  bs.foldlM (fun n b => ((digit? b).filter (· < base)).map (base * n + ·)) 0

def base? (b : UInt8) : Option Nat :=
  match Char.ofNat b.toNat with
  | 'x' | 'X' => some 16
  | 'o' | 'O' => some 8
  | 'b' | 'B' => some 2
  | _ => none

/-- The base of a whole number and its digits; a leading zero alone makes it octal. -/
def split : Bytes → Nat × Bool × Bytes
  | 48 :: b :: c :: rest =>
    match base? b with
    | some base => (base, true, c :: rest)
    | none => (8, true, b :: c :: rest)
  | 48 :: rest => (8, true, rest)
  | bs => (10, false, bs)

def nat? (bs : Bytes) : Option Nat :=
  let (base, isMarked, ds) := split bs
  if bs = [] || !isSeparated (fun b => (digit? b).isSome) isMarked ds then none
  else digits? base (ds.filter (· ≠ underscore))

def sign : Bytes → Bool × Bytes
  | 45 :: rest => (true, rest)
  | bs => (false, bs)

def int? (bs : Bytes) : Option Int :=
  let (neg, bs) := sign bs
  (nat? bs).map fun n => if neg then -Int.ofNat n else Int.ofNat n

def ofBinary (digits : Nat) (e : Int) : Binary64 :=
  let size : Int := digits.log2 + e
  if digits = 0 || size < -1200 then .zero
  else if 1100 < size then .infinity false
  else if 0 ≤ e then .ofRatio false (digits * Nat.pow 2 e.toNat) 1
  else .ofRatio false digits (Nat.pow 2 (-e).toNat)

def hexFloat? (bs : Bytes) : Option Binary64 := do
  let isDigit (b : UInt8) : Bool := (digit? b).isSome
  let whole := bs.takeWhile isDigit
  let rest := bs.dropWhile isDigit
  let (part, rest) :=
    match rest with
    | 46 :: more => (more.takeWhile isDigit, more.dropWhile isDigit)
    | _ => ([], rest)
  if whole = [] && part = [] then none
  let e ← match rest with
    | [] => some 0
    | b :: rest => if b = 112 || b = 80 then Decimal.int? rest else none
  return ofBinary (← digits? 16 (whole ++ part)) (e - 4 * part.length)

def isNonzero (isHex : Bool) (bs : Bytes) : Bool :=
  let isMark (b : UInt8) : Bool := b = 112 || b = 80 || !isHex && (b = 101 || b = 69)
  (bs.takeWhile (!isMark ·)).any fun b => (digit? b).any (· ≠ 0)

def float? (bs : Bytes) : Option Binary64 :=
  let (neg, bs) := sign bs
  let isHex := bs.take 2 = [48, 120] || bs.take 2 = [48, 88]
  let body := if isHex then bs.drop 2 else bs
  let isDigit (b : UInt8) : Bool := if isHex then (digit? b).isSome else Decimal.isDigit b
  if !isSeparated isDigit isHex body then none
  else
    let plain := body.filter (· ≠ underscore)
    let x := if isHex then hexFloat? plain else Binary64.unsigned? false plain
    x.map fun x => if neg && isNonzero isHex plain then .assemble true x.bits.toNat else x

end RegPressure.Notation
