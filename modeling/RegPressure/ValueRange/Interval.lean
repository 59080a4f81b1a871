import RegPressure.Number.Word

namespace RegPressure

/-- Signed integers of a width. The bounds are kept as 256-bit numbers, so no operation on values of
up to 64 bits loses anything on the way; a result that the width cannot hold becomes the full
interval. -/
structure Interval where
  bits : Int
  lo : Int
  hi : Int
  deriving DecidableEq, Repr, Inhabited

namespace Interval

def maxBits : Nat := 64

def wrap (x : Int) : Int := x.bmod (Nat.pow 2 256)

def pow2 (n : Int) : Int := if 0 ≤ n && n < 256 then wrap (Nat.pow 2 n.toNat) else 0

def signBit (bits : Int) : Int := pow2 (bits - 1)

def smallest (bits : Int) : Int := wrap (-signBit bits)

def largest (bits : Int) : Int := wrap (signBit bits - 1)

def full (bits : Int) : Interval := ⟨bits, smallest bits, largest bits⟩

def const (bits : Int) (n : Int64) : Interval := ⟨bits, n.toInt, n.toInt⟩

def clamp (bits : Int) (lo hi : Int) : Interval :=
  if lo < smallest bits || hi > largest bits || hi < lo then full bits else ⟨bits, lo, hi⟩

def new (bits : Int) (lo hi : Int64) : Interval := clamp bits lo.toInt hi.toInt

def isFull (r : Interval) : Bool := r.lo = smallest r.bits && r.hi = largest r.bits

def isNonneg (r : Interval) : Bool := 0 ≤ r.lo

def contains (r : Interval) (n : Int64) : Bool := r.lo ≤ n.toInt && n.toInt ≤ r.hi

def words? (r : Interval) : Option (Int64 × Int64) :=
  match Word.ofInt? r.lo, Word.ofInt? r.hi with
  | some a, some b => some (a, b)
  | _, _ => none

def bitLength (n : Nat) : Nat := if n = 0 then 0 else n.log2 + 1

def wordLength (x : Int) : Nat := if x < 0 then 256 else bitLength x.toNat

def signedBits (x : Int) : Nat := bitLength (if x < 0 then -x - 1 else x).toNat + 1

/-- The least width that holds every number of the interval as a signed one. -/
def minSignedBits (r : Interval) : Nat := max (signedBits r.lo) (signedBits r.hi)

/-- The least width that holds the interval, without a sign bit where nothing is negative. -/
def minWidth (r : Interval) : Int :=
  if r.isFull then r.bits
  else if r.isNonneg then max 1 (wordLength r.hi)
  else r.minSignedBits

def fitsIn (r : Interval) (bits : Int) : Bool := r.minSignedBits ≤ bits

def text (r : Interval) : String := "[" ++ toString r.lo ++ ", " ++ toString r.hi ++ "]"

def point? (r : Interval) : Option Int64 := if r.lo = r.hi then Word.ofInt? r.lo else none

def union (r s : Interval) : Interval := ⟨r.bits, min r.lo s.lo, max r.hi s.hi⟩

def intersect? (r s : Interval) : Option Interval :=
  let lo := max r.lo s.lo
  let hi := min r.hi s.hi
  if hi < lo then none else some ⟨r.bits, lo, hi⟩

def add (r s : Interval) : Interval :=
  if r.bits > maxBits then full r.bits else clamp r.bits (wrap (r.lo + s.lo)) (wrap (r.hi + s.hi))

def sub (r s : Interval) : Interval :=
  if r.bits > maxBits then full r.bits else clamp r.bits (wrap (r.lo - s.hi)) (wrap (r.hi - s.lo))

def mul (r s : Interval) : Interval :=
  if r.bits > maxBits then full r.bits
  else
    let a := wrap (r.lo * s.lo)
    let b := wrap (r.lo * s.hi)
    let c := wrap (r.hi * s.lo)
    let d := wrap (r.hi * s.hi)
    clamp r.bits (min (min a b) (min c d)) (max (max a b) (max c d))

/-- Division, toward zero, by a positive constant; anything else may give any value. -/
def sdiv (r s : Interval) : Interval :=
  match s.point? with
  | some c =>
    if c ≤ 0 || r.bits > maxBits then full r.bits
    else clamp r.bits (wrap (r.lo.tdiv c.toInt)) (wrap (r.hi.tdiv c.toInt))
  | none => full r.bits

def udiv (r s : Interval) : Interval := if r.isNonneg then r.sdiv s else full r.bits

def srem (r s : Interval) : Interval :=
  match s.point? with
  | some c =>
    if c = 0 || c.toInt = Word.minSigned then full r.bits
    else
      let m : Int := c.toInt.natAbs - 1
      if r.isNonneg then ⟨r.bits, 0, min m r.hi⟩
      else if r.hi ≤ 0 then ⟨r.bits, max (-m) r.lo, 0⟩
      else clamp r.bits (-m) m
  | none => full r.bits

def urem (r s : Interval) : Interval :=
  match s.point? with
  | some c =>
    if c ≤ 0 then full r.bits
    else
      let m := c.toInt - 1
      clamp r.bits 0 (if r.isNonneg then min m r.hi else m)
  | none => full r.bits

def and (r s : Interval) : Interval :=
  match r.isNonneg, s.isNonneg with
  | true, true => ⟨r.bits, 0, min r.hi s.hi⟩
  | true, false => ⟨r.bits, 0, r.hi⟩
  | false, true => ⟨r.bits, 0, s.hi⟩
  | false, false => full r.bits

def or (r s : Interval) : Interval :=
  if r.isNonneg && s.isNonneg then
    clamp r.bits 0 (wrap (pow2 (wordLength (max r.hi s.hi)) - 1))
  else full r.bits

def amount? (r s : Interval) : Option Nat :=
  match s.point? with
  | some c => if 0 ≤ c.toInt && c.toInt < r.bits then some c.toInt.toNat else none
  | none => none

def shl (r s : Interval) : Interval :=
  match r.amount? s with
  | some n => r.mul ⟨r.bits, pow2 n, pow2 n⟩
  | none => full r.bits

def ashr (r s : Interval) : Interval :=
  match r.amount? s with
  | some n => ⟨r.bits, r.lo >>> n, r.hi >>> n⟩
  | none => full r.bits

def lshr (r s : Interval) : Interval :=
  match r.amount? s with
  | some n =>
    if r.isNonneg then r.ashr s
    else if n = 0 then full r.bits
    else ⟨r.bits, 0, wrap (pow2 (r.bits - n) - 1)⟩
  | none => full r.bits

def trunc (r : Interval) (bits : Int) : Interval :=
  if r.fitsIn bits then { r with bits } else full bits

def sext (r : Interval) (bits : Int) : Interval := { r with bits }

def zext (r : Interval) (bits : Int) : Interval :=
  if r.isNonneg then { r with bits } else clamp bits 0 (wrap (pow2 r.bits - 1))

end Interval

end RegPressure
