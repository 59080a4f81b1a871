import RegPressure.Text.Bytes

namespace RegPressure.Word

/-- How many words there are. -/
def count : Nat := 18446744073709551616

def minSigned : Int := -9223372036854775808

def maxSigned : Int := 9223372036854775807

def ofInt? (n : Int) : Option Int64 :=
  if minSigned ≤ n && n ≤ maxSigned then some (Int64.ofInt n) else none

def wrap (n : Int) : Int := (Int64.ofInt n).toInt

def clamp (n : Int) : Int := max minSigned (min maxSigned n)

end RegPressure.Word

namespace RegPressure.Decimal

def isDigit (b : UInt8) : Bool := 48 ≤ b && b ≤ 57

/-- The value of a run of digits, most significant first. -/
def value (ds : Bytes) : Nat := ds.foldl (fun n d => 10 * n + (d.toNat - 48)) 0

def nat? (ds : Bytes) : Option Nat :=
  if ds ≠ [] && ds.all isDigit then some (value ds) else none

def int? : Bytes → Option Int
  | 43 :: ds => (nat? ds).map Int.ofNat
  | 45 :: ds => (nat? ds).map fun n => -Int.ofNat n
  | ds => (nat? ds).map Int.ofNat

def int64? (ds : Bytes) : Option Int64 := (int? ds).bind Word.ofInt?

def uint64? (ds : Bytes) : Option UInt64 :=
  match nat? ds with
  | some n => if n < Word.count then some (UInt64.ofNat n) else none
  | none => none

def word? (ds : Bytes) : Option Int64 :=
  int64? ds <|> (uint64? ds).map UInt64.toInt64

end RegPressure.Decimal
