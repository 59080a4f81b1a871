namespace RegPressure

/-- Source text, string literals and metadata are octets; nothing promises that they are well-formed
UTF-8. -/
abbrev Bytes := List UInt8

/-- What an octet string holds, read as UTF-8: characters, and octets that belong to none. -/
inductive Rune
  | char (c : Char)
  | stray (b : UInt8)
  deriving DecidableEq, Repr

namespace Bytes

def ofString (s : String) : Bytes := s.toUTF8.data.toList

def ofNat (n : Nat) : Bytes := ofString (toString n)

def ofInt (n : Int) : Bytes := ofString (toString n)

def isTail (b : UInt8) : Bool := 0x80 ≤ b && b ≤ 0xBF

def tailBits (b : UInt8) : Nat := b.toNat % 64

def leading (b : UInt8) (rest : Bytes) : Option (Char × Nat) :=
  if b < 0x80 then some (Char.ofNat b.toNat, 0)
  else if 0xC2 ≤ b && b ≤ 0xDF then
    match rest with
    | b₁ :: _ =>
      if isTail b₁ then some (Char.ofNat (b.toNat % 32 * 64 + tailBits b₁), 1) else none
    | _ => none
  else if 0xE0 ≤ b && b ≤ 0xEF then
    match rest with
    | b₁ :: b₂ :: _ =>
      let n := b.toNat % 16 * 4096 + tailBits b₁ * 64 + tailBits b₂
      if isTail b₁ && isTail b₂ && 0x800 ≤ n && !(0xD800 ≤ n && n ≤ 0xDFFF) then
        some (Char.ofNat n, 2)
      else none
    | _ => none
  else if 0xF0 ≤ b && b ≤ 0xF4 then
    match rest with
    | b₁ :: b₂ :: b₃ :: _ =>
      let n := b.toNat % 8 * 262144 + tailBits b₁ * 4096 + tailBits b₂ * 64 + tailBits b₃
      if isTail b₁ && isTail b₂ && isTail b₃ && 0x10000 ≤ n && n ≤ 0x10FFFF then
        some (Char.ofNat n, 3)
      else none
    | _ => none
  else none

def runes : Bytes → List Rune
  | [] => []
  | b :: rest =>
    match leading b rest with
    | some (c, n) => .char c :: runes (rest.drop n)
    | none => .stray b :: runes rest
termination_by bs => bs.length
decreasing_by all_goals (simp; try omega)

/-- A stray octet becomes the replacement character. -/
def toText (bs : Bytes) : String :=
  String.ofList <| bs.runes.map fun
    | .char c => c
    | .stray _ => Char.ofNat 0xFFFD

def isBlank (c : Char) : Bool :=
  let n := c.toNat
  (9 ≤ n && n ≤ 13) || n == 32 || n == 0x85 || n == 0xA0 || n == 0x1680 ||
    (0x2000 ≤ n && n ≤ 0x200A) || n == 0x2028 || n == 0x2029 || n == 0x202F || n == 0x205F ||
    n == 0x3000

def isBlankRune : Rune → Bool
  | .char c => isBlank c
  | .stray _ => false

def ofRune : Rune → Bytes
  | .char c => ofString (String.singleton c)
  | .stray b => [b]

def trim (bs : Bytes) : Bytes :=
  let strip := List.dropWhile isBlankRune
  ((strip (strip bs.runes).reverse).reverse.map ofRune).flatten

/-- The pieces between separators; there is always at least one. -/
def split (sep : UInt8) : Bytes → List Bytes
  | [] => [[]]
  | b :: rest =>
    if b = sep then [] :: split sep rest
    else
      match split sep rest with
      | piece :: more => (b :: piece) :: more
      | [] => [[b]]

end Bytes

namespace Text

def trim (s : String) : String :=
  let strip := List.dropWhile Bytes.isBlank
  String.ofList (strip (strip s.toList).reverse).reverse

/-- The items of a comma separated list, blanks around them removed and empty ones dropped. -/
def items (s : String) : List String :=
  ((s.splitOn ",").map trim).filter (· ≠ "")

/-- Lower case as far as it can give an ASCII letter: besides the capitals, the dotted capital I
and the Kelvin sign. -/
def lower (s : String) : String :=
  s.map fun c => if c = 'İ' then 'i' else if c = 'K' then 'k' else c.toLower

end Text

end RegPressure
