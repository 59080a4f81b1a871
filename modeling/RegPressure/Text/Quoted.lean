import RegPressure.Text.Bytes
import RegPressure.Text.Printable

namespace RegPressure.Text

def hexDigit (n : Nat) : Char := Nat.digitChar (n % 16)

def hex : (width : Nat) → (n : Nat) → String
  | 0, _ => ""
  | w + 1, n => (hex w (n / 16)).push (hexDigit n)

def escape (quote c : Char) : String :=
  if c = quote || c = '\\' then String.ofList ['\\', c]
  else if isPrintable c then String.singleton c
  else match c.toNat with
    | 7 => "\\a"
    | 8 => "\\b"
    | 12 => "\\f"
    | 10 => "\\n"
    | 13 => "\\r"
    | 9 => "\\t"
    | 11 => "\\v"
    | n =>
      if n < 32 || n = 127 then "\\x" ++ hex 2 n
      else if n < 0x10000 then "\\u" ++ hex 4 n
      else "\\U" ++ hex 8 n

def escapeRune (quote : Char) : Rune → String
  | .char c => escape quote c
  | .stray b => "\\x" ++ hex 2 b.toNat

def quoteBytes (bs : Bytes) : String :=
  "\"" ++ String.join (bs.runes.map (escapeRune '"')) ++ "\""

def quote (s : String) : String :=
  "\"" ++ String.join (s.toList.map (escape '"')) ++ "\""

def quoteByte (b : UInt8) : String :=
  "'" ++ escape '\'' (Char.ofNat b.toNat) ++ "'"

end RegPressure.Text
