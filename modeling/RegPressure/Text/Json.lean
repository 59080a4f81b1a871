import RegPressure.Text.Quoted

namespace RegPressure

inductive JsonValue
  | null
  | bool (b : Bool)
  | number (n : Int)
  | string (s : String)
  | array (items : List JsonValue)
  | object (fields : List (String × JsonValue))
  deriving Repr, Inhabited

namespace JsonValue

def escapeChar (c : Char) : String :=
  match c with
  | '"' => "\\\""
  | '\\' => "\\\\"
  | '\n' => "\\n"
  | '\r' => "\\r"
  | '\t' => "\\t"
  | _ =>
    let n := c.toNat
    if n < 32 || c = '<' || c = '>' || c = '&' || n = 0x2028 || n = 0x2029 then
      "\\u" ++ Text.hex 4 n
    else String.singleton c

def quoted (s : String) : String := "\"" ++ String.join (s.toList.map escapeChar) ++ "\""

mutual

def compact : JsonValue → String
  | .null => "null"
  | .bool b => if b then "true" else "false"
  | .number n => toString n
  | .string s => quoted s
  | .array items => "[" ++ ",".intercalate (compactItems items) ++ "]"
  | .object fields => "\x7b" ++ ",".intercalate (compactFields fields) ++ "\x7d"

def compactItems : List JsonValue → List String
  | [] => []
  | x :: xs => compact x :: compactItems xs

def compactFields : List (String × JsonValue) → List String
  | [] => []
  | (k, v) :: rest => (quoted k ++ ":" ++ compact v) :: compactFields rest

end

def spread (opening closing pad : String) (items : List String) : String :=
  if items.isEmpty then opening ++ closing
  else
    let inner := "\n" ++ pad ++ "  "
    opening ++ inner ++ ("," ++ inner).intercalate items ++ "\n" ++ pad ++ closing

mutual

def indented (pad : String) : JsonValue → String
  | .array items => spread "[" "]" pad (indentedItems (pad ++ "  ") items)
  | .object fields => spread "\x7b" "\x7d" pad (indentedFields (pad ++ "  ") fields)
  | .null => "null"
  | .bool b => if b then "true" else "false"
  | .number n => toString n
  | .string s => quoted s

def indentedItems (pad : String) : List JsonValue → List String
  | [] => []
  | x :: xs => indented pad x :: indentedItems pad xs

def indentedFields (pad : String) : List (String × JsonValue) → List String
  | [] => []
  | (k, v) :: rest => (quoted k ++ ": " ++ indented pad v) :: indentedFields pad rest

end

end JsonValue

end RegPressure
