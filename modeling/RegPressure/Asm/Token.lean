import RegPressure.Text.Quoted

namespace RegPressure

inductive TokenKind
  | eof | illegal
  | ident | global | local | metadata | int | float | string
  | lparen | rparen | lbrace | rbrace | lbracket | rbracket | lt | gt
  | comma | colon | assign | arrow
  deriving DecidableEq, Repr, Inhabited

namespace TokenKind

/-- Every kind, in the order of its number. -/
def all : List TokenKind :=
  [.eof, .illegal, .ident, .global, .local, .metadata, .int, .float, .string,
   .lparen, .rparen, .lbrace, .rbrace, .lbracket, .rbracket, .lt, .gt,
   .comma, .colon, .assign, .arrow]

def name : TokenKind → String
  | .eof => "EOF"
  | .illegal => "ILLEGAL"
  | .ident => "identifier"
  | .global => "global name"
  | .local => "local name"
  | .metadata => "metadata"
  | .int => "integer"
  | .float => "float"
  | .string => "string"
  | .lparen => "("
  | .rparen => ")"
  | .lbrace => "\x7b"
  | .rbrace => "\x7d"
  | .lbracket => "["
  | .rbracket => "]"
  | .lt => "<"
  | .gt => ">"
  | .comma => ","
  | .colon => ":"
  | .assign => "="
  | .arrow => "->"

def numberText (n : Int) : String :=
  match if n < 0 then none else all[n.toNat]? with
  | some k => k.name
  | none => "token(" ++ toString n ++ ")"

end TokenKind

/-- A token. `lexeme` leaves out the sign in front of a name and the quotes of a string, and has
a string's escapes resolved. -/
structure Token where
  kind : TokenKind
  lexeme : Bytes := []
  line : Nat
  column : Nat
  deriving DecidableEq, Repr, Inhabited

namespace Token

def word (t : Token) : String := t.lexeme.toText

/-- How a message names the token. -/
def text (t : Token) : String :=
  match t.kind with
  | .global => "@" ++ t.word
  | .local => "%" ++ t.word
  | .metadata => "!" ++ t.word
  | .string => Text.quoteBytes t.lexeme
  | .eof => "end of file"
  | k => if t.lexeme ≠ [] then t.word else k.name

end Token

end RegPressure
