import RegPressure.Asm.Token
import RegPressure.Diagnostic.Basic
import RegPressure.IR.Op
import RegPressure.IR.Ty

namespace RegPressure

inductive SourceError
  | nameExpected (sign : UInt8)
  | unexpectedByte (b : UInt8)
  | unterminatedString
  | invalidNumber (lexeme : Bytes)
  | topLevel (found : Token)
  | expected (kind : TokenKind) (found : Token)
  | expectedWord (word : String) (found : Token)
  | expectedCallee (found : Token)
  | expectedValue (found : Token)
  | outsideBlock
  | globalRedefined (name : String)
  | paramRedefined (name : String)
  | valueRedefined (name : String)
  | blockRedefined (name : String)
  | funcRedefined (name : String)
  | undefinedValue (name : String)
  | undefinedBlock (name : String)
  | undefinedGlobal (name : String)
  | unknownType (found : Token)
  | expectedVector (found : Ty)
  | indexRange (index : Int) (of : Ty)
  | unknownInstr (word : String)
  | unsupportedInstr (op : Op)
  | invalidPredicate (word : String)
  | invalidOrdering (word : String)
  | noResult (op : Op)
  | unknownMetadata (found : Token)
  | noBlocks (func : String)
  | malformed (defect : String)
  deriving DecidableEq, Repr

namespace SourceError

def code : SourceError → ErrorCode
  | .nameExpected _ | .unexpectedByte _ => .unexpectedChar
  | .unterminatedString => .unterminatedString
  | .invalidNumber _ => .invalidNumber
  | .expected .. | .expectedWord .. | .expectedCallee _ | .outsideBlock => .expectedToken
  | .topLevel _ | .expectedValue _ | .noResult _ | .unknownMetadata _ => .unexpectedToken
  | .globalRedefined _ | .paramRedefined _ | .valueRedefined _ => .valueRedefined
  | .blockRedefined _ => .blockRedefined
  | .funcRedefined _ => .funcRedefined
  | .undefinedValue _ => .undefinedValue
  | .undefinedBlock _ => .undefinedBlock
  | .undefinedGlobal _ => .undefinedGlobal
  | .unknownType _ | .expectedVector _ | .indexRange .. => .unknownType
  | .unknownInstr _ | .unsupportedInstr _ => .unknownOpcode
  | .invalidPredicate _ => .invalidPredicate
  | .invalidOrdering _ => .invalidOrdering
  | .noBlocks _ | .malformed _ => .malformedGraph

def message : SourceError → String
  | .nameExpected sign => "expected name after " ++ Text.quoteByte sign
  | .unexpectedByte b => "unexpected character " ++ Text.quoteByte b
  | .unterminatedString => "unterminated string"
  | .invalidNumber lexeme => "invalid number " ++ Text.quoteBytes lexeme
  | .topLevel t => "unexpected " ++ t.text ++ " at top level"
  | .expected k t => "expected " ++ k.name ++ ", found " ++ t.text
  | .expectedWord w t => "expected " ++ Text.quote w ++ ", found " ++ t.text
  | .expectedCallee t => "expected callee, found " ++ t.text
  | .expectedValue t => "expected value, found " ++ t.text
  | .outsideBlock => "instruction outside of a block, expected a label"
  | .globalRedefined n => "global @" ++ n ++ " redefined"
  | .paramRedefined n => "parameter %" ++ n ++ " redefined"
  | .valueRedefined n => "value %" ++ n ++ " redefined"
  | .blockRedefined n => "block " ++ n ++ " redefined"
  | .funcRedefined n => "function @" ++ n ++ " redefined"
  | .undefinedValue n => "undefined value %" ++ n
  | .undefinedBlock n => "undefined block " ++ n
  | .undefinedGlobal n => "undefined global @" ++ n
  | .unknownType t => "unknown type " ++ t.text
  | .expectedVector t => "expected vector type, found " ++ t.text
  | .indexRange i t => "index " ++ toString i ++ " out of range for " ++ t.text
  | .unknownInstr w => "unknown instruction " ++ Text.quote w
  | .unsupportedInstr op => "unsupported instruction " ++ op.name
  | .invalidPredicate w => "invalid icmp predicate " ++ Text.quote w
  | .invalidOrdering w => "invalid atomic ordering " ++ Text.quote w
  | .noResult op => op.name ++ " does not produce a value"
  | .unknownMetadata t => "unknown metadata " ++ t.text
  | .noBlocks f => "function @" ++ f ++ " has no blocks"
  | .malformed d => d

end SourceError

/-- An error and the place it is reported at. -/
structure Located where
  error : SourceError
  line : Nat
  column : Nat
  deriving DecidableEq, Repr

def Located.diagnostic (file : String) (l : Located) : Diagnostic :=
  { code := l.error.code.id, message := l.error.message, file, line := l.line, column := l.column }

def SourceError.atToken (e : SourceError) (t : Token) : Located := ⟨e, t.line, t.column⟩

end RegPressure
