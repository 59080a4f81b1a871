namespace RegPressure

inductive ErrorCode
  | syntaxError | unexpectedChar | unterminatedString | invalidNumber | expectedToken
  | unexpectedToken
  | undefinedValue | valueRedefined | undefinedBlock | blockRedefined | undefinedGlobal
  | funcRedefined
  | unknownType | unknownOpcode | operandCount | invalidPredicate | invalidOrdering
  | malformedGraph | unsupported
  deriving DecidableEq, Repr, Inhabited

namespace ErrorCode

def all : List ErrorCode :=
  [.syntaxError, .unexpectedChar, .unterminatedString, .invalidNumber, .expectedToken,
   .unexpectedToken, .undefinedValue, .valueRedefined, .undefinedBlock, .blockRedefined,
   .undefinedGlobal, .funcRedefined, .unknownType, .unknownOpcode, .operandCount,
   .invalidPredicate, .invalidOrdering, .malformedGraph, .unsupported]

def id : ErrorCode → String
  | .syntaxError => "E0001"
  | .unexpectedChar => "E0002"
  | .unterminatedString => "E0003"
  | .invalidNumber => "E0005"
  | .expectedToken => "E0006"
  | .unexpectedToken => "E0007"
  | .undefinedValue => "E0100"
  | .valueRedefined => "E0101"
  | .undefinedBlock => "E0102"
  | .blockRedefined => "E0103"
  | .undefinedGlobal => "E0104"
  | .funcRedefined => "E0105"
  | .unknownType => "E0200"
  | .unknownOpcode => "E0201"
  | .operandCount => "E0202"
  | .invalidPredicate => "E0203"
  | .invalidOrdering => "E0204"
  | .malformedGraph => "E0300"
  | .unsupported => "E0301"

def ofId? (s : String) : Option ErrorCode := all.find? (·.id = s)

def messageKey : ErrorCode → String
  | .syntaxError => "error.syntax"
  | .unexpectedChar => "lexer.unexpected_char"
  | .unterminatedString => "lexer.unterminated_string"
  | .invalidNumber => "lexer.invalid_number"
  | .expectedToken => "parser.expected_token"
  | .unexpectedToken => "parser.unexpected_token"
  | .undefinedValue => "parser.undefined_value"
  | .valueRedefined => "parser.value_redefined"
  | .undefinedBlock => "parser.undefined_block"
  | .blockRedefined => "parser.block_redefined"
  | .undefinedGlobal => "parser.undefined_global"
  | .funcRedefined => "parser.func_redefined"
  | .unknownType => "parser.unknown_type"
  | .unknownOpcode => "parser.unknown_opcode"
  | .operandCount => "parser.operand_count"
  | .invalidPredicate => "parser.invalid_predicate"
  | .invalidOrdering => "parser.invalid_ordering"
  | .malformedGraph => "verify.malformed_cfg"
  | .unsupported => "frontend.unsupported"

def category : ErrorCode → String
  | .syntaxError | .unexpectedChar | .unterminatedString | .invalidNumber | .expectedToken
  | .unexpectedToken => "syntax"
  | .undefinedValue | .valueRedefined | .undefinedBlock | .blockRedefined | .undefinedGlobal
  | .funcRedefined => "name"
  | .unknownType | .unknownOpcode | .operandCount | .invalidPredicate | .invalidOrdering => "instr"
  | .malformedGraph | .unsupported => "structure"

def hints : ErrorCode → List String
  | .undefinedValue => ["values must be defined before use, except phi operands"]
  | .undefinedBlock => ["every branch target needs a matching `label:` line"]
  | .unknownOpcode => ["run `minreg help` for the list of supported instructions"]
  | .malformedGraph =>
    ["run the input through `minreg verify` to list every structural problem"]
  | _ => []

end ErrorCode

def hintsFor (code : String) : List String := ((ErrorCode.ofId? code).map (·.hints)).getD []

/-! ### Diagnostics -/

inductive Severity
  | error
  | warning
  | note
  | help
  | unknown
  deriving DecidableEq, Repr, Inhabited

namespace Severity

def ofNumber : Int → Severity
  | 0 => .error
  | 1 => .warning
  | 2 => .note
  | 3 => .help
  | _ => .unknown

def name : Severity → String
  | .error => "error"
  | .warning => "warning"
  | .note => "note"
  | .help => "help"
  | .unknown => "unknown"

end Severity

structure Label where
  line : Int := 0
  column : Int := 0
  length : Int := 0
  message : String := ""
  primary : Bool := false
  deriving DecidableEq, Repr, Inhabited

structure Diagnostic where
  code : String
  severity : Severity := .error
  message : String
  file : String
  line : Int
  column : Int
  endColumn : Int := 0
  labels : List Label := []
  hints : List String := []
  notes : List String := []
  deriving DecidableEq, Repr, Inhabited

/-- The one-line form. -/
def Diagnostic.text (d : Diagnostic) : String :=
  d.file ++ ":" ++ toString d.line ++ ":" ++ toString d.column ++ ": " ++ d.message

/-- Something that went wrong: a diagnostic, or plain text. -/
inductive Failure
  | diagnostic (d : Diagnostic)
  | plain (text : String)
  deriving DecidableEq, Repr, Inhabited

def Failure.text : Failure → String
  | .diagnostic d => d.text
  | .plain text => text

end RegPressure
