import RegPressure.Number.Word
import RegPressure.Text.Quoted

namespace RegPressure

inductive FlagValue
  | switch (on : Bool)
  | number (n : Int)
  | text (s : String)
  deriving DecidableEq, Repr, Inhabited

/-- An option with its value, which is the default until the option is given. -/
structure Flag where
  name : String
  value : FlagValue
  usage : String
  deriving DecidableEq, Repr, Inhabited

inductive FlagProblem
  | help
  | badSyntax (arg : String)
  | undefined (name : String)
  | needsArgument (name : String)
  | badSwitch (name value : String)
  | badNumber (name value : String) (tooLarge : Bool)
  deriving DecidableEq, Repr

/-- What is said about a problem; asking for help is none. -/
def FlagProblem.message : FlagProblem → Option String
  | .help => none
  | .badSyntax arg => some ("bad flag syntax: " ++ arg)
  | .undefined name => some ("flag provided but not defined: -" ++ name)
  | .needsArgument name => some ("flag needs an argument: -" ++ name)
  | .badSwitch name value =>
    some ("invalid boolean value " ++ Text.quote value ++ " for -" ++ name ++ ": parse error")
  | .badNumber name value tooLarge =>
    some ("invalid value " ++ Text.quote value ++ " for flag -" ++ name ++ ": " ++
      if tooLarge then "value out of range" else "parse error")

namespace Flag

def switch? (s : String) : Option Bool :=
  if ["1", "t", "T", "TRUE", "true", "True"].contains s then some true
  else if ["0", "f", "F", "FALSE", "false", "False"].contains s then some false
  else none

def digit? (base : Nat) (c : Char) : Option Nat :=
  let n :=
    if c.isDigit then c.toNat - 48
    else if 'a' ≤ c.toLower && c.toLower ≤ 'z' then c.toLower.toNat - 87
    else base
  if n < base then some n else none

def announced : List Char → Nat × List Char
  | '0' :: c :: d :: cs =>
    match c.toLower with
    | 'b' => (2, d :: cs)
    | 'o' => (8, d :: cs)
    | 'x' => (16, d :: cs)
    | _ => (8, c :: d :: cs)
  | '0' :: cs => (8, cs)
  | cs => (10, cs)

def underscoresFit (cs : List Char) : Bool :=
  let groups (cs : List Char) := (String.ofList cs).splitOn "_"
  match cs with
  | '0' :: c :: rest =>
    if ['b', 'o', 'x'].contains c.toLower then
      match groups rest with
      | _ :: more => more.all (· ≠ "")
      | [] => true
    else (groups cs).all (· ≠ "")
  | cs => (groups cs).all (· ≠ "")

def magnitude (base : Nat) : List Char → Nat → Option (Option Nat)
  | [], n => some (some n)
  | '_' :: cs, n => magnitude base cs n
  | c :: cs, n =>
    match digit? base c with
    | none => none
    | some d => if base * n + d < Word.count then magnitude base cs (base * n + d) else some none

def number? (s : String) : Option (Option Int) :=
  let (negative, cs) := match s.toList with
    | '-' :: cs => (true, cs)
    | '+' :: cs => (false, cs)
    | cs => (false, cs)
  let (base, digits) := announced cs
  if cs = [] then none
  else
    match magnitude base digits 0 with
    | none => none
    | some none => some none
    | some (some n) =>
      if cs.contains '_' && !underscoresFit cs then none
      else
        let value : Int := if negative then -n else n
        some ((Word.ofInt? value).map fun _ => value)

def read (name text : String) : FlagValue → Except FlagProblem FlagValue
  | .switch _ =>
    match switch? text with
    | some b => .ok (.switch b)
    | none => .error (.badSwitch name text)
  | .number _ =>
    match number? text with
    | some (some n) => .ok (.number n)
    | some none => .error (.badNumber name text true)
    | none => .error (.badNumber name text false)
  | .text _ => .ok (.text text)

def set (flags : List Flag) (name : String) (value : FlagValue) : List Flag :=
  flags.map fun f => if f.name = name then { f with value } else f

/-- An argument split into a name and the value behind an equals sign. -/
def split (arg : List Char) : String × Option String :=
  match arg with
  | [] => ("", none)
  | c :: cs =>
    let name := c :: cs.takeWhile (· ≠ '=')
    match cs.dropWhile (· ≠ '=') with
    | _ :: value => (String.ofList name, some (String.ofList value))
    | [] => (String.ofList name, none)

def body? (arg : String) : Option (List Char) :=
  match arg.toList with
  | '-' :: '-' :: c :: cs => some (c :: cs)
  | '-' :: '-' :: [] => none
  | '-' :: c :: cs => some (c :: cs)
  | _ => none

/-- Reads options up to the first argument that is none, or past two dashes. -/
def parse (flags : List Flag) : List String → Except FlagProblem (List Flag × List String)
  | [] => .ok (flags, [])
  | arg :: rest =>
    match body? arg with
    | none => .ok (flags, if arg = "--" then rest else arg :: rest)
    | some body =>
      if body.head? = some '-' || body.head? = some '=' then .error (.badSyntax arg)
      else
        let (name, value?) := split body
        match flags.find? (·.name = name), value? with
        | none, _ => .error (if name = "help" || name = "h" then .help else .undefined name)
        | some f, some value => do parse (set flags name (← read name value f.value)) rest
        | some f, none =>
          match f.value, rest with
          | .switch _, rest => parse (set flags name (.switch true)) rest
          | _, [] => .error (.needsArgument name)
          | v, value :: rest => do parse (set flags name (← read name value v)) rest

def isOn (flags : List Flag) (name : String) : Bool :=
  flags.any fun f => f.name = name && f.value = .switch true

def text (flags : List Flag) (name : String) : String :=
  (flags.findSome? fun f => if f.name = name then
    match f.value with
    | .text s => some s
    | _ => none
  else none).getD ""

def number (flags : List Flag) (name : String) : Int :=
  (flags.findSome? fun f => if f.name = name then
    match f.value with
    | .number n => some n
    | _ => none
  else none).getD 0

def describe : FlagValue → String × String
  | .switch b => ("", if b then " (default true)" else "")
  | .number n => (" int", if n = 0 then "" else " (default " ++ toString n ++ ")")
  | .text s => (" string", if s = "" then "" else " (default " ++ Text.quote s ++ ")")

def help (f : Flag) : String :=
  let (kind, default) := describe f.value
  let head := "  -" ++ f.name ++ kind
  head ++ (if head.utf8ByteSize ≤ 4 then "\t" else "\n    \t") ++ f.usage ++ default ++ "\n"

def helpAll (flags : List Flag) : String :=
  String.join ((flags.mergeSort fun a b => a.name ≤ b.name).map help)

end Flag

end RegPressure
