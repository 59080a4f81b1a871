import RegPressure.Text.Url

namespace RegPressure

inductive LogLevel
  | debug | info | warn | error | dpanic | panic | fatal
  deriving DecidableEq, Repr, Inhabited

namespace LogLevel

def all : List LogLevel := [.debug, .info, .warn, .error, .dpanic, .panic, .fatal]

def name : LogLevel → String
  | .debug => "debug"
  | .info => "info"
  | .warn => "warn"
  | .error => "error"
  | .dpanic => "dpanic"
  | .panic => "panic"
  | .fatal => "fatal"

def rank (l : LogLevel) : Nat := all.idxOf l

def ofName? (s : String) : Option LogLevel := all.find? (·.name = Text.lower s)

def isEnabled (least : Option LogLevel) (l : LogLevel) : Bool := least.any (·.rank ≤ l.rank)

def wantsDebug (env : String) : Bool := ["1", "true", "on"].contains (Text.lower env)

def choose (setting : String) (debug : Bool) : Except String (Option LogLevel) :=
  if debug then .ok (some .debug)
  else if setting = "" then .ok none
  else
    match ofName? setting with
    | some l => .ok (some l)
    | none =>
      .error ("invalid log level " ++ Text.quote setting ++ ": unrecognized level: " ++
        Text.quote setting)

end LogLevel

inductive LogTarget
  /-- One of the output streams. -/
  | stream
  | file (path : String)
  deriving DecidableEq, Repr, Inhabited

namespace LogTarget

def scheme : String := "file"

/-- Why a URL names no file here: it may have a path and nothing else. -/
def problem? (u : Url) : Option String :=
  let (host, port) := u.hostAndPort
  let got (problem : String) : Option String := some (problem ++ ": got " ++ u.text)
  if u.user.isSome then got "user and password not allowed with file URLs"
  else if u.fragment ≠ [] then got "fragments not allowed with file URLs"
  else if u.query.any (· ≠ []) then got "query parameters not allowed with file URLs"
  else if port ≠ [] then got "ports not allowed with file URLs"
  else if host ≠ [] && host.toText ≠ "localhost" then
    got "file URLs must leave host empty or use localhost"
  else none

/-- The target of a name, which is read as a URL. -/
def ofName (name : String) : Except String LogTarget :=
  match Url.read name with
  | .error e => .error ("can't parse " ++ Text.quote name ++ " as a URL: " ++ e.message)
  | .ok u =>
    let u := if u.scheme = "" then { u with scheme } else u
    if u.scheme ≠ scheme then .error ("no sink found for scheme " ++ Text.quote u.scheme)
    else
      match problem? u with
      | some problem => .error problem
      | none =>
        let path := u.path.toText
        .ok (if path = "stdout" || path = "stderr" then .stream else .file path)

end LogTarget

end RegPressure
