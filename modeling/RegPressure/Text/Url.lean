import RegPressure.Text.Quoted

namespace RegPressure

inductive UrlPart
  | user | host | path | fragment
  deriving DecidableEq, Repr, Inhabited

inductive UrlProblem
  | controlCharacter
  | missingScheme
  | colonInFirstSegment
  | badUser
  | openBracket
  | badPort (text : Bytes)
  | badHostOctet (b : UInt8)
  | badEscape (text : Bytes)
  deriving DecidableEq, Repr

def UrlProblem.message : UrlProblem → String
  | .controlCharacter => "net/url: invalid control character in URL"
  | .missingScheme => "missing protocol scheme"
  | .colonInFirstSegment => "first path segment in URL cannot contain colon"
  | .badUser => "net/url: invalid userinfo"
  | .openBracket => "missing ']' in host"
  | .badPort text => "invalid port " ++ Text.quoteBytes text ++ " after host"
  | .badHostOctet b => "invalid character " ++ Text.quoteBytes [b] ++ " in host name"
  | .badEscape text => "invalid URL escape " ++ Text.quoteBytes text

namespace UrlPart

def isOneOf (s : String) (b : UInt8) : Bool := b < 128 && s.toList.contains (Char.ofNat b.toNat)

def isAlphanum (b : UInt8) : Bool := b < 128 && (Char.ofNat b.toNat).isAlphanum

def marks : UrlPart → String
  | .user => "-_.~$&+,;="
  | .host => "-_.~!$&'()*+,;=:[]<>\""
  | .path => "-_.~$&+,/:;=@"
  | .fragment => "-_.~$&+,/:;=?@!()*"

def isPlain (p : UrlPart) (b : UInt8) : Bool := isAlphanum b || isOneOf p.marks b

def escapeOctet (p : UrlPart) (b : UInt8) : String :=
  if p.isPlain b then String.singleton (Char.ofNat b.toNat)
  else "%" ++ (Text.hex 2 b.toNat).toUpper

def escape (p : UrlPart) (bs : Bytes) : String := String.join (bs.map p.escapeOctet)

def isWritten (p : UrlPart) (bs : Bytes) : Bool :=
  bs.all fun b => p.isPlain b || isOneOf "!$&'()*+,;=:@[]%" b

def hexValue? (b : UInt8) : Option UInt8 :=
  if 48 ≤ b && b ≤ 57 then some (b - 48)
  else if 97 ≤ b && b ≤ 102 then some (b - 87)
  else if 65 ≤ b && b ≤ 70 then some (b - 55)
  else none

def unescape (p : UrlPart) : Bytes → Except UrlProblem Bytes
  | [] => .ok []
  | 37 :: x :: y :: rest =>
    match hexValue? x, hexValue? y with
    | some high, some low =>
      let b := 16 * high + low
      if p = .host && b < 128 && b ≠ 37 then .error (.badEscape [37, x, y])
      else (b :: ·) <$> unescape p rest
    | _, _ => .error (.badEscape [37, x, y])
  | b :: rest =>
    if b = 37 then .error (.badEscape (b :: rest))
    else if p = .host && b < 128 && !p.isPlain b then .error (.badHostOctet b)
    else (b :: ·) <$> unescape p rest

def written (p : UrlPart) (raw octets : Bytes) : String :=
  if p.isWritten raw then raw.toText else p.escape octets

end UrlPart

/-- A URL taken apart. The path and the fragment are kept as they were written, too. -/
structure Url where
  scheme : String := ""
  /-- What follows the scheme if that is no path from the root. -/
  rootless : Bytes := []
  /-- A name, and perhaps a password. -/
  user : Option (Bytes × Option Bytes) := none
  host : Bytes := []
  /-- No host was given, not even an empty one. -/
  omitHost : Bool := false
  path : Bytes := []
  rawPath : Bytes := []
  query : Option Bytes := none
  fragment : Bytes := []
  rawFragment : Bytes := []
  deriving DecidableEq, Repr, Inhabited

structure UrlError where
  text : Bytes
  problem : UrlProblem
  deriving DecidableEq, Repr

def UrlError.message (e : UrlError) : String :=
  "parse " ++ Text.quoteBytes e.text ++ ": " ++ e.problem.message

namespace Url

def octet (c : Char) : UInt8 := c.toNat.toUInt8

def cut (b : UInt8) (bs : Bytes) : Bytes × Option Bytes :=
  match bs.dropWhile (· ≠ b) with
  | _ :: rest => (bs.takeWhile (· ≠ b), some rest)
  | [] => (bs, none)

def cutLast (b : UInt8) (bs : Bytes) : Option Bytes × Bytes :=
  match cut b bs.reverse with
  | (after, some before) => (some before.reverse, after.reverse)
  | (_, none) => (none, bs)

def takeScheme (bs : Bytes) : Except UrlProblem (String × Bytes) :=
  let name := bs.takeWhile fun b => UrlPart.isAlphanum b || UrlPart.isOneOf "+-." b
  match name, bs.drop name.length with
  | [], 58 :: _ => .error .missingScheme
  | b :: _, 58 :: rest =>
    if (Char.ofNat b.toNat).isAlpha then .ok (Text.lower (Bytes.toText name), rest)
    else .ok ("", bs)
  | _, _ => .ok ("", bs)

def isPort : Bytes → Bool
  | [] => true
  | b :: rest => b = octet ':' && rest.all fun b => 48 ≤ b && b ≤ 57

def portText (host : Bytes) : Bytes :=
  match cutLast (octet ':') host with
  | (some _, port) => octet ':' :: port
  | (none, _) => []

def readHost (bs : Bytes) : Except UrlProblem Bytes := do
  let port ←
    if bs.contains (octet '[') then
      match cutLast (octet ']') bs with
      | (some _, port) => pure port
      | (none, _) => throw .openBracket
    else pure (portText bs)
  if isPort port then UrlPart.unescape .host bs else throw (.badPort port)

def isUserOctet (b : UInt8) : Bool := UrlPart.isAlphanum b || UrlPart.isOneOf "-._:~!$&'()*+,;=%@" b

def readUser (bs : Bytes) : Except UrlProblem (Bytes × Option Bytes) := do
  if !bs.all isUserOctet then throw .badUser
  let (name, password) := cut (octet ':') bs
  let name ← UrlPart.unescape .user name
  match password with
  | some p => return (name, some (← UrlPart.unescape .user p))
  | none => return (name, none)

def readAuthority (u : Url) (bs : Bytes) : Except UrlProblem Url := do
  let (user, host) := cutLast (octet '@') bs
  let host ← readHost host
  match user with
  | some user => return { u with user := some (← readUser user), host }
  | none => return { u with host }

def readPath (u : Url) (raw : Bytes) : Except UrlProblem Url := do
  return { u with path := ← UrlPart.unescape .path raw, rawPath := raw }

def readBody (bs : Bytes) : Except UrlProblem Url := do
  if bs.any fun b => b < 32 || b = 127 then throw .controlCharacter
  let (scheme, rest) ← takeScheme bs
  let (rest, query) := cut (octet '?') rest
  let u : Url := { scheme, query }
  match rest with
  | 47 :: 47 :: more =>
    if scheme = "" && more.head? = some (octet '/') then u.readPath rest
    else
      let host := more.takeWhile (· ≠ octet '/')
      (← u.readAuthority host).readPath (more.drop host.length)
  | 47 :: _ => readPath { u with omitHost := scheme ≠ "" } rest
  | _ =>
    if scheme ≠ "" then return { u with rootless := rest }
    if (rest.takeWhile (· ≠ octet '/')).contains (octet ':') then throw .colonInFirstSegment
    u.readPath rest

def read (text : String) : Except UrlError Url :=
  let bs := Bytes.ofString text
  let (body, fragment) := cut (octet '#') bs
  match readBody body with
  | .error e => .error ⟨body, e⟩
  | .ok u =>
    let raw := fragment.getD []
    match UrlPart.unescape .fragment raw with
    | .error e => .error ⟨bs, e⟩
    | .ok octets => .ok { u with fragment := octets, rawFragment := raw }

def hostAndPort (u : Url) : Bytes × Bytes :=
  let port := portText u.host
  if isPort port then (u.host.take (u.host.length - port.length), port.drop 1) else (u.host, [])

def userText (u : Url) : String :=
  match u.user with
  | none => ""
  | some (name, none) => UrlPart.escape .user name ++ "@"
  | some (name, some password) =>
    UrlPart.escape .user name ++ ":" ++ UrlPart.escape .user password ++ "@"

def bodyText (u : Url) : String :=
  if u.rootless ≠ [] then u.rootless.toText
  else
    let isNowhere := u.host = [] && u.user = none
    let start := if u.omitHost || isNowhere && u.path = [] then "" else "//"
    let path := UrlPart.written .path u.rawPath u.path
    let gap := if u.host ≠ [] && path ≠ "" && !path.startsWith "/" then "/" else ""
    start ++ u.userText ++ UrlPart.escape .host u.host ++ gap ++ path

/-- The text of a URL that has a scheme. -/
def text (u : Url) : String :=
  u.scheme ++ ":" ++ u.bodyText ++ (u.query.map fun q => "?" ++ q.toText).getD "" ++
    if u.fragment = [] then "" else "#" ++ UrlPart.written .fragment u.rawFragment u.fragment

end Url

end RegPressure
