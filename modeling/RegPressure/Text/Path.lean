import RegPressure.Text.Url

namespace RegPressure.Path

def isAbsolute (p : String) : Bool := p.startsWith "/"

def cleanParts (rooted : Bool) : (parts : List String) → (done : List String) → List String
  | [], done => done.reverse
  | p :: rest, done =>
    if p = "" || p = "." then cleanParts rooted rest done
    else if p = ".." then
      match done with
      | d :: ds =>
        if d = ".." then cleanParts rooted rest (p :: done) else cleanParts rooted rest ds
      | [] => cleanParts rooted rest (if rooted then [] else [p])
    else cleanParts rooted rest (p :: done)

/-- The shortest path that means the same. -/
def clean (p : String) : String :=
  let rooted := isAbsolute p
  let body := "/".intercalate (cleanParts rooted (p.splitOn "/") [])
  if rooted then "/" ++ body else if body = "" then "." else body

/-- Joins two paths; an empty one adds nothing. -/
def join (a b : String) : String :=
  if a = "" && b = "" then "" else if a = "" then clean b else if b = "" then clean a
  else clean (a ++ "/" ++ b)

def absolute (cwd p : String) : String := if isAbsolute p then clean p else join cwd p

def dir (p : String) : String :=
  clean (String.ofList (p.toList.reverse.dropWhile (· ≠ '/')).reverse)

/-- The last component; a dot for the empty path and a slash for the root. -/
def base (p : String) : String :=
  let cs := p.toList.reverse.dropWhile (· = '/')
  if p = "" then "." else if cs = [] then "/" else String.ofList (cs.takeWhile (· ≠ '/')).reverse

def fileUri (p : String) : String := "file://" ++ UrlPart.escape .path (Bytes.ofString p)

end RegPressure.Path
