import LuaLens.Uri.Basic
import LuaLens.Uri.Host

/-!
Reading resource identifiers and bringing them to normal form: the scheme in lower case, dots in
paths followed, reserved characters escaped, usual ports left out.
-/

namespace LuaLens.Uri

open Text

/-! ### Schemes -/

/-- Schemes whose identifiers have a host, and their usual ports. -/
def usualPort? (scheme : String) : Option Nat :=
  match scheme with
  | "http" | "ws" => some 80
  | "https" | "wss" => some 443
  | "ftp" => some 21
  | _ => none

def isWebScheme (scheme : String) : Bool := (usualPort? scheme).isSome

/-- Schemes in which a backslash is a slash. -/
def isSpecial (scheme : String) : Bool := isWebScheme scheme || scheme == "file"

/-- The scheme and what follows its colon. -/
def scheme? (s : List Char) : Option (String × List Char) :=
  match splitOnce ':' s with
  | none => none
  | some (name, rest) =>
    let inScheme := fun c : Char => c.isAlphanum || c == '+' || c == '-' || c == '.'
    if name.head?.any Char.isAlpha && name.all inScheme then
      some (String.ofList (name.map Char.toLower), rest)
    else none

/-- Removes what does not count: control characters and blanks at both ends, line endings and tabs. -/
def clean (s : List Char) : List Char :=
  let isEdge := fun c : Char => c.toNat ≤ 32
  (dropEndWhile isEdge (s.dropWhile isEdge)).filter fun c => !(c == '\t' || c == '\n' || c == '\r')

/-! ### Paths -/

def isSlash (special : Bool) (c : Char) : Bool := c == '/' || (special && c == '\\')

def isPathEnd (c : Char) : Bool := c == '?' || c == '#'

/-- Escapes of a dot count as dots. -/
def undot : List Char → List Char
  | '%' :: '2' :: 'e' :: s => '.' :: undot s
  | '%' :: '2' :: 'E' :: s => '.' :: undot s
  | c :: s => c :: undot s
  | [] => []

/-- A letter and a colon or bar. -/
def isDrive : List Char → Bool
  | [c, d] => c.isAlpha && (d == ':' || d == '|')
  | _ => false

/-- A letter and a colon. -/
def isNormalDrive : List Char → Bool
  | [c, ':'] => c.isAlpha
  | _ => false

/-- Follows the segments of a path; `read` holds the ones so far, last first. In a file path a drive
is never left. -/
def followSegments (isFile : Bool) (read : List (List Char)) : List (List Char) → List (List Char)
  | [] => read.reverse
  | raw :: rest =>
    let segment := Percent.encode Percent.inPath raw
    let isLast := rest.isEmpty
    match undot segment with
    | ['.', '.'] =>
      let shorter := match read with
        | [only] => if isFile && isNormalDrive only then [only] else []
        | _ :: more => more
        | [] => []
      followSegments isFile (if isLast then [] :: shorter else shorter) rest
    | ['.'] => followSegments isFile (if isLast then [] :: read else read) rest
    | _ =>
      let segment := if isFile && read.isEmpty && isDrive segment then [segment.headD 'c', ':'] else segment
      followSegments isFile (segment :: read) rest

/-- The normal form of a path that starts with a slash, given without it. -/
def normalPath (special isFile : Bool) (s : List Char) : List Char :=
  let segments := followSegments isFile [] (s.splitOnP (isSlash special))
  let path := segments.flatMap ('/' :: ·)
  if isFile then '/' :: path.dropWhile (· == '/') else path

/-! ### The rest -/

/-- Query and fragment. -/
def tails (special : Bool) (s : List Char) : Option String × Option String :=
  let (beforeHash, fragment) := match splitOnce '#' s with
    | some (a, b) => (a, some (String.ofList (Percent.encode Percent.inFragment b)))
    | none => (s, none)
  let inQuery := fun c => [' ', '"', '#', '<', '>'].contains c || (special && c == '\'')
  let query := match beforeHash with
    | '?' :: q => some (String.ofList (Percent.encode inQuery q))
    | _ => none
  (query, fragment)

/-- Cuts a text at the first `?` or `#`. -/
def cutPath (s : List Char) : List Char × List Char := s.span (!isPathEnd ·)

/-- Reserved in the name and password of a user. -/
def inUser (c : Char) : Bool :=
  Percent.inPath c || ['/', ':', ';', '=', '@', '[', '\\', ']', '^', '|'].contains c

/-- The user before the last `@`, in normal form. -/
def userText (user : List Char) : List Char :=
  let (name, password) := match splitOnce ':' user with
    | some (n, p) => (n, p)
    | none => (user, [])
  let name := Percent.encode inUser name
  let password := Percent.encode inUser password
  if name.isEmpty && password.isEmpty then []
  else name ++ (if password.isEmpty then [] else ':' :: password) ++ ['@']

/-- The port after the host, if it is not the usual one. -/
def portText? (scheme : String) (s : List Char) : Option (List Char) :=
  if s.isEmpty then some []
  else if !s.all Char.isDigit then none
  else
    let n := s.foldl (fun n c => n * 10 + (c.toNat - 48)) 0
    if 65535 < n then none
    else if usualPort? scheme == some n then some []
    else some (':' :: (toString n).toList)

/-- The host and the port of an authority, cut at the colon that is not in brackets. -/
def cutPort (s : List Char) : List Char × List Char :=
  match s with
  | '[' :: _ =>
    match splitLast ']' s with
    | some (h, ':' :: p) => (h ++ [']'], p)
    | some (h, []) => (h ++ [']'], [])
    | _ => (s, [])
  | s => (splitOnce ':' s).getD (s, [])

/-- An authority in normal form. -/
def authority? (scheme : String) (s : List Char) : Option String := do
  let (user, rest) := match splitLast '@' s with
    | some (u, r) => (userText u, r)
    | none => ([], s)
  let (host, port) := cutPort rest
  let host ← if isSpecial scheme then Host.domain? host
    else if host.isEmpty && (!user.isEmpty || rest.head? == some ':') then none
    else Host.plainHost? host
  let port ← portText? scheme port
  pure (String.ofList (user ++ host ++ port))

/-- An identifier with `//`, given without it. An `@` needs something around it when a path follows. -/
def hierarchical? (scheme : String) (s : List Char) : Option Uri := do
  let special := isSpecial scheme
  let isEnd := fun c => isSlash special c || isPathEnd c
  let (before, after) := s.span (!isEnd ·)
  if before == ['@'] && !after.isEmpty then none
  let authority ← authority? scheme before
  let (path, rest) := cutPath after
  let path := match path with
    | [] => if special then ['/'] else []
    | _ :: p => normalPath special false p
  let (query, fragment) := tails special rest
  pure { scheme, authority := some authority, path := String.ofList path, query, fragment }

/-- An identifier of a file after `file:`. The local host is left out, and a drive is part of the
path. -/
def file? (s : List Char) : Option Uri := do
  let slash := isSlash true
  let (host, rest) ← match s with
    | a :: b :: t =>
      if slash a && slash b then
        let host := t.takeWhile fun c => !(slash c || isPathEnd c)
        if isDrive host then some ([], t)
        else if host.isEmpty then some ([], t)
        else (Host.domain? host).map fun h =>
          (if h == "localhost".toList then [] else h, t.drop host.length)
      else some ([], s)
    | _ => some ([], s)
  let (path, rest) := cutPath rest
  let path := match path with
    | c :: p => if slash c then p else c :: p
    | [] => []
  let drive := isDrive (path.takeWhile (!slash ·))
  let (query, fragment) := tails true rest
  pure { scheme := "file", authority := some (if drive then "" else String.ofList host)
         path := String.ofList (normalPath true true path), query, fragment }

/-- An identifier whose path is no hierarchy, or whose hierarchy has no host. -/
def plain (scheme : String) (s : List Char) : Uri :=
  let (path, rest) := cutPath s
  let path := match path with
    | '/' :: p => normalPath false false p
    | p => Percent.encode (fun _ => false) p
  let (query, fragment) := tails false rest
  { scheme, authority := none, path := String.ofList path, query, fragment }

/-- The identifier that a text stands for; it must name its scheme. -/
def parse? (text : String) : Option Uri := do
  let (scheme, rest) ← scheme? (clean text.toList)
  if scheme == "file" then file? rest
  else if isWebScheme scheme then hierarchical? scheme (rest.dropWhile (isSlash true))
  else
    match rest with
    | '/' :: '/' :: s => hierarchical? scheme s
    | s => pure (plain scheme s)

end LuaLens.Uri
