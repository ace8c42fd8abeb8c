import LuaLens.Uri.Percent
import LuaLens.FileSystem

/-!
Resource identifiers in their normal form, and the file paths they stand for.
-/

namespace LuaLens

/-- A resource identifier in its normal form, by its parts. -/
structure Uri where
  scheme : String
  /-- User, host and port; without it the identifier has no `//`. -/
  authority : Option String
  path : String
  query : Option String := none
  fragment : Option String := none
deriving DecidableEq, Repr, Inhabited

namespace Uri

/-- A path that would read as an authority is kept apart by a dot. -/
def text (u : Uri) : String :=
  u.scheme ++ ":" ++
    (match u.authority with
      | some a => "//" ++ a
      | none => if "//".toList.isPrefixOf u.path.toList then "/." else "") ++
    u.path ++ (u.query.elim "" ("?" ++ ·)) ++ (u.fragment.elim "" ("#" ++ ·))

/-- The identifier of an absolute file path. -/
def ofPath? (p : Path) : Option Uri :=
  if p.isAbsolute then
    let names := p.components.filterMap fun c =>
      match c with
      | .named name => some name.toList
      | .up => some ['.', '.']
      | _ => none
    let path := if names.isEmpty then ['/']
      else names.flatMap fun n => '/' :: Percent.encode Percent.inSegment n
    some { scheme := "file", authority := some "", path := String.ofList path }
  else none

/-- A letter and a colon at the end of a path, which gets a slash. -/
def endsInDrive (p : List Char) : Bool :=
  match p.reverse with
  | c :: d :: _ :: _ => (c == ':' || c == '|') && d.isAlpha
  | _ => false

/-- The file path of an identifier; only files of this machine have one. Paths are texts, and so there
is none for escapes that spell no text. -/
def toPath? (u : Uri) : Option Path :=
  if u.scheme == "file" && u.authority == some "" then
    (String.fromUTF8? ⟨(Percent.decode u.path.toList).toArray⟩).map fun path =>
      ⟨if endsInDrive path.toList then path ++ "/" else path⟩
  else none

end Uri

end LuaLens
