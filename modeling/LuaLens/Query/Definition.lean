import LuaLens.Query.Documents
import LuaLens.Query.Lookup
import LuaLens.Uri.Basic

/-!
Going to definitions: the line of a declaration is looked for in the present text of its file.
-/

namespace LuaLens.Query

open Text

/-- A range of a resource. -/
structure Location where
  uri : Uri
  range : Range
deriving DecidableEq, Repr

/-- The first place of a locator in a text. -/
def findLocator? (text locator : List Char) : Option Range :=
  if locator.isEmpty then none
  else
    (cut locator text).map fun (before, _) =>
      let lead := takeEndWhile (· != '\n') before
      let start := unitsOfBytes (text.drop (before.length - lead.length)) (byteLength lead)
      Range.onLine (before.count '\n') start (start + unitLength locator)

/-- The present place of a declaration. -/
def locate? (x : Index) (docs : Documents) (fs : FileSystem) (tag : Tag) : Option Location := do
  let path := x.resolve tag.file
  let text ← docs.source? fs path
  let range ← findLocator? text.toList tag.locator.toList
  let uri ← Uri.ofPath? path
  pure { uri, range }

/-- Keeps the first of equal locations. -/
def distinct : List Location → List Location → List Location
  | _, [] => []
  | seen, l :: rest => if seen.contains l then distinct seen rest else l :: distinct (l :: seen) rest

/-- Where the name at a place of a text is declared. -/
def definition (x : Index) (docs : Documents) (fs : FileSystem) (label text : String) (p : Position) :
    List Location :=
  match symbolAt? text.toList p with
  | none => []
  | some name =>
    distinct [] ((bestMatches (lookup x.entries label name)).filterMap fun m =>
      locate? x docs fs m.entry.tag)

end LuaLens.Query
