import LuaLens.Query.Context
import LuaLens.Index.Basic

/-!
Looking up a name: entries of the same last segment, those of the same qualified name first. Locals
count in their own file only.
-/

namespace LuaLens.Query

open Text

/-- An entry found for a name. -/
structure Match where
  entry : Entry
  /-- Whether the whole qualified name agrees, and not only its last segment. -/
  confirmed : Bool
deriving DecidableEq, Repr

/-- Whether a match may stand before another: confirmed ones come first. -/
def Match.precedes (m n : Match) : Bool := m.confirmed || !n.confirmed

/-- The name with dots for colons. -/
def dotted (name : List Char) : List Char := name.map fun c => if c == ':' then '.' else c

/-- The segment after the last separator. -/
def lastSegment (name : List Char) : List Char := takeEndWhile (!isSeparator ·) name

def isVisible (label : String) (e : Entry) : Bool := !e.api.isLocal || e.tag.file == label

/-- The entries for a name as seen from a file, confirmed ones first. -/
def lookup (entries : Corpus) (label : String) (name : List Char) : List Match :=
  let last := String.ofList (lastSegment name)
  let found := (entries.filter fun e => e.api.name == last && isVisible label e).map fun e =>
    { entry := e, confirmed := dotted e.api.qualifiedName.toList == dotted name : Match }
  found.mergeSort Match.precedes

/-- The confirmed matches if there are any, and all otherwise. -/
def bestMatches (ms : List Match) : List Match :=
  if ms.any (·.confirmed) then ms.filter (·.confirmed) else ms

/-- The documentation of the name at a place of a text. -/
def hover (entries : Corpus) (label text : String) (p : Position) : Option String := do
  let name ← symbolAt? text.toList p
  let found ← (lookup entries label name).head?
  pure found.entry.api.doc

end LuaLens.Query
