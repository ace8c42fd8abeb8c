import LuaLens.Query.Definition
import LuaLens.Symbol.Extract
import LuaLens.Text.Lowercase

/-!
Lists of symbols, of a document and of the project, and the ranges that a selection grows through.
-/

namespace LuaLens.Query

open Text

/-- The number of a kind of symbol in the protocol. -/
def symbolNumber : Symbol.Kind → Nat
  | .module => 2
  | .function | .localFunction => 12
  | .table => 5
  | .localTable => 13
  | .field => 8

/-- A symbol and where it is. -/
structure SymbolPlace where
  name : String
  kind : Symbol.Kind
  owner : String
  location : Location
deriving DecidableEq, Repr

/-- The range of a symbol on the line it was found on, else where its locator first stands. -/
def symbolRange (text : List Char) (s : Symbol) : Range :=
  let locator := s.locator.toList
  let onOwnLine := if locator.isEmpty then none else cut locator (lineAt text s.line)
  match onOwnLine with
  | some (before, _) =>
    let start := unitsOfBytes (lineAt text s.line) (byteLength before)
    Range.onLine s.line start (start + unitLength locator)
  | none => (findLocator? text locator).getD default

/-- The declarations of a document. -/
def documentSymbols (uri : Uri) (text module : String) : List SymbolPlace :=
  (extractSymbols text module).map fun s =>
    { name := s.name, kind := s.kind, owner := s.owner
      location := { uri, range := symbolRange text.toList s } }

/-- The declarations of the project whose names contain a text in any case. -/
def workspaceSymbols (x : Index) (docs : Documents) (fs : FileSystem) (query : String) :
    List SymbolPlace :=
  let wanted := lowercase query.toList
  x.projectEntries.filterMap fun e =>
    if contains wanted (lowercase e.tag.name.toList) then
      (locate? x docs fs e.tag).map fun location =>
        { name := e.tag.name, kind := e.tag.kind, owner := e.tag.owner, location }
    else none

/-- The columns of the word that a column touches. -/
def wordColumns? (line : List Char) (character : Nat) : Option (Nat × Nat) :=
  let before := beforeByte line (bytesOfUnits line character)
  let right := (line.drop before.length).takeWhile isNamePart
  let start := byteLength (dropEndWhile isNamePart before)
  let stop := byteLength before + byteLength right
  if start < stop then some (unitsOfBytes line start, unitsOfBytes line stop) else none

/-- The word, the line and the document around a place, innermost first. -/
def selectionChain (text : List Char) (p : Position) : List Range :=
  let all := lines text
  let document : Range := ⟨⟨0, 0⟩, ⟨all.length - 1, unitLength (all.getLastD [])⟩⟩
  match all[p.line]? with
  | none => [document]
  | some line =>
    let whole := (0, unitLength line)
    let outer := [Range.onLine p.line whole.1 whole.2, document]
    match wordColumns? line p.character with
    | some word => if word == whole then outer else Range.onLine p.line word.1 word.2 :: outer
    | none => outer

end LuaLens.Query
