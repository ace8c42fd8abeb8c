import LuaLens.Corpus.Escape
import LuaLens.Symbol.Basic
import LuaLens.FileSystem

/-!
The corpus: for each symbol a tag, which says where it is declared, and an API entry, which documents
it. The two are kept in files of one line per entry, paired by line number.
-/

namespace LuaLens

/-! ### Labels -/

namespace Label

/-- Stands for the scanned root. -/
def rootMark : String := "$ROOT"

/-- Stands for the directory of the built-in declarations. -/
def builtinMark : String := "$STDLIB"

/-- The label of a file: relative to the root when it lies below it. -/
def ofPath (root p : Path) : String :=
  match Path.relativeTo? root p with
  | some rest =>
    rootMark ++ "/" ++ String.ofList (rest.text.toList.map fun c => if c == '\\' then '/' else c)
  | none => p.text

/-- The file that a label stands for. -/
def resolve (root builtins : Path) (label : String) : Path :=
  match rootMark.toList.isPrefixOf? label.toList with
  | some rest => root.join (String.ofList (rest.dropWhile (· == '/')))
  | none =>
    match builtinMark.toList.isPrefixOf? label.toList with
    | some rest => builtins.join (String.ofList (rest.dropWhile (· == '/')))
    | none => ⟨label⟩

end Label

/-! ### Tags -/

/-- Where a symbol is declared. -/
structure Tag where
  name : String
  /-- The label of the file. -/
  file : String
  locator : String
  kind : Symbol.Kind
  owner : String
deriving DecidableEq, Repr

namespace Tag

/-- What ends the locator of a tag line. -/
def locatorEnd : List Char := "$/;\"".toList

/-- The line of a tag: name, file, locator and kind between tabs, then the owner if there is one. -/
def line (t : Tag) : List Char :=
  t.name.toList ++ '\t' :: Escape.file t.file.toList ++ "\t/^".toList ++
    Escape.locator t.locator.toList ++ locatorEnd ++ ['\t', t.kind.code] ++
    (if t.owner.isEmpty then [] else "\tclass:".toList ++ t.owner.toList)

/-- The text before and after the last occurrence of `pattern`. -/
def cutLast (pattern s : List Char) : Option (List Char × List Char) :=
  (Text.cut pattern.reverse s.reverse).map fun (after, before) => (before.reverse, after.reverse)

def parseLine? (line : List Char) : Option Tag := do
  let (name, rest) ← Text.splitOnce '\t' line
  let (file, rest) ← Text.splitOnce '\t' rest
  let rest ← "/^".toList.isPrefixOf? rest
  let (locator, rest) ← cutLast locatorEnd rest
  let fields := Text.splitAll '\t' (rest.dropWhile (· == '\t'))
  let kind ← fields.head?.bind (·.head?) |>.bind Symbol.Kind.ofCode?
  let owner := (fields.tail.findSome? fun f => "class:".toList.isPrefixOf? f).getD []
  pure {
    name := String.ofList name
    file := String.ofList (Escape.undo file)
    locator := String.ofList (Escape.undo locator)
    kind
    owner := String.ofList owner }

end Tag

/-! ### API entries -/

/-- The documentation of a symbol. -/
structure Api where
  name : String
  doc : String
deriving DecidableEq, Repr

namespace Api

def line (a : Api) : List Char := a.name.toList ++ ' ' :: Escape.doc a.doc.toList

def parseLine? (line : List Char) : Option Api :=
  (Text.splitOnce ' ' line).map fun (name, doc) =>
    { name := String.ofList name, doc := String.ofList (Escape.undoDoc doc) }

def header (a : Api) : String := Text.firstLine a.doc

def localMark : List Char := "local ".toList

/-- The name in the header, without parameters. -/
def qualifiedName (a : Api) : String :=
  let header := a.header.toList
  let header := (localMark.isPrefixOf? header).getD header
  String.ofList (Text.trim (header.takeWhile (· != '(')))

def isLocal (a : Api) : Bool := localMark.isPrefixOf a.header.toList

end Api

/-! ### Corpora -/

/-- A tag and its documentation. -/
structure Entry where
  tag : Tag
  api : Api
deriving DecidableEq, Repr

/-- The entry of a symbol declared in the file of the given label. -/
def Entry.ofSymbol (file : String) (s : Symbol) : Entry where
  tag := { name := s.name, file, locator := s.locator, kind := s.kind, owner := s.owner }
  api := { name := s.name, doc := s.doc }

abbrev Corpus := List Entry

/-- Why an operation on the index fails. -/
inductive IndexError
  | io (path : Path) (fault : FileSystem.Fault)
  | config (path : Path)
  | ignore
  | corpus (tags : Path) (tagLines : Nat) (api : Path) (apiLines : Nat)
  | noRoot
deriving DecidableEq, Repr

def IndexError.message : IndexError → String
  | .io path fault => "Failed to access " ++ path.text ++ ": " ++ fault.message
  | .config path => "Invalid project config " ++ path.text
  | .ignore => "Invalid ignore pattern"
  | .corpus tags tagLines api apiLines =>
    "Corrupt corpus: " ++ tags.text ++ " has " ++ toString tagLines ++ " lines but " ++ api.text ++
      " has " ++ toString apiLines
  | .noRoot => "No project root has been scanned"

namespace Corpus

def ofSymbols (file : String) (symbols : List Symbol) : Corpus := symbols.map (Entry.ofSymbol file)

/-- Lines, each with a line feed. -/
def unlines (lines : List (List Char)) : String := String.ofList (lines.flatMap (· ++ ['\n']))

def tagText (c : Corpus) : String := unlines (c.map (·.tag.line))

def apiText (c : Corpus) : String := unlines (c.map (·.api.line))

/-- The entries of two texts with as many lines; a pair that cannot be read is left out. -/
def ofLines (tags api : List (List Char)) : Corpus :=
  (tags.zip api).filterMap fun (t, a) =>
    match Tag.parseLine? t, Api.parseLine? a with
    | some tag, some api => some { tag, api }
    | _, _ => none

/-- Writes the two files. -/
def write (c : Corpus) (fs : FileSystem) (tags api : Path) : Except IndexError FileSystem := do
  let fs ← (fs.writeText tags c.tagText).mapError (IndexError.io tags)
  (fs.writeText api c.apiText).mapError (IndexError.io api)

/-- Reads the two files back. -/
def load (fs : FileSystem) (tags api : Path) : Except IndexError Corpus := do
  let tagText ← (fs.readText tags).mapError (IndexError.io tags)
  let apiText ← (fs.readText api).mapError (IndexError.io api)
  let tagLines := Text.lines tagText.toList
  let apiLines := Text.lines apiText.toList
  if tagLines.length == apiLines.length then pure (ofLines tagLines apiLines)
  else throw (.corpus tags tagLines.length api apiLines.length)

/-- The two files of a corpus kept under a stem. -/
def tagsPath (dir : Path) (stem : String) : Path := dir.join (stem ++ ".tags")

def apiPath (dir : Path) (stem : String) : Path := dir.join (stem ++ ".api")

end Corpus

end LuaLens
