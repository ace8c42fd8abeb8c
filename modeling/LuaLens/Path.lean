import LuaLens.Text.Basic

/-!
Paths of files, as text cut at slashes. Empty pieces and single dots between slashes do not count,
so that two spellings of a path have the same components; joining and taking parents keep the
spelling of what they leave.
-/

namespace LuaLens

/-- A path as it is written. -/
structure Path where
  text : String
deriving DecidableEq, Inhabited, Repr

namespace Path

/-- A step of a path. -/
inductive Component
  | root
  | here
  | up
  | named (name : String)
deriving DecidableEq, Repr

def isAbsolute (p : Path) : Bool := p.text.toList.head? == some '/'

/-- The pieces between slashes, without the one in front of a leading slash. -/
def pieces (p : Path) : List (List Char) :=
  match p.text.toList with
  | '/' :: s => Text.splitAll '/' s
  | s => Text.splitAll '/' s

/-- Whether a piece between slashes says nothing. -/
def isIdle (piece : List Char) : Bool := piece.isEmpty || piece == ['.']

/-- The pieces with a leading dot of a relative path, which counts, apart. -/
def body (p : Path) : Bool × List (List Char) :=
  match p.isAbsolute, p.pieces with
  | false, ['.'] :: rest => (true, rest)
  | _, all => (false, all)

def component (piece : List Char) : Component :=
  if piece == ['.', '.'] then .up else .named (String.ofList piece)

/-- The components of a path. -/
def components (p : Path) : List Component :=
  let (dotted, all) := p.body
  (if p.isAbsolute then [.root] else []) ++ (if dotted then [.here] else []) ++
    (all.filter (!isIdle ·)).map component

/-- The text of pieces that follow the given lead. -/
def assemble (lead : String) (all : List (List Char)) : Path :=
  ⟨lead ++ String.ofList (Text.join ['/'] all)⟩

def dropIdleEnd (all : List (List Char)) : List (List Char) := (all.reverse.dropWhile isIdle).reverse

/-- The name at the end of a path. -/
def fileName? (p : Path) : Option String :=
  match p.components.getLast? with
  | some (.named name) => some name
  | _ => none

/-- A file name cut at its last dot; a dot at the front is part of the stem. -/
def splitName (name : String) : String × Option String :=
  match Text.splitLast '.' name.toList with
  | some (before, after) =>
    if before.isEmpty then (name, none) else (String.ofList before, some (String.ofList after))
  | none => (name, none)

def fileStem? (p : Path) : Option String := p.fileName?.map fun n => (splitName n).1

def extension? (p : Path) : Option String := p.fileName?.bind fun n => (splitName n).2

/-- `tail` below `base`; an absolute `tail` stands alone. -/
def join (base : Path) (tail : String) : Path :=
  if tail.toList.head? == some '/' || base.text.isEmpty then ⟨tail⟩
  else if base.text.toList.getLast? == some '/' then ⟨base.text ++ tail⟩
  else ⟨base.text ++ "/" ++ tail⟩

/-- Drops the first `n` pieces that count, and the idle ones around them. -/
def dropPieces : Nat → List (List Char) → List (List Char)
  | _, [] => []
  | 0, piece :: rest => if isIdle piece then dropPieces 0 rest else piece :: rest
  | n + 1, piece :: rest => if isIdle piece then dropPieces (n + 1) rest else dropPieces n rest

/-- The pieces after a leading slash or dot, put back behind it. -/
def rebuild (p : Path) (left : List (List Char)) : Path :=
  if p.isAbsolute then assemble "/" left
  else if p.body.1 then assemble "." (if left.isEmpty then [] else [] :: left)
  else assemble "" left

/-- The path without slashes and dots at its end that say nothing. -/
def tidyEnd (p : Path) : Path := p.rebuild (dropIdleEnd p.body.2)

/-- The path without its last component. -/
def parent? (p : Path) : Option Path :=
  let (dotted, all) := p.body
  match dropIdleEnd all with
  | [] => if dotted then some ⟨""⟩ else none
  | kept => some (p.rebuild (dropIdleEnd kept.dropLast))

/-- The rest of `p` below `base`, when the components of `base` begin those of `p`. -/
def relativeTo? (base p : Path) : Option Path :=
  let lead := base.components
  if lead.isEmpty then some p.tidyEnd
  else if lead.isPrefixOf p.components then
    let (dotted, all) := p.body
    let counted := lead.length - (if p.isAbsolute || dotted then 1 else 0)
    some (assemble "" (dropIdleEnd (dropPieces counted all)))
  else none

/-- Whether the components of `base` begin those of `p`. -/
def startsWith (p base : Path) : Bool := base.components.isPrefixOf p.components

/-- The path, its parent, the parent of that, and so on. -/
def ancestors (p : Path) : List Path :=
  let rec go : Nat → Path → List Path
    | 0, q => [q]
    | n + 1, q => q :: (match q.parent? with | some up => go n up | none => [])
  go p.components.length p

end Path

end LuaLens
