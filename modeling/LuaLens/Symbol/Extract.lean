import LuaLens.Symbol.Declaration

/-!
The symbols of a source text. A block of `---` comments documents the declaration on the next line
of code, unless one of its lines names a symbol of its own. Long strings and block comments are
skipped. The table returned at the end of a file stands for the module.
-/

namespace LuaLens

open Text Scan

/-! ### Names -/

/-- A name cut into the table it belongs to and its last part. -/
structure QualifiedName where
  owner : String
  name : String
  isMethod : Bool
deriving DecidableEq, Repr

namespace QualifiedName

def isIdentifier : List Char → Bool
  | [] => false
  | c :: s => isNameStart c && s.all fun d => d.isAlphanum || d == '_'

/-- Cuts `a.b.c`, `a:b` or `_G.x`; fails when a part is no identifier. -/
def parse? (raw : List Char) : Option QualifiedName :=
  let raw := ("_G.".toList.isPrefixOf? raw).getD raw
  let (path, method) := match splitOnce ':' raw with
    | some (path, method) => (path, some method)
    | none => (raw, none)
  let segments := splitAll '.' path ++ method.toList
  if segments.all isIdentifier then
    some {
      owner := String.ofList (join ['.'] segments.dropLast)
      name := String.ofList (segments.getLastD [])
      isMethod := method.isSome }
  else none

/-- The part after the last dot or colon that is not empty. -/
def lastPart (raw : List Char) : List Char :=
  ((raw.splitOnP fun c => c == '.' || c == ':').reverse.find? (!·.isEmpty)).getD raw

end QualifiedName

/-! ### Lines -/

/-- Whether a line holds more than white space and a comment. -/
def isCodeLine (line : List Char) : Bool :=
  let text := trim line
  !text.isEmpty && !"--".toList.isPrefixOf text

/-- The opening of a long string or block comment at the very front: its level, and what follows. -/
def longBracket : Scan (List Char) := fun s =>
  match ("--[".toList.isPrefixOf? s) <|> ("[".toList.isPrefixOf? s) with
  | none => none
  | some s =>
    match s.dropWhile (· == '=') with
    | '[' :: after => some (s.takeWhile (· == '='), after)
    | _ => none

/-- The first opening of a long bracket, or `none` when a comment or the end of the line is first. -/
def firstLongBracket? : List Char → Option (List Char × List Char)
  | [] => none
  | c :: s =>
    match longBracket (c :: s) with
    | some found => some found
    | none => if "--".toList.isPrefixOf (c :: s) then none else firstLongBracket? s

/-- The bracket that closes an opening of the given level, such as `]==]` for `[==[`. -/
def closingBracket (level : List Char) : List Char := ']' :: level ++ [']']

/-- The closing bracket of a long string or block comment that a line opens and leaves open. The fuel
bounds the number of brackets on the line. -/
def unclosedBracketWithin : Nat → List Char → Option (List Char)
  | 0, _ => none
  | fuel + 1, line =>
    match firstLongBracket? line with
    | none => none
    | some (level, after) =>
      match cut (closingBracket level) after with
      | some (_, rest) => unclosedBracketWithin fuel rest
      | none => some (closingBracket level)

def unclosedBracket? (line : List Char) : Option (List Char) :=
  unclosedBracketWithin (line.length + 1) line

/-! ### Documentation -/

/-- The tags with which a doc block names its own symbol. -/
inductive SelfTag
  | module
  | function
  | table
  | field
deriving DecidableEq, Repr

/-- A self-sufficient line of a doc block: tag, name and the words after it. -/
structure SelfDoc where
  tag : SelfTag
  name : List Char
  words : List Char
deriving DecidableEq, Repr

def selfTag : Scan SelfTag :=
  (do word "module"; pure .module) <|> (do word "function"; pure .function) <|>
    (do word "table"; pure .table) <|> (do word "field"; pure .field)

def selfDoc : Scan SelfDoc := do
  word "@"
  let tag ← selfTag
  blanks1
  let name ← many1 Declaration.isTarget
  blanks
  pure { tag, name, words := trim (← rest) }

def moduleTag : Scan (List Char) := do
  let _ ← many1 (· == '-')
  blanks; word "@module"; blanks1
  many1 Declaration.isDotted

def paramTag : Scan (List Char) := do
  word "@param"; blanks1
  many1 Declaration.isDotted

/-- A line `return name`, with or without a semicolon. -/
def returnStatement : Scan (List Char) := do
  word "return"; blanks1
  let returned ← name
  blanks
  match ← rest with
  | [] => pure returned
  | c :: s => if c == ';' && isBlankText s then pure returned else failure

/-- The text of a comment line without its dashes and one space. -/
def commentText (line : List Char) : List Char :=
  let text := (trim line).dropWhile (· == '-')
  trimEnd (([' '].isPrefixOf? text).getD text)

/-! ### Extraction -/

/-- What is known of a file while its symbols are read. -/
structure Extraction where
  /-- The name of the module that the file defines. -/
  module : String
  /-- The local name of the table that the file returns. -/
  returned : Option String
  symbols : List Symbol := []
  /-- The last table or module declared, which owns `@field` tags without an owner. -/
  container : Option String := none

namespace Extraction

/-- A numbered source line. -/
abbrev Line := Nat × List Char

/-- The owner with the module's name in place of its local name. -/
def resolveAlias (x : Extraction) (owner : String) : String :=
  let (head, rest) := match splitOnce '.' owner.toList with
    | some (head, rest) => (String.ofList head, some (String.ofList rest))
    | none => (owner, none)
  if x.returned == some head then
    match rest with
    | some rest => x.module ++ "." ++ rest
    | none => x.module
  else owner

/-- Cuts a target. A malformed one is filed under the module by its last part. -/
def qualify (x : Extraction) (raw : List Char) : QualifiedName :=
  match QualifiedName.parse? raw with
  | some q => { q with owner := x.resolveAlias q.owner }
  | none =>
    { owner := x.module, name := String.ofList (QualifiedName.lastPart raw), isMethod := false }

def push (x : Extraction) (name owner : String) (kind : Symbol.Kind) (header : String)
    (description : List (List Char)) (line : Line) : Extraction :=
  let container := match kind with
    | .table | .module => some (qualified owner name)
    | _ => x.container
  let doc := header.toList ++ description.flatMap ('\n' :: ·)
  { x with
    container
    symbols := x.symbols ++ [{
      name, owner, kind
      locator := String.ofList (trim line.2)
      line := line.1
      doc := String.ofList (trimEnd doc) }] }

/-- The header of a function. -/
def callHeader (q : QualifiedName) (params : String) : String :=
  let call := q.name ++ "(" ++ params ++ ")"
  if q.owner.isEmpty then call else q.owner ++ (if q.isMethod then ":" else ".") ++ call

def pushFunction (x : Extraction) (q : QualifiedName) (params : String)
    (description : List (List Char)) (line : Line) : Extraction :=
  x.push q.name q.owner .function (callHeader q params) description line

def pushPlain (x : Extraction) (kind : Symbol.Kind) (q : QualifiedName)
    (description : List (List Char)) (line : Line) : Extraction :=
  x.push q.name q.owner kind (qualified q.owner q.name) description line

/-- Adds what a line declares. The returned table is the module, declared at most once. -/
def declare (x : Extraction) (d : Declaration) (description : List (List Char)) (line : Line) :
    Extraction :=
  match d with
  | .function target params true =>
    let name := String.ofList target
    x.push name "" .localFunction ("local " ++ name ++ "(" ++ String.ofList params ++ ")")
      description line
  | .function target params false =>
    x.pushFunction (x.qualify target) (String.ofList params) description line
  | .table target isLocal =>
    let name := String.ofList target
    if x.returned == some name then
      if x.symbols.any fun s => s.kind == .module && s.name == x.module then x
      else x.push x.module "" .module x.module description line
    else if isLocal then x.push name "" .localTable ("local " ++ name) description line
    else x.pushPlain .table (x.qualify target) description line
  | .field target => x.pushPlain .field (x.qualify target) description line

/-- Adds the symbol that a doc block names itself. -/
def declareSelf (x : Extraction) (d : SelfDoc) (description : List (List Char)) (line : Line) :
    Extraction :=
  match d.tag with
  | .module =>
    let name := String.ofList d.name
    x.push name "" .module name description line
  | .function =>
    let params := join [',', ' '] (description.filterMap paramTag.read?)
    x.pushFunction (x.qualify d.name) (String.ofList params) description line
  | .table => x.pushPlain .table (x.qualify d.name) description line
  | .field =>
    let q := if d.name.any fun c => c == '.' || c == ':' then x.qualify d.name
      else
        { owner := x.container.getD x.module, name := String.ofList d.name, isMethod := false }
    let description := if d.words.isEmpty then description else d.words :: description
    x.pushPlain .field q description line

/-- Adds what a line declares, if anything. -/
def declareLine (x : Extraction) (description : List (List Char)) (line : Line) : Extraction :=
  match Declaration.parse? line.2 with
  | some d => x.declare d description line
  | none => x

/-- The first line of a doc block that names a symbol, and the block without it. -/
def selfDoc? : List (List Char) → Option (SelfDoc × List (List Char))
  | [] => none
  | l :: block =>
    match selfDoc.read? l with
    | some d => some (d, block)
    | none => (selfDoc? block).map fun (d, others) => (d, l :: others)

/-- The lines after the one that holds the closing bracket. -/
def afterBracket (closing : List Char) (lines : List Line) : List Line :=
  (lines.dropWhile fun l => !contains closing l.2).tail

theorem afterBracket_length (closing : List Char) (lines : List Line) :
    (afterBracket closing lines).length ≤ lines.length := by
  have h := (List.dropWhile_sublist (fun l : Line => !contains closing l.2) (l := lines)).length_le
  simp only [afterBracket, List.length_tail]
  omega

def isComment (line : Line) : Bool := "--".toList.isPrefixOf (trim line.2)

theorem afterComments_length (lines : List Line) :
    (lines.dropWhile isComment).length ≤ lines.length :=
  (List.dropWhile_sublist isComment (l := lines)).length_le

/-- Reads the lines from top to bottom. `pending` is the doc block that waits for its declaration,
`lastCode` the last line of code so far. -/
def run (x : Extraction) (pending : List (List Char)) (lastCode : Option Line) :
    List Line → Extraction
  | [] => x
  | line :: rest =>
    match unclosedBracket? line.2 with
    | some closing =>
      if isComment line then run x [] lastCode (afterBracket closing rest)
      else run (x.declareLine pending line) [] (some line) (afterBracket closing rest)
    | none =>
      if "---".toList.isPrefixOf (trim line.2) then
        let block := (line :: rest.takeWhile isComment).map fun l => commentText l.2
        match selfDoc? block with
        | some (d, description) =>
          let locator := (lastCode <|> (rest.dropWhile isComment).find? (isCodeLine ·.2)).getD line
          run (x.declareSelf d description locator) [] lastCode (rest.dropWhile isComment)
        | none => run x block lastCode (rest.dropWhile isComment)
      else if isCodeLine line.2 then run (x.declareLine pending line) [] (some line) rest
      else run x pending lastCode rest
termination_by lines => lines.length
decreasing_by
  all_goals
    first
    | exact Nat.lt_succ_of_le (afterBracket_length closing rest)
    | exact Nat.lt_succ_of_le (afterComments_length rest)
    | exact Nat.lt_succ_self rest.length

end Extraction

/-- The symbols that `text` declares, in source order. `fileModule` names the module of a file that
does not name one itself. -/
def extractSymbols (text fileModule : String) : List Symbol :=
  let source := lines text.toList
  let module := (source.findSome? fun l => moduleTag.read? (trim l)).elim fileModule String.ofList
  let returned := (source.reverse.find? isCodeLine).bind fun l => returnStatement.read? (trim l)
  let start : Extraction := { module, returned := returned.map String.ofList }
  (start.run [] none (source.zipIdx.map fun (l, n) => (n, l))).symbols

end LuaLens
