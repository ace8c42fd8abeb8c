import LuaLens.Protocol.Position
import LuaLens.Text.Units
import LuaLens.Uri.Basic

/-!
The text under edit, with its path, its language, and a version that grows with every edit. Places
are given by line and column in characters.
-/

namespace LuaLens

open Text

/-! ### Lines -/

/-- Characters that end a line by themselves. -/
def isLineBreak (c : Char) : Bool :=
  (10 ≤ c.toNat && c.toNat ≤ 13) || c.toNat == 0x85 || c.toNat == 0x2028 || c.toNat == 0x2029

/-- The lines of a text with what ends them; `line` is the beginning of the first one, backwards. The
last line has no ending. -/
def fullLines (line : List Char) : List Char → List (List Char)
  | [] => [line.reverse]
  | '\r' :: '\n' :: s => ('\n' :: '\r' :: line).reverse :: fullLines [] s
  | c :: s => if isLineBreak c then (c :: line).reverse :: fullLines [] s else fullLines (c :: line) s

/-- The language of the files of an extension. -/
def languageOf? : String → Option String
  | "lua" => some "lua"
  | "rs" => some "rust"
  | "py" => some "python"
  | "js" => some "javascript"
  | "ts" => some "typescript"
  | _ => none

structure Buffer where
  chars : List Char := []
  path : Option Path := none
  language : Option String := none
  modified : Bool := false
  version : Nat := 0

namespace Buffer

/-- Why an operation on a buffer fails. -/
inductive Fault
  | io (fault : FileSystem.Fault)
  | noPath
  | line (index count : Nat)
  | index (index length : Nat)
  | range (start stop length : Nat)
  | backwards (start stop : Nat)
deriving DecidableEq, Repr

/-- Whether the fault lies with the files. -/
def Fault.isOfFiles : Fault → Bool
  | .io _ | .noPath => true
  | _ => false

/-- What went wrong, without saying where. -/
def Fault.reason : Fault → String
  | .io fault => fault.message
  | .noPath => "buffer has no file path"
  | .line i n => "Line index out of bounds: line index " ++ toString i ++
      ", Rope/RopeSlice line count " ++ toString n
  | .index i n => "Char index out of bounds: char index " ++ toString i ++
      ", Rope/RopeSlice char length " ++ toString n
  | .range a b n => "Char range out of bounds: char range " ++ toString a ++ ".." ++ toString b ++
      ", Rope/RopeSlice char length " ++ toString n
  | .backwards a b => "Invalid char range " ++ toString a ++ ".." ++ toString b ++
      ": start must be <= end"

def Fault.message (f : Fault) : String :=
  (if f.isOfFiles then "IO error: " else "Rope error: ") ++ f.reason

/-! ### Looking -/

def ofText (text : String) : Buffer := { chars := text.toList }

def text (b : Buffer) : String := String.ofList b.chars

def lines (b : Buffer) : List (List Char) := fullLines [] b.chars

def lineCount (b : Buffer) : Nat := b.lines.length

/-- A line without a line feed and carriage return at its end. -/
def line? (b : Buffer) (i : Nat) : Option (List Char) :=
  (b.lines[i]?).map (dropEndWhile fun c => c == '\n' || c == '\r')

def lineLength (b : Buffer) (i : Nat) : Nat := ((b.line? i).getD []).length

/-- The index of the first character of a line; the line after the last one starts at the end. -/
def lineStart (b : Buffer) (i : Nat) : Except Fault Nat :=
  if b.lineCount < i then .error (.line i b.lineCount)
  else .ok (b.lines.take i).flatten.length

/-- The place that the protocol has for a caret. Lines past the last one count as the last. -/
def positionOf (b : Buffer) (line column : Nat) : Position :=
  let line := min line (b.lineCount - 1)
  { line, character := unitLength (((b.line? line).getD []).take column) }

/-- The caret at a place of the protocol. -/
def caretAt (b : Buffer) (p : Position) : Nat × Nat :=
  (p.line, charsOfUnits ((b.line? p.line).getD []) p.character)

/-- The identifier of the file; a file that does not exist needs an absolute path. -/
def uri? (b : Buffer) (fs : FileSystem) : Option Uri := b.path.bind fun p => Uri.ofPath? (fs.canonical p)

/-! ### Editing -/

/-- The buffer with another text. -/
def edit (b : Buffer) (chars : List Char) : Buffer :=
  { b with chars, modified := true, version := b.version + 1 }

def insert (b : Buffer) (text : String) (line column : Nat) : Except Fault Buffer := do
  let at_ := (← b.lineStart line) + column
  if b.chars.length < at_ then throw (.index at_ b.chars.length)
  pure (b.edit (b.chars.take at_ ++ text.toList ++ b.chars.drop at_))

/-- Removes the characters from one index to another. -/
def delete (b : Buffer) (start stop : Nat) : Except Fault Buffer :=
  if b.chars.length < max start stop then .error (.range start stop b.chars.length)
  else if stop < start then .error (.backwards start stop)
  else .ok (b.edit (b.chars.take start ++ b.chars.drop stop))

def setText (b : Buffer) (text : String) : Buffer := b.edit text.toList

/-! ### Files -/

/-- The buffer of a file. -/
def load (fs : FileSystem) (p : Path) : Except Fault Buffer := do
  let text ← (fs.readText p).mapError Fault.io
  pure { chars := text.toList, path := some p, language := p.extension?.bind languageOf? }

def save (b : Buffer) (fs : FileSystem) (p : Path) : Except Fault (Buffer × FileSystem) := do
  let fs ← (fs.writeText p b.text).mapError Fault.io
  pure ({ b with path := some p, modified := false }, fs)

end Buffer

/-! ### The caret -/

structure Cursor where
  line : Nat := 0
  column : Nat := 0
deriving DecidableEq, Repr, Inhabited

/-- The nearest place to a line and column that lies in the text. -/
def Cursor.within (b : Buffer) (line column : Nat) : Cursor :=
  let line := min line (b.lineCount - 1)
  { line, column := min column (b.lineLength line) }

end LuaLens
