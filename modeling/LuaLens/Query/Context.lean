import LuaLens.Text.Scan
import LuaLens.Text.Units
import LuaLens.Protocol.Position

/-!
What the caret stands on: its line, the name under it or before it, and what is known about the
values of names from the assignments above.
-/

namespace LuaLens.Query

open Text

/-! ### Lines -/

def lineAt (text : List Char) (line : Nat) : List Char := (lines text).getD line []

/-- The line of the caret up to the caret. -/
def lineBefore (text : List Char) (p : Position) : List Char :=
  let line := lineAt text p.line
  beforeByte line (bytesOfUnits line p.character)

/-- All text before the caret. -/
def textBefore (text : List Char) (p : Position) : List Char :=
  ((lines text).take p.line).flatMap (· ++ ['\n']) ++ lineBefore text p

/-! ### Names -/

/-- Removes characters in `p` at both ends. -/
def strip (p : Char → Bool) (s : List Char) : List Char := dropEndWhile p (s.dropWhile p)

/-- Between the segments of a qualified name. -/
def isSeparator (c : Char) : Bool := c == '.' || c == ':'

def isDigitStart (s : List Char) : Bool := s.head?.any Char.isDigit

/-- What is being completed: `receiver`, `operator` and `partly`, as in `io.std` or `s:up`. -/
structure Completing where
  receiver : String
  operator : Option Char
  partly : String
deriving DecidableEq, Repr

namespace Completing

def isEmpty (q : Completing) : Bool := q.receiver.isEmpty && q.partly.isEmpty

/-- Reads a line up to the caret. Two dots or two colons are no operator, and digits are no
receiver. -/
def ofLine (before : List Char) : Completing :=
  let partly := takeEndWhile isNamePart before
  let rest := dropEndWhile isNamePart before
  let operator := match rest.reverse with
    | c :: d :: _ => if isSeparator c && c != d then some c else none
    | [c] => if isSeparator c then some c else none
    | [] => none
  let receiver := match operator with
    | some _ => strip (· == '.') (takeEndWhile (fun c => isNamePart c || c == '.') rest.dropLast)
    | none => []
  let receiver := if isDigitStart receiver then [] else receiver
  { receiver := String.ofList receiver
    operator := if receiver.isEmpty then none else operator
    partly := String.ofList partly }

end Completing

/-- The qualified name around a place of a line, which is cut there in two: qualification to the left,
the rest of the word to the right. -/
def identifierAround (before after : List Char) : Option (List Char) :=
  let left := takeEndWhile (fun c => isNamePart c || isSeparator c) before
  let name := strip isSeparator (left ++ after.takeWhile isNamePart)
  if name.any isNamePart then some name else none

/-- The qualified name at a byte column of a line. -/
def identifierAtByte? (line : List Char) (column : Nat) : Option (List Char) :=
  let before := beforeByte line column
  identifierAround before (line.drop before.length)

/-! ### Values -/

/-- What may stand between white space and a name: `local` and white space, or nothing. -/
def leads (s : List Char) : List (List Char) :=
  let blanks := s.takeWhile isBlank
  let starts := (List.range (blanks.length + 1)).reverse.map fun n => s.drop n
  starts.flatMap fun s =>
    let keyword := match "local".toList.isPrefixOf? s with
      | some rest =>
        let gap := rest.takeWhile isBlank
        (List.range gap.length).reverse.map fun n => rest.drop (n + 1)
      | none => []
    keyword ++ [s]

/-- The right side of an assignment to `name`, when the line is one. -/
def assigned? (name line : List Char) : Option (List Char) :=
  (leads line).findSome? fun s =>
    match name.isPrefixOf? s with
    | none => none
    | some rest =>
      match rest.dropWhile isBlank with
      | '=' :: c :: right => if c == '=' then none else some (trim (c :: right))
      | _ => none

/-- The last segment of a module name in quotes after `require`. -/
def requiredModule? (rest : List Char) : Option (List Char) :=
  let isQuote := fun c : Char => c == '"' || c == '\''
  let quoted := (rest.dropWhile fun c => c == '(' || isBlank c).dropWhile isQuote
  let module := quoted.takeWhile (!isQuote ·)
  if module.isEmpty then none else some (takeEndWhile (· != '.') module)

/-- What kind of value an expression gives: a string, a file, a table, or a module. -/
def classify (right : List Char) : Option (List Char) :=
  let begins := fun (s : String) => s.toList.isPrefixOf right
  if begins "\"" || begins "'" || begins "[[" || begins "[=" then some "string".toList
  else if begins "io.open(" || begins "io.popen(" || begins "io.tmpfile(" then some "file".toList
  else if begins "\x7b" then some "table".toList
  else
    match "require".toList.isPrefixOf? right with
    | some rest => requiredModule? rest
    | none => none

/-- What kind of value `name` has, from the nearest assignment on or above a line. -/
def inferType (text : List Char) (line : Nat) (name : List Char) : Option (List Char) :=
  let above := (lines text).take (line + 1)
  (above.reverse.findSome? (assigned? name)).bind classify

/-- An expression with its leading name replaced by the kind of its value, if that is known. -/
def substituteReceiver (text : List Char) (line : Nat) (expression : List Char) : List Char :=
  let head := expression.takeWhile (!isSeparator ·)
  match inferType text line head with
  | some kind => kind ++ expression.dropWhile (!isSeparator ·)
  | none => expression

/-- The name under the caret, with its receiver replaced by the kind of its value. -/
def symbolAt? (text : List Char) (p : Position) : Option (List Char) :=
  let line := lineAt text p.line
  (identifierAtByte? line (bytesOfUnits line p.character)).map fun name =>
    if name.any isSeparator then substituteReceiver text p.line name else name

end LuaLens.Query
