import LuaLens.Query.Completion
import LuaLens.Query.Lookup

/-!
Signature help: the call that the caret is in, the argument it is at, and the declarations of the
function called.
-/

namespace LuaLens.Query

open Text

/-! ### The call -/

/-- Words that stand before a parenthesis without being called. -/
def keywords : List String :=
  ["and", "do", "else", "elseif", "for", "function", "if", "in", "local", "not", "or", "repeat",
    "return", "then", "until", "while"]

mutual

/-- The text with blanks for what stands in strings and comments. -/
def mask : List Char → List Char
  | [] => []
  | '-' :: '-' :: s => ' ' :: ' ' :: maskComment s
  | c :: s => if c == '"' || c == '\'' then c :: maskString c s else c :: mask s

/-- Inside a comment, to the end of its line. -/
def maskComment : List Char → List Char
  | [] => []
  | c :: s => if c == '\n' then c :: mask s else ' ' :: maskComment s

/-- Inside a string, to its closing quote or the end of its line. -/
def maskString (quote : Char) : List Char → List Char
  | [] => []
  | '\\' :: _ :: s => ' ' :: ' ' :: maskString quote s
  | c :: s => if c == quote || c == '\n' then c :: mask s else ' ' :: maskString quote s

end

/-- The name called, which stands before an opening bracket. The text is given backwards. -/
def calleeBefore (backwards : List Char) : Option (List Char) :=
  let name := (backwards.dropWhile isBlank).takeWhile fun c => isNamePart c || isSeparator c
  let callee := strip isSeparator name.reverse
  if callee.isEmpty || keywords.contains (String.ofList callee) || isDigitStart callee then none
  else some callee

/-- A call around the caret. -/
structure CallSite where
  callee : List Char
  /-- The number of the argument at the caret, from zero. -/
  argument : Nat
deriving DecidableEq, Repr

/-- Looks backwards for the innermost open call. Commas count at the level of the call; an opening
bracket without a callee starts the count anew. -/
def openCall (depth commas : Nat) : List Char → Option CallSite
  | [] => none
  | c :: before =>
    if c == ')' || c == '\x7d' || c == ']' then openCall (depth + 1) commas before
    else if (c == '(' || c == '\x7b' || c == '[') && 0 < depth then openCall (depth - 1) commas before
    else if c == '(' || c == '\x7b' then
      match calleeBefore before with
      | some callee => some { callee, argument := commas }
      | none => openCall depth 0 before
    else if c == '[' then openCall depth 0 before
    else if c == ',' && depth == 0 then openCall depth (commas + 1) before
    else openCall depth commas before

/-- The innermost call that is open at the end of a text. -/
def callSite? (before : List Char) : Option CallSite := openCall 0 0 (mask before).reverse

/-! ### The parameters -/

/-- The columns of the pieces of a parameter list that are not blank, in UTF-16 units; the list starts
at the given column. -/
def pieceColumns (start : Nat) : List (List Char) → List (Nat × Nat)
  | [] => []
  | piece :: rest =>
    let next := pieceColumns (start + unitLength piece + 1) rest
    let inner := trim piece
    if inner.isEmpty then next
    else
      let first := start + unitLength (piece.takeWhile isBlank)
      (first, first + unitLength inner) :: next

/-- The columns of the parameters between the first opening and the last closing parenthesis. -/
def parameterOffsets (label : List Char) : List (Nat × Nat) :=
  match splitOnce '(' label with
  | none => []
  | some (name, rest) =>
    match splitLast ')' rest with
    | none => []
    | some (inner, _) => pieceColumns (unitLength name + 1) (splitAll ',' inner)

/-- A declaration that may be the one called. -/
structure Signature where
  label : String
  documentation : Option String
  parameters : List (Nat × Nat)
  activeParameter : Nat
deriving DecidableEq, Repr

/-- The signatures of the function whose call the caret is in; the first one is active. A method call
passes its receiver to a declaration without a colon. -/
def signatureHelp (entries : Corpus) (label text : String) (p : Position) : Option (List Signature) :=
  let text := text.toList
  match callSite? (textBefore text p) with
  | none => none
  | some site =>
    let callee := substituteReceiver text p.line site.callee
    let callable := (bestMatches (lookup entries label callee)).filter fun m =>
      m.entry.api.header.toList.contains '('
    let signatures := callable.map fun m =>
      let header := m.entry.api.header
      let passesSelf := site.callee.contains ':' && !header.toList.contains ':'
      { label := header
        documentation := description m.entry.api.doc
        parameters := parameterOffsets header.toList
        activeParameter := site.argument + if passesSelf then 1 else 0 : Signature }
    if signatures.isEmpty then none else some signatures

end LuaLens.Query
