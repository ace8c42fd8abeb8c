import LuaLens.Text.Scan
import LuaLens.Symbol.Basic

/-!
Declarations, as single lines of Lua source show them.
-/

namespace LuaLens

/-- What a line declares. Targets are written as in the source, such as `a.b.c` or `a:m`. -/
inductive Declaration
  | function (target params : List Char) (isLocal : Bool)
  | table (target : List Char) (isLocal : Bool)
  | field (target : List Char)
deriving DecidableEq, Repr

namespace Declaration

open Text Scan

/-! ### Patterns -/

/-- Characters of a target with dots and colons. -/
def isTarget (c : Char) : Bool := isWord c || c == '.' || c == ':'

/-- Characters of a target with dots. -/
def isDotted (c : Char) : Bool := isWord c || c == '.'

/-- A parameter list in parentheses. -/
def paramList : Scan (List Char) := do
  word "("
  let params ← many (· != ')')
  word ")"
  pure params

def localFunction : Scan (List Char × List Char) := do
  word "local"; blanks1; word "function"; blanks1
  let target ← name
  blanks
  pure (target, ← paramList)

def localFunctionValue : Scan (List Char × List Char) := do
  word "local"; blanks1
  let target ← name
  blanks; word "="; blanks; word "function"; blanks
  pure (target, ← paramList)

def functionStatement : Scan (List Char × List Char) := do
  word "function"; blanks1
  let target ← many1 isTarget
  blanks
  pure (target, ← paramList)

def functionValue : Scan (List Char × List Char) := do
  let target ← many1 isTarget
  blanks; word "="; blanks; word "function"; blanks
  pure (target, ← paramList)

def localTable : Scan (List Char) := do
  word "local"; blanks1
  let target ← name
  blanks; word "="; blanks; word "\x7b"
  pure target

def tableValue : Scan (List Char) := do
  let target ← many1 isDotted
  blanks; word "="; blanks; word "\x7b"
  pure target

/-- Whether a dotted target is names joined by single dots, at least two of them. -/
def isFieldPath (target : List Char) : Bool :=
  let names := splitAll '.' target
  2 ≤ names.length && names.all fun n =>
    match n with
    | [] => false
    | c :: _ => isNameStart c

/-- An assignment to a field, but no comparison. -/
def fieldValue : Scan (List Char) := do
  let target ← many1 isDotted
  if isFieldPath target then pure () else failure
  blanks; word "="
  match ← rest with
  | '=' :: _ => failure
  | _ => pure target

/-! ### Reading a line -/

/-- Parameters trimmed, without blanks, and with a comma and a space between them. -/
def normalizeParams (params : List Char) : List Char :=
  join [',', ' '] (((splitAll ',' params).map trim).filter (!·.isEmpty))

/-- Whether a target belongs to whatever object a method runs on. -/
def onSelf (target : List Char) : Bool :=
  target == "self".toList || "self.".toList.isPrefixOf target || "self:".toList.isPrefixOf target

/-- What a line declares. Locals and fields count at the top level of a file only, that is on a line
that starts without white space. -/
def parse? (line : List Char) : Option Declaration :=
  let topLevel := !(line.head?.any isBlank)
  let text := trim line
  let localFound :=
    if topLevel then localFunction.read? text <|> localFunctionValue.read? text else none
  match localFound with
  | some (target, params) => some (.function target (normalizeParams params) true)
  | none =>
  match functionStatement.read? text <|> functionValue.read? text with
  | some (target, params) =>
    if onSelf target then none else some (.function target (normalizeParams params) false)
  | none =>
  match if topLevel then localTable.read? text else none with
  | some target => some (.table target true)
  | none =>
  if "local ".toList.isPrefixOf text then none
  else
  match tableValue.read? text with
  | some target => if onSelf target then none else some (.table target false)
  | none =>
  if !topLevel then none
  else
  match fieldValue.read? text with
  | some target => if onSelf target then none else some (.field target)
  | none => none

end Declaration

end LuaLens
