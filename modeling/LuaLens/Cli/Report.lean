import LuaLens.Host.Markers

/-!
What the program prints: lines about places, symbols and signatures, and errors with their causes.
-/

namespace LuaLens

namespace Report

/-! ### Places and symbols -/

/-- The names of the kinds of symbols, from number one. -/
def kindNames : List String :=
  ["File", "Module", "Namespace", "Package", "Class", "Method", "Property", "Field", "Constructor",
    "Enum", "Interface", "Function", "Variable", "Constant", "String", "Number", "Boolean", "Array",
    "Object", "Key", "Null", "EnumMember", "Struct", "Event", "Operator", "TypeParameter"]

def kindName (kind : Int) : String :=
  let known := if 1 ≤ kind then kindNames[kind.toNat - 1]? else none
  known.getD ("SymbolKind(" ++ toString kind ++ ")")

/-- Fills a text up to a width. -/
def pad (width : Nat) (s : String) : String := s ++ "".pushn ' ' (width - s.length)

def textOf (name : String) (j : Json) : String := ((j.get? name).bind Json.str?).getD ""

/-- A place as `file:line:column`, counted from one. -/
def place (location : Json) : String :=
  let file := match (Uri.member? "uri" location).bind Uri.toPath? with
    | some path => path.text
    | none => textOf "uri" location
  let start := (((location.get? "range").bind Range.ofJson?).map (·.start)).getD { line := 0, character := 0 }
  file ++ ":" ++ toString (start.line + 1) ++ ":" ++ toString (start.character + 1)

def symbol (s : Json) : String :=
  let name := match (s.get? "containerName").bind Json.str? with
    | some owner => owner ++ "." ++ textOf "name" s
    | none => textOf "name" s
  let kind := kindName (((s.get? "kind").bind Json.int?).getD 0)
  pad 32 name ++ " " ++ pad 10 kind ++ " " ++ place ((s.get? "location").getD .null)

/-! ### Signatures -/

def numberOf? (name : String) (j : Json) : Option Nat := (j.get? name).bind Json.nat?

/-- One line for each signature; the active one is marked, and the number of the argument follows. -/
def signatures (help : Json) : List String :=
  let active := (numberOf? "activeSignature" help).getD 0
  let all := ((help.get? "signatures").bind Json.items?).getD []
  all.zipIdx.map fun (s, i) =>
    let argument := (numberOf? "activeParameter" s).or (numberOf? "activeParameter" help)
    let suffix := match argument with
      | some n => "  [argument " ++ toString (n + 1) ++ "]"
      | none => ""
    (if i == active then "> " else "  ") ++ textOf "label" s ++ suffix

/-! ### Errors -/

/-- A text with all lines but the first moved to the right. -/
def indented (width : Nat) (s : String) : String :=
  let lines := (Text.splitAll '\n' s.toList).map String.ofList
  ("\n" ++ "".pushn ' ' width).intercalate lines

def cause (numbered : Bool) (message : String) (i : Nat) : String :=
  if numbered then "\n    " ++ toString i ++ ": " ++ indented 7 message
  else "\n    " ++ indented 4 message

/-- An error with what led to it; several causes are numbered. -/
def error (message : String) (causes : List String) : String :=
  let numbered := 1 < causes.length
  let listed := causes.zipIdx.map fun (c, i) => cause numbered c i
  "Error: " ++ message ++ (if causes.isEmpty then "" else "\n\nCaused by:" ++ String.join listed) ++ "\n"

/-- Lines, each with its end. -/
def lines (all : List String) : String := String.join (all.map (· ++ "\n"))

end Report

end LuaLens
