import LuaLens.Json.Basic

/-!
The compact text of a JSON document.
-/

namespace LuaLens.Json

def hexDigit (n : Nat) : Char := (Nat.digitChar n)

/-- The text of a character inside quotes. -/
def escapeChar (c : Char) : List Char :=
  match c with
  | '"' => ['\\', '"']
  | '\\' => ['\\', '\\']
  | '\n' => ['\\', 'n']
  | '\r' => ['\\', 'r']
  | '\t' => ['\\', 't']
  | '\x08' => ['\\', 'b']
  | '\x0c' => ['\\', 'f']
  | c =>
    if c.toNat < 32 then ['\\', 'u', '0', '0', hexDigit (c.toNat / 16), hexDigit (c.toNat % 16)]
    else [c]

def quote (s : String) : String := "\"" ++ String.ofList (s.toList.flatMap escapeChar) ++ "\""

mutual

def print : Json → String
  | .null => "null"
  | .bool b => if b then "true" else "false"
  | .int n => toString n
  | .double x => if x.isFinite then x.text else "null"
  | .str s => quote s
  | .arr items => "[" ++ printItems items ++ "]"
  | .obj members => "\x7b" ++ printMembers members ++ "\x7d"

def printItems : List Json → String
  | [] => ""
  | [j] => print j
  | j :: k :: rest => print j ++ "," ++ printItems (k :: rest)

def printMembers : List (String × Json) → String
  | [] => ""
  | [(name, j)] => quote name ++ ":" ++ print j
  | (name, j) :: m :: rest => quote name ++ ":" ++ print j ++ "," ++ printMembers (m :: rest)

end

end LuaLens.Json
