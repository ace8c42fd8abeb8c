import LuaLens.Text.Basic

/-!
Snippets: texts with places to fill in. The editor keeps the defaults of the places and leaves out
the places themselves.
-/

namespace LuaLens.Snippet

open Text

/-- Replaces what `find?` finds, from the left. It gives the replacement and the length of what it
found at the beginning of a text; `skip` characters belong to the last find. -/
def replace (find? : List Char → Option (List Char × Nat)) (skip : Nat) : List Char → List Char
  | [] => []
  | c :: s =>
    if 0 < skip then replace find? (skip - 1) s
    else
      match find? (c :: s) with
      | some (text, n) => text ++ replace find? (n - 1) s
      | none => c :: replace find? 0 s

/-- A place with a default, such as `${1:name}`, and its default. -/
def placeholder? : List Char → Option (List Char × Nat)
  | '$' :: '\x7b' :: s =>
    let digits := s.takeWhile isDecimal
    match s.dropWhile isDecimal with
    | ':' :: rest =>
      let inner := rest.takeWhile (· != '\x7d')
      if digits.isEmpty || rest.length == inner.length then none
      else some (inner, digits.length + inner.length + 4)
    | _ => none
  | _ => none

/-- A place without a default, such as `$1` or `${1}`, which is left out. -/
def tabstop? : List Char → Option (List Char × Nat)
  | '$' :: '\x7b' :: s =>
    let digits := s.takeWhile isDecimal
    match s.dropWhile isDecimal with
    | '\x7d' :: _ => if digits.isEmpty then none else some ([], digits.length + 3)
    | _ => none
  | '$' :: s =>
    let digits := s.takeWhile isDecimal
    if digits.isEmpty then none else some ([], digits.length + 1)
  | _ => none

/-- The text of a snippet with its defaults filled in. A default ends at the first closing brace. -/
def strip (text : List Char) : List Char := replace tabstop? 0 (replace placeholder? 0 text)

end LuaLens.Snippet
