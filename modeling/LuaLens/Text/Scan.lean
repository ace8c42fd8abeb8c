import LuaLens.Text.Basic

/-!
Scanners read a beginning of a text and leave the rest. None of them goes back: each pattern of
this library is decided by the next character.
-/

namespace LuaLens.Text

/-- A scanner of text: it fails, or returns a value and leaves the rest of the text. -/
abbrev Scan := StateT (List Char) Option

namespace Scan

/-- The longest run of characters in `p`. -/
def many (p : Char → Bool) : Scan (List Char) := fun s => some (s.takeWhile p, s.dropWhile p)

/-- The longest run of characters in `p`, which has at least one. -/
def many1 (p : Char → Bool) : Scan (List Char) := do
  let found ← many p
  if found.isEmpty then failure else pure found

/-- One character in `p`. -/
def one (p : Char → Bool) : Scan Char
  | c :: s => if p c then some (c, s) else none
  | [] => none

/-- The given text. -/
def word (text : String) : Scan Unit := fun s => (text.toList.isPrefixOf? s).map ((), ·)

def blanks : Scan Unit := do
  let _ ← many isBlank

def blanks1 : Scan Unit := do
  let _ ← many1 isBlank

/-- The end of the text. -/
def finish : Scan Unit
  | [] => some ((), [])
  | _ :: _ => none

/-- All that is left. -/
def rest : Scan (List Char) := fun s => some (s, [])

/-- A letter or `_`, then word characters. -/
def name : Scan (List Char) := do
  let c ← one isNameStart
  let cs ← many isWord
  pure (c :: cs)

/-- The value that a scanner reads at the beginning of a text. -/
def read? {α : Type} (scan : Scan α) (s : List Char) : Option α := (StateT.run scan s).map (·.1)

end Scan

end LuaLens.Text
