import LuaLens.Text.Basic

/-!
Columns of a line in the three measures that meet in the protocol: characters, bytes of UTF-8, and
units of UTF-16. A column inside a character belongs to the end of that character.
-/

namespace LuaLens.Text

/-- The number of UTF-16 units of a character. -/
def unitSize (c : Char) : Nat := if c.toNat < 0x10000 then 1 else 2

/-- The length of a text in UTF-16 units. -/
def unitLength : List Char → Nat
  | [] => 0
  | c :: s => unitSize c + unitLength s

/-- The least number of leading characters that hold `units` UTF-16 units, or all of them. -/
def charsOfUnits : List Char → Nat → Nat
  | [], _ => 0
  | _ :: _, 0 => 0
  | c :: s, units => charsOfUnits s (units - unitSize c) + 1

/-- The byte column of a UTF-16 column: the bytes up to where `units` UTF-16 units are reached, or of
the whole text. -/
def bytesOfUnits : List Char → Nat → Nat
  | [], _ => 0
  | _ :: _, 0 => 0
  | c :: s, units => c.utf8Size + bytesOfUnits s (units - unitSize c)

/-- The leading characters that hold exactly `bytes` bytes, when a character ends there. -/
def takeBytes? : List Char → Nat → Option (List Char)
  | _, 0 => some []
  | [], _ + 1 => none
  | c :: s, bytes =>
    if c.utf8Size ≤ bytes then (takeBytes? s (bytes - c.utf8Size)).map (c :: ·) else none

/-- The characters before a byte column, none when it is inside a character. A column past the end is
the end. -/
def beforeByte (s : List Char) (bytes : Nat) : List Char :=
  (takeBytes? s (min bytes (byteLength s))).getD []

/-- The UTF-16 column of a byte column. A column past the end is the end, and one inside a character
counts as the start of the line. -/
def unitsOfBytes (s : List Char) (bytes : Nat) : Nat :=
  match takeBytes? s (min bytes (byteLength s)) with
  | some before => unitLength before
  | none => 0

end LuaLens.Text
