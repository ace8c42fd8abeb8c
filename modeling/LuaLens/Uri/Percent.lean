import LuaLens.Text.Basic

/-!
Percent encoding: a byte as `%` and two hexadecimal digits.
-/

namespace LuaLens.Percent

def hexDigit (n : Nat) : Char := (Nat.digitChar n).toUpper

/-- The escape of a byte. -/
def escape (b : UInt8) : List Char := ['%', hexDigit (b.toNat / 16), hexDigit (b.toNat % 16)]

/-- Writes characters in `reserved`, control characters and all beyond ASCII as escapes. -/
def encode (reserved : Char → Bool) (s : List Char) : List Char :=
  s.flatMap fun c =>
    if c.toNat < 32 || 126 < c.toNat || reserved c then
      (String.singleton c).toUTF8.toList.flatMap escape
    else [c]

def hexValue? (c : Char) : Option Nat :=
  if c.isDigit then some (c.toNat - 48)
  else if 'a' ≤ c && c ≤ 'f' then some (c.toNat - 87)
  else if 'A' ≤ c && c ≤ 'F' then some (c.toNat - 55)
  else none

/-- The bytes of a text with its escapes undone; `%` without two digits stands for itself. -/
def decode : List Char → List UInt8
  | '%' :: a :: b :: s =>
    match hexValue? a, hexValue? b with
    | some x, some y => UInt8.ofNat (x * 16 + y) :: decode s
    | _, _ => 37 :: decode (a :: b :: s)
  | c :: s => (String.singleton c).toUTF8.toList ++ decode s
  | [] => []

/-- Reserved at every place of a path. -/
def inFragment (c : Char) : Bool := [' ', '"', '<', '>', '\x60'].contains c

/-- Reserved in a path. -/
def inPath (c : Char) : Bool := inFragment c || ['#', '?', '\x7b', '\x7d'].contains c

/-- Reserved in a name between two slashes of a path. -/
def inSegment (c : Char) : Bool := inPath c || ['/', '%', '\\'].contains c

end LuaLens.Percent
