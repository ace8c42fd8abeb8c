import LuaLens.Text.Alphabetic

/-!
Operations on text as lists of characters: the character classes that the scanners share, trimming,
cutting into lines, and searching. Every class covers all of Unicode.
-/

namespace LuaLens.Text

/-! ### Character classes -/

/-- White space: the property `White_Space`. -/
def isBlank (c : Char) : Bool :=
  let n := c.toNat
  (9 ≤ n && n ≤ 13) || n == 32 || n == 0x85 || n == 0xA0 || n == 0x1680 ||
    (0x2000 ≤ n && n ≤ 0x200A) || n == 0x2028 || n == 0x2029 || n == 0x202F || n == 0x205F ||
    n == 0x3000

/-- Decimal digits of any script. -/
def isDecimal (c : Char) : Bool :=
  if c.toNat < 128 then c.isDigit else decimal.covers c.toNat

/-- Letters and numbers of any script. -/
def isAlphanumeric (c : Char) : Bool :=
  if c.toNat < 128 then c.isAlphanum
  else alphabetic.covers c.toNat || decimal.covers c.toNat || counting.covers c.toNat

/-- Characters of a word in a declaration: letters, decimal digits, marks, connectors. -/
def isWord (c : Char) : Bool :=
  if c.toNat < 128 then c.isAlphanum || c == '_'
  else alphabetic.covers c.toNat || decimal.covers c.toNat || joining.covers c.toNat

/-- Characters of an identifier as the editor sees it: letters, numbers and `_`. -/
def isNamePart (c : Char) : Bool := isAlphanumeric c || c == '_'

/-- The first character of an identifier. -/
def isNameStart (c : Char) : Bool := c.isAlpha || c == '_'

/-! ### Trimming -/

def trimStart (s : List Char) : List Char := s.dropWhile isBlank

/-- Removes the longest final run of characters in `p`. -/
def dropEndWhile (p : Char → Bool) (s : List Char) : List Char := (s.reverse.dropWhile p).reverse

/-- The longest final run of characters in `p`. -/
def takeEndWhile (p : Char → Bool) (s : List Char) : List Char := (s.reverse.takeWhile p).reverse

def trimEnd (s : List Char) : List Char := dropEndWhile isBlank s

def trim (s : List Char) : List Char := trimEnd (trimStart s)

/-- Whether all of the text is white space. -/
def isBlankText (s : List Char) : Bool := s.all isBlank

/-! ### Cutting -/

/-- The text before and after the first `c`. -/
def splitOnce (c : Char) (s : List Char) : Option (List Char × List Char) :=
  match s.span (· != c) with
  | (_, []) => none
  | (before, _ :: after) => some (before, after)

/-- The pieces between the occurrences of `c`; there is always at least one. -/
def splitAll (c : Char) (s : List Char) : List (List Char) := s.splitOnP (· == c)

/-- The text before and after the last `c`. -/
def splitLast (c : Char) (s : List Char) : Option (List Char × List Char) :=
  (splitOnce c s.reverse).map fun (after, before) => (before.reverse, after.reverse)

/-- Removes one carriage return at the end. -/
def dropReturn (s : List Char) : List Char :=
  match s.reverse with
  | '\r' :: rest => rest.reverse
  | _ => s

/-- The lines of a text. A line ends at a line feed, and a carriage return before it belongs to the
ending; a final line without line feed is kept as it is, and is no line when it is empty. -/
def lines (s : List Char) : List (List Char) :=
  let pieces := splitAll '\n' s
  let final := pieces.getLastD []
  pieces.dropLast.map dropReturn ++ (if final.isEmpty then [] else [final])

/-! ### Searching -/

/-- The text before and after the first occurrence of `pattern`. -/
def cut (pattern : List Char) : List Char → Option (List Char × List Char)
  | [] => if pattern.isEmpty then some ([], []) else none
  | c :: s =>
    match pattern.isPrefixOf? (c :: s) with
    | some after => some ([], after)
    | none => (cut pattern s).map fun (before, after) => (c :: before, after)

/-- Whether `pattern` occurs in the text. -/
def contains (pattern s : List Char) : Bool := (cut pattern s).isSome

/-! ### Joining -/

/-- The pieces with `sep` between each two of them. -/
def join (sep : List Char) : List (List Char) → List Char
  | [] => []
  | [p] => p
  | p :: q :: ps => p ++ sep ++ join sep (q :: ps)

/-- The length of a text in bytes of UTF-8. -/
def byteLength : List Char → Nat
  | [] => 0
  | c :: s => c.utf8Size + byteLength s

/-- The first line of a text, empty when there is none. -/
def firstLine (s : String) : String := String.ofList ((lines s.toList).headD [])

end LuaLens.Text
