import LuaLens.Text.CaseTables

/-!
The lower-case form of a text. Letters map one by one, with two exceptions: a dotted capital I
becomes two characters, and a capital sigma at the end of a word takes its final form.
-/

namespace LuaLens.Text

def isCased (c : Char) : Bool :=
  if c.toNat < 128 then c.isAlpha else cased.covers c.toNat

def isCaseIgnorable (c : Char) : Bool :=
  if c.toNat < 128 then ['\'', '.', ':', '^', '\x60'].contains c else ignorable.covers c.toNat

/-- The lower-case form of a character, apart from the place it stands in. -/
def lowerChar (c : Char) : List Char :=
  if c.toNat < 128 then [c.toLower]
  else if c.toNat == 0x130 then ['i', Char.ofNat 0x307]
  else
    let n := c.toNat
    match lowerRuns.find? fun r => r.first ≤ n && n ≤ r.last && (n - r.first) % r.step == 0 with
    | some r => [Char.ofNat (Int.toNat (n + r.offset))]
    | none => [c]

/-- Whether the first character that is not ignored is cased. -/
def meetsCased (s : List Char) : Bool :=
  match s.dropWhile isCaseIgnorable with
  | c :: _ => isCased c
  | [] => false

/-- Lower-cases `s`, where `before` holds the characters in front of it, nearest first. -/
def lowercaseAfter (before : List Char) : List Char → List Char
  | [] => []
  | c :: s =>
    let here :=
      if c == 'Σ' then [if meetsCased before && !meetsCased s then 'ς' else 'σ'] else lowerChar c
    here ++ lowercaseAfter (c :: before) s

def lowercase (s : List Char) : List Char := lowercaseAfter [] s

end LuaLens.Text
