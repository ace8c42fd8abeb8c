import LuaLens.Text.Scan
import LuaLens.Json.Basic

/-!
Reading JSON text. Arrays and objects nest at most 127 deep. A number without fraction and exponent
that fits 64 bits is an integer; any other is a double, read with the first digits that fit 64 bits.
-/

namespace LuaLens.Json

open Text Scan

def isSpace (c : Char) : Bool := c == ' ' || c == '\n' || c == '\t' || c == '\r'

/-! ### Strings -/

def hexValue? (c : Char) : Option Nat :=
  if c.isDigit then some (c.toNat - 48)
  else if 'a' ≤ c && c ≤ 'f' then some (c.toNat - 87)
  else if 'A' ≤ c && c ≤ 'F' then some (c.toNat - 55)
  else none

/-- The value of four hexadecimal digits. -/
def hex4? (a b c d : Char) : Option Nat := do
  pure ((((← hexValue? a) * 16 + (← hexValue? b)) * 16 + (← hexValue? c)) * 16 + (← hexValue? d))

/-- The character of an escape of one letter. -/
def escaped? : Char → Option Char
  | '"' => some '"'
  | '\\' => some '\\'
  | '/' => some '/'
  | 'b' => some '\x08'
  | 'f' => some '\x0c'
  | 'n' => some '\n'
  | 'r' => some '\r'
  | 't' => some '\t'
  | _ => none

/-- The rest of a string after its opening quote. A surrogate must come with its partner. -/
def stringTail (read : List Char) : List Char → Option (String × List Char)
  | '"' :: s => some (String.ofList read.reverse, s)
  | '\\' :: 'u' :: a :: b :: c :: d :: s =>
    match hex4? a b c d with
    | none => none
    | some n =>
      if 0xD800 ≤ n && n < 0xDC00 then
        match s with
        | '\\' :: 'u' :: e :: f :: g :: h :: s =>
          match hex4? e f g h with
          | none => none
          | some m =>
            if 0xDC00 ≤ m && m < 0xE000 then
              stringTail (Char.ofNat (0x10000 + (n - 0xD800) * 1024 + (m - 0xDC00)) :: read) s
            else none
        | _ => none
      else if 0xDC00 ≤ n && n < 0xE000 then none
      else stringTail (Char.ofNat n :: read) s
  | '\\' :: c :: s =>
    match escaped? c with
    | some e => stringTail (e :: read) s
    | none => none
  | c :: s => if c == '\\' || c.toNat < 32 then none else stringTail (c :: read) s
  | [] => none

/-! ### Numbers -/

/-- The largest significand, one below `2 ^ 64`. -/
def maxSignificand : Nat := 18446744073709551615

/-- Takes digits into a significand while it fits; returns it, how many were taken, and the rest. -/
def takeDigits (significand taken : Nat) : List Char → Nat × Nat × List Char
  | [] => (significand, taken, [])
  | c :: s =>
    if c.isDigit then
      let next := significand * 10 + (c.toNat - 48)
      if maxSignificand < next then (significand, taken, c :: s) else takeDigits next (taken + 1) s
    else (significand, taken, c :: s)

/-- The largest exponent, one below `2 ^ 31`. -/
def maxExponent : Nat := 2147483647

/-- The exponent after its mark, and the number. -/
def exponentTail (negative : Bool) (significand : Nat) (exponent : Int) (s : List Char) :
    Option (Json × List Char) :=
  let (down, s) := match s with
    | '+' :: s => (false, s)
    | '-' :: s => (true, s)
    | s => (false, s)
  let digits := s.takeWhile Char.isDigit
  let rest := s.dropWhile Char.isDigit
  if digits.isEmpty then none
  else
    let n := digits.foldl (fun n c => n * 10 + (c.toNat - 48)) 0
    if maxExponent < n then
      if significand != 0 && !down then none
      else (Double.ofDecimal? negative 0 0).map fun x => (.double x, rest)
    else
      let e := if down then exponent - n else exponent + n
      (Double.ofDecimal? negative significand e).map fun x => (.double x, rest)

/-- What may follow the digits of a number. -/
def numberTail (negative : Bool) (significand : Nat) (exponent : Int) :
    List Char → Option (Json × List Char)
  | 'e' :: s => exponentTail negative significand exponent s
  | 'E' :: s => exponentTail negative significand exponent s
  | s => (Double.ofDecimal? negative significand exponent).map fun x => (.double x, s)

/-- The digits after a point, and the number. -/
def fractionTail (negative : Bool) (significand : Nat) (exponent : Int) (s : List Char) :
    Option (Json × List Char) :=
  match s with
  | c :: _ =>
    if c.isDigit then
      let (significand, taken, s) := takeDigits significand 0 s
      numberTail negative significand (exponent - taken) (s.dropWhile Char.isDigit)
    else none
  | [] => none

/-- An integer that has read all its digits; a zero with a sign is a double, and so is a number below
`-2 ^ 63`. -/
def wholeNumber (negative : Bool) (n : Nat) : Json :=
  if !negative then .int n
  else if n == 0 || 9223372036854775808 < n then .double (Double.ofFloat (-(n.toUInt64.toFloat)))
  else .int (-(n : Int))

/-- A number after its sign. -/
def unsigned (negative : Bool) (s : List Char) : Option (Json × List Char) :=
  match s with
  | [] => none
  | c :: tail =>
    if !c.isDigit then none
    else
      let (significand, _, rest) := if c == '0' then (0, 1, tail) else takeDigits 0 0 s
      let dropped := (rest.takeWhile Char.isDigit).length
      if c == '0' && 0 < dropped then none
      else
        match rest.dropWhile Char.isDigit with
        | '.' :: s => fractionTail negative significand dropped s
        | s =>
          if dropped == 0 && !(s.head?.any fun c => c == 'e' || c == 'E') then
            some (wholeNumber negative significand, s)
          else numberTail negative significand dropped s

/-! ### Documents -/

/-- The depth to which arrays and objects may nest. -/
def maxDepth : Nat := 127

mutual

/-- A document in which arrays and objects may still nest `depth` deep. The fuel bounds the steps. -/
def value : (fuel depth : Nat) → List Char → Option (Json × List Char)
  | 0, _, _ => none
  | fuel + 1, depth, s =>
    match s.dropWhile isSpace with
    | 'n' :: 'u' :: 'l' :: 'l' :: s => some (.null, s)
    | 't' :: 'r' :: 'u' :: 'e' :: s => some (.bool true, s)
    | 'f' :: 'a' :: 'l' :: 's' :: 'e' :: s => some (.bool false, s)
    | '"' :: s => (stringTail [] s).map fun (text, s) => (.str text, s)
    | '-' :: s => unsigned true s
    | '[' :: s =>
      match depth with
      | 0 => none
      | depth + 1 =>
        match s.dropWhile isSpace with
        | ']' :: s => some (.arr [], s)
        | s => (elements fuel depth [] s).map fun (items, s) => (.arr items, s)
    | '\x7b' :: s =>
      match depth with
      | 0 => none
      | depth + 1 =>
        match s.dropWhile isSpace with
        | '\x7d' :: s => some (.obj [], s)
        | s => (entries fuel depth [] s).map fun (members, s) => (.obj members, s)
    | s => unsigned false s

/-- The elements of an array, to its closing bracket. -/
def elements : (fuel depth : Nat) → List Json → List Char → Option (List Json × List Char)
  | 0, _, _, _ => none
  | fuel + 1, depth, read, s =>
    match value fuel depth s with
    | none => none
    | some (j, s) =>
      match s.dropWhile isSpace with
      | ',' :: s => elements fuel depth (j :: read) s
      | ']' :: s => some ((j :: read).reverse, s)
      | _ => none

/-- The members of an object, to its closing brace. -/
def entries : (fuel depth : Nat) → List (String × Json) → List Char →
    Option (List (String × Json) × List Char)
  | 0, _, _, _ => none
  | fuel + 1, depth, read, s =>
    match s.dropWhile isSpace with
    | '"' :: s =>
      match stringTail [] s with
      | none => none
      | some (name, s) =>
        match s.dropWhile isSpace with
        | ':' :: s =>
          match value fuel depth s with
          | none => none
          | some (j, s) =>
            match s.dropWhile isSpace with
            | ',' :: s => entries fuel depth ((name, j) :: read) s
            | '\x7d' :: s => some (((name, j) :: read).reverse, s)
            | _ => none
        | _ => none
    | _ => none

end

/-- The document that a text holds, with repeated members kept. -/
def parseRaw? (text : String) : Option Json :=
  let s := text.toList
  match value (2 * s.length + 2) maxDepth s with
  | some (j, rest) => if rest.all isSpace then some j else none
  | none => none

/-- The document that a text holds. -/
def parse? (text : String) : Option Json := (parseRaw? text).map settle

end LuaLens.Json
