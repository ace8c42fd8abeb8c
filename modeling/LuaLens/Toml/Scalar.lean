import LuaLens.Text.Scan
import LuaLens.Json.Parser
import LuaLens.Toml.Basic

/-!
The scalar values of TOML text: strings in four quotations, numbers, booleans, dates and times.
-/

namespace LuaLens.Toml

open Text Scan

/-! ### Characters -/

def isWs (c : Char) : Bool := c == ' ' || c == '\t'

def ws : Scan Unit := do
  let _ ← many isWs

/-- Characters of a comment or of a literal string, apart from quotes: no control characters. -/
def isPrintable (c : Char) : Bool := c == '\t' || (32 ≤ c.toNat && c.toNat != 127)

/-- A line feed, alone or after a carriage return. -/
def newline : Scan Unit
  | '\n' :: s => some ((), s)
  | '\r' :: '\n' :: s => some ((), s)
  | _ => none

/-- A comment without its line ending. -/
def comment : Scan Unit
  | '#' :: s => some ((), s.dropWhile isPrintable)
  | _ => none

/-! ### Strings -/

/-- The character of the given number, if it has one. -/
def scalar? (n : Nat) : Option Char :=
  if n < 0xD800 || (0xE000 ≤ n && n < 0x110000) then some (Char.ofNat n) else none

/-- The value of hexadecimal digits. -/
def hex? (digits : List Char) : Option Nat :=
  digits.foldlM (fun n c => (Json.hexValue? c).map (n * 16 + ·)) 0

/-- The character after a backslash, and what follows it. -/
def escape : Scan Char
  | 'b' :: s => some ('\x08', s)
  | 't' :: s => some ('\t', s)
  | 'n' :: s => some ('\n', s)
  | 'f' :: s => some ('\x0c', s)
  | 'r' :: s => some ('\r', s)
  | '"' :: s => some ('"', s)
  | '\\' :: s => some ('\\', s)
  | 'u' :: s =>
    if s.length < 4 then none
    else ((hex? (s.take 4)).bind scalar?).map (·, s.drop 4)
  | 'U' :: s =>
    if s.length < 8 then none
    else ((hex? (s.take 8)).bind scalar?).map (·, s.drop 8)
  | _ => none

/-- The rest of a string in double quotes. The fuel bounds its length. -/
def basicTail : Nat → List Char → Scan String
  | 0, _, _ => none
  | _ + 1, read, '"' :: s => some (String.ofList read.reverse, s)
  | fuel + 1, read, '\\' :: s =>
    match escape s with
    | some (c, s) => basicTail fuel (c :: read) s
    | none => none
  | fuel + 1, read, c :: s => if isPrintable c then basicTail fuel (c :: read) s else none
  | _ + 1, _, [] => none

/-- The rest of a string in single quotes. -/
def literalTail (s : List Char) : Option (String × List Char) :=
  match s.span fun c => c != '\'' && isPrintable c with
  | (body, '\'' :: s) => some (String.ofList body, s)
  | _ => none

/-- The quotes that end a long string: three, and up to two before them that belong to it. -/
def closingQuotes (q : Char) (s : List Char) : Option (List Char × List Char) :=
  let n := (s.takeWhile (· == q)).length
  if n < 3 then none else some (List.replicate (min n 5 - 3) q, s.drop (min n 5))

/-- White space and line endings after a backslash at the end of a line, of which there must be one
line ending. -/
def lineContinuation (s : List Char) : Option (List Char) :=
  match newline (s.dropWhile isWs) with
  | none => none
  | some (_, s) =>
    let rec skip : Nat → List Char → List Char
      | 0, s => s
      | fuel + 1, s =>
        match newline (s.dropWhile isWs) with
        | some (_, s) => skip fuel s
        | none => s.dropWhile isWs
    some (skip s.length s)

/-- The rest of a long string in double quotes. A line ending is read as a line feed. -/
def longBasicTail : Nat → List Char → Scan String
  | 0, _, _ => none
  | fuel + 1, read, s =>
    match closingQuotes '"' s with
    | some (own, rest) => some (String.ofList (own ++ read).reverse, rest)
    | none =>
      match s with
      | '\\' :: s =>
        match lineContinuation s with
        | some s => longBasicTail fuel read s
        | none =>
          match escape s with
          | some (c, s) => longBasicTail fuel (c :: read) s
          | none => none
      | '\r' :: '\n' :: s => longBasicTail fuel ('\n' :: read) s
      | '\n' :: s => longBasicTail fuel ('\n' :: read) s
      | c :: s => if isPrintable c then longBasicTail fuel (c :: read) s else none
      | [] => none

/-- The rest of a long string in single quotes. -/
def longLiteralTail : Nat → List Char → Scan String
  | 0, _, _ => none
  | fuel + 1, read, s =>
    match closingQuotes '\'' s with
    | some (own, rest) => some (String.ofList (own ++ read).reverse, rest)
    | none =>
      match s with
      | '\r' :: '\n' :: s => longLiteralTail fuel ('\n' :: read) s
      | '\n' :: s => longLiteralTail fuel ('\n' :: read) s
      | c :: s => if isPrintable c then longLiteralTail fuel (c :: read) s else none
      | [] => none

/-- A line ending right after the opening quotes does not count. -/
def dropNewline (s : List Char) : List Char := ((newline s).map (·.2)).getD s

/-- A string in any quotation. -/
def string : Scan String
  | '"' :: '"' :: '"' :: s =>
    let s := dropNewline s
    longBasicTail (s.length + 1) [] s
  | '\'' :: '\'' :: '\'' :: s =>
    let s := dropNewline s
    longLiteralTail (s.length + 1) [] s
  | '"' :: s => basicTail (s.length + 1) [] s
  | '\'' :: s => literalTail s
  | _ => none

/-! ### Numbers -/

/-- Digits with single underscores between them. -/
def digitRun (isDigit : Char → Bool) : Scan (List Char) := fun s =>
  match s with
  | c :: rest =>
    if isDigit c then
      let rec go : List Char → List Char × List Char
        | '_' :: d :: s => if isDigit d then let (ds, r) := go s; (d :: ds, r) else ([], '_' :: d :: s)
        | d :: s => if isDigit d then let (ds, r) := go s; (d :: ds, r) else ([], d :: s)
        | [] => ([], [])
      let (ds, r) := go rest
      some (c :: ds, r)
    else none
  | [] => none

def isBinary (c : Char) : Bool := c == '0' || c == '1'

def isOctal (c : Char) : Bool := '0' ≤ c && c ≤ '7'

def isHex (c : Char) : Bool := (Json.hexValue? c).isSome

def valueIn (base : Nat) (digits : List Char) : Nat :=
  digits.foldl (fun n c => n * base + (Json.hexValue? c).getD 0) 0

/-- A number from `-2 ^ 63` to one below `2 ^ 63`. -/
def fit? (n : Int) : Option Toml :=
  if -9223372036854775808 ≤ n && n < 9223372036854775808 then some (.int n) else none

/-- An integer with a prefix for its base. -/
def basedInteger : Scan Toml
  | '0' :: 'x' :: s => (digitRun isHex s).bind fun (ds, s) => (fit? (valueIn 16 ds)).map (·, s)
  | '0' :: 'o' :: s => (digitRun isOctal s).bind fun (ds, s) => (fit? (valueIn 8 ds)).map (·, s)
  | '0' :: 'b' :: s => (digitRun isBinary s).bind fun (ds, s) => (fit? (valueIn 2 ds)).map (·, s)
  | _ => none

/-- A sign, if there is one. -/
def sign : Scan Bool
  | '-' :: s => some (true, s)
  | '+' :: s => some (false, s)
  | s => some (false, s)

/-- The digits of a decimal integer, which starts with zero only if it is zero. -/
def decimalDigits : Scan (List Char)
  | '0' :: s =>
    match s with
    | c :: _ => if c.isDigit || c == '_' then none else some (['0'], s)
    | [] => some (['0'], s)
  | s => digitRun Char.isDigit s

/-- The double nearest to `n · 10 ^ e`. -/
def nearest (negative : Bool) (n : Nat) (e : Int) : Double :=
  let magnitude := e + (toString n).length
  let x := if n == 0 || magnitude < -400 then 0.0
    else if 400 < magnitude then 1.0 / 0.0
    else if 0 ≤ e then Float.ofScientific n false e.toNat
    else Float.ofScientific n true (-e).toNat
  Double.ofFloat (if negative then -x else x)

/-- The exponent of a float. -/
def exponent : Scan Int := do
  let _ ← one fun c => c == 'e' || c == 'E'
  let negative ← sign
  let digits ← digitRun Char.isDigit
  let n := valueIn 10 digits
  pure (if negative then -(n : Int) else n)

/-- A float in digits: it has a fraction, an exponent or both. -/
def digitFloat : Scan Toml := do
  let negative ← sign
  let whole ← decimalDigits
  let fraction : Option (List Char) ← fun s =>
    match s with
    | '.' :: s => (digitRun Char.isDigit s).map fun (ds, s) => (some ds, s)
    | s => some (none, s)
  let power : Option Int ← fun s =>
    match s with
    | 'e' :: _ | 'E' :: _ => (exponent s).map fun (e, s) => (some e, s)
    | s => some (none, s)
  if fraction.isNone && power.isNone then failure
  let ds := fraction.getD []
  let x := nearest negative (valueIn 10 (whole ++ ds)) (power.getD 0 - ds.length)
  if x.isFinite || x.isNegative then pure (.float x) else failure

/-- An infinity or NaN. -/
def specialFloat : Scan Toml := do
  let negative ← sign
  let x ← (do word "inf"; pure (1.0 / 0.0 : Float)) <|> (do word "nan"; pure (0.0 / 0.0))
  pure (.float (Double.ofFloat (if negative then -x else x)))

def decimalInteger : Scan Toml := do
  let negative ← sign
  let digits ← decimalDigits
  let n := valueIn 10 digits
  match fit? (if negative then -(n : Int) else n) with
  | some v => pure v
  | none => failure

/-! ### Dates and times -/

/-- A number of exactly `n` digits. -/
def fixed (n : Nat) : Scan Nat := fun s =>
  let ds := s.take n
  if ds.length == n && ds.all Char.isDigit then some (valueIn 10 ds, s.drop n) else none

def within (lo hi n : Nat) : Scan Unit := if lo ≤ n && n ≤ hi then pure () else failure

def isLeap (year : Nat) : Bool := year % 4 == 0 && (year % 100 != 0 || year % 400 == 0)

def daysIn (year month : Nat) : Nat :=
  if month == 2 then (if isLeap year then 29 else 28)
  else if [4, 6, 9, 11].contains month then 30
  else 31

/-- A number in at least `width` digits. -/
def pad (width n : Nat) : String :=
  let text := toString n
  "".pushn '0' (width - text.length) ++ text

def date : Scan String := do
  let year ← fixed 4
  word "-"
  let month ← fixed 2
  within 1 12 month
  word "-"
  let day ← fixed 2
  within 1 (daysIn year month) day
  pure (pad 4 year ++ "-" ++ pad 2 month ++ "-" ++ pad 2 day)

/-- The fraction of a second, to nine digits and without zeros at the end. -/
def secondFraction : Scan String := do
  word "."
  let digits ← many1 Char.isDigit
  let kept := dropEndWhile (· == '0') (digits.take 9)
  pure (if kept.isEmpty then "" else "." ++ String.ofList kept)

def time : Scan String := do
  let hour ← fixed 2
  word ":"
  within 0 23 hour
  let minute ← fixed 2
  within 0 59 minute
  word ":"
  let second ← fixed 2
  within 0 60 second
  let fraction ← secondFraction <|> pure ""
  pure (pad 2 hour ++ ":" ++ pad 2 minute ++ ":" ++ pad 2 second ++ fraction)

def zone : Scan String :=
  (do let _ ← one fun c => c == 'Z' || c == 'z'; pure "Z") <|> do
    let s ← one fun c => c == '+' || c == '-'
    let hour ← fixed 2
    within 0 23 hour
    word ":"
    let minute ← fixed 2
    within 0 59 minute
    let mark := if s == '-' && 0 < hour + minute then "-" else "+"
    pure (mark ++ pad 2 hour ++ ":" ++ pad 2 minute)

def moment : Scan Toml :=
  (do
    let d ← date
    let rest ← (do
      let _ ← one fun c => c == 'T' || c == 't' || c == ' '
      let t ← time
      let z ← zone <|> pure ""
      pure ("T" ++ t ++ z)) <|> pure ""
    pure (.datetime (d ++ rest))) <|>
  (do pure (.datetime (← time)))

/-- Any value that holds no other. -/
def scalar : Scan Toml :=
  (do pure (Toml.str (← string))) <|> (do word "true"; pure (Toml.bool true)) <|>
    (do word "false"; pure (Toml.bool false)) <|> moment <|> basedInteger <|> digitFloat <|>
    specialFloat <|> decimalInteger

end LuaLens.Toml
