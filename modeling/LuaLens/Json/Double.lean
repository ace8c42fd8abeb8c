/-!
Binary floating-point numbers by their 64 bits: reading them from decimal digits, and writing the
fewest digits that read back.
-/

namespace LuaLens

/-- A double by its bits: one for the sign, eleven for the exponent, fifty-two for the fraction. -/
structure Double where
  bits : UInt64
deriving DecidableEq, Repr, Inhabited

namespace Double

def ofFloat (x : Float) : Double := ⟨x.toBits⟩

def toFloat (x : Double) : Float := Float.ofBits x.bits

def isNegative (x : Double) : Bool := x.bits >>> 63 == 1

def exponentField (x : Double) : Nat := ((x.bits >>> 52) &&& 0x7FF).toNat

def fractionField (x : Double) : Nat := (x.bits &&& 0xFFFFFFFFFFFFF).toNat

/-- Infinities and NaN have no decimal. -/
def isFinite (x : Double) : Bool := x.exponentField != 0x7FF

/-! ### Reading -/

/-- `significand · 10 ^ exponent`, by one multiplication or division for each 308 decimal places;
`none` when the result is too large. -/
def scale (fuel : Nat) (x : Float) (exponent : Int) : Option Float :=
  if exponent.natAbs ≤ 308 then
    let power := Float.ofScientific 1 false exponent.natAbs
    if 0 ≤ exponent then
      let y := x * power
      if y.isInf then none else some y
    else some (x / power)
  else if x == 0.0 then some x
  else if 0 ≤ exponent then none
  else
    match fuel with
    | 0 => some 0.0
    | fuel + 1 => scale fuel (x / Float.ofScientific 1 false 308) (exponent + 308)

/-- The double of a significand below `2 ^ 64` and a decimal exponent. -/
def ofDecimal? (negative : Bool) (significand : Nat) (exponent : Int) : Option Double :=
  (scale 8 significand.toUInt64.toFloat exponent).map fun x => ofFloat (if negative then -x else x)

/-! ### Writing -/

/-- A positive value as a quotient, with the bounds of the numbers that round to it. -/
structure Interval where
  low : Nat
  value : Nat
  high : Nat
  denominator : Nat
  /-- Whether the bounds themselves round to the value. -/
  closed : Bool

/-- The magnitude of a finite double and its neighbourhood. -/
def interval (x : Double) : Interval :=
  let e := x.exponentField
  let m := if e == 0 then x.fractionField else x.fractionField + 4503599627370496
  let q : Int := (if e == 0 then 1 else e) - 1075 - 2
  let below := if x.fractionField == 0 && 1 < e then 1 else 2
  let (up, down) := if 0 ≤ q then (Nat.pow 2 q.toNat, 1) else (1, Nat.pow 2 (-q).toNat)
  { low := (4 * m - below) * up, value := 4 * m * up, high := (4 * m + 2) * up
    denominator := down, closed := m % 2 == 0 }

/-- The nearer of the two neighbours on the grid of `10 ^ place` that reads back. -/
def Interval.onGrid? (i : Interval) (place : Int) : Option Nat :=
  let (up, down) := if 0 ≤ place then (1, Nat.pow 10 place.toNat) else (Nat.pow 10 (-place).toNat, 1)
  let unit := i.denominator * down
  let value := i.value * up
  let d := value / unit
  let fits := fun (n : Nat) =>
    let p := n * unit
    if i.closed then i.low * up ≤ p && p ≤ i.high * up else i.low * up < p && p < i.high * up
  let nearer := value - d * unit < (d + 1) * unit - value
  match fits d && 0 < d, fits (d + 1) with
  | true, true => some (if nearer then d else d + 1)
  | true, false => some d
  | false, true => some (d + 1)
  | false, false => none

/-- The digits and the place of the last one, on the coarsest of the given grids that has a hit. -/
def Interval.shortest (i : Interval) : Nat → Int → Nat × Int
  | 0, place => (0, place)
  | fuel + 1, place =>
    match i.onGrid? place with
    | some d => (d, place)
    | none => i.shortest fuel (place - 1)

/-- The digits of a positive finite double and the place of the last one. -/
def digits (x : Double) : Nat × Int :=
  let i := x.interval
  let start : Int := (Nat.log2 (i.value / i.denominator + 1) : Int) / 3 + 1
  if i.value < i.denominator then i.shortest 345 0 else i.shortest 345 start

/-- Removes zeros at the end of the digits. -/
def dropZeros : Nat → Nat → Int → Nat × Int
  | 0, d, place => (d, place)
  | fuel + 1, d, place =>
    if d != 0 && d % 10 == 0 then dropZeros fuel (d / 10) (place + 1) else (d, place)

/-- Lays out digits: positional for leading digits from `10 ^ -5` to `10 ^ 15`, with a point in every
case, and with an exponent otherwise. -/
def layout (d : Nat) (place : Int) : String :=
  let (d, place) := dropZeros 330 d place
  let text := toString d
  let lead : Int := place + text.length - 1
  if -5 ≤ lead && lead < 16 then
    if 0 ≤ place then text ++ "".pushn '0' place.toNat ++ ".0"
    else if 0 ≤ lead then
      String.ofList (text.toList.take (lead.toNat + 1)) ++ "." ++
        String.ofList (text.toList.drop (lead.toNat + 1))
    else "0." ++ "".pushn '0' ((-lead).toNat - 1) ++ text
  else
    let tail := text.toList.drop 1
    String.ofList (text.toList.take 1) ++
      (if tail.isEmpty then "" else "." ++ String.ofList tail) ++ "e" ++ toString lead

/-- The text of a finite double. -/
def text (x : Double) : String :=
  let sign := if x.isNegative then "-" else ""
  if x.exponentField == 0 && x.fractionField == 0 then sign ++ "0.0"
  else
    let (d, place) := x.digits
    sign ++ layout d place

end Double

end LuaLens
