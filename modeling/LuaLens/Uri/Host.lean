import LuaLens.Uri.Percent

/-!
Hosts of resource identifiers: names, addresses of four bytes, addresses of eight words.
-/

namespace LuaLens.Host

/-! ### Addresses of four bytes -/

/-- A number in decimal, octal after `0`, or hexadecimal after `0x`. -/
def number? (s : List Char) : Option Nat :=
  let (base, digits) := match s with
    | '0' :: 'x' :: t => (16, t)
    | '0' :: 'X' :: t => (16, t)
    | '0' :: c :: t => (8, c :: t)
    | t => (10, t)
  if s.isEmpty then none
  else digits.foldlM (fun n c =>
    (Percent.hexValue? c).bind fun d => if d < base then some (n * base + d) else none) 0

/-- The parts of a name, without an empty one at the end. -/
def dotParts (s : List Char) : List (List Char) :=
  let parts := Text.splitAll '.' s
  if 1 < parts.length && (parts.getLastD []).isEmpty then parts.dropLast else parts

/-- Whether the last part of a name is a number, so that the name must be an address. -/
def endsInNumber (s : List Char) : Bool :=
  let last := (dotParts s).getLastD []
  (!last.isEmpty && last.all Char.isDigit) ||
    (("0x".toList.isPrefixOf last || "0X".toList.isPrefixOf last) && (number? last).isSome)

def ipv4? (s : List Char) : Option (List Char) := do
  let parts := dotParts s
  if 4 < parts.length then none
  let numbers ← parts.mapM number?
  let last ← numbers.getLast?
  let front := numbers.dropLast
  if front.any (255 < ·) then none
  if Nat.pow 256 (5 - numbers.length) ≤ last then none
  let value := front.zipIdx.foldl (fun v (n, i) => v + n * Nat.pow 256 (3 - i)) last
  let bytes := [value / 16777216, value / 65536 % 256, value / 256 % 256, value % 256]
  pure (Text.join ['.'] (bytes.map fun n => (toString n).toList))

/-! ### Addresses of eight words -/

/-- Up to four hexadecimal digits. -/
def word? (s : List Char) : Option Nat :=
  if s.isEmpty || 4 < s.length then none
  else s.foldlM (fun n c => (Percent.hexValue? c).map (n * 16 + ·)) 0

/-- A decimal byte without zeros in front. -/
def byte? (s : List Char) : Option Nat :=
  if s.isEmpty || !s.all Char.isDigit || (1 < s.length && s.head? == some '0') then none
  else
    let n := s.foldl (fun n c => n * 10 + (c.toNat - 48)) 0
    if n ≤ 255 then some n else none

/-- The words of a part without `::`; the last may be an address of four bytes. -/
def words? (s : List Char) : Option (List Nat) :=
  if s.isEmpty then some []
  else
    let parts := Text.splitAll ':' s
    let last := parts.getLastD []
    if last.contains '.' then do
      let front ← parts.dropLast.mapM word?
      match ← (Text.splitAll '.' last).mapM byte? with
      | [a, b, c, d] => pure (front ++ [a * 256 + b, c * 256 + d])
      | _ => none
    else parts.mapM word?

/-- The eight words of an address. -/
def ipv6Words? (s : List Char) : Option (List Nat) :=
  match Text.cut [':', ':'] s with
  | none => (words? s).bind fun ws => if ws.length == 8 then some ws else none
  | some (front, back) => do
    let a ← words? front
    let b ← words? back
    if front.contains '.' then none
    else if 8 ≤ a.length + b.length then none
    else pure (a ++ List.replicate (8 - a.length - b.length) 0 ++ b)

/-- The start and length of the first longest run of zeros. -/
def zeroRun (ws : List Nat) : Nat × Nat :=
  (List.range ws.length).foldl (fun best i =>
    let n := ((ws.drop i).takeWhile (· == 0)).length
    if best.2 < n then (i, n) else best) (0, 0)

def hexText (n : Nat) : List Char := Nat.toDigits 16 n

def ipv6? (s : List Char) : Option (List Char) := do
  let ws ← ipv6Words? s
  let (start, size) := zeroRun ws
  let show' := fun l => Text.join [':'] (l.map hexText)
  let body := if size < 2 then show' ws
    else show' (ws.take start) ++ [':', ':'] ++ show' (ws.drop (start + size))
  pure ('[' :: body ++ [']'])

/-! ### Names -/

/-- Not allowed in any host. -/
def isForbidden (c : Char) : Bool :=
  ['\x00', '\t', '\n', '\r', ' ', '#', '/', ':', '<', '>', '?', '@', '[', '\\', ']', '^', '|'].contains c

/-- Not allowed in a host that is a domain. -/
def isForbiddenInDomain (c : Char) : Bool :=
  isForbidden c || c == '%' || c.toNat < 32 || c.toNat == 127

/-- The host of a scheme that knows domains. Domains are in lower case and within ASCII. -/
def domain? (s : List Char) : Option (List Char) :=
  match s with
  | '[' :: rest =>
    if rest.getLast? == some ']' then ipv6? rest.dropLast else none
  | s => do
    let decoded ← String.fromUTF8? ⟨(Percent.decode s).toArray⟩
    let name := decoded.toList.map Char.toLower
    if name.isEmpty || name.any fun c => isForbiddenInDomain c || 127 < c.toNat then none
    else if endsInNumber name then ipv4? name
    else pure name

/-- The host of any other scheme. -/
def plainHost? (s : List Char) : Option (List Char) :=
  match s with
  | '[' :: rest => if rest.getLast? == some ']' then ipv6? rest.dropLast else none
  | s => if s.any isForbidden then none else some (Percent.encode (fun _ => false) s)

end LuaLens.Host
