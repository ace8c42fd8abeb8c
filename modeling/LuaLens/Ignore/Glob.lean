import LuaLens.Text.Basic

/-!
Glob patterns for paths: `?` and `*` inside a component, `**` across components, classes and
alternates. Patterns are read as characters and matched as bytes, so a class or `?` stands for a
single byte.
-/

namespace LuaLens

namespace Glob

inductive Token
  | literal (c : Char)
  | any
  | star
  /-- `**/` at the front: any directories, or none. -/
  | anyDirs
  /-- `/**` at the end: all that is below. -/
  | allBelow
  /-- `/**/` between two parts. -/
  | between
  | oneOf (negated : Bool) (ranges : List (Char × Char))
  | alternates (branches : List (List Token))
deriving Inhabited, Repr

end Glob

/-- A pattern, read. -/
abbrev Glob := List Glob.Token

namespace Glob

/-! ### Reading -/

/-- The state of the reader: the open alternates, innermost first, with their finished branches, and
the branch being read, last token first. -/
structure Reader where
  outer : List (List (List Token) × List Token) := []
  branches : List (List Token) := []
  current : List Token := []
  previous : Option Char := none
  /-- Set once a class has been found without its end; from there on `[` stands for itself. -/
  openClass : Bool := false

namespace Reader

def push (r : Reader) (t : Token) : Reader := { r with current := t :: r.current }

def isNested (r : Reader) : Bool := !r.outer.isEmpty

/-- Opens alternates. -/
def descend (r : Reader) : Reader :=
  { r with outer := (r.branches, r.current) :: r.outer, branches := [], current := [] }

/-- Closes alternates. -/
def ascend? (r : Reader) : Option Reader :=
  match r.outer with
  | [] => none
  | (branches, current) :: outer =>
    let group := (r.current.reverse :: r.branches).reverse
    some { r with outer, branches, current := .alternates group :: current }

/-- A comma: a new branch inside alternates, itself elsewhere. -/
def comma (r : Reader) : Reader :=
  if r.isNested then { r with branches := r.current.reverse :: r.branches, current := [] }
  else r.push (.literal ',')

/-- Two stars, with what follows them. Returns the reader and whether a slash is used up. -/
def doubleStar (r : Reader) (next : Option Char) : Reader × Bool :=
  let plain := ((r.push .star).push .star, false)
  if r.current.isEmpty then
    match next with
    | none => (r.push .anyDirs, false)
    | some '/' => (r.push .anyDirs, true)
    | some _ => plain
  else if r.previous != some '/' && !(r.isNested && r.previous.any (fun c => c == ',' || c == '\x7b'))
  then plain
  else
    let replaceLast (t : Token) : Reader :=
      match r.current with
      | .anyDirs :: _ | .allBelow :: _ => r
      | _ :: rest => { r with current := t :: rest }
      | [] => r.push t
    match next with
    | none => (replaceLast .allBelow, false)
    | some '/' => (replaceLast .between, true)
    | some c => if r.isNested && (c == ',' || c == '\x7d') then (replaceLast .allBelow, false) else plain

end Reader

/-- What reading a class may end in. -/
inductive ClassResult
  | closed (ranges : List (Char × Char)) (rest : List Char)
  | unclosed
  | badRange

/-- The ranges of a class after its `[` and sign. `ranges` holds the last one first. -/
def readClass (ranges : List (Char × Char)) (first inRange : Bool) : List Char → ClassResult
  | [] => .unclosed
  | c :: s =>
    if c == ']' && !first then
      .closed (if inRange then (('-', '-') :: ranges).reverse else ranges.reverse) s
    else if c == '-' && !first && !inRange then readClass ranges false true s
    else if inRange then
      match ranges with
      | (lo, _) :: rest => if c < lo then .badRange else readClass ((lo, c) :: rest) false false s
      | [] => readClass [(c, c)] false false s
    else readClass ((c, c) :: ranges) false false s

theorem readClass_rest {ranges : List (Char × Char)} {first inRange : Bool} {s : List Char}
    {found : List (Char × Char)} {rest : List Char}
    (h : readClass ranges first inRange s = .closed found rest) : rest.length < s.length := by
  induction s generalizing ranges first inRange with
  | nil => simp [readClass] at h
  | cons c s ih =>
    unfold readClass at h
    split at h
    · simp only [ClassResult.closed.injEq] at h
      simp [h.2]
    · split at h
      · exact Nat.lt_succ_of_lt (ih h)
      · split at h
        · split at h
          · split at h
            · cases h
            · exact Nat.lt_succ_of_lt (ih h)
          · exact Nat.lt_succ_of_lt (ih h)
        · exact Nat.lt_succ_of_lt (ih h)

/-- The sign of a class, and what follows it. -/
def classSign : List Char → Bool × List Char
  | '!' :: s => (true, s)
  | '^' :: s => (true, s)
  | s => (false, s)

theorem classSign_rest (s : List Char) : (classSign s).2.length ≤ s.length := by
  unfold classSign
  split <;> simp

/-- Reads a pattern. A class without end starts with a literal `[`. Fails on a range that runs
backwards, on alternates that do not pair up, and on a backslash at the end. -/
def read (r : Reader) : List Char → Option Glob
  | [] => if r.isNested then none else some r.current.reverse
  | '?' :: s => read { r.push .any with previous := some '?' } s
  | '*' :: '*' :: '/' :: s =>
    let (r', used) := r.doubleStar (some '/')
    if used then read { r' with previous := some '/' } s
    else read { r'.push (.literal '/') with previous := some '/' } s
  | '*' :: '*' :: s => read { (r.doubleStar s.head?).1 with previous := some '*' } s
  | '*' :: s => read { r.push .star with previous := some '*' } s
  | '\x7b' :: s => read { r.descend with previous := some '\x7b' } s
  | '\x7d' :: s =>
    match r.ascend? with
    | some r => read { r with previous := some '\x7d' } s
    | none => none
  | ',' :: s => read { r.comma with previous := some ',' } s
  | '\\' :: c :: s => read { r.push (.literal c) with previous := some c } s
  | ['\\'] => none
  | '[' :: s =>
    if r.openClass then read { r.push (.literal '[') with previous := some '[' } s
    else
      match h : readClass [] true false (classSign s).2 with
      | .closed ranges rest =>
        have : rest.length ≤ s.length := by
          have := readClass_rest h
          have := classSign_rest s
          omega
        read { r.push (.oneOf (classSign s).1 ranges) with previous := some ']' } rest
      | .unclosed =>
        read { r.push (.literal '[') with openClass := true, previous := some '[' } s
      | .badRange => none
  | c :: s => read { r.push (.literal c) with previous := some c } s
termination_by s => s.length
decreasing_by
  all_goals
    simp only [List.length_cons]
    omega

/-- The pattern that a text stands for. -/
def parse? (text : List Char) : Option Glob := read {} text

/-! ### Matching -/

def bytesOf (c : Char) : List UInt8 := (String.singleton c).toUTF8.toList

def slash : UInt8 := 47

/-- The byte ranges that a range of characters stands for: the bytes of its ends one by one, and what
lies between the last byte of the one and the first of the other. -/
def byteRanges (range : Char × Char) : List (UInt8 × UInt8) :=
  let lo := bytesOf range.1
  if range.1 == range.2 then lo.map fun b => (b, b)
  else
    let hi := bytesOf range.2
    lo.dropLast.map (fun b => (b, b)) ++ [(lo.getLastD 0, hi.headD 0)] ++
      hi.tail.map (fun b => (b, b))

/-- All ends of a list, longest first. -/
def suffixes {α : Type} : List α → List (List α)
  | [] => [[]]
  | a :: s => (a :: s) :: suffixes s

/-- The ends before which the list has no slash. -/
def withinComponent : List UInt8 → List (List UInt8)
  | [] => [[]]
  | b :: s => if b == slash then [b :: s] else (b :: s) :: withinComponent s

/-- What may be left after any directories and a slash. -/
def afterSlashes : List UInt8 → List (List UInt8)
  | [] => []
  | b :: s => if b == slash then s :: afterSlashes s else afterSlashes s

/-- Keeps one of the ends of each length. -/
def distinct : List (List UInt8) → List (List UInt8)
  | [] => []
  | s :: rest => if rest.any (·.length == s.length) then distinct rest else s :: distinct rest

mutual

/-- What may be left of a path after a token. -/
def Token.ends : Token → List UInt8 → List (List UInt8)
  | .literal c, s => ((bytesOf c).isPrefixOf? s).toList
  | .any, s =>
    match s with
    | b :: rest => if b == slash then [] else [rest]
    | [] => []
  | .star, s => withinComponent s
  | .anyDirs, s => s :: afterSlashes s
  | .allBelow, s =>
    match s with
    | b :: rest => if b == slash then suffixes rest else []
    | [] => []
  | .between, s =>
    match s with
    | b :: rest => if b == slash then rest :: afterSlashes rest else []
    | [] => []
  | .oneOf negated ranges, s =>
    match s with
    | b :: rest =>
      let inside := (ranges.flatMap byteRanges).any fun (lo, hi) => lo ≤ b && b ≤ hi
      if inside != negated then [rest] else []
    | [] => []
  | .alternates branches, s =>
    let filled := branchEnds branches s
    if hasFilled branches then filled else [s]

/-- What may be left after one of the branches; empty branches do not count. -/
def branchEnds : List (List Token) → List UInt8 → List (List UInt8)
  | [], _ => []
  | branch :: rest, s =>
    (if branch.isEmpty then [] else listEnds branch [s]) ++ branchEnds rest s

/-- What may be left after all of the tokens. -/
def listEnds : List Token → List (List UInt8) → List (List UInt8)
  | [], starts => starts
  | t :: rest, starts => listEnds rest (distinct (starts.flatMap fun s => t.ends s))

/-- Whether a branch is not empty. -/
def hasFilled : List (List Token) → Bool
  | [] => false
  | branch :: rest => !branch.isEmpty || hasFilled rest

end

/-- Whether the tokens end in an extension that is written out, so that a path must have it. -/
def endsInExtension (g : Glob) : Bool :=
  let literals := g.reverse.map fun t =>
    match t with
    | .literal c => some c
    | _ => none
  match literals.find? fun c => c == none || c == some '/' || c == some '.' with
  | some (some '.') => true
  | _ => false

/-- Whether the pattern is a bare name in any directory. -/
def isBareName (g : Glob) : Bool :=
  match g with
  | .anyDirs :: rest => !rest.isEmpty && rest.all fun t =>
      match t with
      | .literal c => c != '/'
      | _ => false
  | _ => false

/-- Whether a path of bytes matches. A path that ends in a dot has no file name and no extension, so
it matches no bare name and no pattern that ends in an extension. -/
def matches? (g : Glob) (path : List UInt8) : Bool :=
  match g with
  | [.anyDirs] => true
  | _ =>
    if path.getLast? == some 46 && (g.isBareName || g.endsInExtension) then false
    else (listEnds g [path]).any (·.isEmpty)

end Glob

end LuaLens
