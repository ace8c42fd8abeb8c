import LuaLens.Toml.Scalar

/-!
TOML documents. Tables may be opened by a header, by a longer header, or by a dotted key, and each
of them only once; arrays and inline tables are closed when they are written.
-/

namespace LuaLens.Toml

open Text Scan

/-! ### Tables while they are read -/

/-- A member of a table while the document is read. -/
inductive Item
  | value (v : Toml)
  /-- `implied` tables come from a longer header or a dotted key, `dotted` ones from the latter. -/
  | table (implied dotted : Bool) (members : List (String × Item))
  /-- An array of tables, the last one first. -/
  | tables (elements : List (List (String × Item)))
deriving Inhabited

abbrev Items := List (String × Item)

namespace Items

def get? (key : String) (items : Items) : Option Item := (items.find? (·.1 == key)).map (·.2)

def set (key : String) (item : Item) (items : Items) : Items :=
  if items.any (·.1 == key) then items.map fun m => if m.1 == key then (key, item) else m
  else items ++ [(key, item)]

/-- Changes the table that a path leads to, opening tables on the way. `change` is told whether the
table it is given was opened by a dotted key. -/
def update (byDots : Bool) (change : Bool → Items → Option Items) (here : Bool) :
    List String → Items → Option Items
  | [], items => change here items
  | key :: path, items =>
    match items.get? key with
    | none =>
      (update byDots change byDots path []).map fun sub => items.set key (.table true byDots sub)
    | some (.value _) => none
    | some (.tables []) => none
    | some (.tables (last :: before)) =>
      (update byDots change false path last).map fun sub => items.set key (.tables (sub :: before))
    | some (.table implied dotted sub) =>
      if byDots && !implied then none
      else
        (update byDots change dotted path sub).map fun sub =>
          items.set key (.table implied dotted sub)

/-- Adds a member by a dotted key. -/
def insert (path : List String) (key : String) (item : Item) (items : Items) : Option Items :=
  let add := fun dotted found =>
    if dotted == path.isEmpty then none
    else if (Items.get? key found).isSome then none
    else some (found.set key item)
  items.update true add false path

/-- Opens the table of a header. -/
def openTable (path : List String) (items : Items) : Option Items :=
  match path.getLast? with
  | none => none
  | some key =>
    let enter := fun _ (found : Items) =>
      match Items.get? key found with
      | none => some (found.set key (.table false false []))
      | some (.table true false sub) => some (found.set key (.table false false sub))
      | some _ => none
    items.update false enter false path.dropLast

/-- Opens the next table of an array of tables. -/
def openElement (path : List String) (items : Items) : Option Items :=
  match path.getLast? with
  | none => none
  | some key =>
    let enter := fun _ (found : Items) =>
      match Items.get? key found with
      | none => some (found.set key (.tables [[]]))
      | some (.tables elements) => some (found.set key (.tables ([] :: elements)))
      | some _ => none
    items.update false enter false path.dropLast

/-- Adds a member to the table of the last header. -/
def insertBelow (header path : List String) (key : String) (item : Item) (items : Items) :
    Option Items :=
  items.update false (fun _ found => found.insert path key item) false header

end Items

mutual

def Item.toToml : Item → Toml
  | .value v => v
  | .table _ _ members => .table (membersToToml members)
  | .tables elements => .arr (elementsToToml elements)

def membersToToml : List (String × Item) → List (String × Toml)
  | [] => []
  | (key, item) :: rest => (key, item.toToml) :: membersToToml rest

/-- The elements in the order of the text. -/
def elementsToToml : List (List (String × Item)) → List Toml
  | [] => []
  | e :: rest => elementsToToml rest ++ [.table (membersToToml e)]

end

/-! ### Keys and values -/

def isBareKey (c : Char) : Bool := c.isAlphanum || c == '_' || c == '-'

def simpleKey : Scan String
  | '"' :: s => basicTail (s.length + 1) [] s
  | '\'' :: s => literalTail s
  | s => (many1 isBareKey s).map fun (cs, s) => (String.ofList cs, s)

/-- How deep values may nest, and how many parts a key may have. -/
def maxDepth : Nat := 80

/-- The parts of a dotted key. -/
def keyParts : Nat → Scan (List String)
  | 0 => failure
  | fuel + 1 => do
    ws
    let part ← simpleKey
    ws
    (do word "."; pure (part :: (← keyParts fuel))) <|> pure [part]

def key : Scan (List String) := keyParts maxDepth

/-- White space, comments and line endings between the elements of an array. -/
def filler : Scan Unit := fun s =>
  let rec go : Nat → List Char → List Char
    | 0, s => s
    | fuel + 1, s =>
      let s := s.dropWhile isWs
      match s with
      | '#' :: _ =>
        match (comment s).bind fun (_, r) => newline r with
        | some (_, r) => go fuel r
        | none => s
      | _ =>
        match newline s with
        | some (_, r) => go fuel r
        | none => s
  some ((), go (s.length + 1) s)

mutual

/-- A value. The fuel bounds the steps, `depth` the nesting that is still allowed. -/
def value : (fuel depth : Nat) → Scan Toml
  | 0, _ => failure
  | fuel + 1, depth => fun s =>
    match s with
    | '[' :: s =>
      match depth with
      | 0 => none
      | depth + 1 => (elements fuel depth [] s).map fun (items, s) => (.arr items, s)
    | '\x7b' :: s =>
      match depth with
      | 0 => none
      | depth + 1 =>
        match s.dropWhile isWs with
        | '\x7d' :: s => some (.table [], s)
        | s => (pairs fuel depth [] s).map fun (items, s) => (.table (membersToToml items), s)
    | s => scalar s

/-- The elements of an array, to its end. -/
def elements : (fuel depth : Nat) → List Toml → Scan (List Toml)
  | 0, _, _ => failure
  | fuel + 1, depth, read => fun s =>
    match filler s with
    | some (_, ']' :: s) => some (read.reverse, s)
    | some (_, s) =>
      match value fuel depth s with
      | none => none
      | some (v, s) =>
        match filler s with
        | some (_, ',' :: s) => elements fuel depth (v :: read) s
        | some (_, ']' :: s) => some ((v :: read).reverse, s)
        | _ => none
    | none => none

/-- The members of an inline table, to its end. -/
def pairs : (fuel depth : Nat) → Items → Scan Items
  | 0, _, _ => failure
  | fuel + 1, depth, read => fun s =>
    match key s with
    | some (path, '=' :: s) =>
      match value fuel depth (s.dropWhile isWs) with
      | none => none
      | some (v, s) =>
        match read.insert path.dropLast (path.getLastD "") (.value v) with
        | none => none
        | some read =>
          match s.dropWhile isWs with
          | ',' :: s => pairs fuel depth read s
          | '\x7d' :: s => some (read, s)
          | _ => none
    | _ => none

end

/-! ### Lines -/

/-- What a line of a document says. -/
inductive Line
  | blank
  | header (path : List String)
  | element (path : List String)
  | member (path : List String) (key : String) (v : Toml)

/-- A line up to its comment. -/
def line : Scan Line := fun s =>
  match s.dropWhile isWs with
  | [] => some (.blank, [])
  | '#' :: s => some (.blank, '#' :: s)
  | '\n' :: s => some (.blank, '\n' :: s)
  | '\r' :: s => some (.blank, '\r' :: s)
  | '[' :: '[' :: s =>
    match key s with
    | some (path, ']' :: ']' :: s) => some (.element path, s)
    | _ => none
  | '[' :: s =>
    match key s with
    | some (path, ']' :: s) => some (.header path, s)
    | _ => none
  | s =>
    match key s with
    | some (path, '=' :: s) =>
      (value (2 * s.length + 2) maxDepth (s.dropWhile isWs)).map fun (v, s) =>
        (.member path.dropLast (path.getLastD "") v, s)
    | _ => none

/-- A document while it is read: its members, and the path of the last header. -/
structure Draft where
  items : Items := []
  header : List String := []

def Draft.add (d : Draft) : Line → Option Draft
  | .blank => some d
  | .header path => (d.items.openTable path).map fun items => { items, header := path }
  | .element path => (d.items.openElement path).map fun items => { items, header := path }
  | .member path key v =>
    (d.items.insertBelow d.header path key (.value v)).map fun items => { d with items }

/-- Reads lines to the end of the text. -/
def lines : Nat → Draft → List Char → Option Draft
  | 0, _, _ => none
  | fuel + 1, d, s =>
    match line s with
    | none => none
    | some (l, s) =>
      match d.add l with
      | none => none
      | some d =>
        let s := s.dropWhile isWs
        let s := ((comment s).map (·.2)).getD s
        match s with
        | [] => some d
        | s =>
          match newline s with
          | some (_, s) => lines fuel d s
          | none => none

/-- The members of a document. -/
def parse? (text : String) : Option (List (String × Toml)) :=
  let s := text.toList
  let s := (['\uFEFF'].isPrefixOf? s).getD s
  (lines (s.length + 1) {} s).map fun d => membersToToml d.items

end LuaLens.Toml
