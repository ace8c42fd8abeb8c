/-!
The part of a document on the screen. Annotations stand in rows of their own below their lines, so
the view moves in rows and not in lines.
-/

namespace LuaLens

/-- The number of annotation rows below lines, by line in increasing order. -/
abbrev Layout := List (Nat × Nat)

namespace Layout

/-- Sets the rows below a line. -/
def put (line rows : Nat) : Layout → Layout
  | [] => [(line, rows)]
  | (l, r) :: rest =>
    if line < l then (line, rows) :: (l, r) :: rest
    else if line = l then (line, rows) :: rest
    else (l, r) :: put line rows rest

/-- The layout of a list of lines and rows; the last entry of a line counts. -/
def ofPairs (pairs : List (Nat × Nat)) : Layout :=
  pairs.foldl (fun layout (line, rows) => put line rows layout) []

/-- The rows below a line. -/
def rows (layout : Layout) (line : Nat) : Nat := (layout.lookup line).getD 0

/-- Adds rows below a line. -/
def add (layout : Layout) (line rows : Nat) : Layout := layout.put line (layout.rows line + rows)

/-- The first row of a line. -/
def visualLine (layout : Layout) (line : Nat) : Nat :=
  layout.foldr (fun (l, rows) above => if l < line then rows + above else above) line

/-- The line at a row, and how far below the line itself the row is; `consumed` rows of annotations
stand above. -/
def lineFrom (consumed row : Nat) : Layout → Nat × Nat
  | [] => (row - consumed, 0)
  | (line, rows) :: rest =>
    let start := line + consumed
    if row < start then (row - consumed, 0)
    else if row ≤ start + rows then (line, row - start)
    else lineFrom (consumed + rows) row rest

/-- The line at a row, and how far below the line itself the row is. -/
def lineAt (layout : Layout) (row : Nat) : Nat × Nat := lineFrom 0 row layout

end Layout

structure View where
  rows : Nat
  columns : Nat
  /-- The row at the top. -/
  top : Nat := 0
  /-- The column at the left. -/
  left : Nat := 0
  layout : Layout := []
deriving DecidableEq, Repr

namespace View

/-- Goes back to the beginning of a document without annotations. -/
def reset (v : View) : View := { v with top := 0, left := 0, layout := [] }

/-- Takes another layout. The line at the top stays there, and so does the place in its annotation as
far as that still exists. -/
def setLayout (v : View) (layout : Layout) : View :=
  let (line, below) := v.layout.lineAt v.top
  { v with layout, top := layout.visualLine line + min below (layout.rows line) }

/-- Brings a place to the middle. -/
def reveal (v : View) (line column : Nat) : View :=
  { v with top := v.layout.visualLine line - v.rows / 2, left := column - v.columns / 2 }

end View

end LuaLens
