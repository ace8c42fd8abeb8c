import LuaLens.Host.Buffer
import LuaLens.Host.View
import LuaLens.Protocol.Request

/-!
Diagnostics as the editor shows them: a mark on one line, and an annotation below it. A server sends
all diagnostics of a document at once, so that each set takes the place of the one before.
-/

namespace LuaLens

open Text

/-- A finding of a server about a document. -/
structure Diagnostic where
  range : Range
  severity : Option Int
  message : String
  /-- All that was sent about it. -/
  document : Json

namespace Diagnostic

/-- The finding of a document in normal form. -/
def ofJson? (j : Json) : Option Diagnostic := do
  let range ← Range.ofJson? (← j.get? "range")
  let message ← (← j.get? "message").str?
  pure { range, severity := (j.get? "severity").bind Json.int?, message, document := j }

/-- What severities are called. -/
def severityName : Int → String
  | 1 => "error"
  | 2 => "warning"
  | 3 => "info"
  | 4 => "hint"
  | _ => "note"

end Diagnostic

/-- A finding in the editor. -/
structure Marker where
  line : Nat
  start : Nat
  stop : Nat
  severity : Int
  message : String
deriving DecidableEq, Repr

namespace Marker

/-- The rows of its annotation. -/
def rows (m : Marker) : Nat := max (lines m.message.toList).length 1

/-- Where a diagnostic stands in a text. One of several lines is marked to the end of its first; one
without severity is an error. -/
def ofDiagnostic (b : Buffer) (d : Diagnostic) : Marker :=
  let text := (b.line? d.range.start.line).getD []
  let start := charsOfUnits text d.range.start.character
  let stop := if d.range.start.line < d.range.stop.line then text.length
    else charsOfUnits text d.range.stop.character
  { line := d.range.start.line, start, stop := max stop start, severity := d.severity.getD 1
    message := d.message }

/-- The order of markers in a text. -/
def before (a b : Marker) : Bool := a.line < b.line || a.line == b.line && a.start ≤ b.start

end Marker

/-- The diagnostics of all documents, and the markers of the one on the screen. -/
structure Diagnostics where
  sets : List (Uri × List Diagnostic) := []
  active : Option Uri := none
  markers : List Marker := []

namespace Diagnostics

def get (d : Diagnostics) (uri : Uri) : List Diagnostic := (d.sets.lookup uri).getD []

/-- Puts a set in the place of the last one of the document. -/
def update (d : Diagnostics) (uri : Uri) (set : List Diagnostic) : Diagnostics :=
  { d with sets := (uri, set) :: d.sets.filter (·.1 != uri) }

def clear (d : Diagnostics) (uri : Uri) : Diagnostics :=
  { d with sets := d.sets.filter (·.1 != uri) }

def clearAll (d : Diagnostics) : Diagnostics := { d with sets := [], markers := [] }

/-- The markers of the active document, in the order of the text. -/
def project (d : Diagnostics) (b : Buffer) : List Marker :=
  let found := (d.active.map d.get).getD []
  (found.map (Marker.ofDiagnostic b)).mergeSort Marker.before

/-- The rows that markers need. -/
def layoutOf (markers : List Marker) : Layout :=
  markers.foldl (fun layout m => layout.add m.line m.rows) []

/-- Draws the markers of the active document anew. -/
def redraw (d : Diagnostics) (b : Buffer) (v : View) : Diagnostics × View :=
  let markers := d.project b
  ({ d with markers }, v.setLayout (layoutOf markers))

/-- Takes over a set, and draws it when its document is the active one. -/
def publish (d : Diagnostics) (uri : Uri) (set : List Diagnostic) (b : Buffer) (v : View) :
    Diagnostics × View × Bool :=
  let isActive := d.active == some uri
  let d := d.update uri set
  if isActive then
    let (d, v) := d.redraw b v
    (d, v, true)
  else (d, v, false)

/-- The set of a document and its identifier, in parameters of normal form. -/
def ofParams? (params : Json) : Option (Uri × List Diagnostic) := do
  let set ← (← (← params.get? "diagnostics").items?).mapM Diagnostic.ofJson?
  pure (← Uri.member? "uri" params, set)

def atLine (d : Diagnostics) (line : Nat) : List Marker := d.markers.filter (·.line == line)

end Diagnostics

end LuaLens
