import LuaLens.Host.Snippet
import LuaLens.Protocol.Types

/-!
The completions on offer, of which one is selected.
-/

namespace LuaLens

/-- A completion. -/
structure Choice where
  label : String
  kind : Option Int
  /-- What is put into the text. -/
  insertion : String
deriving DecidableEq, Repr

namespace Choice

/-- The text that a completion in normal form inserts: that of its edit, else its own, else its label.
Places to fill in are taken out of a snippet. -/
def insertionOf (j : Json) : String :=
  let edit := ((j.get? "textEdit").bind (·.get? "newText")).bind Json.str?
  let own := (j.get? "insertText").bind Json.str?
  let label := ((j.get? "label").bind Json.str?).getD ""
  let text := (edit.or own).getD label
  if (j.get? "insertTextFormat").bind Json.int? == some 2 then
    String.ofList (Snippet.strip text.toList)
  else text

def ofJson (j : Json) : Choice :=
  { label := ((j.get? "label").bind Json.str?).getD ""
    kind := (j.get? "kind").bind Json.int?, insertion := insertionOf j }

/-- What kinds of completions are called. -/
def kindName : Option Int → String
  | some 9 => "module"
  | some 3 => "function"
  | some 2 => "method"
  | some 7 => "table"
  | some 5 => "field"
  | some 6 => "local"
  | _ => ""

/-- A text filled up with blanks. -/
def pad (width : Nat) (s : String) : String :=
  s ++ String.ofList (List.replicate (width - s.length) ' ')

/-- The line that shows the completion. -/
def line (c : Choice) : String := pad 8 (kindName c.kind) ++ " " ++ c.label

end Choice

structure Choices where
  items : List Choice := []
  selected : Nat := 0
deriving Repr

namespace Choices

/-- The completions of an answer in normal form; none for no answer. -/
def ofResponse : Option Json → Choices
  | some (.arr items) => { items := items.map Choice.ofJson }
  | some j => { items := (((j.get? "items").bind Json.items?).getD []).map Choice.ofJson }
  | none => {}

/-- Selects the next one, and the first after the last. -/
def next (c : Choices) : Choices :=
  if c.items.isEmpty then c else { c with selected := (c.selected + 1) % c.items.length }

/-- Selects the one before, and the last before the first. -/
def previous (c : Choices) : Choices :=
  if c.items.isEmpty then c
  else { c with selected := if c.selected = 0 then c.items.length - 1 else c.selected - 1 }

def current? (c : Choices) : Option Choice := c.items[c.selected]?

/-- What the selected completion inserts. -/
def accepted? (c : Choices) : Option String := c.current?.map (·.insertion)

def lines (c : Choices) : List String := c.items.map Choice.line

end Choices

end LuaLens
