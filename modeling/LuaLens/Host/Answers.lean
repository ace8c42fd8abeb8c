import LuaLens.Protocol.Types

/-!
What a host shows of the answers of servers, which come in several forms each. All documents are in
normal form.
-/

namespace LuaLens.Answers

/-- The text of a string, or of the value of an object. -/
def valueText : Json → String
  | .str s => s
  | j => ((j.get? "value").bind Json.str?).getD ""

/-- The text of a hover; the parts of several stand on lines of their own. -/
def hoverText (hover : Json) : String :=
  match hover.get? "contents" with
  | some (.arr parts) => "\n".intercalate (parts.map valueText)
  | some j => valueText j
  | none => ""

/-- The place that a link leads to. -/
def linkTarget (j : Json) : Json :=
  match j.get? "targetUri", j.get? "targetSelectionRange" with
  | some uri, some range => .obj [("uri", uri), ("range", range)]
  | _, _ => j

/-- The places of an answer. -/
def places : Json → List Json
  | .arr items => items.map linkTarget
  | j => [j]

/-- A symbol as one of a flat list. -/
def flatSymbol (symbol location : Json) (owner : Option Json) : Json :=
  let keep (name : String) : List (String × Json) :=
    Json.optional name (fun j => j) (symbol.get? name)
  .obj (keep "name" ++ keep "kind" ++ keep "tags" ++ [("location", location)] ++
    Json.optional "containerName" (fun j => j) owner)

/-- Symbols with those inside them, each after the one it is in. -/
def flatten (uri : Json) (owner : Option Json) : Nat → List Json → List Json
  | 0, _ => []
  | depth + 1, symbols => symbols.flatMap fun s =>
      let range := (s.get? "selectionRange").getD .null
      flatSymbol s (.obj [("uri", uri), ("range", range)]) owner ::
        flatten uri (s.get? "name") depth (((s.get? "children").bind Json.items?).getD [])

/-- The symbols of a document. A symbol that has a place of its own is one of a flat list. -/
def documentSymbols (uri : String) (response : Json) : List Json :=
  let symbols := response.items?.getD []
  if symbols.any fun s => (s.get? "location").isSome then symbols
  else flatten (.str uri) none Shape.depth symbols

/-- The symbols of a project; those whose place is only a document are left out. -/
def workspaceSymbols (response : Json) : List Json :=
  let symbols := response.items?.getD []
  if (Shape.listOf Shape.symbolInformation response).isSome then symbols
  else symbols.filterMap fun s => do
    let location ← s.get? "location"
    let _ ← location.get? "range"
    pure (flatSymbol s location (s.get? "containerName"))

/-- The ranges of a chain, innermost first. -/
def chain : Nat → Json → List Json
  | 0, _ => []
  | depth + 1, j =>
    (j.get? "range").toList ++
      (match j.get? "parent" with
        | some parent => chain depth parent
        | none => [])

/-- The ranges around the first place asked about. -/
def selectionRanges (response : Json) : List Json :=
  ((response.items?.getD []).head?.map (chain Shape.depth)).getD []

end LuaLens.Answers
