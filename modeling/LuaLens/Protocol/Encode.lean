import LuaLens.Json.Basic
import LuaLens.Query.Signature
import LuaLens.Query.Symbols

/-!
The answers of queries as JSON documents of the protocol. Members without a value are left out.
-/

namespace LuaLens

def Position.toJson (p : Position) : Json :=
  .obj [("line", .nat p.line), ("character", .nat p.character)]

def Range.toJson (r : Range) : Json :=
  .obj [("start", r.start.toJson), ("end", r.stop.toJson)]

namespace Query

def Location.toJson (l : Location) : Json :=
  .obj [("uri", .str l.uri.text), ("range", l.range.toJson)]

/-- Text without markup. -/
def plainText (s : String) : Json := .obj [("kind", .str "plaintext"), ("value", .str s)]

def Proposal.toJson (p : Proposal) : Json :=
  .obj ([("label", .str p.label), ("kind", .nat p.kind.number)] ++
    Json.optional "detail" .str p.detail ++ Json.optional "documentation" plainText p.documentation)

def hoverToJson (doc : String) : Json := .obj [("contents", plainText doc)]

def Signature.toJson (s : Signature) : Json :=
  .obj ([("label", .str s.label)] ++ Json.optional "documentation" plainText s.documentation ++
    [("parameters", .arr (s.parameters.map fun (a, b) =>
        .obj [("label", .arr [.nat a, .nat b])])),
      ("activeParameter", .nat s.activeParameter)])

/-- The first signature is the active one. -/
def signaturesToJson (signatures : List Signature) : Json :=
  .obj [("signatures", .arr (signatures.map Signature.toJson)), ("activeSignature", .nat 0),
    ("activeParameter", .nat (signatures.head?.elim 0 (·.activeParameter)))]

def SymbolPlace.toJson (s : SymbolPlace) : Json :=
  .obj ([("name", .str s.name), ("kind", .nat (symbolNumber s.kind)),
      ("location", s.location.toJson)] ++
    (if s.owner.isEmpty then [] else [("containerName", .str s.owner)]))

/-- A chain of ranges, each inside the next. -/
def chainToJson : List Range → Json
  | [] => .null
  | [r] => .obj [("range", r.toJson)]
  | r :: s :: rest => .obj [("range", r.toJson), ("parent", chainToJson (s :: rest))]

end Query

end LuaLens
