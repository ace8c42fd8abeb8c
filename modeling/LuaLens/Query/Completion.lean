import LuaLens.Query.Context
import LuaLens.Index.Basic

/-!
Completion: the entries whose names continue what has been typed.
-/

namespace LuaLens.Query

open Text

/-- How an editor presents a completion. -/
inductive ItemKind
  | method
  | function
  | field
  | variable
  | type
  | module
deriving DecidableEq, Repr

def ItemKind.number : ItemKind → Nat
  | .method => 2
  | .function => 3
  | .field => 5
  | .variable => 6
  | .type => 7
  | .module => 9

def itemKind (kind : Symbol.Kind) (isMethodCall : Bool) : ItemKind :=
  match kind with
  | .module => .module
  | .function | .localFunction => if isMethodCall then .method else .function
  | .table => .type
  | .localTable => .variable
  | .field => .field

/-- A proposal for completion. -/
structure Proposal where
  label : String
  kind : ItemKind
  detail : Option String
  documentation : Option String
deriving DecidableEq, Repr

/-- Keeps the first entry of each name. -/
def firstOfEachName : List String → Corpus → Corpus
  | _, [] => []
  | seen, e :: rest =>
    if seen.contains e.tag.name then firstOfEachName seen rest
    else e :: firstOfEachName (e.tag.name :: seen) rest

/-- Whether an entry continues a query whose receiver has the given type, as seen from a file. -/
def fits (label : String) (q : Completing) (receiverType : String) (e : Entry) : Bool :=
  q.partly.toList.isPrefixOf e.tag.name.toList &&
    (receiverType.isEmpty || e.tag.owner == receiverType) &&
    (q.operator != some ':' || e.tag.kind.isCallable) &&
    (!e.tag.kind.isLocal || e.tag.file == label)

/-- The first entry of each name that continues a query. -/
def candidates (entries : Corpus) (label : String) (q : Completing) (receiverType : String) :
    Corpus :=
  firstOfEachName [] (entries.filter (fits label q receiverType))

/-- The description below the header of a documentation. -/
def description (doc : String) : Option String :=
  match splitOnce '\n' doc.toList with
  | some (_, rest) =>
    let body := trim rest
    if body.isEmpty then none else some (String.ofList body)
  | none => none

def Proposal.ofEntry (isMethodCall : Bool) (e : Entry) : Proposal where
  label := e.tag.name
  kind := itemKind e.tag.kind isMethodCall
  detail := if e.api.header.isEmpty then none else some e.api.header
  documentation := description e.api.doc

/-- The type of the receiver of a query: a dotted name stands for itself. -/
def receiverType (text : List Char) (line : Nat) (q : Completing) : String :=
  if q.receiver.toList.contains '.' then q.receiver
  else (inferType text line q.receiver.toList).elim q.receiver String.ofList

/-- The completions at a place of a text. -/
def complete (entries : Corpus) (label : String) (text : String) (p : Position) : List Proposal :=
  let text := text.toList
  let q := Completing.ofLine (lineBefore text p)
  if q.isEmpty then []
  else
    (candidates entries label q (receiverType text p.line q)).map
      (Proposal.ofEntry (q.operator == some ':'))

end LuaLens.Query
