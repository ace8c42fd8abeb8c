import LuaLens.Protocol.Params
import LuaLens.Protocol.Position

/-!
What a client asks of a server and tells it: the requests and notifications by their meaning.
-/

namespace LuaLens

/-! ### Views of documents in normal form -/

def Position.ofJson? (j : Json) : Option Position := do
  let line ← (← j.get? "line").nat?
  let character ← (← j.get? "character").nat?
  pure { line, character }

def Range.ofJson? (j : Json) : Option Range := do
  let start ← Position.ofJson? (← j.get? "start")
  let stop ← Position.ofJson? (← j.get? "end")
  pure { start, stop }

namespace Uri

def ofJson? (j : Json) : Option Uri := j.str?.bind parse?

/-- The identifier in a member of a document. -/
def member? (name : String) (j : Json) : Option Uri := (j.get? name).bind ofJson?

end Uri

/-- A place in a document. -/
structure Place where
  uri : Uri
  position : Position
deriving DecidableEq, Repr

/-- The identifier of the document that parameters are about. -/
def documentUri? (params : Json) : Option Uri :=
  (params.get? "textDocument").bind (Uri.member? "uri")

def Place.ofJson? (params : Json) : Option Place := do
  pure { uri := ← documentUri? params, position := ← Position.ofJson? (← params.get? "position") }

/-! ### Requests -/

inductive ClientRequest
  /-- The root that is asked for, if there is one. -/
  | setUp (root : Option Path)
  | shutdown
  | completion (place : Place)
  | hover (place : Place)
  | signatureHelp (place : Place)
  | definition (place : Place)
  | declaration (place : Place)
  | documentSymbol (uri : Uri)
  | workspaceSymbol (query : String)
  | selectionRange (uri : Uri) (positions : List Position)
  /-- Understood, and always answered with nothing. -/
  | noResult (method : String)
  | unknown (method : String)
deriving DecidableEq, Repr

namespace ClientRequest

/-- What kind of request it is. -/
def kind : ClientRequest → String
  | .setUp _ => "Initialize"
  | .shutdown => "Shutdown"
  | .completion _ => "Completion"
  | .hover _ => "Hover"
  | .signatureHelp _ => "SignatureHelp"
  | .definition _ => "Definition"
  | .declaration _ => "Declaration"
  | .documentSymbol _ => "DocumentSymbol"
  | .workspaceSymbol _ => "WorkspaceSymbol"
  | .selectionRange .. => "SelectionRange"
  | .noResult _ => "NoResult"
  | .unknown _ => "Unknown"

/-- The shape of the parameters of a method, when they matter. -/
def shape? : String → Option Shape
  | "initialize" => some Shape.initializeParams
  | "textDocument/completion" => some Shape.completionParams
  | "textDocument/hover" => some Shape.hoverParams
  | "textDocument/signatureHelp" => some Shape.signatureParams
  | "textDocument/definition" | "textDocument/declaration" => some Shape.definitionParams
  | "textDocument/documentSymbol" => some Shape.documentSymbolParams
  | "workspace/symbol" => some Shape.workspaceSymbolParams
  | "textDocument/selectionRange" => some Shape.selectionRangeParams
  | _ => none

/-- The root in the parameters of `initialize`: an identifier, else a path, else the first folder. -/
def root? (params : Json) : Option Path :=
  let folder := ((params.get? "workspaceFolders").bind Json.items?).bind List.head?
  ((Uri.member? "rootUri" params).bind Uri.toPath?).or
    ((((params.get? "rootPath").bind Json.str?).map Path.mk).or
      ((folder.bind (Uri.member? "uri")).bind Uri.toPath?))

def noResultMethods : List String :=
  ["textDocument/typeDefinition", "textDocument/implementation", "textDocument/references",
    "textDocument/linkedEditingRange"]

/-- The request of a method and parameters in normal form. -/
def ofNormal? (method : String) (params : Json) : Option ClientRequest :=
  match method with
  | "initialize" => some (.setUp (root? params))
  | "shutdown" => some .shutdown
  | "textDocument/completion" => (Place.ofJson? params).map .completion
  | "textDocument/hover" => (Place.ofJson? params).map .hover
  | "textDocument/signatureHelp" => (Place.ofJson? params).map .signatureHelp
  | "textDocument/definition" => (Place.ofJson? params).map .definition
  | "textDocument/declaration" => (Place.ofJson? params).map .declaration
  | "textDocument/documentSymbol" => (documentUri? params).map .documentSymbol
  | "workspace/symbol" => ((params.get? "query").bind Json.str?).map .workspaceSymbol
  | "textDocument/selectionRange" => do
    let positions ← (← (← params.get? "positions").items?).mapM Position.ofJson?
    pure (.selectionRange (← documentUri? params) positions)
  | method => some (if noResultMethods.contains method then .noResult method else .unknown method)

/-- The request of a method and its parameters; `none` when they do not fit it. -/
def parse? (method : String) (params : Json) : Option ClientRequest :=
  match shape? method with
  | some shape => (shape params).bind (ofNormal? method)
  | none => ofNormal? method params

end ClientRequest

/-! ### Notifications -/

inductive ClientNotification
  | initialized
  | exit
  | didOpen (uri : Uri) (text : String)
  /-- The text after the last change, if there was one. -/
  | didChange (uri : Uri) (text : Option String)
  | didSave (uri : Uri) (text : Option String)
  | didClose (uri : Uri)
  | unknown (method : String)
deriving DecidableEq, Repr

namespace ClientNotification

/-- What kind of notification it is. -/
def kind : ClientNotification → String
  | .initialized => "Initialized"
  | .exit => "Exit"
  | .didOpen .. => "DidOpen"
  | .didChange .. => "DidChange"
  | .didSave .. => "DidSave"
  | .didClose _ => "DidClose"
  | .unknown _ => "Unknown"

def shape? : String → Option Shape
  | "textDocument/didOpen" => some Shape.didOpenParams
  | "textDocument/didChange" => some Shape.didChangeParams
  | "textDocument/didSave" => some Shape.didSaveParams
  | "textDocument/didClose" => some Shape.didCloseParams
  | _ => none

/-- The notification of a method and parameters in normal form. -/
def ofNormal? (method : String) (params : Json) : Option ClientNotification :=
  match method with
  | "initialized" => some .initialized
  | "exit" => some .exit
  | "textDocument/didOpen" => do
    let text ← ((← params.get? "textDocument").get? "text").bind Json.str?
    pure (.didOpen (← documentUri? params) text)
  | "textDocument/didChange" => do
    let changes ← (← params.get? "contentChanges").items?
    let text := (changes.getLast?.bind (·.get? "text")).bind Json.str?
    pure (.didChange (← documentUri? params) text)
  | "textDocument/didSave" => do
    pure (.didSave (← documentUri? params) ((params.get? "text").bind Json.str?))
  | "textDocument/didClose" => (documentUri? params).map .didClose
  | method => some (.unknown method)

/-- The notification of a method and its parameters; `none` when they do not fit it. -/
def parse? (method : String) (params : Json) : Option ClientNotification :=
  match shape? method with
  | some shape => (shape params).bind (ofNormal? method)
  | none => ofNormal? method params

end ClientNotification

end LuaLens
