import LuaLens.Protocol.Types

/-!
What a server sends without being asked: events for the host, and requests to the client, which are
answered at once with as little as possible.
-/

namespace LuaLens

/-- A message of a server, kept for the host. Parameters are in normal form. -/
inductive Event
  | diagnostics (params : Json)
  | showMessage (params : Json)
  | logMessage (params : Json)
  | progress (params : Json)
  /-- A request that was answered already. -/
  | answered (id : RequestId) (method : String)
  | unknown (method : String) (params : Json)

namespace Event

/-- The event of a notification. Parameters that do not fit their method make it unknown. -/
def ofNotification (n : Notification) : Event :=
  let typed : Option Event :=
    match n.method with
    | "textDocument/publishDiagnostics" => (Shape.publishDiagnostics n.params).map .diagnostics
    | "window/showMessage" => (Shape.showMessage n.params).map .showMessage
    | "window/logMessage" => (Shape.showMessage n.params).map .logMessage
    | "$/progress" => (Shape.progress n.params).map .progress
    | _ => none
  typed.getD (.unknown n.method n.params)

/-- What kind of event it is. -/
def kind : Event → String
  | .diagnostics _ => "Diagnostics"
  | .showMessage _ => "ShowMessage"
  | .logMessage _ => "LogMessage"
  | .progress _ => "Progress"
  | .answered .. => "Request"
  | .unknown .. => "Unknown"

/-- The parameters, or the id of an answered request. -/
def value : Event → Json
  | .diagnostics params | .showMessage params | .logMessage params | .progress params => params
  | .answered id _ => id.toJson
  | .unknown _ params => params

def method : Event → String
  | .diagnostics _ => "textDocument/publishDiagnostics"
  | .showMessage _ => "window/showMessage"
  | .logMessage _ => "window/logMessage"
  | .progress _ => "$/progress"
  | .answered _ method | .unknown method _ => method

end Event

/-! ### Requests of a server -/

inductive ServerRequest
  /-- Asks for settings: how many of them. -/
  | configuration (items : Nat)
  | createProgress
  | register
  | unregister
  | showMessage
  | applyEdit
  | unknown (method : String)
deriving DecidableEq, Repr

namespace ServerRequest

/-- What kind of request it is. -/
def kind : ServerRequest → String
  | .configuration _ => "Configuration"
  | .createProgress => "WorkDoneProgressCreate"
  | .register => "RegisterCapability"
  | .unregister => "UnregisterCapability"
  | .showMessage => "ShowMessageRequest"
  | .applyEdit => "ApplyEdit"
  | .unknown _ => "Unknown"

def ofRequest (r : Request) : ServerRequest :=
  match r.method with
  | "workspace/configuration" =>
    match ((Shape.configurationRequest r.params).bind (·.get? "items")).bind Json.items? with
    | some items => .configuration items.length
    | none => .unknown r.method
  | "window/workDoneProgress/create" => .createProgress
  | "client/registerCapability" => .register
  | "client/unregisterCapability" => .unregister
  | "window/showMessageRequest" => .showMessage
  | "workspace/applyEdit" => .applyEdit
  | method => .unknown method

/-- The answer of a client that has no settings and applies no edits. -/
def answer (id : RequestId) : ServerRequest → Response
  | .configuration items => .ok id (.arr (List.replicate items .null))
  | .createProgress | .register | .unregister | .showMessage => .ok id .null
  | .applyEdit => .ok id (.obj [("applied", .bool false)])
  | .unknown method => .fail id (-32601) ("unsupported request: " ++ method)

end ServerRequest

end LuaLens
