import LuaLens.Host.Buffer
import LuaLens.Host.Command
import LuaLens.Protocol.Encode
import LuaLens.Protocol.Request
import LuaLens.Wire.Connection

/-!
The client of one server: the handshake, which documents the server has been shown in which version,
and the requests about them. Nothing but the handshake is sent before it is over.
-/

namespace LuaLens

/-- Why a call of a client fails. -/
inductive ClientFault
  /-- An answer does not have its shape. -/
  | json
  | link (fault : LinkFault)
  | startup (command reason : String)
  | protocol (message : String)
  | notInitialized
  | unsaved
deriving DecidableEq, Repr

namespace ClientFault

def message : ClientFault → String
  | .json => "JSON error"
  | .link fault => "Transport error: " ++ fault.message
  | .startup command reason => "Failed to start " ++ command ++ ": " ++ reason
  | .protocol message => "LSP protocol error: " ++ message
  | .notInitialized => "Server not initialized"
  | .unsaved => "Buffer has no file path"

/-- Whether the server itself refused the request. -/
def isRefusal : ClientFault → Bool
  | .link (.server ..) => true
  | _ => false

end ClientFault

/-- A client of the server of one language and root. -/
structure Client (π : Type) where
  language : String
  root : Path
  link : Connection π
  abilities : Abilities := {}
  initialized : Bool := false
  /-- The documents shown to the server, with the versions last sent. -/
  opened : List (Uri × Int) := []

/-- Steps over a state that may wait for something that does not come; what was done before stays
done. -/
abbrev Waiting (σ : Type) := OptionT (StateM σ)

/-- A call of a client: it may fail, or wait for an answer that does not come. -/
abbrev Call (π : Type) := ExceptT ClientFault (Waiting (Client π × World))

namespace Client

variable {π : Type} [Peer π]

/-- A client on a connection, before the handshake. -/
def connect (language : String) (root : Path) (link : Connection π) : Client π :=
  { language, root, link }

/-- Whether the server may still answer. -/
def isRunning (c : Client π) : Bool := !c.link.isClosed

def isOpen (c : Client π) (uri : Uri) : Bool := (c.opened.lookup uri).isSome

/-! ### Sending -/

/-- Sends a request, initialized or not. -/
def ask (method : String) (params : Json) : Call π (Option Json) := do
  let (c, w) ← get
  let (link, w, outcome) := c.link.request w method params
  set ({ c with link }, w)
  match outcome with
  | none => ExceptT.lift failure
  | some (.ok value) => pure value
  | some (.error fault) => throw (.link fault)

/-- Sends a notification, initialized or not. -/
def tell (method : String) (params : Json) : Call π Unit := do
  let (c, w) ← get
  let (link, w, outcome) := c.link.notify w method params
  set ({ c with link }, w)
  match outcome with
  | .ok () => pure ()
  | .error fault => throw (.link fault)

/-- Fails before the handshake is over. -/
def ready : Call π Unit := do
  if !(← get).1.initialized then throw .notInitialized

/-- Sends a request whose answer has the given shape, or says nothing. -/
def request (method : String) (params : Json) (shape : Shape) : Call π (Option Json) := do
  ready
  match ← ask method params with
  | none => pure none
  | some value =>
    match shape value with
    | some value => pure (some value)
    | none => throw .json

def notify (method : String) (params : Json) : Call π Unit := do
  ready
  tell method params

/-! ### The handshake -/

/-- The identifier of a directory, which ends in a slash. -/
def directoryUri? (p : Path) : Option Uri :=
  (Uri.ofPath? p).map fun u =>
    if u.path.toList.getLast? == some '/' then u else { u with path := u.path ++ "/" }

def setUpParams (root : Path) (options : Option Json) : Json :=
  let uri := directoryUri? root
  let folder (uri : Uri) : Json :=
    .arr [.obj [("uri", .str uri.text), ("name", .str (root.fileName?.getD ""))]]
  .obj ([("processId", .nat 0), ("rootPath", .str root.text),
      ("rootUri", .ofOption (fun u => .str u.text) uri)] ++
    Json.optional "initializationOptions" (fun j => j) options ++
    [("capabilities", clientAbilities), ("trace", .str "off")] ++
    Json.optional "workspaceFolders" folder uri ++
    [("clientInfo", .obj [("name", .str "quill"), ("version", .str "0.1.0")])])

/-- The handshake. Its answer says what the server can do. -/
def setUp (options : Option Json) : Call π Json := do
  let (c, _) ← get
  match ← ask "initialize" (setUpParams c.root options) with
  | none => throw (.protocol "initialize returned null")
  | some value =>
    match Shape.initializeResult value with
    | none => throw .json
    | some result =>
      modify fun (c, w) =>
        ({ c with abilities := ⟨(result.get? "capabilities").getD (.obj [])⟩ }, w)
      tell "initialized" (.obj [])
      modify fun (c, w) => ({ c with initialized := true }, w)
      pure result

/-- Takes leave. The conversation is over whatever the server answers. -/
def shutDown : Call π Unit := do
  if (← get).1.initialized then
    tryCatch (do let _ ← request "shutdown" .null fun _ => none) fun _ => pure ()
    let told ← tryCatch (do notify "exit" .null; pure none) fun fault => pure (some fault)
    modify fun (c, w) => ({ c with initialized := false, opened := [] }, w)
    match told with
    | some fault => throw fault
    | none => pure ()

/-! ### Documents -/

def documentJson (uri : Uri) : Json := .obj [("uri", .str uri.text)]

/-- Notes the version of a document that was sent. -/
def noteOpened (uri : Uri) (version : Int) : Call π Unit :=
  modify fun (c, w) =>
    ({ c with opened := (uri, version) :: c.opened.filter (·.1 != uri) }, w)

def didOpen (uri : Uri) (language : String) (version : Int) (text : String) : Call π Unit := do
  notify "textDocument/didOpen" (.obj [("textDocument", .obj [("uri", .str uri.text),
    ("languageId", .str language), ("version", .int version), ("text", .str text)])])
  noteOpened uri version

def didChange (uri : Uri) (version : Int) (changes : List Json) : Call π Unit := do
  notify "textDocument/didChange" (.obj [
    ("textDocument", .obj [("uri", .str uri.text), ("version", .int version)]),
    ("contentChanges", .arr changes)])
  noteOpened uri version

def didSave (uri : Uri) (text : Option String) : Call π Unit :=
  notify "textDocument/didSave"
    (.obj ([("textDocument", documentJson uri)] ++ Json.optional "text" .str text))

/-- Takes back a document; one that the server was not shown is passed over. -/
def didClose (uri : Uri) : Call π Unit := do
  if (← get).1.isOpen uri then
    modify fun (c, w) => ({ c with opened := c.opened.filter (·.1 != uri) }, w)
    notify "textDocument/didClose" (.obj [("textDocument", documentJson uri)])

/-- Shows the server the text of a buffer: at first all of it, and again when its version has
moved. -/
def sync (b : Buffer) : Call π Uri := do
  let (c, w) ← get
  match b.uri? w.files with
  | none => throw .unsaved
  | some uri =>
    match c.opened.lookup uri with
    | none => didOpen uri (b.language.getD c.language) b.version b.text
    | some version =>
      if version != b.version then
        didChange uri b.version [.obj [("text", .str b.text)]]
    pure uri

/-! ### Questions -/

def placeMembers (uri : Uri) (p : Position) : List (String × Json) :=
  [("textDocument", documentJson uri), ("position", p.toJson)]

def completion (uri : Uri) (p : Position) (context : Option Json) : Call π (Option Json) :=
  request "textDocument/completion"
    (.obj (placeMembers uri p ++ Json.optional "context" (fun j => j) context)) Shape.completions

/-- A question about a place. -/
def about (method : String) (shape : Shape) (uri : Uri) (p : Position) : Call π (Option Json) :=
  request method (.obj (placeMembers uri p)) shape

def hover (uri : Uri) (p : Position) : Call π (Option Json) :=
  about "textDocument/hover" Shape.hover uri p

def signatureHelp (uri : Uri) (p : Position) : Call π (Option Json) :=
  about "textDocument/signatureHelp" Shape.signatureHelp uri p

def linkedEditing (uri : Uri) (p : Position) : Call π (Option Json) :=
  about "textDocument/linkedEditingRange" Shape.linkedRanges uri p

/-- Places that belong to the name at a place. -/
inductive Relation
  | definition
  | declaration
  | typeDefinition
  | implementation
  | references
deriving DecidableEq, Repr

def Relation.name : Relation → String
  | .definition => "definition"
  | .declaration => "declaration"
  | .typeDefinition => "typeDefinition"
  | .implementation => "implementation"
  | .references => "references"

/-- The places of all uses of a name, with its declaration or without. -/
def references (uri : Uri) (p : Position) (declaration : Bool) : Call π (Option Json) :=
  request "textDocument/references"
    (.obj (placeMembers uri p ++ [("context", .obj [("includeDeclaration", .bool declaration)])]))
    (Shape.listOf Shape.location)

/-- The places in a relation to the name at a place. -/
def related (r : Relation) (uri : Uri) (p : Position) : Call π (Option Json) :=
  if r = .references then references uri p true
  else about ("textDocument/" ++ r.name) Shape.locations uri p

def documentSymbols (uri : Uri) : Call π (Option Json) :=
  request "textDocument/documentSymbol" (.obj [("textDocument", documentJson uri)])
    Shape.documentSymbols

def workspaceSymbols (query : String) : Call π (Option Json) :=
  request "workspace/symbol" (.obj [("query", .str query)]) Shape.workspaceSymbols

def selectionRanges (uri : Uri) (positions : List Position) : Call π (Option Json) :=
  request "textDocument/selectionRange"
    (.obj [("textDocument", documentJson uri), ("positions", .arr (positions.map Position.toJson))])
    (Shape.listOf Shape.selectionRange)

/-! ### What arrives unasked -/

def poll : Call π Nat := do
  let (c, w) ← get
  let (link, w, outcome) := c.link.poll w
  set ({ c with link }, w)
  match outcome with
  | .ok n => pure n
  | .error fault => throw (.link fault)

def drain : Call π (List Event) := do
  let (c, w) ← get
  let (link, events) := c.link.drain
  set ({ c with link }, w)
  pure events

/-- Answers a request of the server. -/
def respond (id : RequestId) (result : Json) : Call π Unit := do
  let (c, w) ← get
  let (link, w, heard) := c.link.respond w (.ok id result)
  set ({ c with link }, w)
  if !heard then throw (.link .closed)

end Client

end LuaLens
