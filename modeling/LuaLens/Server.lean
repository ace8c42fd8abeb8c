import LuaLens.Protocol.Encode
import LuaLens.Protocol.Request
import LuaLens.Wire.Output

/-!
The server: it answers requests about the documents of one project. It has to be initialized first,
and after a request to shut down it answers nothing but errors.
-/

namespace LuaLens

/-- The codes of the errors that requests are answered with. -/
inductive Refusal
  | invalidRequest
  | methodNotFound
  | invalidParams
  | notInitialized
deriving DecidableEq, Repr

def Refusal.code : Refusal → Int
  | .invalidRequest => -32600
  | .methodNotFound => -32601
  | .invalidParams => -32602
  | .notInitialized => -32002

/-- Whether a conversation goes on. -/
inductive Flow
  | continue
  | exit
deriving DecidableEq, Repr

/-- The index and the open documents behind one conversation. -/
structure Server where
  index : Index
  documents : Documents := {}
  initialized : Bool := false
  /-- Whether it was asked to shut down. -/
  stopping : Bool := false
  /-- What is said about parameters that do not fit a method. -/
  explain : String → Json → String

namespace Server

open Query

/-- The name that the server gives of itself. -/
def name : String := "quill-lua-server"

def version : String := "0.1.0"

/-- What the server says about parameters when nobody says it better. -/
def misfit (_method : String) (_params : Json) : String := "the parameters do not fit"

/-- A server whose index keeps its files in the given directory. -/
def create (fs : FileSystem) (cache : Path) (explain : String → Json → String := misfit) :
    Server × FileSystem :=
  let (index, fs) := Index.create fs cache
  ({ index, explain }, fs)

/-! ### Requests -/

def refuse (id : RequestId) (why : Refusal) (message : String) : Response :=
  .fail id why.code message

/-- The answer about a document whose text is known, by its label and text. -/
def withDocument {α : Type} (s : Server) (fs : FileSystem) (uri : Uri)
    (f : String → String → α) : Option α := do
  let path ← uri.toPath?
  let text ← s.documents.source? fs path
  pure (f (s.index.labelOf fs path) text)

def initializeResult : Json :=
  .obj [("capabilities", serverAbilities),
    ("serverInfo", .obj [("name", .str name), ("version", .str version)])]

/-- Scans the root, if there is one. A scan that fails leaves the server initialized. -/
def setUp (s : Server) (fs : FileSystem) (root : Option Path) : Server × FileSystem :=
  match root with
  | some root =>
    let (index, fs, _) := s.index.scan fs root
    ({ s with index, initialized := true }, fs)
  | none => ({ s with initialized := true }, fs)

def definitionJson (s : Server) (fs : FileSystem) (place : Place) : Json :=
  match s.withDocument fs place.uri fun label text =>
      definition s.index s.documents fs label text place.position with
  | none | some [] => .null
  | some found => .arr (found.map Location.toJson)

/-- The answer to a request that changes nothing. -/
def answer (s : Server) (fs : FileSystem) (id : RequestId) : ClientRequest → Response
  | .completion p => .ok id (.arr (((s.withDocument fs p.uri fun label text =>
      complete s.index.entries label text p.position).getD []).map Proposal.toJson))
  | .hover p => .ok id (.ofOption hoverToJson (s.withDocument fs p.uri fun label text =>
      hover s.index.entries label text p.position).join)
  | .signatureHelp p => .ok id (.ofOption signaturesToJson (s.withDocument fs p.uri fun label text =>
      signatureHelp s.index.entries label text p.position).join)
  | .definition p | .declaration p => .ok id (s.definitionJson fs p)
  | .documentSymbol uri => .ok id (.ofOption (fun symbols => .arr (symbols.map SymbolPlace.toJson))
      (s.withDocument fs uri fun _ text =>
        documentSymbols uri text ((uri.toPath?.map moduleNameOf).getD "")))
  | .workspaceSymbol query =>
    .ok id (.arr ((workspaceSymbols s.index s.documents fs query).map SymbolPlace.toJson))
  | .selectionRange uri positions => .ok id (.ofOption (fun chains => .arr (chains.map chainToJson))
      (s.withDocument fs uri fun _ text => positions.map (selectionChain text.toList)))
  | .unknown method => refuse id .methodNotFound ("unsupported request: " ++ method)
  | .setUp _ | .shutdown | .noResult _ => .ok id .null

/-- What is said about a request whose parameters do not fit. -/
def complaint (s : Server) (r : Request) : String := r.method ++ ": " ++ s.explain r.method r.params

/-- Handles a request and answers it. -/
def handleRequest (s : Server) (fs : FileSystem) (r : Request) : Server × FileSystem × Response :=
  if s.stopping then (s, fs, refuse r.id .invalidRequest "server is shutting down")
  else
    match ClientRequest.parse? r.method r.params with
    | none => (s, fs, refuse r.id .invalidParams (s.complaint r))
    | some (.setUp root) =>
      let (s, fs) := s.setUp fs root
      (s, fs, .ok r.id initializeResult)
    | some asked =>
      if !s.initialized then (s, fs, refuse r.id .notInitialized "initialize first")
      else if asked = .shutdown then ({ s with stopping := true }, fs, .ok r.id .null)
      else (s, fs, s.answer fs r.id asked)

/-! ### Notifications -/

/-- Takes over the text of a document. -/
def updateDocument (s : Server) (fs : FileSystem) (uri : Uri) (text : String) :
    Server × FileSystem :=
  match uri.toPath? with
  | none => (s, fs)
  | some path =>
    let (index, fs) := if s.index.root.isSome then
        let (index, fs, _) := s.index.rescan fs path text
        (index, fs)
      else (s.index, fs)
    ({ s with index, documents := s.documents.update fs path text }, fs)

/-- Goes back to the file of a document, or forgets what was found in it. -/
def closeDocument (s : Server) (fs : FileSystem) (uri : Uri) : Server × FileSystem :=
  match uri.toPath? with
  | none => (s, fs)
  | some path =>
    let s := { s with documents := s.documents.close fs path }
    if s.index.root.isNone then (s, fs)
    else
      match fs.readText path with
      | .ok text =>
        let (index, fs, _) := s.index.rescan fs path text
        ({ s with index }, fs)
      | .error _ =>
        let (index, fs) := s.index.forget fs path
        ({ s with index }, fs)

/-- Handles a notification; one that does not fit its method is passed over. -/
def handleNotification (s : Server) (fs : FileSystem) (n : Notification) :
    Server × FileSystem × Flow :=
  let goOn (r : Server × FileSystem) : Server × FileSystem × Flow := (r.1, r.2, .continue)
  match ClientNotification.parse? n.method n.params with
  | some .exit => (s, fs, .exit)
  | some (.didOpen uri text) => goOn (s.updateDocument fs uri text)
  | some (.didChange uri (some text)) => goOn (s.updateDocument fs uri text)
  | some (.didSave uri (some text)) => goOn (s.updateDocument fs uri text)
  | some (.didSave uri none) =>
    match uri.toPath?.bind (s.documents.source? fs) with
    | some text => goOn (s.updateDocument fs uri text)
    | none => goOn (s, fs)
  | some (.didClose uri) => goOn (s.closeDocument fs uri)
  | some (.didChange _ none) | some .initialized | some (.unknown _) | none => goOn (s, fs)

/-! ### Conversations -/

/-- Handles a message: what is answered to it, and whether the conversation goes on. -/
def handle (s : Server) (fs : FileSystem) : Message → Server × FileSystem × Option Response × Flow
  | .request r =>
    let (s, fs, response) := s.handleRequest fs r
    (s, fs, some response, .continue)
  | .notification n =>
    let (s, fs, flow) := s.handleNotification fs n
    (s, fs, none, flow)
  | .response _ => (s, fs, none, .continue)

/-- Why the serving of a stream ends. -/
inductive Serving
  | done
  | broken (fault : Frame.Fault)
  /-- A frame could not be read or written. -/
  | failed (reason : String)
deriving DecidableEq, Repr

/-- What is reported of an ending, the outermost cause first. -/
def Serving.causes : Serving → List String
  | .done => []
  | .broken fault => ["Frame error: " ++ fault.message, fault.message]
  | .failed reason => ["Frame error: IO error: " ++ reason, "IO error: " ++ reason, reason]

/-- A conversation that goes on. -/
structure Talk where
  server : Server
  files : FileSystem
  /-- Bytes that have arrived after the last frame that was taken. -/
  unread : List UInt8 := []
  /-- Whether no more bytes arrive. -/
  closed : Bool := false

namespace Talk

/-- What a conversation comes to next. -/
inductive Turn
  /-- More bytes have to arrive, so many at least. -/
  | read (missing : Nat)
  | continue (t : Talk)
  /-- A response is written, and then the conversation goes on. -/
  | write (r : Response) (t : Talk)
  | over (ending : Serving)

/-- Takes the next frame. A payload that is no message is passed over. -/
def turn (t : Talk) : Turn :=
  match Frame.next t.closed t.unread with
  | .waiting => .read (Frame.missing none [] t.unread)
  | .ended => .over .done
  | .broken fault => .over (.broken fault)
  | .frame payload unread =>
    match Message.decode? payload with
    | none => .continue { t with unread }
    | some m =>
      match t.server.handle t.files m with
      | (_, _, _, .exit) => .over .done
      | (server, files, some r, .continue) => .write r { t with server, files, unread }
      | (server, files, none, .continue) => .continue { t with server, files, unread }

/-- Takes in bytes that arrive; none at all close the stream. -/
def receive (t : Talk) (bytes : List UInt8) : Talk :=
  { t with unread := t.unread ++ bytes, closed := bytes.isEmpty }

theorem closed_of_turn_read {t : Talk} {missing : Nat} (h : t.turn = .read missing) :
    t.closed = false := by
  cases hc : t.closed with
  | false => rfl
  | true =>
    rw [turn, hc] at h
    split at h
    · exact absurd ‹_› (Frame.next_closed_ne_waiting _)
    · cases h
    · cases h
    · split at h
      · cases h
      · split at h <;> cases h

/-- The conversation after a turn that takes a frame. -/
def Turn.next? : Turn → Option Talk
  | .continue t | .write _ t => some t
  | .read _ | .over _ => none

theorem unread_lt_of_next? {t t' : Talk} (h : t.turn.next? = some t') :
    t'.closed = t.closed ∧ t'.unread.length < t.unread.length := by
  rw [turn] at h
  split at h
  · cases h
  · cases h
  · cases h
  · have hlt := Frame.length_lt_of_next ‹_›
    split at h
    · obtain rfl := Option.some.inj h
      exact ⟨rfl, hlt⟩
    · split at h
      · cases h
      · obtain rfl := Option.some.inj h
        exact ⟨rfl, hlt⟩
      · obtain rfl := Option.some.inj h
        exact ⟨rfl, hlt⟩

end Talk

/-- Serves what arrives, piece by piece, and writes to an output. After the last piece the stream is
closed; a piece that cannot be read, or a frame that cannot be written, is the end of it. -/
def serve (t : Talk) (arrivals : List (Except String (List UInt8))) (out : Output) :
    Output × Serving :=
  match h : t.turn with
  | .read _ =>
    have := Talk.closed_of_turn_read h
    match arrivals with
    | [] => serve (t.receive []) [] out
    | .ok bytes :: rest => serve (t.receive bytes) rest out
    | .error reason :: _ => (out, .failed reason)
  | .continue next =>
    have := Talk.unread_lt_of_next? (congrArg Talk.Turn.next? h)
    serve next arrivals out
  | .write r next =>
    have := Talk.unread_lt_of_next? (congrArg Talk.Turn.next? h)
    match out.frame (Frame.parts (Message.response r).encode) with
    | (out, true) => serve next arrivals out
    | (out, false) => (out, .failed out.reason)
  | .over ending => (out, ending)
termination_by (arrivals.length + if t.closed then 0 else 1, t.unread.length)
decreasing_by
  · simp_all [Talk.receive, Prod.lex_def]
  · simp_all [Talk.receive, Prod.lex_def]
    split <;> omega
  · simp_all [Prod.lex_def]
  · simp_all [Prod.lex_def]

end Server

end LuaLens
