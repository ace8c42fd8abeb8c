import LuaLens.Host.Answers
import LuaLens.Host.Choices
import LuaLens.Host.Client
import LuaLens.Host.Jobs
import LuaLens.Host.Markers

/-!
The editor: one buffer, and the servers of its language and project. A server is started when it is
first needed; when it fails, the editor shows why and goes on without an answer.
-/

namespace LuaLens

/-! ### Roots of projects -/

/-- The directories that mark the root of a project. -/
def rootMarkers : List String := [".git", ".hg", ".svn", ".bzr"]

/-- The nearest directory with a marker around a file, else the directory of the file. -/
def findRoot (fs : FileSystem) (p : Path) : Path :=
  let p := fs.canonical p
  let start := if fs.isDirectory p then p else p.parent?.getD p
  (start.ancestors.find? fun dir => rootMarkers.any fun m => fs.exists? (dir.join m)).getD start

/-- What a server is kept under. -/
structure ServerKey where
  language : String
  root : Path
deriving DecidableEq, Repr

namespace ServerKey

/-- The order of components. -/
def rank : Path.Component → Nat × String
  | .root => (0, "")
  | .here => (1, "")
  | .up => (2, "")
  | .named name => (3, name)

def componentsBefore : List Path.Component → List Path.Component → Bool
  | _, [] => false
  | [], _ :: _ => true
  | a :: as, b :: bs =>
    if a = b then componentsBefore as bs
    else (rank a).1 < (rank b).1 || (rank a).1 == (rank b).1 && (rank a).2 < (rank b).2

/-- By language, then by the components of the root. -/
def before (a b : ServerKey) : Bool :=
  a.language < b.language ||
    a.language == b.language && componentsBefore a.root.components b.root.components

/-- Two spellings of a root are one. -/
def same (a b : ServerKey) : Bool :=
  a.language == b.language && a.root.components == b.root.components

/-- The key of a buffer that has a language and a path. -/
def ofBuffer? (fs : FileSystem) (b : Buffer) : Option ServerKey := do
  pure { language := ← b.language, root := findRoot fs (← b.path) }

end ServerKey

/-- The servers that run, in the order of their keys. -/
abbrev Servers (π : Type) := List (ServerKey × Client π)

namespace Servers

variable {π : Type}

def get? (s : Servers π) (key : ServerKey) : Option (Client π) :=
  (s.find? fun entry => entry.1.same key).map (·.2)

/-- Puts a client under its key, in place of the one before. -/
def put (key : ServerKey) (c : Client π) : Servers π → Servers π
  | [] => [(key, c)]
  | (k, d) :: rest =>
    if k.same key then (k, c) :: rest
    else if key.before k then (key, c) :: (k, d) :: rest
    else (k, d) :: put key c rest

def erase (s : Servers π) (key : ServerKey) : Servers π := s.filter fun entry => !entry.1.same key

end Servers

/-- Starts a program in a directory, or says why that is not possible. -/
abbrev Launcher (π : Type) := ServerCommand → Path → FileSystem → Except String (π × FileSystem)

structure Editor (π : Type) where
  config : HostConfig := {}
  launch : Launcher π
  buffer : Buffer := {}
  cursor : Cursor := {}
  view : View := { rows := 20, columns := 80 }
  servers : Servers π := []
  /-- How many connections have been made. -/
  connections : Nat := 0
  choices : Choices := {}
  diagnostics : Diagnostics := {}
  jobs : Jobs := []
  /-- The lines of the last hover. -/
  hover : Option (List String) := none
  signature : Option Json := none
  /-- What the status line shows. -/
  status : Option String := none
  /-- The messages of servers, oldest first. -/
  messages : List String := []

/-- An operation of the editor: it may wait for an answer that does not come. -/
abbrev Act (π : Type) := Waiting (Editor π × World)

namespace Editor

variable {π : Type} [Peer π]

/-! ### State -/

def edit (f : Editor π → Editor π) : Act π Unit := modify fun (e, w) => (f e, w)

def say (message : String) : Act π Unit := edit fun e => { e with status := some message }

/-- Runs a call of the client under a key. -/
def callAt {α : Type} (key : ServerKey) (c : Client π) (call : Call π α) :
    Act π (Except ClientFault α) := do
  let (e, w) ← get
  let (outcome, c, w) := StateT.run (OptionT.run (ExceptT.run call)) (c, w)
  set ({ e with servers := e.servers.put key c }, w)
  match outcome with
  | some outcome => pure outcome
  | none => failure

/-- The key of the buffer. -/
def key? : Act π (Option ServerKey) := do
  let (e, w) ← get
  pure (ServerKey.ofBuffer? w.files e.buffer)

/-- The client of the buffer, if it runs. -/
def existing? : Act π (Option (ServerKey × Client π)) := do
  match ← key? with
  | none => pure none
  | some key => pure (((← get).1.servers.get? key).map fun c => (key, c))

/-! ### Servers -/

/-- Starts a server and does the handshake. -/
def start (key : ServerKey) (command : ServerCommand) : Act π (Except ClientFault (Client π)) := do
  let (e, w) ← get
  match e.launch command key.root w.files with
  | .error reason => pure (.error (.startup command.command reason))
  | .ok (peer, files) =>
    let c := Client.connect key.language key.root { number := e.connections, peer }
    let (outcome, c, w) :=
      StateT.run (OptionT.run (ExceptT.run (Client.setUp command.options))) (c, { w with files })
    set ({ e with connections := e.connections + 1 }, w)
    match outcome with
    | none => failure
    | some (.ok _) => pure (.ok c)
    | some (.error fault) => pure (.error (.startup command.command fault.message))

/-- The client of the buffer, which is started when it does not run. A failure is shown. -/
def client? : Act π (Option (ServerKey × Client π)) := do
  match ← key? with
  | none => pure none
  | some key =>
    let (e, _) ← get
    let kept := (e.servers.get? key).filter fun c => c.isRunning
    match kept with
    | some c => pure (some (key, c))
    | none =>
      edit fun e => { e with servers := e.servers.erase key }
      match e.config.command? key.language with
      | none => pure none
      | some command =>
        match ← start key command with
        | .ok c =>
          edit fun e => { e with servers := e.servers.put key c }
          pure (some (key, c))
        | .error fault =>
          say (key.language ++ " language server failed: " ++ fault.message)
          pure none

/-! ### Events -/

def textMember (name : String) (params : Json) : String :=
  ((params.get? name).bind Json.str?).getD ""

/-- Takes over an event. -/
def replay (e : Editor π) : Event → Editor π
  | .diagnostics params =>
    match Diagnostics.ofParams? params with
    | some (uri, set) =>
      let (diagnostics, view, _) := e.diagnostics.publish uri set e.buffer e.view
      { e with diagnostics, view }
    | none => e
  | .showMessage params =>
    let message := textMember "message" params
    { e with status := some message, messages := e.messages ++ [message] }
  | .logMessage params => { e with messages := e.messages ++ [textMember "message" params] }
  | .progress params => { e with jobs := Jobs.apply e.jobs params }
  | .answered .. | .unknown .. => e

/-- What the status line says about a call that failed; what the server itself refused is passed
over. -/
def complaint? (feature : String) (fault : ClientFault) : Option String :=
  if fault.isRefusal then none else some (feature ++ ": " ++ fault.message)

/-- Takes over the events of the buffer's server, and reduces an outcome to a value or nothing. -/
def finish {α : Type} (feature : String) (outcome : Except ClientFault α) : Act π (Option α) := do
  match ← existing? with
  | some (key, c) =>
    let (link, events) := c.link.drain
    edit fun e => events.foldl replay { e with servers := e.servers.put key { c with link } }
  | none => pure ()
  match outcome with
  | .ok value => pure (some value)
  | .error fault =>
    match complaint? feature fault with
    | some message => say message
    | none => pure ()
    pure none

/-- Runs a call of the buffer's server about its present text; nothing when there is no server. -/
def withServer {α : Type} (feature : String) (call : Uri → Call π (Option α)) :
    Act π (Option (Option α)) := do
  match ← client? with
  | none => pure none
  | some (key, c) =>
    let b := (← get).1.buffer
    let outcome ← callAt key c (do call (← Client.sync b))
    pure (some ((← finish feature outcome).join))

/-- Takes in what the servers have sent. Servers that are gone are dropped. -/
def process : Act π Unit := do
  let (e, _) ← get
  for (key, c) in e.servers do
    if !c.isRunning then
      edit fun e => { e with servers := e.servers.erase key }
      say (key.language ++ " language server stopped")
  let (e, _) ← get
  let mut events := []
  for (key, c) in e.servers do
    let _ ← callAt key c Client.poll
    match (← get).1.servers.get? key with
    | some c =>
      let (link, found) := c.link.drain
      events := events ++ found
      edit fun e => { e with servers := e.servers.put key { c with link } }
    | none => pure ()
  let all := events
  edit fun e => all.foldl replay e

/-! ### Buffers -/

/-- Shows the buffer's server its present text. -/
def notifyChange : Act π Unit := do
  match ← client? with
  | none => pure ()
  | some (key, c) =>
    let b := (← get).1.buffer
    let outcome ← callAt key c (Client.sync b)
    let _ ← finish "didChange" outcome

def closeBuffer : Act π Unit := do
  let (e, w) ← get
  match e.buffer.uri? w.files with
  | none => pure ()
  | some uri =>
    match ← existing? with
    | some (key, c) =>
      let outcome ← callAt key c (Client.didClose uri)
      let _ ← finish "didClose" outcome
    | none => pure ()
    edit fun e => { e with diagnostics := { e.diagnostics with active := none } }

/-- Closes the buffer and opens a file in its place. -/
def openFile (p : Path) : Act π (Except Buffer.Fault Unit) := do
  closeBuffer
  let (_, w) ← get
  match Buffer.load w.files p with
  | .error fault => pure (.error fault)
  | .ok buffer =>
    edit fun e =>
      let active := buffer.uri? w.files
      let (diagnostics, view) := ({ e.diagnostics with active } : Diagnostics).redraw buffer e.view.reset
      { e with buffer, cursor := {}, diagnostics, view }
    notifyChange
    pure (.ok ())

def save : Act π (Except Buffer.Fault Unit) := do
  let (e, w) ← get
  match e.buffer.path with
  | none => pure (.error .noPath)
  | some p =>
    match e.buffer.save w.files p with
    | .error fault => pure (.error fault)
    | .ok (buffer, files) =>
      set ({ e with buffer }, { w with files })
      match ← existing? with
      | some (key, c) =>
        let outcome ← callAt key c (do Client.didSave (← Client.sync buffer) none)
        let _ ← finish "didSave" outcome
      | none => pure ()
      pure (.ok ())

/-- The caret after a text was inserted at it. -/
def advance (c : Cursor) (text : List Char) : Cursor :=
  let pieces := Text.splitAll '\n' text
  if pieces.length ≤ 1 then { c with column := c.column + text.length }
  else { line := c.line + (pieces.length - 1), column := (pieces.getLastD []).length }

/-- Inserts a text at the caret, and moves the caret behind it. -/
def insertText (text : String) (e : Editor π) : Except Buffer.Fault (Editor π) := do
  let buffer ← e.buffer.insert text e.cursor.line e.cursor.column
  pure { e with buffer, cursor := advance e.cursor text.toList }

/-- Replaces the word before the caret by the selected completion; `false` when there is none. -/
def acceptChoice (e : Editor π) : Except Buffer.Fault (Editor π × Bool) :=
  match e.choices.accepted? with
  | none => .ok (e, false)
  | some text => do
    let before := ((e.buffer.line? e.cursor.line).getD []).take e.cursor.column
    let word := (Text.takeEndWhile Text.isNamePart before).length
    let stop := (← e.buffer.lineStart e.cursor.line) + e.cursor.column
    let buffer ← e.buffer.delete (stop - word) stop
    let cursor := { e.cursor with column := e.cursor.column - word }
    let e ← ({ e with buffer, cursor } : Editor π).insertText text
    pure ({ e with choices := {} }, true)

/-! ### Questions -/

/-- The place of the caret. -/
def place : Act π Position := do
  let (e, _) ← get
  pure (e.buffer.positionOf e.cursor.line e.cursor.column)

/-- Asks for completions, and offers them; says how many there are. -/
def requestChoices (context : Json) : Act π Nat := do
  let p ← place
  match ← withServer "completion" fun uri => Client.completion uri p (some context) with
  | none => pure 0
  | some response =>
    edit fun e => { e with choices := .ofResponse response }
    pure (← get).1.choices.items.length

def complete : Act π Nat := requestChoices (.obj [("triggerKind", .nat 1)])

def askHover : Act π (Option String) := do
  let p ← place
  match ← withServer "hover" fun uri => Client.hover uri p with
  | none => pure none
  | some response =>
    let text := response.map Answers.hoverText
    edit fun e => { e with hover := text.map fun t => (Text.lines t.toList).map String.ofList }
    pure text

def askSignature : Act π (Option Json) := do
  let p ← place
  match ← withServer "signatureHelp" fun uri => Client.signatureHelp uri p with
  | none => pure none
  | some signature =>
    edit fun e => { e with signature }
    pure signature

/-- The places in a relation to the name at the caret. -/
def related (r : Client.Relation) : Act π (List Json) := do
  let p ← place
  let response ← withServer r.name fun uri => Client.related r uri p
  pure ((response.join.map Answers.places).getD [])

/-- Goes to a place, in another file if it has to. -/
def jump (location : Json) : Act π Unit := do
  match Uri.member? "uri" location, (location.get? "range").bind Range.ofJson? with
  | some uri, some range =>
    let (e, w) ← get
    let arrived ← if e.buffer.uri? w.files == some uri then pure true
      else
        match uri.toPath? with
        | none => pure false
        | some path =>
          match ← openFile path with
          | .ok () => pure true
          | .error fault =>
            say ("Cannot open " ++ path.text ++ ": " ++ fault.message)
            pure false
    if arrived then
      edit fun e =>
        let (line, column) := e.buffer.caretAt range.start
        let cursor := Cursor.within e.buffer line column
        { e with cursor, view := e.view.reveal cursor.line cursor.column }
  | _, _ => pure ()

/-- Looks for the definition of the name at the caret, and goes there if there is one only. -/
def goToDefinition : Act π (List Json) := do
  let found ← related .definition
  match found with
  | [] => say "No definition found"
  | [only] => jump only
  | _ => pure ()
  pure found

def documentSymbols : Act π (List Json) := do
  let response ← withServer "documentSymbol" fun uri => do
    pure ((← Client.documentSymbols uri).map fun r => Answers.documentSymbols uri.text r)
  pure (response.join.getD [])

def workspaceSymbols (query : String) : Act π (List Json) := do
  match ← client? with
  | none => pure []
  | some (key, c) =>
    let outcome ← callAt key c (Client.workspaceSymbols query)
    let response ← finish "workspaceSymbol" outcome
    pure ((response.join.map Answers.workspaceSymbols).getD [])

def selectionRanges : Act π (List Json) := do
  let p ← place
  let response ← withServer "selectionRange" fun uri => Client.selectionRanges uri [p]
  pure ((response.join.map Answers.selectionRanges).getD [])

/-- Types a character. One that the server waits for asks for completions or for a signature. -/
def typeChar (c : Char) : Act π (Except Buffer.Fault Unit) := do
  let (e, w) ← get
  match e.insertText c.toString with
  | .error fault => pure (.error fault)
  | .ok e =>
    set (e, w)
    notifyChange
    match ← existing? with
    | some (_, client) =>
      if client.abilities.asksCompletion c then
        let _ ← requestChoices
          (.obj [("triggerKind", .nat 2), ("triggerCharacter", .str c.toString)])
      if client.abilities.asksSignature c then
        let _ ← askSignature
    | none => pure ()
    pure (.ok ())

/-- Types a text, character by character. -/
def typeText : List Char → Act π (Except Buffer.Fault Unit)
  | [] => pure (.ok ())
  | c :: rest => do
    match ← typeChar c with
    | .ok () => typeText rest
    | .error fault => pure (.error fault)

/-! ### The end -/

/-- Takes leave of a client that is kept no longer. -/
def dismiss (c : Client π) : Act π (Except ClientFault Unit) := do
  let (e, w) ← get
  let (outcome, _, w) := StateT.run (OptionT.run (ExceptT.run Client.shutDown)) (c, w)
  set (e, w)
  match outcome with
  | some outcome => pure outcome
  | none => failure

/-- Stops a server; says whether there was one, and how it went. -/
def stop (key : ServerKey) : Act π (Bool × Except ClientFault Unit) := do
  let (e, _) ← get
  match e.servers.get? key with
  | none => pure (false, .ok ())
  | some c =>
    edit fun e => { e with servers := e.servers.erase key }
    pure (true, ← dismiss c)

/-- Closes the buffer and stops all servers. -/
def shutDown : Act π Unit := do
  closeBuffer
  let (e, _) ← get
  edit fun e => { e with servers := [] }
  for (_, c) in e.servers do
    let _ ← dismiss c

end Editor

end LuaLens
