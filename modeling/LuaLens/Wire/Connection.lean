import LuaLens.Protocol.Event

/-!
The client's end of a conversation. Requests are numbered and wait for their response; what arrives
in between is kept for the host, and requests of the far end are answered at once. Everything that is
written is also entered in a log.
-/

namespace LuaLens

/-- What a far end sends. -/
structure Sending where
  bytes : List UInt8 := []
  /-- Whether it closes its output after that. -/
  closes : Bool := false

/-- A far end of a conversation, by its state. It does not react to responses: what they say follows
from its own requests. -/
class Peer (π : Type) where
  /-- Whether it still reads. -/
  reads : π → Bool
  /-- What it does about a request or a notification. -/
  hear : π → FileSystem → Message → π × FileSystem × Sending

/-- The files, and all messages written so far by the numbers of their connections, latest first. -/
structure World where
  files : FileSystem := {}
  log : List (Nat × Message) := []

/-- Why a request comes to nothing. -/
inductive LinkFault
  | server (code : Int) (message : String)
  | closed
deriving DecidableEq, Repr

def LinkFault.message : LinkFault → String
  | .server code message => "Server error " ++ toString code ++ ": " ++ message
  | .closed => "Connection closed"

/-- The number of the request that comes after so many others. Numbers have 32 bits, and the least of
them comes after the greatest. -/
def RequestId.ofCount (n : Nat) : RequestId := .number (Int32.ofNat n).toInt

structure Connection (π : Type) where
  number : Nat
  peer : π
  /-- Bytes that have arrived after the last whole frame. -/
  unread : List UInt8 := []
  /-- Whether nothing can arrive any more. -/
  ended : Bool := false
  /-- Messages that have arrived and were not taken yet. -/
  queue : List Message := []
  /-- Events for the host, oldest first. -/
  events : List Event := []
  /-- How many requests were numbered so far. -/
  nextId : Nat := 0
  /-- Whether it is noticed when the numbers are used up. -/
  checked : Bool := true
  /-- Whether a write has failed or the end of the input was seen. -/
  closed : Bool := false

namespace Connection

variable {π : Type} [Peer π]

/-- Whether all that could arrive has been taken, or a write has failed. -/
def isClosed (c : Connection π) : Bool := c.closed || c.ended && c.queue.isEmpty

/-- What the far end sends arrives. Payloads that are no messages are passed over, and a broken frame
ends the input. -/
def receive (c : Connection π) (s : Sending) : Connection π :=
  if c.ended then c
  else
    let (payloads, ending) := Frame.readAll s.closes (c.unread ++ s.bytes)
    let queue := c.queue ++ payloads.filterMap Message.decode?
    match ending with
    | .waiting rest => { c with queue, unread := rest }
    | .ended | .broken _ => { c with queue, unread := [], ended := true }

/-- Writes a response; `false` when nobody reads it. -/
def respond (c : Connection π) (w : World) (r : Response) : Connection π × World × Bool :=
  if Peer.reads c.peer then (c, { w with log := (c.number, .response r) :: w.log }, true)
  else ({ c with closed := true }, w, false)

/-- Writes a request or a notification, and takes in what comes back; `false` when nobody reads it. -/
def write (c : Connection π) (w : World) (m : Message) : Connection π × World × Bool :=
  if Peer.reads c.peer then
    let (peer, files, sending) := Peer.hear c.peer w.files m
    (receive { c with peer } sending, { files, log := (c.number, m) :: w.log }, true)
  else ({ c with closed := true }, w, false)

/-- Takes in a message that was not waited for; `false` when an answer to it could not be written. -/
def accept (c : Connection π) (w : World) : Message → Connection π × World × Bool
  | .notification n => ({ c with events := c.events ++ [.ofNotification n] }, w, true)
  | .response _ => (c, w, true)
  | .request r =>
    match c.respond w ((ServerRequest.ofRequest r).answer r.id) with
    | (c, w, true) => ({ c with events := c.events ++ [.answered r.id r.method] }, w, true)
    | (c, w, false) => (c, w, false)

/-- The outcome of a response; a result that says nothing is none. -/
def outcome (r : Response) : Except LinkFault (Option Json) :=
  match r.error with
  | some e => .error (.server e.code e.message)
  | none => .ok (Json.present r.result)

/-- Takes messages until the response of the given id; `none` when it has not come. -/
def await (c : Connection π) (w : World) (id : RequestId) :
    List Message → Connection π × World × Option (Except LinkFault (Option Json))
  | [] =>
    if c.ended then ({ c with queue := [], closed := true }, w, some (.error .closed))
    else ({ c with queue := [] }, w, none)
  | .response r :: rest =>
    if r.id = id then ({ c with queue := rest }, w, some (outcome r)) else await c w id rest
  | m :: rest =>
    match c.accept w m with
    | (c, w, true) => await c w id rest
    | (c, w, false) => ({ c with queue := rest }, w, some (.error .closed))

/-- Whether there is no number for the next request; a program that notices stops there. -/
def isSpent (c : Connection π) : Bool := c.checked && decide (2147483647 ≤ c.nextId)

/-- Sends a request and waits for its outcome; `none` when that does not come. -/
def request (c : Connection π) (w : World) (method : String) (params : Json) :
    Connection π × World × Option (Except LinkFault (Option Json)) :=
  if c.closed then (c, w, some (.error .closed))
  else if c.isSpent then (c, w, none)
  else
    let id := RequestId.ofCount c.nextId
    match write { c with nextId := c.nextId + 1 } w (.request { id, method, params }) with
    | (c, w, true) => c.await w id c.queue
    | (c, w, false) => (c, w, some (.error .closed))

/-- Sends a notification. -/
def notify (c : Connection π) (w : World) (method : String) (params : Json) :
    Connection π × World × Except LinkFault Unit :=
  if c.closed then (c, w, .error .closed)
  else
    match c.write w (.notification { method, params }) with
    | (c, w, true) => (c, w, .ok ())
    | (c, w, false) => (c, w, .error .closed)

/-- Takes in all messages of a list, and counts those already taken. -/
def takeAll (c : Connection π) (w : World) (taken : Nat) :
    List Message → Connection π × World × Except LinkFault Nat
  | [] => ({ c with queue := [], closed := c.closed || c.ended }, w, .ok taken)
  | m :: rest =>
    match c.accept w m with
    | (c, w, true) => takeAll c w (taken + 1) rest
    | (c, w, false) => ({ c with queue := rest }, w, .error .closed)

/-- Takes in what has arrived, without waiting for more. -/
def poll (c : Connection π) (w : World) : Connection π × World × Except LinkFault Nat :=
  c.takeAll w 0 c.queue

/-- Hands out the events, oldest first. -/
def drain (c : Connection π) : Connection π × List Event := ({ c with events := [] }, c.events)

end Connection

end LuaLens
