import LuaLens.Server
import LuaLens.Wire.Connection

/-!
The far ends that a conversation can have here: the server of this library, an echo, a program that
is gone, and one that follows a script.
-/

namespace LuaLens

/-- What a script does about a request of one method. -/
structure Cue where
  method : String
  /-- What is sent before the response. -/
  before : List UInt8 := []
  /-- The member of the response that says how the request went; nothing for no response. -/
  answer : Option (String × Json) := some ("result", .null)
  /-- Whether the output is closed after that. -/
  closes : Bool := false

/-- Answers each request by the first cue of its method that is left. -/
structure Script where
  cues : List Cue := []
  /-- Whether requests without a cue are answered, by a result that says nothing. -/
  answersAll : Bool := true
  /-- Whether it no longer reads. -/
  deaf : Bool := false

namespace Script

/-- The first cue of a method, and those that are left without it. -/
def take (method : String) : List Cue → Option Cue × List Cue
  | [] => (none, [])
  | cue :: rest =>
    if cue.method == method then (some cue, rest)
    else
      let (found, left) := take method rest
      (found, cue :: left)

/-- The frame of a response with one more member. -/
def responseFrame (id : RequestId) (member : String × Json) : List UInt8 :=
  Frame.write (Json.obj [Message.version, ("id", id.toJson), member]).payload

/-- What the script does about a request. -/
def cue (s : Script) (r : Request) : Script × Sending :=
  match take r.method s.cues with
  | (some cue, left) =>
    let answer := (cue.answer.map (responseFrame r.id)).getD []
    ({ s with cues := left }, { bytes := cue.before ++ answer, closes := cue.closes })
  | (none, _) =>
    (s, if s.answersAll then { bytes := responseFrame r.id ("result", .null) } else {})

end Script

inductive FarEnd
  | script (s : Script)
  /-- The server of this library, until it was told to exit. -/
  | server (s : Server) (exited : Bool)
  /-- Sends back what it hears. -/
  | echo
  | gone

namespace FarEnd

def reads : FarEnd → Bool
  | .script s => !s.deaf
  | .server _ exited => !exited
  | .echo => true
  | .gone => false

def frameOf (m : Message) : List UInt8 := Frame.write m.encode

/-- What comes back from an echo: the message, and after a request also the answer that the client
gives to it. -/
def echoed (m : Message) : List UInt8 :=
  frameOf m ++
    (match m with
      | .request r => frameOf (.response ((ServerRequest.ofRequest r).answer r.id))
      | _ => [])

def hear (p : FarEnd) (fs : FileSystem) (m : Message) : FarEnd × FileSystem × Sending :=
  match p with
  | .script s =>
    match m with
    | .request r =>
      let (s, sending) := s.cue r
      (.script s, fs, sending)
    | _ => (.script s, fs, {})
  | .server s exited =>
    let (s, fs, answer, flow) := s.handle fs m
    (.server s (exited || flow == .exit), fs,
      { bytes := (answer.map fun r => frameOf (.response r)).getD [], closes := flow == .exit })
  | .echo => (.echo, fs, { bytes := echoed m })
  | .gone => (.gone, fs, { closes := true })

end FarEnd

instance : Peer FarEnd where
  reads := FarEnd.reads
  hear := FarEnd.hear

end LuaLens
