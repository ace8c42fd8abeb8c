import LuaLens.Json.Parser
import LuaLens.Json.Printer
import LuaLens.Wire.Frame

/-!
Messages of a conversation: requests, the responses to them, and notifications. They are JSON
documents; a document is taken for the first of the three kinds that it fits.
-/

namespace LuaLens

/-- What a response is matched by. -/
inductive RequestId
  | number (n : Int)
  | name (s : String)
deriving DecidableEq, Repr

namespace RequestId

/-- Numbers have 32 bits. -/
def ofJson? : Json → Option RequestId
  | .int n => if -2147483648 ≤ n && n ≤ 2147483647 then some (.number n) else none
  | .str s => some (.name s)
  | _ => none

def toJson : RequestId → Json
  | .number n => .int n
  | .name s => .str s

end RequestId

/-- An error that a request is answered with. -/
structure ResponseError where
  code : Int
  message : String
  data : Option Json := none

structure Request where
  id : RequestId
  method : String
  params : Json := .null

structure Response where
  id : RequestId
  result : Option Json := none
  error : Option ResponseError := none

structure Notification where
  method : String
  params : Json := .null

inductive Message
  | request (r : Request)
  | response (r : Response)
  | notification (n : Notification)

/-! ### Fields of a document -/

namespace Json

/-- The values of the named fields. In an object none of them may stand twice, and an array gives
them in order, without more; `none` stands for a field that is missing. -/
def fields? (names : List String) : Json → Option (List (Option Json))
  | .obj members =>
    if names.any fun n => 1 < (members.filter (·.1 == n)).length then none
    else some (names.map fun n => (members.find? (·.1 == n)).map (·.2))
  | .arr items =>
    if names.length < items.length then none
    else some (items.map some ++ List.replicate (names.length - items.length) none)
  | _ => none

def isArray : Json → Bool
  | .arr _ => true
  | _ => false

/-- The bytes that a document is sent as: its compact text, with the members in order. -/
def payload (j : Json) : List UInt8 := j.ordered.print.toUTF8.toList

/-- A value that may be missing or `null`. -/
def present : Option Json → Option Json
  | some .null | none => none
  | some j => some j

end Json

/-! ### Reading -/

namespace ResponseError

def ofJson? (j : Json) : Option ResponseError := do
  match ← j.fields? ["code", "message", "data"] with
  | [some (.int code), some (.str message), data] =>
    if !(-2147483648 ≤ code && code ≤ 2147483647) || j.isArray && data.isNone then none
    else pure { code, message, data := (Json.present data).map Json.settle }
  | _ => none

def toJson (e : ResponseError) : Json :=
  .obj ([("code", .int e.code), ("message", .str e.message)] ++ Json.optional "data" (fun j => j) e.data)

end ResponseError

namespace Request

def ofJson? (j : Json) : Option Request := do
  match ← j.fields? ["id", "method", "params"] with
  | [some id, some (.str method), params] =>
    pure { id := ← RequestId.ofJson? id, method, params := (params.getD .null).settle }
  | _ => none

end Request

namespace Response

def ofJson? (j : Json) : Option Response := do
  match ← j.fields? ["id", "result", "error"] with
  | [some id, result, error] =>
    if j.isArray && error.isNone then none
    else
      let error ← match Json.present error with
        | some e => (ResponseError.ofJson? e).map some
        | none => some none
      pure { id := ← RequestId.ofJson? id, result := (Json.present result).map Json.settle, error }
  | _ => none

/-- The response with a result. -/
def ok (id : RequestId) (value : Json) : Response := { id, result := some value }

/-- The response with an error. -/
def fail (id : RequestId) (code : Int) (message : String) : Response :=
  { id, error := some { code, message } }

/-- The members of a response, without the version of the protocol. -/
def toJson (r : Response) : Json :=
  .obj ([("id", r.id.toJson)] ++ Json.optional "result" (fun j => j) r.result ++
    Json.optional "error" ResponseError.toJson r.error)

end Response

namespace Notification

def ofJson? (j : Json) : Option Notification := do
  match ← j.fields? ["method", "params"] with
  | [some (.str method), params] => pure { method, params := (params.getD .null).settle }
  | _ => none

end Notification

namespace Message

/-- The message of a document in which members may stand twice. -/
def ofJson? (j : Json) : Option Message :=
  ((Request.ofJson? j).map .request).or
    (((Response.ofJson? j).map .response).or ((Notification.ofJson? j).map .notification))

/-- The message of a payload. -/
def decode? (payload : List UInt8) : Option Message := do
  let text ← String.fromUTF8? ⟨payload.toArray⟩
  ofJson? (← Json.parseRaw? text)

/-! ### Writing -/

/-- The version of the protocol, which every message carries. -/
def version : String × Json := ("jsonrpc", .str "2.0")

/-- Parameters that say nothing are left out. -/
def paramsMember (params : Json) : List (String × Json) :=
  if params.isNull then [] else [("params", params)]

def toJson : Message → Json
  | .request r =>
    .obj ([version, ("id", r.id.toJson), ("method", .str r.method)] ++ paramsMember r.params)
  | .response r =>
    match r.toJson with
    | .obj members => .obj (version :: members)
    | j => j
  | .notification n => .obj ([version, ("method", .str n.method)] ++ paramsMember n.params)

/-- The payload of a message. Every message has one. -/
def encode (m : Message) : List UInt8 := m.toJson.payload

end Message

end LuaLens
