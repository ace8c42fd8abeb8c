import LuaLens.Server
import LuaLens.Proofs.Wire.Block

/-!
What a server writes. Of a stream of frames, in whatever pieces it arrives, it answers each request that
comes before the first notice to exit, once and in order, as it handles that request after the messages
before it: a frame with the answer goes to the output, until that takes no more. Payloads that are no
messages, notifications and responses are passed over in silence.
-/

namespace LuaLens

/-! ### Outputs -/

namespace Output

theorem put_nil (o : Output) : o.put [] = o := by
  obtain ⟨written, room, reason⟩ := o
  cases room <;> simp [put, cut]

theorem bears_nil (o : Output) : o.bears [] = true := by
  obtain ⟨written, room, reason⟩ := o
  cases room <;> simp [bears]

theorem put_put (o : Output) (a b : List UInt8) : (o.put a).put b = o.put (a ++ b) := by
  obtain ⟨written, room, reason⟩ := o
  cases room with
  | none => simp [put, cut]
  | some n => simp [put, cut, List.take_append, Nat.sub_sub]

theorem bears_append (o : Output) (a b : List UInt8) :
    o.bears (a ++ b) = (o.bears a && (o.put a).bears b) := by
  obtain ⟨written, room, reason⟩ := o
  cases room with
  | none => rfl
  | some n =>
    rw [Bool.eq_iff_iff]
    simp only [bears, put, Option.map_some, List.length_append, decide_eq_true_eq, Bool.and_eq_true]
    omega

/-- What comes after a part that is not taken as a whole makes no difference. -/
theorem put_append_of_not_bears {o : Output} {a : List UInt8} (h : o.bears a = false)
    (b : List UInt8) : o.put (a ++ b) = o.put a := by
  obtain ⟨written, room, reason⟩ := o
  cases room with
  | none => cases h
  | some n =>
    have hlt : n < a.length := by simpa [bears] using h
    have htake : (a ++ b).take n = a.take n := List.take_append_of_le_length (Nat.le_of_lt hlt)
    have hroom : n - (a ++ b).length = n - a.length := by
      rw [List.length_append]
      omega
    simp only [put, cut, Option.map_some, htake, hroom]

/-- The parts of a frame are written as its bytes are. -/
theorem frame_eq (o : Output) (parts : List (List UInt8)) :
    o.frame parts = (o.put parts.flatten, o.bears parts.flatten) := by
  induction parts generalizing o with
  | nil => rw [frame, List.flatten_nil, put_nil, bears_nil]
  | cons part parts ih =>
    rw [frame, List.flatten_cons, bears_append]
    cases h : o.bears part with
    | true => rw [if_pos rfl, ih, put_put, Bool.true_and]
    | false => rw [if_neg (by simp), put_append_of_not_bears h, Bool.false_and]

end Output

/-! ### Payloads -/

namespace Json

theorem pairwise_enter (name : String) (j : Json) {members : List (String × Json)}
    (h : members.Pairwise (·.1 < ·.1)) : (enter name j members).Pairwise (·.1 < ·.1) := by
  have hmem {rest : List (String × Json)} {m : String × Json} (hm : m ∈ enter name j rest) :
      m.1 = name ∨ m ∈ rest := by
    induction rest with
    | nil => exact .inl (by simpa [enter] using congrArg Prod.fst (List.mem_singleton.1 hm))
    | cons other rest ih =>
      rw [enter] at hm
      split at hm
      · exact (List.mem_cons.1 hm).imp_left fun h => by rw [h]
      · split at hm
        · exact .inr hm
        · rcases List.mem_cons.1 hm with rfl | hm
          · exact .inr List.mem_cons_self
          · exact (ih hm).imp_right (List.mem_cons_of_mem _)
  induction members with
  | nil => exact List.pairwise_singleton _ _
  | cons other members ih =>
    obtain ⟨hfirst, hrest⟩ := List.pairwise_cons.1 h
    rw [enter]
    split
    · refine List.pairwise_cons.2 ⟨fun m hm => ?_, h⟩
      rcases List.mem_cons.1 hm with rfl | hm
      · assumption
      · exact String.lt_trans ‹_› (hfirst m hm)
    · split
      · exact h
      · refine List.pairwise_cons.2 ⟨fun m hm => ?_, ih hrest⟩
        rcases hmem hm with hname | hm
        · have hle : other.1 ≤ name := String.not_lt.1 ‹_›
          rw [hname]
          exact String.not_le.1 fun hge => ‹¬ name = _› (String.le_antisymm hge hle)
        · exact hfirst m hm

/-- The members of an ordered document stand in the order of their names, each name once. -/
theorem pairwise_orderedMembers (members : List (String × Json)) :
    (orderedMembers members).Pairwise (·.1 < ·.1) := by
  induction members with
  | nil => exact .nil
  | cons m members ih => exact pairwise_enter m.1 m.2.ordered ih

end Json

/-- The payload that a response is sent as: its result or its error beside its id and the version of the
protocol, in the order of the names. -/
def Response.IsSentAs (r : Response) (payload : List UInt8) : Prop :=
  (∃ value, r = .ok r.id value ∧ payload = (Json.obj
    [("id", r.id.toJson), Message.version, ("result", value.ordered)]).print.toUTF8.toList) ∨
  ∃ code message, r = .fail r.id code message ∧ payload = (Json.obj
    [("error", .obj [("code", .int code), ("message", .str message)]), ("id", r.id.toJson),
      Message.version]).print.toUTF8.toList

/-! ### The notice to exit -/

namespace ClientNotification

theorem method_of_ofNormal? {method : String} {params : Json} (h : ofNormal? method params = some .exit) :
    method = "exit" := by
  unfold ofNormal? at h
  split at h
  · cases Option.some.inj h
  · rfl
  · simp only [Option.bind_eq_bind, Option.bind_eq_some_iff] at h
    obtain ⟨_, _, _, _, _, _, h⟩ := h
    cases Option.some.inj h
  · simp only [Option.bind_eq_bind, Option.bind_eq_some_iff] at h
    obtain ⟨_, _, _, _, _, _, h⟩ := h
    cases Option.some.inj h
  · obtain ⟨_, _, h⟩ := Option.bind_eq_some_iff.1 h
    cases Option.some.inj h
  · obtain ⟨_, _, h⟩ := Option.map_eq_some_iff.1 h
    cases h
  · cases Option.some.inj h

/-- The method alone says whether a notification is to exit. -/
theorem parse?_eq_exit (method : String) (params : Json) :
    parse? method params = some .exit ↔ method = "exit" := by
  constructor
  · intro h
    rw [parse?] at h
    split at h
    · obtain ⟨params, -, h⟩ := Option.bind_eq_some_iff.1 h
      exact method_of_ofNormal? h
    · exact method_of_ofNormal? h
  · rintro rfl
    rfl

end ClientNotification

/-- Whether a message is the notice to exit. -/
def Message.isExit : Message → Bool
  | .notification n => n.method == "exit"
  | .request _ | .response _ => false

def Message.request? : Message → Option Request
  | .request r => some r
  | .response _ | .notification _ => none

namespace Server

/-! ### One message -/

theorem handle_of_isExit {m : Message} (h : m.isExit = true) (s : Server) (fs : FileSystem) :
    s.handle fs m = (s, fs, none, .exit) := by
  cases m with
  | request r => cases h
  | response r => cases h
  | notification n =>
    have hexit := (ClientNotification.parse?_eq_exit n.method n.params).2 (beq_iff_eq.1 h)
    rw [handle, handleNotification, hexit]

/-- The answer to a message, if it is a request. -/
def answerTo? (w : Server × FileSystem) : Message → Option Response
  | .request r => some (w.1.handleRequest w.2 r).2.2
  | .response _ | .notification _ => none

/-- The server and the tree after a message. -/
def step (w : Server × FileSystem) (m : Message) : Server × FileSystem :=
  ((w.1.handle w.2 m).1, (w.1.handle w.2 m).2.1)

/-- Any other message keeps the conversation going, and is answered if it is a request. -/
theorem handle_of_not_isExit {m : Message} (h : m.isExit = false) (s : Server) (fs : FileSystem) :
    s.handle fs m = ((step (s, fs) m).1, (step (s, fs) m).2, answerTo? (s, fs) m, .continue) := by
  cases m with
  | request r =>
    rcases hr : s.handleRequest fs r with ⟨s', fs', response⟩
    simp only [handle, step, answerTo?, hr]
  | response r => rfl
  | notification n =>
    have hflow : (s.handleNotification fs n).2.2 = .continue := by
      have hnot : ClientNotification.parse? n.method n.params ≠ some .exit := by
        rw [ne_eq, ClientNotification.parse?_eq_exit]
        simpa [Message.isExit] using h
      rw [handleNotification]
      split
      · exact absurd ‹_› hnot
      · rfl
      · rfl
      · rfl
      · split <;> rfl
      · rfl
      · rfl
      · rfl
      · rfl
      · rfl
    rcases hn : s.handleNotification fs n with ⟨s', fs', flow⟩
    obtain rfl : flow = .continue := by rw [← hflow, hn]
    simp only [handle, step, answerTo?, hn]

/-- An answer to the request of an id: a result or an error. -/
inductive IsAnswer (id : RequestId) : Response → Prop
  | result (value : Json) : IsAnswer id (.ok id value)
  | error (code : Int) (message : String) : IsAnswer id (.fail id code message)

theorem isAnswer_handleRequest (s : Server) (fs : FileSystem) (r : Request) :
    IsAnswer r.id (s.handleRequest fs r).2.2 := by
  rw [handleRequest]
  split
  · exact .error _ _
  · split
    · exact .error _ _
    · exact .result _
    · split
      · exact .error _ _
      · split
        · exact .result _
        · rename_i asked _ _ _ _
          cases asked <;> first | exact .result _ | exact .error _ _

theorem IsAnswer.isSentAs {id : RequestId} {r : Response} (h : IsAnswer id r) :
    r.IsSentAs (Message.response r).encode := by
  have hid : id.toJson.ordered = id.toJson := by cases id <;> rfl
  have hversion : ¬ "jsonrpc" < "id" ∧ "jsonrpc" ≠ "id" := by decide
  cases h with
  | result value =>
    have hresult : "id" < "result" ∧ "jsonrpc" < "result" := by decide
    have hjson : (Message.response (.ok id value)).toJson.ordered =
        .obj [("id", id.toJson), Message.version, ("result", value.ordered)] := by
      simp only [Message.toJson, Response.toJson, Response.ok, Json.optional, Message.version,
        List.cons_append, List.nil_append, List.append_nil, Json.ordered, Json.orderedMembers, Json.enter,
        hid, hversion, hresult, ↓reduceIte]
    refine .inl ⟨value, rfl, ?_⟩
    rw [Message.encode, Json.payload, hjson]
    rfl
  | error code message =>
    have herror : (¬ "id" < "error" ∧ "id" ≠ "error") ∧ ¬ "jsonrpc" < "error" ∧ "jsonrpc" ≠ "error" ∧
        "code" < "message" := by decide
    have hjson : (Message.response (.fail id code message)).toJson.ordered =
        .obj [("error", .obj [("code", .int code), ("message", .str message)]), ("id", id.toJson),
          Message.version] := by
      simp only [Message.toJson, Response.toJson, Response.fail, ResponseError.toJson, Json.optional,
        Message.version, List.cons_append, List.nil_append, List.append_nil, Json.ordered,
        Json.orderedMembers, Json.enter, hid, hversion, herror, ↓reduceIte]
    refine .inr ⟨code, message, rfl, ?_⟩
    rw [Message.encode, Json.payload, hjson]
    rfl

theorem IsAnswer.id_eq {id : RequestId} {r : Response} (h : IsAnswer id r) : r.id = id := by
  cases h <;> rfl

theorem id_of_answerTo? {w : Server × FileSystem} {m : Message} :
    (answerTo? w m).map (·.id) = m.request?.map (·.id) := by
  cases m with
  | response r => rfl
  | notification n => rfl
  | request r => exact congrArg some (isAnswer_handleRequest w.1 w.2 r).id_eq

/-! ### Conversations -/

/-- The messages of payloads up to the first notice to exit. -/
def heard (payloads : List (List UInt8)) : List Message :=
  (payloads.filterMap Message.decode?).takeWhile (!·.isExit)

/-- The server and the tree after messages. -/
def after (w : Server × FileSystem) (messages : List Message) : Server × FileSystem :=
  messages.foldl step w

/-- The answers to messages, each given in the state that those before it lead to. -/
def replies (w : Server × FileSystem) (messages : List Message) : List Response :=
  messages.zipIdx.filterMap fun e => answerTo? (after w (messages.take e.2)) e.1

theorem replies_cons (w : Server × FileSystem) (m : Message) (messages : List Message) :
    replies w (m :: messages) = (answerTo? w m).toList ++ replies (step w m) messages := by
  have hrest : (messages.zipIdx 1).filterMap
      (fun e => answerTo? (after w ((m :: messages).take e.2)) e.1) = replies (step w m) messages := by
    rw [List.zipIdx_succ, List.filterMap_map]
    rfl
  have hfirst : answerTo? (after w ((m :: messages).take 0)) m = answerTo? w m := rfl
  rw [replies, List.zipIdx_cons, List.filterMap_cons, hfirst, Nat.zero_add, hrest]
  cases answerTo? w m with
  | none => rfl
  | some r => rfl

theorem map_id_replies (w : Server × FileSystem) (messages : List Message) :
    (replies w messages).map (·.id) = (messages.filterMap Message.request?).map (·.id) := by
  induction messages generalizing w with
  | nil => rfl
  | cons m messages ih =>
    have hid := id_of_answerTo? (w := w) (m := m)
    rw [replies_cons, List.map_append, ih, List.filterMap_cons]
    cases hm : m.request? with
    | none =>
      rw [hm, Option.map_none, Option.map_eq_none_iff] at hid
      rw [hid]
      rfl
    | some r =>
      rw [hm, Option.map_some, Option.map_eq_some_iff] at hid
      obtain ⟨answer, ha, hr⟩ := hid
      rw [ha]
      exact congrArg (· :: _) hr

theorem exists_of_mem_replies {w : Server × FileSystem} {messages : List Message} {r : Response}
    (h : r ∈ replies w messages) : ∃ id, IsAnswer id r := by
  obtain ⟨⟨m, n⟩, -, hr⟩ := List.mem_filterMap.1 h
  cases m with
  | response r => cases hr
  | notification n => cases hr
  | request q =>
    obtain rfl := Option.some.inj hr
    exact ⟨q.id, isAnswer_handleRequest _ _ q⟩

theorem heard_cons_none {payload : List UInt8} (h : Message.decode? payload = none)
    (payloads : List (List UInt8)) : heard (payload :: payloads) = heard payloads := by
  rw [heard, List.filterMap_cons_none h, heard]

theorem heard_cons_exit {payload : List UInt8} {m : Message} (h : Message.decode? payload = some m)
    (hexit : m.isExit = true) (payloads : List (List UInt8)) : heard (payload :: payloads) = [] := by
  rw [heard, List.filterMap_cons_some h, List.takeWhile_cons_of_neg (by simp [hexit])]

theorem heard_cons_some {payload : List UInt8} {m : Message} (h : Message.decode? payload = some m)
    (hexit : m.isExit = false) (payloads : List (List UInt8)) :
    heard (payload :: payloads) = m :: heard payloads := by
  rw [heard, List.filterMap_cons_some h, List.takeWhile_cons_of_pos (by simp [hexit]), heard]

/-! ### Turns -/

namespace Talk

/-- What the next turn of a conversation can be, by what has arrived. -/
inductive Turned (t : Talk) : Turn → Prop
  | waiting (missing : Nat) (found : Frame.next t.closed t.unread = .waiting) : Turned t (.read missing)
  | ended (found : Frame.next t.closed t.unread = .ended) : Turned t (.over .done)
  | broken {fault : Frame.Fault} (found : Frame.next t.closed t.unread = .broken fault) :
      Turned t (.over (.broken fault))
  | garbled {payload rest : List UInt8} (found : Frame.next t.closed t.unread = .frame payload rest)
      (garbled : Message.decode? payload = none) : Turned t (.continue { t with unread := rest })
  | exit {payload rest : List UInt8} {m : Message}
      (found : Frame.next t.closed t.unread = .frame payload rest)
      (decoded : Message.decode? payload = some m) (exit : m.isExit = true) : Turned t (.over .done)
  | silent {payload rest : List UInt8} {m : Message}
      (found : Frame.next t.closed t.unread = .frame payload rest)
      (decoded : Message.decode? payload = some m) (stays : m.isExit = false)
      (silent : answerTo? (t.server, t.files) m = none) :
      Turned t (.continue { t with
        server := (step (t.server, t.files) m).1, files := (step (t.server, t.files) m).2, unread := rest })
  | answered {payload rest : List UInt8} {m : Message} {r : Response}
      (found : Frame.next t.closed t.unread = .frame payload rest)
      (decoded : Message.decode? payload = some m) (stays : m.isExit = false)
      (answered : answerTo? (t.server, t.files) m = some r) :
      Turned t (.write r { t with
        server := (step (t.server, t.files) m).1, files := (step (t.server, t.files) m).2, unread := rest })

theorem turned (t : Talk) : Turned t t.turn := by
  cases hnext : Frame.next t.closed t.unread with
  | waiting =>
    simp only [turn, hnext]
    exact .waiting _ hnext
  | ended =>
    simp only [turn, hnext]
    exact .ended hnext
  | broken fault =>
    simp only [turn, hnext]
    exact .broken hnext
  | frame payload rest =>
    cases hm : Message.decode? payload with
    | none =>
      simp only [turn, hnext, hm]
      exact .garbled hnext hm
    | some m =>
      cases hexit : m.isExit with
      | true =>
        simp only [turn, hnext, hm, handle_of_isExit hexit]
        exact .exit hnext hm hexit
      | false =>
        simp only [turn, hnext, hm, handle_of_not_isExit hexit]
        cases ha : answerTo? (t.server, t.files) m with
        | none => exact .silent hnext hm hexit ha
        | some r => exact .answered hnext hm hexit ha

end Talk

/-! ### Serving -/

/-- The bytes of the frames of responses, one after the other. -/
def frames (responses : List Response) : List UInt8 :=
  Frame.stream (responses.map fun r => (Message.response r).encode)

theorem frames_cons (r : Response) (responses : List Response) :
    frames (r :: responses) =
      (Frame.parts (Message.response r).encode).flatten ++ frames responses := rfl

section

variable {t : Talk} {more : List UInt8} {payloads : List (List UInt8)}

/-- What has arrived says how the whole stream begins, unless bytes are waited for. -/
theorem next_whole (hmore : t.closed = true → more = [])
    (h : Frame.next t.closed t.unread ≠ .waiting) :
    Frame.next true (t.unread ++ more) = (Frame.next t.closed t.unread).before more := by
  cases hc : t.closed with
  | false => exact Frame.next_before (hc ▸ h) more
  | true =>
    rw [hmore hc, List.append_nil]
    cases Frame.next true t.unread <;> simp [Frame.Found.before]

theorem readAll_whole {payload rest : List UInt8} (hmore : t.closed = true → more = [])
    (h : Frame.next t.closed t.unread = .frame payload rest)
    (hread : Frame.readAll true (t.unread ++ more) = (payloads, .ended)) :
    ∃ later, payloads = payload :: later ∧ Frame.readAll true (rest ++ more) = (later, .ended) := by
  have hnext := next_whole hmore (h ▸ by simp)
  rw [h, Frame.Found.before] at hnext
  rw [Frame.readAll_frame hnext, Prod.mk.injEq] at hread
  exact ⟨_, hread.1.symm, Prod.ext rfl hread.2⟩

/-- The messages that are still to come after a turn, in place of those before it. -/
theorem replies_of_continue {next : Talk} (hmore : t.closed = true → more = [])
    (hturn : t.turn = .continue next)
    (hread : Frame.readAll true (t.unread ++ more) = (payloads, .ended)) :
    ∃ later, Frame.readAll true (next.unread ++ more) = (later, .ended) ∧
      replies (t.server, t.files) (heard payloads) =
        replies (next.server, next.files) (heard later) := by
  have hturned := t.turned
  rw [hturn] at hturned
  cases hturned with
  | garbled found garbled =>
    obtain ⟨later, rfl, hlater⟩ := readAll_whole hmore found hread
    exact ⟨later, hlater, by rw [heard_cons_none garbled]⟩
  | silent found decoded stays silent =>
    obtain ⟨later, rfl, hlater⟩ := readAll_whole hmore found hread
    refine ⟨later, hlater, ?_⟩
    rw [heard_cons_some decoded stays, replies_cons, silent]
    rfl

theorem replies_of_write {r : Response} {next : Talk} (hmore : t.closed = true → more = [])
    (hturn : t.turn = .write r next)
    (hread : Frame.readAll true (t.unread ++ more) = (payloads, .ended)) :
    ∃ later, Frame.readAll true (next.unread ++ more) = (later, .ended) ∧
      replies (t.server, t.files) (heard payloads) =
        r :: replies (next.server, next.files) (heard later) := by
  have hturned := t.turned
  rw [hturn] at hturned
  cases hturned with
  | answered found decoded stays answered =>
    obtain ⟨later, rfl, hlater⟩ := readAll_whole hmore found hread
    refine ⟨later, hlater, ?_⟩
    rw [heard_cons_some decoded stays, replies_cons, answered]
    rfl

theorem replies_of_over {ending : Serving} (hmore : t.closed = true → more = [])
    (hturn : t.turn = .over ending)
    (hread : Frame.readAll true (t.unread ++ more) = (payloads, .ended)) :
    ending = .done ∧ replies (t.server, t.files) (heard payloads) = [] := by
  have hturned := t.turned
  rw [hturn] at hturned
  cases hturned with
  | ended found =>
    have hnext := next_whole hmore (found ▸ by simp)
    rw [found] at hnext
    rw [Frame.readAll_ended hnext, Prod.mk.injEq] at hread
    rw [← hread.1]
    exact ⟨rfl, rfl⟩
  | broken found =>
    have hnext := next_whole hmore (found ▸ by simp)
    rw [found] at hnext
    rw [Frame.readAll_broken hnext] at hread
    cases hread
  | exit found decoded exit =>
    obtain ⟨later, rfl, -⟩ := readAll_whole hmore found hread
    rw [heard_cons_exit decoded exit]
    exact ⟨rfl, rfl⟩

end

/-- How far answers are written to an output. -/
def delivered (out : Output) (answers : List Response) : Output × Serving :=
  (out.put (frames answers), if out.bears (frames answers) then .done else .failed out.reason)

/-- A stream of frames that ends well is served to its end in whatever pieces it arrives, and the
answers to what is heard of it are written as far as the output takes them. -/
theorem serve_of_ended {t : Talk} {arrivals : List (Except String (List UInt8))} {out : Output}
    {pieces payloads : List (List UInt8)} (ha : arrivals = pieces.map .ok) (hne : [] ∉ pieces)
    (hclosed : t.closed = true → pieces.flatten = [])
    (hread : Frame.readAll true (t.unread ++ pieces.flatten) = (payloads, .ended)) :
    serve t arrivals out = delivered out (replies (t.server, t.files) (heard payloads)) := by
  fun_induction serve t arrivals out generalizing pieces payloads with
  | case1 t out missing hturn hc ih =>
    obtain rfl := List.map_eq_nil_iff.1 ha.symm
    refine ih rfl hne (fun _ => rfl) ?_
    simpa [Talk.receive] using hread
  | case2 t out missing hturn hc bytes rest ih =>
    cases pieces with
    | nil => cases ha
    | cons piece pieces =>
      obtain ⟨rfl, rfl⟩ : bytes = piece ∧ rest = pieces.map .ok := by simpa using ha
      obtain ⟨hpiece, hne⟩ : bytes ≠ [] ∧ [] ∉ pieces := by simpa [eq_comm] using hne
      refine ih rfl hne (fun hempty => ?_) ?_
      · exact absurd (List.isEmpty_iff.1 hempty) hpiece
      · simpa [Talk.receive] using hread
  | case3 t out missing hturn hc reason tail =>
    cases pieces with
    | nil => cases ha
    | cons piece pieces => cases (List.cons.inj ha).1
  | case4 t arrivals out next hturn hnext ih =>
    obtain ⟨later, hlater, hreplies⟩ := replies_of_continue hclosed hturn hread
    rw [hreplies]
    exact ih ha hne (hnext.1 ▸ hclosed) hlater
  | case5 t arrivals out r next hturn hnext out' hframe ih =>
    obtain ⟨later, hlater, hreplies⟩ := replies_of_write hclosed hturn hread
    rw [Output.frame_eq, Prod.mk.injEq] at hframe
    obtain ⟨rfl, hbears⟩ := hframe
    rw [ih ha hne (hnext.1 ▸ hclosed) hlater, hreplies, delivered, delivered, frames_cons,
      Output.put_put, Output.bears_append, hbears, Bool.true_and]
    rfl
  | case6 t arrivals out r next hturn hnext out' hframe =>
    obtain ⟨later, hlater, hreplies⟩ := replies_of_write hclosed hturn hread
    rw [Output.frame_eq, Prod.mk.injEq] at hframe
    obtain ⟨rfl, hbears⟩ := hframe
    rw [hreplies, delivered, frames_cons, Output.put_append_of_not_bears hbears,
      Output.bears_append, hbears, Bool.false_and, if_neg (by simp)]
    rfl
  | case7 t arrivals out ending hturn =>
    obtain ⟨rfl, hreplies⟩ := replies_of_over hclosed hturn hread
    have hnil : frames [] = [] := rfl
    rw [hreplies, delivered, hnil, Output.put_nil, Output.bears_nil, if_pos rfl]

/-- Served a stream of frames, in whatever pieces it arrives, a server writes one frame for each request
that precedes the first notice to exit, in their order and with their ids, each with the answer to the
request in the state that the messages before it lead to; to all else that it reads it writes nothing.
An output that takes all of that leads to a good end, and another gets as much of it as it takes. The
frames can be read again, unless an answer is longer than a frame may be. -/
theorem serve_eq_replies (s : Server) (fs : FileSystem) (out : Output) {t : Frame.Transcript}
    (h : t.WellFormed) {pieces : List (List UInt8)} (hpieces : pieces.flatten = t.bytes)
    (hne : [] ∉ pieces) :
    let answers := replies (s, fs) (heard t.payloads)
    let payloads := answers.map fun r => (Message.response r).encode
    let served := serve { server := s, files := fs } (pieces.map .ok) out
    served.1.written = out.written ++ out.cut (payloads.flatMap Frame.write) ∧
      served.2 = (if out.bears (payloads.flatMap Frame.write) then .done else .failed out.reason) ∧
      answers.map (·.id) = ((heard t.payloads).filterMap Message.request?).map (·.id) ∧
      (∀ r ∈ answers, r.IsSentAs (Message.response r).encode) ∧
      ((∀ p ∈ payloads, p.length ≤ Frame.limit) →
        Frame.readAll true (payloads.flatMap Frame.write) = (payloads, .ended)) := by
  intro answers payloads served
  have hread : Frame.readAll true ([] ++ pieces.flatten) = (t.payloads, .ended) := by
    rw [List.nil_append, hpieces, h.readAll]
  have hserved : served = delivered out answers := serve_of_ended rfl hne (by simp) hread
  rw [hserved]
  refine ⟨rfl, rfl, map_id_replies _ _, fun r hr => ?_, Frame.readAll_stream⟩
  obtain ⟨id, hanswer⟩ := exists_of_mem_replies hr
  exact hanswer.isSentAs

/-- No message, a request, a response, the notice to exit, and a request that comes too late. -/
def farewell : List (List UInt8) :=
  ["\x7b", "\x7b\"id\":7,\"method\":\"shutdown\"\x7d", "\x7b\"id\":7,\"result\":1\x7d",
    "\x7b\"method\":\"exit\"\x7d", "\x7b\"id\":8,\"method\":\"shutdown\"\x7d"].map
      fun text => Frame.ascii text.toList

/-- Only the request before the notice is answered, and not as a whole where only a byte is taken. -/
theorem serve_eq_replies_farewell :
    let bytes := (Frame.Transcript.ofPayloads farewell).bytes
    let new : Talk := { server := (create {} ⟨"/c"⟩).1, files := {} }
    (Frame.Transcript.ofPayloads farewell).WellFormed ∧
      ∃ r : Response, r.id = .number 7 ∧
        (serve new ([bytes.take 30, bytes.drop 30].map .ok) {}).1.written =
          Frame.write (Message.response r).encode ∧
        (serve new ([bytes].map .ok) { room := some 1 }).2 = .failed "Broken pipe (os error 32)" := by
  intro bytes new
  have hwithin : ∀ p ∈ farewell, p.length ≤ Frame.limit := by
    decide +kernel
  have ht := Frame.Transcript.wellFormed_ofPayloads hwithin
  have hlong : 30 < bytes.length := by decide +kernel
  have hheard : ((heard farewell).filterMap Message.request?).map (·.id) = [.number 7] := by
    decide +kernel
  have hfull {pieces : List (List UInt8)} (h : ∀ piece ∈ pieces, 0 < piece.length) : [] ∉ pieces :=
    fun hmem => absurd (h [] hmem) (by simp)
  have htwice : [bytes.take 30, bytes.drop 30].flatten = bytes := by simp
  have honce : [bytes].flatten = bytes := by simp
  obtain ⟨htwo, -, hids, -⟩ :=
    serve_eq_replies new.server new.files {} ht htwice (hfull (by simp; omega))
  obtain ⟨-, hone, -⟩ :=
    serve_eq_replies new.server new.files { room := some 1 } ht honce (hfull (by simp; omega))
  rw [Frame.Transcript.payloads_ofPayloads] at htwo hids hone
  rw [hheard] at hids
  obtain ⟨r, hr, hid⟩ := List.map_eq_singleton_iff.1 hids
  rw [hr] at htwo hone
  have hframe : 1 < (Frame.write (Message.response r).encode).length := by
    simp [Frame.write, Frame.parts]
    omega
  refine ⟨ht, r, hid, ?_, ?_⟩
  · simpa [Output.cut] using htwo
  · simpa [Output.bears, Nat.not_le.2 hframe] using hone

end Server

end LuaLens
