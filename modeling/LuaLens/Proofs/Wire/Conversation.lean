import LuaLens.Wire.FarEnd

/-!
Conversations in which every write succeeds, whatever the host does and whenever messages arrive.
Taking messages off the queue is one thing done in three places, so that it is said once what it does
to the events and to the log; a request that waits for more is the same as one that finds all of it
on the queue.
-/

namespace LuaLens

/-! ### What a message asks for -/

namespace Message

/-- The event that a message is for the host, unless it is a response. -/
def event? : Message → Option Event
  | .notification n => some (.ofNotification n)
  | .request r => some (.answered r.id r.method)
  | .response _ => none

/-- The response that a request of the far end is answered with. -/
def reply? : Message → Option Response
  | .request r => some ((ServerRequest.ofRequest r).answer r.id)
  | _ => none

def response? : Message → Option Response
  | .response r => some r
  | _ => none

def requestId? : Message → Option RequestId
  | .request r => some r.id
  | _ => none

/-- Whether a message is a response to the request of the given id. -/
def Answers (id : RequestId) (m : Message) : Prop := ∃ r, m = .response r ∧ r.id = id

end Message

theorem ServerRequest.answer_id (id : RequestId) (r : ServerRequest) : (r.answer id).id = id := by
  cases r <;> rfl

/-- As long as 32 bits suffice, the number is how many requests came before. -/
theorem RequestId.ofCount_eq {n : Nat} (h : n < 2147483648) : ofCount n = .number n :=
  congrArg RequestId.number (Int32.toInt_ofNat_of_lt h)

/-- Every answer carries the id of its own request. -/
theorem map_id_reply? (ms : List Message) :
    (ms.filterMap Message.reply?).map (·.id) = ms.filterMap Message.requestId? := by
  rw [List.map_filterMap]
  congr 1
  funext m
  cases m with
  | request r => simp [Message.reply?, Message.requestId?, ServerRequest.answer_id]
  | response r => rfl
  | notification n => rfl

/-- A queue holds no response of an id, or there is a first one. -/
theorem exists_first_answer (id : RequestId) (q : List Message) :
    (∀ m ∈ q, ¬ m.Answers id) ∨
      ∃ before r after, q = before ++ .response r :: after ∧ r.id = id ∧
        ∀ m ∈ before, ¬ m.Answers id := by
  induction q with
  | nil => exact .inl (by simp)
  | cons m q ih =>
    by_cases hm : m.Answers id
    · obtain ⟨r, rfl, hr⟩ := hm
      exact .inr ⟨[], r, q, rfl, hr, by simp⟩
    · obtain h | ⟨before, r, after, rfl, hr, hb⟩ := ih
      · exact .inl (by simpa [hm] using h)
      · exact .inr ⟨m :: before, r, after, rfl, hr, by simpa [hm] using hb⟩

/-! ### Arrivals -/

namespace Connection

variable {π : Type}

/-- The messages that arrive with what the far end sends. -/
def arriving (c : Connection π) (s : Sending) : List Message :=
  if c.ended then [] else (Frame.readAll s.closes (c.unread ++ s.bytes)).1.filterMap Message.decode?

/-- What arrives is put behind the queue, whatever the rest of the connection is. -/
theorem receive_with (c : Connection π) (q : List Message) (e : List Event) (b : Bool)
    (s : Sending) :
    receive { c with queue := q, events := e, closed := b } s =
      { c.receive s with queue := q ++ c.arriving s, events := e, closed := b } := by
  simp only [receive, arriving]
  cases h : c.ended with
  | true => simp [h]
  | false => cases (Frame.readAll s.closes (c.unread ++ s.bytes)).2 <;> simp

/-- All that the far end sends meanwhile. -/
def receiveAll (c : Connection π) (ss : List Sending) : Connection π := ss.foldl receive c

def arrivals (c : Connection π) : List Sending → List Message
  | [] => []
  | s :: ss => c.arriving s ++ (c.receive s).arrivals ss

/-- What arrives depends on the bytes alone. -/
theorem arrivals_congr {c d : Connection π} (hu : c.unread = d.unread) (he : c.ended = d.ended)
    (ss : List Sending) : c.arrivals ss = d.arrivals ss := by
  induction ss generalizing c d with
  | nil => rfl
  | cons s ss ih =>
    have ha : c.arriving s = d.arriving s := by rw [arriving, arriving, hu, he]
    have hr : (c.receive s).unread = (d.receive s).unread ∧
        (c.receive s).ended = (d.receive s).ended := by
      simp only [receive, hu, he]
      cases d.ended with
      | true => simp [hu, he]
      | false => cases (Frame.readAll s.closes (d.unread ++ s.bytes)).2 <;> simp
    rw [arrivals, arrivals, ha, ih hr.1 hr.2]

theorem receiveAll_with (c : Connection π) (q : List Message) (e : List Event) (b : Bool)
    (ss : List Sending) :
    receiveAll { c with queue := q, events := e, closed := b } ss =
      { c.receiveAll ss with queue := q ++ c.arrivals ss, events := e, closed := b } := by
  induction ss generalizing c q with
  | nil => simp [receiveAll, arrivals]
  | cons s ss ih =>
    have h := ih (c.receive s) (q ++ c.arriving s)
    rw [← receive_with] at h
    rw [arrivals, ← List.append_assoc]
    exact h

theorem receiveAll_eq (c : Connection π) (ss : List Sending) :
    c.receiveAll ss =
      { c.receiveAll ss with
        queue := c.queue ++ c.arrivals ss, events := c.events, closed := c.closed } :=
  receiveAll_with c c.queue c.events c.closed ss

theorem receiveAll_queue (c : Connection π) (ss : List Sending) :
    (c.receiveAll ss).queue = c.queue ++ c.arrivals ss := by rw [receiveAll_eq]

theorem receiveAll_events (c : Connection π) (ss : List Sending) :
    (c.receiveAll ss).events = c.events := by rw [receiveAll_eq]

theorem receiveAll_closed (c : Connection π) (ss : List Sending) :
    (c.receiveAll ss).closed = c.closed := by rw [receiveAll_eq]

/-- Arrivals change what is unread, the queue, and whether the stream has ended. -/
theorem exists_receive (c : Connection π) (s : Sending) :
    ∃ unread ended queue, c.receive s = { c with unread, ended, queue } := by
  unfold receive
  split
  · exact ⟨_, _, _, rfl⟩
  · dsimp only
    split <;> exact ⟨_, _, _, rfl⟩

theorem exists_receiveAll (c : Connection π) (ss : List Sending) :
    ∃ unread ended queue, c.receiveAll ss = { c with unread, ended, queue } := by
  induction ss generalizing c with
  | nil => exact ⟨_, _, _, rfl⟩
  | cons s ss ih =>
    obtain ⟨_, _, _, hs⟩ := exists_receive c s
    obtain ⟨unread, ended, queue, hss⟩ := ih (c.receive s)
    refine ⟨unread, ended, queue, hss.trans ?_⟩
    rw [hs]

theorem receive_peer (c : Connection π) (s : Sending) : (c.receive s).peer = c.peer := by
  obtain ⟨_, _, _, h⟩ := exists_receive c s
  rw [h]

theorem receiveAll_number (c : Connection π) (ss : List Sending) :
    (c.receiveAll ss).number = c.number := by
  obtain ⟨_, _, _, h⟩ := exists_receiveAll c ss
  rw [h]

theorem receiveAll_peer (c : Connection π) (ss : List Sending) :
    (c.receiveAll ss).peer = c.peer := by
  obtain ⟨_, _, _, h⟩ := exists_receiveAll c ss
  rw [h]

theorem receiveAll_nextId (c : Connection π) (ss : List Sending) :
    (c.receiveAll ss).nextId = c.nextId := by
  obtain ⟨_, _, _, h⟩ := exists_receiveAll c ss
  rw [h]

theorem receiveAll_checked (c : Connection π) (ss : List Sending) :
    (c.receiveAll ss).checked = c.checked := by
  obtain ⟨_, _, _, h⟩ := exists_receiveAll c ss
  rw [h]

/-- After the end of the stream nothing arrives. -/
theorem receiveAll_of_ended {c : Connection π} (h : c.ended = true) (ss : List Sending) :
    c.receiveAll ss = c ∧ c.arrivals ss = [] := by
  induction ss with
  | nil => exact ⟨rfl, rfl⟩
  | cons s ss ih =>
    have hs : c.receive s = c := by simp [receive, h]
    have ha : c.arriving s = [] := by simp [arriving, h]
    rw [arrivals, ha, hs, ih.2]
    refine ⟨?_, rfl⟩
    rw [receiveAll, List.foldl_cons, hs]
    exact ih.1

end Connection

/-! ### Taking messages -/

/-- The world after messages of a queue were taken: the requests among them are answered. -/
def World.answering (w : World) (number : Nat) (ms : List Message) : World :=
  { w with log := ((ms.filterMap Message.reply?).map fun r => (number, .response r)).reverse ++ w.log }

@[simp] theorem World.answering_nil (w : World) (n : Nat) : w.answering n [] = w := rfl

theorem World.answering_of_reply?_eq_none (w : World) (n : Nat) {m : Message}
    (h : m.reply? = none) : w.answering n [m] = w := by
  simp [World.answering, List.filterMap_cons_none h]

theorem World.answering_answering (w : World) (n : Nat) (m : Message) (ms : List Message) :
    (w.answering n [m]).answering n ms = w.answering n (m :: ms) := by
  simp only [World.answering, ← List.append_assoc, ← List.reverse_append, ← List.map_append,
    ← List.filterMap_append, List.singleton_append]

theorem World.answering_concat_response (w : World) (n : Nat) (ms : List Message) (r : Response) :
    w.answering n (ms ++ [.response r]) = w.answering n ms := by
  simp [World.answering, List.filterMap_append,
    List.filterMap_cons_none (show Message.reply? (.response r) = none from rfl)]

namespace Connection

variable {π : Type}

/-- The connection after messages were taken: all but responses are events. -/
def absorb (c : Connection π) (ms : List Message) : Connection π :=
  { c with events := c.events ++ ms.filterMap Message.event? }

/-- The connection after messages were taken and others left on the queue. -/
def took (c : Connection π) (taken left : List Message) (closed : Bool) : Connection π :=
  { c.absorb taken with queue := left, closed }

theorem receiveAll_took (c : Connection π) (taken left : List Message) (closed : Bool)
    (ss : List Sending) :
    (c.took taken left closed).receiveAll ss =
      (c.receiveAll ss).took taken (left ++ c.arrivals ss) closed := by
  have h := receiveAll_with c left (c.events ++ taken.filterMap Message.event?) closed ss
  rw [took, took, absorb, absorb, receiveAll_events]
  exact h

@[simp] theorem absorb_number (c : Connection π) (ms : List Message) :
    (c.absorb ms).number = c.number := rfl

@[simp] theorem absorb_nil (c : Connection π) : c.absorb [] = c := by simp [absorb]

@[simp] theorem absorb_response (c : Connection π) (r : Response) : c.absorb [.response r] = c := by
  simp [absorb, List.filterMap_cons_none (show Message.event? (.response r) = none from rfl)]

theorem absorb_absorb (c : Connection π) (m : Message) (ms : List Message) :
    (c.absorb [m]).absorb ms = c.absorb (m :: ms) := by
  simp only [absorb, List.append_assoc, ← List.filterMap_append, List.singleton_append]

theorem took_concat_response (c : Connection π) (taken left : List Message) (closed : Bool)
    (r : Response) : c.took (taken ++ [.response r]) left closed = c.took taken left closed := by
  simp [took, absorb, List.filterMap_append,
    List.filterMap_cons_none (show Message.event? (.response r) = none from rfl)]

theorem absorb_took (c : Connection π) (m : Message) (taken left : List Message) (closed : Bool) :
    (c.absorb [m]).took taken left closed = c.took (m :: taken) left closed := by
  rw [took, absorb_absorb, took]

variable [Peer π]

theorem accept_eq {c : Connection π} (h : Peer.reads c.peer = true) (w : World) (m : Message) :
    c.accept w m = (c.absorb [m], w.answering c.number [m], true) := by
  cases m with
  | request r => simp [accept, respond, h, absorb, World.answering, Message.event?, Message.reply?]
  | response r => rw [absorb_response, World.answering_of_reply?_eq_none w c.number rfl, accept]
  | notification n =>
    rw [World.answering_of_reply?_eq_none w c.number rfl]
    simp [accept, absorb, Message.event?]

/-- Waiting passes over what is no response to the request. -/
theorem await_append {c : Connection π} (h : Peer.reads c.peer = true) (w : World) (id : RequestId)
    {before : List Message} (hb : ∀ m ∈ before, ¬ m.Answers id) (q : List Message) :
    c.await w id (before ++ q) = (c.absorb before).await (w.answering c.number before) id q := by
  induction before generalizing c w with
  | nil => simp
  | cons m before ih =>
    have hstep : c.await w id (m :: (before ++ q)) =
        (c.absorb [m]).await (w.answering c.number [m]) id (before ++ q) := by
      cases m with
      | request r => simp only [await, accept_eq h]
      | response r =>
        have hr : r.id ≠ id := fun hr => hb (.response r) (by simp) ⟨r, rfl, hr⟩
        rw [absorb_response, World.answering_of_reply?_eq_none w c.number rfl, await, if_neg hr]
      | notification n => simp only [await, accept_eq h]
    rw [List.cons_append, hstep, ih (c := c.absorb [m]) h _ fun d hd => hb d (by simp [hd]),
      absorb_absorb, absorb_number, World.answering_answering]

/-- The first response to a request settles it, and what comes after it stays on the queue. -/
theorem await_of_answer {c : Connection π} (h : Peer.reads c.peer = true) (w : World)
    {before after : List Message} {r : Response} (hb : ∀ m ∈ before, ¬ m.Answers r.id) :
    c.await w r.id (before ++ .response r :: after) =
      (c.took before after c.closed, w.answering c.number before, some (outcome r)) := by
  rw [await_append h w r.id hb, await, if_pos rfl]
  rfl

/-- Without a response, a request takes all there is; whether it goes on waiting depends on the end of
the stream. -/
theorem await_of_none {c : Connection π} (h : Peer.reads c.peer = true) (w : World) {id : RequestId}
    {q : List Message} (hq : ∀ m ∈ q, ¬ m.Answers id) :
    c.await w id q =
      (c.took q [] (c.closed || c.ended), w.answering c.number q,
        if c.ended then some (.error .closed) else none) := by
  have happ := await_append h w id hq []
  rw [List.append_nil] at happ
  rw [happ, await]
  cases hc : c.ended <;> simp [took, absorb, hc]

/-- A response to another request changes neither the outcome nor the events. -/
theorem await_stale {c : Connection π} (h : Peer.reads c.peer = true) (w : World) {id : RequestId}
    {x : Response} (hx : x.id ≠ id) (q₁ q₂ : List Message) :
    (c.await w id (q₁ ++ .response x :: q₂)).2 = (c.await w id (q₁ ++ q₂)).2 ∧
      (c.await w id (q₁ ++ .response x :: q₂)).1.events = (c.await w id (q₁ ++ q₂)).1.events := by
  obtain hq | ⟨before, r, after, rfl, rfl, hb⟩ := exists_first_answer id q₁
  · rw [await_append h w id hq, await_append h w id hq, await, if_neg hx]
    exact ⟨rfl, rfl⟩
  · rw [List.append_assoc, List.append_assoc, List.cons_append, List.cons_append,
      await_of_answer h w hb, await_of_answer h w hb]
    exact ⟨rfl, rfl⟩

theorem takeAll_eq {c : Connection π} (h : Peer.reads c.peer = true) (w : World) (taken : Nat)
    (q : List Message) :
    c.takeAll w taken q =
      (c.took q [] (c.closed || c.ended), w.answering c.number q, .ok (taken + q.length)) := by
  induction q generalizing c w taken with
  | nil => simp [takeAll, took]
  | cons m q ih =>
    rw [takeAll, accept_eq h]
    simp only
    rw [ih (c := c.absorb [m]) h, absorb_took, absorb_number, World.answering_answering,
      List.length_cons, Nat.add_assoc, Nat.add_comm 1]
    rfl

/-- The outcome is the error, if there is one, and else the result unless it is `null`. -/
theorem outcome_eq (r : Response) :
    outcome r = match r.error with
      | some e => .error (.server e.code e.message)
      | none => .ok (r.result.filter fun j => !j.isNull) := by
  cases he : r.error with
  | some e => simp [outcome, he]
  | none =>
    rcases hr : r.result with _ | j
    · simp [outcome, he, hr, Json.present]
    · simp only [outcome, he, hr]
      cases j <;> rfl

/-! ### Requests that wait -/

/-- Goes on with a request while more arrives; nothing more is taken once it has its outcome. -/
def resume (id : RequestId) :
    List Sending → Connection π × World × Option (Except LinkFault (Option Json)) →
      Connection π × World × Option (Except LinkFault (Option Json))
  | [], out => out
  | s :: ss, (c, w, some result) => resume id ss (c.receive s, w, some result)
  | s :: ss, (c, w, none) => resume id ss ((c.receive s).await w id (c.receive s).queue)

/-- Whether no request is written any more. -/
def isMute (c : Connection π) : Bool := c.closed || c.isSpent

omit [Peer π] in
theorem closed_of_isMute {c : Connection π} (h : c.isMute = false) : c.closed = false :=
  (Bool.or_eq_false_iff.1 h).1

omit [Peer π] in
theorem isSpent_of_isMute {c : Connection π} (h : c.isMute = false) : c.isSpent = false :=
  (Bool.or_eq_false_iff.1 h).2

/-- A request during which more arrives than what the far end sends at once. Without a number there is
nothing that it waits for. -/
def requestAmid (c : Connection π) (w : World) (method : String) (params : Json)
    (meanwhile : List Sending) : Connection π × World × Option (Except LinkFault (Option Json)) :=
  let out := c.request w method params
  if c.isMute then (out.1.receiveAll meanwhile, out.2)
  else resume (.ofCount c.nextId) meanwhile out

theorem resume_some (id : RequestId) (ss : List Sending) (c : Connection π) (w : World)
    (result : Except LinkFault (Option Json)) :
    resume id ss (c, w, some result) = (c.receiveAll ss, w, some result) := by
  induction ss generalizing c with
  | nil => rfl
  | cons s ss ih => rw [resume, ih]; rfl

/-- What a request finds on the queue is all that it looks at. -/
theorem await_took {c : Connection π} (h : Peer.reads c.peer = true) (w : World) (id : RequestId)
    (taken left q : List Message) :
    (c.took taken left c.closed).await w id q = (c.absorb taken).await w id q := by
  have hpeer : Peer.reads (c.took taken left c.closed).peer = true := h
  obtain hq | ⟨before, r, after, rfl, rfl, hb⟩ := exists_first_answer id q
  · rw [await_of_none hpeer w hq, await_of_none (c := c.absorb taken) h w hq]
    rfl
  · rw [await_of_answer hpeer w hb, await_of_answer (c := c.absorb taken) h w hb]
    rfl

/-- Waiting while messages arrive is waiting once all of them have arrived. -/
theorem resume_await {c : Connection π} (h : Peer.reads c.peer = true) (w : World) (id : RequestId)
    (ss : List Sending) :
    resume id ss (c.await w id c.queue) =
      (c.receiveAll ss).await w id (c.receiveAll ss).queue := by
  induction ss generalizing c w with
  | nil => rfl
  | cons s ss ih =>
    have hnumber := receiveAll_number c (s :: ss)
    have hreads : Peer.reads (c.receiveAll (s :: ss)).peer = true := by rwa [receiveAll_peer]
    have hclosed := receiveAll_closed c (s :: ss)
    obtain hq | ⟨before, r, after, hq, rfl, hb⟩ := exists_first_answer id c.queue
    · cases he : c.ended with
      | true =>
        have htook : (c.took c.queue [] (c.closed || true)).ended = true := he
        rw [(receiveAll_of_ended he _).1, await_of_none h w hq, he, if_pos rfl, resume_some,
          (receiveAll_of_ended htook _).1]
      | false =>
        -- Nothing is settled yet, and the queue is empty when the next message arrives.
        rw [await_of_none h w hq, he, Bool.or_false, if_neg (by simp), resume]
        rw [ih ((receive_peer (c.took c.queue [] c.closed) s).symm ▸ h)]
        have hall := receiveAll_took c c.queue [] c.closed (s :: ss)
        rw [show (receive (c.took c.queue [] c.closed) s).receiveAll ss =
          (c.took c.queue [] c.closed).receiveAll (s :: ss) from rfl, hall, ← hclosed, await_took hreads,
          receiveAll_queue, await_append hreads w id hq, hnumber]
        rfl
    · rw [receiveAll_queue, hq, List.append_assoc, List.cons_append, await_of_answer h w hb,
        await_of_answer hreads w hb, resume_some, receiveAll_took, hclosed, hnumber]

/-- The request that the next call writes. -/
def call (c : Connection π) (method : String) (params : Json) : Message :=
  .request { id := .ofCount c.nextId, method, params }

/-- The connection once a message was heard by the far end and more has arrived. -/
def heard (c : Connection π) (w : World) (m : Message) (meanwhile : List Sending) : Connection π :=
  receiveAll { c with peer := (Peer.hear c.peer w.files m).1 }
    ((Peer.hear c.peer w.files m).2.2 :: meanwhile)

theorem heard_closed (c : Connection π) (w : World) (m : Message) (ss : List Sending) :
    (c.heard w m ss).closed = c.closed := receiveAll_closed _ _

theorem heard_peer (c : Connection π) (w : World) (m : Message) (ss : List Sending) :
    (c.heard w m ss).peer = (Peer.hear c.peer w.files m).1 := receiveAll_peer _ _

/-- The connection once the next request was heard, with the queue that its response is looked for
in. -/
def asked (c : Connection π) (w : World) (method : String) (params : Json)
    (meanwhile : List Sending) : Connection π :=
  heard { c with nextId := c.nextId + 1 } w (c.call method params) meanwhile

/-- The world once a message was heard by the far end. -/
def record (c : Connection π) (w : World) (m : Message) : World :=
  { files := (Peer.hear c.peer w.files m).2.1, log := (c.number, m) :: w.log }

theorem requestAmid_eq {c : Connection π} (hc : c.isMute = false) (h : Peer.reads c.peer = true)
    (w : World) (method : String) (params : Json) (meanwhile : List Sending)
    (h' : Peer.reads (Peer.hear c.peer w.files (c.call method params)).1 = true) :
    c.requestAmid w method params meanwhile =
      (c.asked w method params meanwhile).await (c.record w (c.call method params))
        (.ofCount c.nextId) (c.asked w method params meanwhile).queue := by
  have hrequest : c.request w method params =
      (c.asked w method params []).await (c.record w (c.call method params)) (.ofCount c.nextId)
        (c.asked w method params []).queue := by
    simp [request, write, closed_of_isMute hc, isSpent_of_isMute hc, h, asked, heard, record, call,
      receiveAll]
  have hpeer : (c.asked w method params []).peer =
      (Peer.hear c.peer w.files (c.call method params)).1 := heard_peer _ _ _ _
  rw [requestAmid, hrequest, if_neg (by simp [hc])]
  exact resume_await (hpeer ▸ h') _ _ meanwhile

/-! The far end changes by what it hears, and by nothing else. -/

theorem accept_peer (c : Connection π) (w : World) (m : Message) :
    (c.accept w m).1.peer = c.peer := by
  cases m with
  | request r => cases h : Peer.reads c.peer <;> simp [accept, respond, h]
  | response r => rfl
  | notification n => rfl

theorem await_peer (c : Connection π) (w : World) (id : RequestId) (q : List Message) :
    (c.await w id q).1.peer = c.peer := by
  induction q generalizing c w with
  | nil => cases h : c.ended <;> simp [await, h]
  | cons m q ih =>
    have hother (hm : m.response? = none) : (c.await w id (m :: q)).1.peer = c.peer := by
      rcases ha : c.accept w m with ⟨d, v, b⟩
      have hp : d.peer = c.peer := by simpa [ha] using accept_peer c w m
      cases m with
      | response r => cases hm
      | request r => cases b <;> simp [await, ha, ih, hp]
      | notification n => cases b <;> simp [await, ha, ih, hp]
    cases m with
    | response r =>
      rw [await]
      split
      · rfl
      · exact ih c w
    | request r => exact hother rfl
    | notification n => exact hother rfl

theorem resume_peer (id : RequestId) (ss : List Sending)
    (out : Connection π × World × Option (Except LinkFault (Option Json))) :
    (resume id ss out).1.peer = out.1.peer := by
  fun_induction resume id ss out with
  | case1 out => rfl
  | case2 s ss c w result ih => rw [ih, receive_peer]
  | case3 s ss c w ih => rw [ih, await_peer, receive_peer]

theorem requestAmid_peer {c : Connection π} (hc : c.isMute = false) (h : Peer.reads c.peer = true)
    (w : World) (method : String) (params : Json) (meanwhile : List Sending) :
    (c.requestAmid w method params meanwhile).1.peer =
      (Peer.hear c.peer w.files (c.call method params)).1 := by
  rw [requestAmid, if_neg (by simp [hc]), resume_peer, request, closed_of_isMute hc,
    isSpent_of_isMute hc]
  simp only [write, h, Bool.false_eq_true, ↓reduceIte]
  rw [await_peer, receive_peer]
  rfl

/-- A request that is not written changes nothing. -/
theorem requestAmid_of_isMute {c : Connection π} (hc : c.isMute = true) (w : World)
    (method : String) (params : Json) (meanwhile : List Sending) :
    c.requestAmid w method params meanwhile =
      (c.receiveAll meanwhile, w, if c.closed then some (.error .closed) else none) := by
  have hrequest : c.request w method params =
      (c, w, if c.closed then some (.error .closed) else none) := by
    cases hclosed : c.closed with
    | true => simp [request, hclosed]
    | false =>
      have hspent : c.isSpent = true := by simpa [isMute, hclosed] using hc
      simp [request, hclosed, hspent]
  rw [requestAmid, hrequest, if_pos hc]

theorem notify_eq {c : Connection π} (hc : c.closed = false) (h : Peer.reads c.peer = true)
    (w : World) (method : String) (params : Json) :
    c.notify w method params =
      (c.heard w (.notification { method, params }) [],
        c.record w (.notification { method, params }), .ok ()) := by
  simp [notify, write, hc, h, heard, record, receiveAll]

end Connection

/-! ### Sessions -/

/-- What a host does with a connection, and what arrives of itself. -/
inductive Move
  | arrive (s : Sending)
  /-- A request, and what arrives while it waits. -/
  | request (method : String) (params : Json) (meanwhile : List Sending)
  | notify (method : String) (params : Json)
  | poll
  | drain

/-- A connection with its history. -/
structure Session (π : Type) where
  connection : Connection π
  world : World
  /-- All messages that have arrived, oldest first. -/
  arrived : List Message := []
  /-- All events that were handed out, oldest first. -/
  drained : List Event := []

namespace Session

variable {π : Type} [Peer π]

/-- A new connection. -/
def start (number : Nat) (peer : π) (w : World) (checked : Bool := true) : Session π :=
  { connection := { number, peer, checked }, world := w }

/-- What the far end sends during a move. -/
def sendings (s : Session π) : Move → List Sending
  | .arrive x => [x]
  | .request method params meanwhile =>
    if s.connection.isMute then meanwhile
    else
      (Peer.hear s.connection.peer s.world.files (s.connection.call method params)).2.2 :: meanwhile
  | .notify method params =>
    if s.connection.closed then []
    else [(Peer.hear s.connection.peer s.world.files (.notification { method, params })).2.2]
  | .poll | .drain => []

def step (s : Session π) (m : Move) : Session π :=
  let c := s.connection
  let s := { s with arrived := s.arrived ++ c.arrivals (s.sendings m) }
  match m with
  | .arrive x => { s with connection := c.receive x }
  | .request method params meanwhile =>
    let (c, w, _) := c.requestAmid s.world method params meanwhile
    { s with connection := c, world := w }
  | .notify method params =>
    let (c, w, _) := c.notify s.world method params
    { s with connection := c, world := w }
  | .poll =>
    let (c, w, _) := c.poll s.world
    { s with connection := c, world := w }
  | .drain => { s with connection := c.drain.1, drained := s.drained ++ c.drain.2 }

def run (s : Session π) : List Move → Session π
  | [] => s
  | m :: rest => (s.step m).run rest

/-- Whether the far end reads all that is written during the moves. -/
def Heard (s : Session π) : List Move → Prop
  | [] => Peer.reads s.connection.peer = true
  | m :: rest => Peer.reads s.connection.peer = true ∧ (s.step m).Heard rest

/-! ### What every session keeps -/

/-- Each message that was taken off the queue has become its event, and each request among them was
answered in its turn; nothing else was answered, and the requests sent are numbered from zero. -/
structure Sound (w₀ : World) (s : Session π) : Prop where
  accounts : ∃ taken sent : List Message,
    s.arrived = taken ++ s.connection.queue ∧
    s.drained ++ s.connection.events = taken.filterMap Message.event? ∧
    s.world.log = (sent.map fun m => (s.connection.number, m)).reverse ++ w₀.log ∧
    sent.filterMap Message.response? = taken.filterMap Message.reply? ∧
    sent.filterMap Message.requestId? = (List.range s.connection.nextId).map RequestId.ofCount
  /-- Where it is noticed, the numbers are not used up. -/
  room : s.connection.checked = true → s.connection.nextId ≤ 2147483647
  /-- A connection is closed only once the stream has ended and all of it was taken. -/
  finished : s.connection.closed = true → s.connection.ended = true ∧ s.connection.queue = []

variable {s : Session π} {w₀ : World}

omit [Peer π] in
theorem Sound.start (number : Nat) (peer : π) (w : World) (checked : Bool) :
    (start number peer w checked).Sound w :=
  ⟨⟨[], [], rfl, rfl, rfl, rfl, rfl⟩, fun _ => Nat.zero_le _, fun h => by simp [Session.start] at h⟩

omit [Peer π] in
/-- Arrivals. -/
theorem Sound.receive (h : s.Sound w₀) (ss : List Sending) :
    Sound w₀ { s with
      connection := s.connection.receiveAll ss
      arrived := s.arrived ++ s.connection.arrivals ss } := by
  obtain ⟨⟨taken, sent, ha, he, hl, hr, hi⟩, hroom, hover⟩ := h
  refine ⟨⟨taken, sent, ?_, ?_, ?_, hr, ?_⟩, ?_, fun hc => ?_⟩
  · simp only [Connection.receiveAll_queue]
    rw [ha, List.append_assoc]
  · simp only [Connection.receiveAll_events]
    exact he
  · simp only [Connection.receiveAll_number]
    exact hl
  · simp only [Connection.receiveAll_nextId]
    exact hi
  · simp only [Connection.receiveAll_nextId, Connection.receiveAll_checked]
    exact hroom
  · simp only [Connection.receiveAll_closed] at hc
    obtain ⟨hended, hqueue⟩ := hover hc
    obtain ⟨hall, -⟩ := Connection.receiveAll_of_ended hended ss
    simp only [hall]
    exact ⟨hended, hqueue⟩

/-- Writing a request or a notification. -/
theorem Sound.write (h : s.Sound w₀) (hc : s.connection.closed = false) {m : Message}
    (hm : m.response? = none) {next : Nat}
    (hnext : (List.range next).map RequestId.ofCount =
      (List.range s.connection.nextId).map RequestId.ofCount ++ m.requestId?.toList)
    (hroom : s.connection.checked = true → next ≤ 2147483647) (ss : List Sending) :
    Sound w₀ { s with
      connection := Connection.heard { s.connection with nextId := next } s.world m ss
      world := s.connection.record s.world m
      arrived := s.arrived ++ s.connection.arrivals
        ((Peer.hear s.connection.peer s.world.files m).2.2 :: ss) } := by
  -- The message is entered in the log first; then it is a matter of arrivals.
  obtain ⟨⟨taken, sent, ha, he, hl, hr, hi⟩, -, -⟩ := h
  have hsent : Sound w₀ { s with
      connection := { s.connection with
        peer := (Peer.hear s.connection.peer s.world.files m).1, nextId := next }
      world := s.connection.record s.world m } := by
    refine ⟨⟨taken, sent ++ [m], ha, he, ?_, ?_, ?_⟩, hroom, fun hc' => ?_⟩
    · simp [Connection.record, hl]
    · simpa [List.filterMap_append, hm] using hr
    · simp only [List.filterMap_append, hi, hnext]
      cases m <;> rfl
    · simp [hc] at hc'
  have harrivals := Connection.arrivals_congr (c := s.connection) (d := { s.connection with
    peer := (Peer.hear s.connection.peer s.world.files m).1, nextId := next }) rfl rfl
    ((Peer.hear s.connection.peer s.world.files m).2.2 :: ss)
  rw [harrivals]
  exact hsent.receive _

omit [Peer π] in
/-- Taking messages off the queue. -/
theorem Sound.take (h : s.Sound w₀) {taken left : List Message} {closed : Bool}
    (hq : s.connection.queue = taken ++ left)
    (hc : closed = true → s.connection.ended = true ∧ left = []) :
    Sound w₀ { s with
      connection := s.connection.took taken left closed
      world := s.world.answering s.connection.number taken } := by
  obtain ⟨⟨earlier, sent, ha, he, hl, hr, hi⟩, hroom, -⟩ := h
  refine ⟨⟨earlier ++ taken, sent ++ (taken.filterMap Message.reply?).map .response, ?_, ?_, ?_, ?_, ?_⟩,
    hroom, hc⟩
  · rw [ha, hq, List.append_assoc]
    rfl
  · rw [List.filterMap_append, ← he]
    simp [Connection.took, Connection.absorb]
  · simp [World.answering, hl, Connection.took, Connection.absorb]
  · rw [List.filterMap_append, hr, List.filterMap_append, List.filterMap_map]
    congr 1
    exact List.filterMap_some
  · rw [List.filterMap_append, hi, List.filterMap_map]
    simp [Connection.took, Connection.absorb, Function.comp_def, Message.requestId?]

omit [Peer π] in
theorem Sound.drain (h : s.Sound w₀) :
    Sound w₀ { s with
      connection := s.connection.drain.1, drained := s.drained ++ s.connection.drain.2 } := by
  obtain ⟨⟨taken, sent, ha, he, hl, hr, hi⟩, hroom, hover⟩ := h
  exact ⟨⟨taken, sent, ha, by simpa [Connection.drain] using he, hl, hr, hi⟩, hroom, hover⟩

theorem range_succ_ids (n : Nat) :
    (List.range (n + 1)).map RequestId.ofCount = (List.range n).map .ofCount ++ [.ofCount n] := by
  rw [List.range_succ, List.map_append, List.map_singleton]

/-- A request that can be written keeps the session sound, however it comes out. -/
theorem Sound.request (h : s.Sound w₀) (hc : s.connection.isMute = false)
    (hr : Peer.reads s.connection.peer = true) (method : String) (params : Json)
    (meanwhile : List Sending)
    (hr' : Peer.reads (s.step (.request method params meanwhile)).connection.peer = true) :
    (s.step (.request method params meanwhile)).Sound w₀ := by
  have hheard : Peer.reads
      (Peer.hear s.connection.peer s.world.files (s.connection.call method params)).1 = true := by
    rwa [← Connection.requestAmid_peer hc hr s.world method params meanwhile]
  have hclosed : s.connection.closed = false := Connection.closed_of_isMute hc
  have hroom (hchecked : s.connection.checked = true) : s.connection.nextId < 2147483647 := by
    simpa [Connection.isSpent, hchecked] using Connection.isSpent_of_isMute hc
  have hsent := h.write hclosed (m := s.connection.call method params) rfl
    (range_succ_ids s.connection.nextId) hroom meanwhile
  rw [← Connection.asked] at hsent
  simp only [step, sendings, hc, Bool.false_eq_true, ↓reduceIte,
    Connection.requestAmid_eq hc hr s.world method params meanwhile hheard]
  have hdclosed : (s.connection.asked s.world method params meanwhile).closed = false :=
    (Connection.heard_closed _ _ _ _).trans hclosed
  have hdreads : Peer.reads (s.connection.asked s.world method params meanwhile).peer = true := by
    rwa [Connection.asked, Connection.heard_peer]
  generalize s.connection.asked s.world method params meanwhile = d at hsent hdclosed hdreads ⊢
  obtain hq | ⟨before, r, after, hq, hid, hb⟩ :=
    exists_first_answer (.ofCount s.connection.nextId) d.queue
  · rw [Connection.await_of_none hdreads _ hq, hdclosed, Bool.false_or]
    exact hsent.take (by simp) fun he => ⟨he, rfl⟩
  · rw [← hid] at hb ⊢
    rw [hq, Connection.await_of_answer hdreads _ hb, ← Connection.took_concat_response _ _ _ _ r,
      ← World.answering_concat_response _ _ _ r]
    exact hsent.take (by simp [hq]) fun he => by simp [hdclosed] at he

theorem Sound.step (h : s.Sound w₀) (hr : Peer.reads s.connection.peer = true) (m : Move)
    (hr' : Peer.reads (s.step m).connection.peer = true) : (s.step m).Sound w₀ := by
  cases m with
  | arrive x => exact h.receive [x]
  | request method params meanwhile =>
    cases hc : s.connection.isMute with
    | true =>
      simp only [Session.step, sendings, hc, ↓reduceIte, Connection.requestAmid_of_isMute hc]
      exact h.receive meanwhile
    | false => exact h.request hc hr method params meanwhile hr'
  | notify method params =>
    cases hc : s.connection.closed with
    | true =>
      simp only [Session.step, sendings, hc, ↓reduceIte, Connection.notify]
      exact h.receive []
    | false =>
      simp only [Session.step, sendings, hc, Bool.false_eq_true, ↓reduceIte,
        Connection.notify_eq hc hr]
      exact h.write hc (m := .notification { method, params }) rfl (by simp [Message.requestId?]) h.room []
  | poll =>
    simp only [Session.step, Connection.poll, Connection.takeAll_eq hr]
    refine (h.receive []).take (by simp [Connection.receiveAll]) fun he => ⟨?_, rfl⟩
    rcases Bool.or_eq_true _ _ ▸ he with hc | he
    · exact (h.finished hc).1
    · exact he
  | drain => exact (h.receive []).drain

theorem Sound.run (h : s.Sound w₀) {moves : List Move} (hm : s.Heard moves) :
    (s.run moves).Sound w₀ := by
  induction moves generalizing s with
  | nil => exact h
  | cons m moves ih =>
    have hr' : Peer.reads (s.step m).connection.peer = true := by
      cases moves with
      | nil => exact hm.2
      | cons _ _ => exact hm.2.1
    exact ih (h.step hm.1 m hr') hm.2

/-! ### How requests come out -/

/-- The connection on which a request looks for its response: all has arrived that arrives meanwhile,
and nothing was taken yet. -/
def finds (s : Session π) (method : String) (params : Json) (meanwhile : List Sending) :
    Connection π :=
  if s.connection.isMute then s.connection.receiveAll meanwhile
  else s.connection.asked s.world method params meanwhile

/-- A request comes out by the first response of its id. -/
structure Settled (s : Session π) (method : String) (params : Json) (meanwhile : List Sending) :
    Prop where
  /-- It looks at what was queued before and at what arrives meanwhile. -/
  queue : (s.finds method params meanwhile).queue = s.connection.queue ++
    s.connection.arrivals (s.sendings (.request method params meanwhile))
  /-- Its outcome is that of the response, and what comes after it stays on the queue. -/
  answered : ∀ before r after,
    (s.finds method params meanwhile).queue = before ++ .response r :: after →
    r.id = .ofCount s.connection.nextId →
    (∀ m ∈ before, ¬ m.Answers (.ofCount s.connection.nextId)) →
    (s.connection.requestAmid s.world method params meanwhile).2.2 = some (match r.error with
      | some e => .error (.server e.code e.message)
      | none => .ok (r.result.filter fun j => !j.isNull)) ∧
    (s.connection.requestAmid s.world method params meanwhile).1.queue = after
  /-- It fails for a closed connection exactly when the stream ends before its response. -/
  closed : (s.connection.requestAmid s.world method params meanwhile).2.2 = some (.error .closed) ↔
    (s.finds method params meanwhile).ended = true ∧
      ∀ m ∈ (s.finds method params meanwhile).queue, ¬ m.Answers (.ofCount s.connection.nextId)
  /-- It goes on waiting exactly when there is neither. -/
  waiting : (s.connection.requestAmid s.world method params meanwhile).2.2 = none ↔
    (s.finds method params meanwhile).ended = false ∧
      ∀ m ∈ (s.finds method params meanwhile).queue, ¬ m.Answers (.ofCount s.connection.nextId)
  /-- A response of another id might as well not be on the queue. -/
  stale : ∀ before x after,
    (s.finds method params meanwhile).queue = before ++ .response x :: after →
    x.id ≠ .ofCount s.connection.nextId →
    let without := (s.finds method params meanwhile).await
      (s.connection.record s.world (s.connection.call method params))
      (.ofCount s.connection.nextId) (before ++ after)
    (s.connection.requestAmid s.world method params meanwhile).2.2 = without.2.2 ∧
      (s.connection.requestAmid s.world method params meanwhile).1.events = without.1.events

/-- On a connection that is closed, the stream has ended and there is no response. -/
theorem Sound.settled_of_closed (h : s.Sound w₀) (hc : s.connection.closed = true)
    (method : String) (params : Json) (meanwhile : List Sending) :
    s.Settled method params meanwhile := by
  obtain ⟨hended, hqueue⟩ := h.finished hc
  obtain ⟨hall, hnone⟩ := Connection.receiveAll_of_ended hended meanwhile
  have hmute : s.connection.isMute = true := by rw [Connection.isMute, hc, Bool.true_or]
  have hfinds : s.finds method params meanwhile = s.connection := by rw [finds, if_pos hmute, hall]
  have hout := Connection.requestAmid_of_isMute hmute s.world method params meanwhile
  rw [if_pos hc] at hout
  refine ⟨?_, ?_, ?_, ?_, ?_⟩
  · rw [hfinds, sendings, if_pos hmute, hnone, List.append_nil]
  · intro before r after hq
    rw [hfinds, hqueue] at hq
    simp at hq
  · rw [hfinds, hout, hqueue]
    simp [hended]
  · rw [hfinds, hout, hqueue]
    simp [hended]
  · intro before x after hq
    rw [hfinds, hqueue] at hq
    simp at hq

/-- A request that can be written looks for its response on the queue, and finds the first one. -/
theorem settled_of_open (hc : s.connection.isMute = false) {method : String} {params : Json}
    {meanwhile : List Sending} (hm : s.Heard [.request method params meanwhile]) :
    s.Settled method params meanwhile := by
  obtain ⟨hr, hr'⟩ := hm
  have hheard : Peer.reads
      (Peer.hear s.connection.peer s.world.files (s.connection.call method params)).1 = true := by
    rw [← Connection.requestAmid_peer hc hr s.world method params meanwhile]
    exact hr'
  have hfinds : s.finds method params meanwhile =
      s.connection.asked s.world method params meanwhile := by rw [finds, hc]; rfl
  have hreads : Peer.reads (s.finds method params meanwhile).peer = true := by
    rw [hfinds, Connection.asked, Connection.heard_peer]
    exact hheard
  have hqueue : (s.finds method params meanwhile).queue = s.connection.queue ++
      s.connection.arrivals (s.sendings (.request method params meanwhile)) := by
    rw [hfinds, sendings, if_neg (by simp [hc]), Connection.asked, Connection.heard,
      Connection.receiveAll_queue]
    congr 1
    refine Connection.arrivals_congr (d := s.connection) ?_ ?_ _ <;> rfl
  have hout := Connection.requestAmid_eq hc hr s.world method params meanwhile hheard
  rw [← hfinds] at hout
  generalize hd : s.finds method params meanwhile = d at hqueue hreads hout
  generalize hw : s.connection.record s.world (s.connection.call method params) = w at hout
  have hanswer {before after : List Message} {r : Response}
      (hq : d.queue = before ++ .response r :: after) (hid : r.id = .ofCount s.connection.nextId)
      (hb : ∀ m ∈ before, ¬ m.Answers (.ofCount s.connection.nextId)) :
      s.connection.requestAmid s.world method params meanwhile =
        (d.took before after d.closed, w.answering d.number before,
          some (Connection.outcome r)) := by
    rw [← hid] at hb hout
    rw [hout, hq, Connection.await_of_answer hreads w hb]
  -- Either there is a first response, or there is none and the request took everything.
  have hcases := exists_first_answer (.ofCount s.connection.nextId) d.queue
  refine ⟨hd ▸ hqueue, ?_, ?_, ?_, ?_⟩
  · intro before r after hq hid hb
    rw [hd] at hq
    rw [hanswer hq hid hb, ← Connection.outcome_eq]
    exact ⟨rfl, rfl⟩
  · rw [hd]
    obtain hq | ⟨before, r, after, hq, hid, hb⟩ := hcases
    · rw [hout, Connection.await_of_none hreads w hq, and_iff_left hq]
      cases d.ended <;> simp
    · rw [hanswer hq hid hb, Connection.outcome_eq]
      refine iff_of_false ?_ fun hnone => hnone.2 (.response r) (by simp [hq]) ⟨r, rfl, hid⟩
      cases r.error <;> simp
  · rw [hd]
    obtain hq | ⟨before, r, after, hq, hid, hb⟩ := hcases
    · rw [hout, Connection.await_of_none hreads w hq, and_iff_left hq]
      cases d.ended <;> simp
    · rw [hanswer hq hid hb]
      exact iff_of_false (by simp) fun hnone => hnone.2 (.response r) (by simp [hq]) ⟨r, rfl, hid⟩
  · intro before x after hq hx
    rw [hd] at hq
    rw [hd, hw, hout, hq]
    obtain ⟨hsame, hevents⟩ := Connection.await_stale hreads w hx before after
    exact ⟨congrArg Prod.snd hsame, hevents⟩

theorem Sound.settled (h : s.Sound w₀) {method : String} {params : Json} {meanwhile : List Sending}
    (hm : s.Heard [.request method params meanwhile]) (hspent : s.connection.isSpent = false) :
    s.Settled method params meanwhile := by
  cases hc : s.connection.closed with
  | true => exact h.settled_of_closed hc method params meanwhile
  | false => exact settled_of_open (by rw [Connection.isMute, hc, hspent, Bool.or_false]) hm

/-! ### Far ends that read on -/

/-- What holds of the far end whatever it hears holds after every move. -/
theorem step_peer {P : π → Prop} (hhear : ∀ p fs m, P p → P (Peer.hear p fs m).1)
    (hreads : ∀ p, P p → Peer.reads p = true) (h : P s.connection.peer) (m : Move) :
    P (s.step m).connection.peer := by
  have hr := hreads _ h
  cases m with
  | arrive x => exact (Connection.receive_peer s.connection x).symm ▸ h
  | request method params meanwhile =>
    cases hc : s.connection.isMute with
    | true =>
      simp only [step, Connection.requestAmid_of_isMute hc, Connection.receiveAll_peer]
      exact h
    | false =>
      simp only [step, Connection.requestAmid_peer hc hr]
      exact hhear _ _ _ h
  | notify method params =>
    cases hc : s.connection.closed with
    | true =>
      simp only [step, Connection.notify, hc, ↓reduceIte]
      exact h
    | false =>
      simp only [step, Connection.notify_eq hc hr, Connection.heard_peer]
      exact hhear _ _ _ h
  | poll =>
    simp only [step, Connection.poll, Connection.takeAll_eq hr]
    exact h
  | drain => exact h

theorem run_peer {P : π → Prop} (hhear : ∀ p fs m, P p → P (Peer.hear p fs m).1)
    (hreads : ∀ p, P p → Peer.reads p = true) (h : P s.connection.peer) (moves : List Move) :
    P (s.run moves).connection.peer := by
  induction moves generalizing s with
  | nil => exact h
  | cons m moves ih => exact ih (step_peer hhear hreads h m)

/-- Nothing is left unheard by a far end that reads on whatever it hears. -/
theorem heard_of_peer {P : π → Prop} (hhear : ∀ p fs m, P p → P (Peer.hear p fs m).1)
    (hreads : ∀ p, P p → Peer.reads p = true) (h : P s.connection.peer) (moves : List Move) :
    s.Heard moves := by
  induction moves generalizing s with
  | nil => exact hreads _ h
  | cons m moves ih => exact ⟨hreads _ h, ih (step_peer hhear hreads h m)⟩

/-! ### Conversations -/

/-- What a conversation keeps and how its requests come out, over all moves of the host and all
arrivals. The requests are numbered from zero, and come out as long as there are numbers for them. -/
theorem conversation_exact (number : Nat) (peer : π) (w : World) (checked : Bool) (moves : List Move)
    (h : (start number peer w checked).Heard moves) :
    let s := (start number peer w checked).run moves
    (∃ taken sent : List Message,
      s.arrived = taken ++ s.connection.queue ∧
      s.drained ++ s.connection.events = taken.filterMap Message.event? ∧
      s.world.log = (sent.map fun m => (s.connection.number, m)).reverse ++ w.log ∧
      sent.filterMap Message.response? = taken.filterMap Message.reply? ∧
      (sent.filterMap Message.response?).map (·.id) = taken.filterMap Message.requestId? ∧
      (s.connection.checked = true ∨ s.connection.nextId ≤ 2147483648 →
        sent.filterMap Message.requestId? =
          (List.range s.connection.nextId).map fun n : Nat => RequestId.number n)) ∧
    ∀ method params meanwhile, s.Heard [.request method params meanwhile] →
      s.connection.isSpent = false → s.Settled method params meanwhile := by
  intro s
  have hs : s.Sound w := (Sound.start number peer w checked).run h
  obtain ⟨taken, sent, ha, he, hl, hr, hi⟩ := hs.accounts
  refine ⟨⟨taken, sent, ha, he, hl, hr, by rw [hr, map_id_reply?], fun hroom => ?_⟩,
    fun method params meanwhile hm hspent => hs.settled hm hspent⟩
  have hle : s.connection.nextId ≤ 2147483648 :=
    hroom.elim (fun hc => Nat.le_trans (hs.room hc) (by decide)) id
  rw [hi]
  exact List.map_congr_left fun n hn =>
    RequestId.ofCount_eq (Nat.lt_of_lt_of_le (List.mem_range.1 hn) hle)

/-- An echo, which sends the request back before its response; a response to no request comes first. -/
theorem conversation_exact_echo :
    let stale : Sending := { bytes := FarEnd.frameOf (.response { id := .number 7 }) }
    let moves := [.arrive stale, .request "a" .null [], .notify "b" .null, .drain, .poll]
    let s := (start 0 FarEnd.echo {}).run moves
    (start 0 FarEnd.echo {}).Heard moves ∧
      (∃ taken sent : List Message,
        s.arrived = taken ++ s.connection.queue ∧
        s.drained ++ s.connection.events = taken.filterMap Message.event? ∧
        sent.filterMap Message.response? = taken.filterMap Message.reply?) ∧
      s.Settled "c" .null [stale] := by
  intro stale moves s
  have hhear (p : FarEnd) (fs : FileSystem) (m : Message) (hp : p = .echo) :
      (Peer.hear p fs m).1 = .echo := by rw [hp]; rfl
  have hreads (p : FarEnd) (hp : p = .echo) : Peer.reads p = true := by rw [hp]; rfl
  have hmoves : (start 0 FarEnd.echo {}).Heard moves := heard_of_peer hhear hreads rfl moves
  obtain ⟨⟨taken, sent, ha, he, -, hr, -, -⟩, hsettled⟩ := conversation_exact 0 _ {} true moves hmoves
  have hpeer : s.connection.peer = .echo := run_peer hhear hreads rfl moves
  have hspent : s.connection.isSpent = false := by decide +kernel
  exact ⟨hmoves, ⟨taken, sent, ha, he, hr⟩,
    hsettled "c" .null [stale] (heard_of_peer hhear hreads hpeer _) hspent⟩

end Session

end LuaLens
