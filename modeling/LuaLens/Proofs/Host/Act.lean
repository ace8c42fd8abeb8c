import LuaLens.Proofs.Host.Call
import LuaLens.Proofs.Host.Servers

/-!
What the operations of an editor are made of: finding or starting the server of the buffer, a call of
its client, and taking over the events that have come meanwhile. For each of them it is said once what
becomes of the servers, the messages and the world.
-/

namespace LuaLens

variable {π α β : Type}

/-! ### Running operations -/

namespace Act

/-- The result of an operation, or nothing when it waits for an answer, and what is left behind. -/
def perform (act : Act π α) (s : Editor π × World) : Option α × Editor π × World :=
  Id.run (StateT.run (OptionT.run act) s)

theorem perform_bind (x : Act π α) (f : α → Act π β) (s : Editor π × World) :
    perform (x >>= f) s = match x.perform s with
      | (some a, s') => (f a).perform s'
      | (none, s') => (none, s') := by
  rcases h : x.perform s with ⟨_ | a, s'⟩ <;> simp only [perform] at h <;>
    simp [perform, OptionT.run_bind, Option.elimM, StateT.run_bind, h]

@[simp] theorem perform_map (f : α → β) (x : Act π α) (s : Editor π × World) :
    perform (f <$> x) s = ((x.perform s).1.map f, (x.perform s).2) := by
  rw [map_eq_pure_bind, perform_bind]
  rcases x.perform s with ⟨_ | a, s'⟩ <;> rfl

@[simp] theorem perform_pure (a : α) (s : Editor π × World) : perform (pure a) s = (some a, s) := rfl

@[simp] theorem perform_failure (s : Editor π × World) :
    perform (failure : Act π α) s = (none, s) := rfl

@[simp] theorem perform_get (s : Editor π × World) : perform (get : Act π _) s = (some s, s) := rfl

@[simp] theorem perform_set (s s' : Editor π × World) :
    perform (set s' : Act π _) s = (some (), s') := rfl

@[simp] theorem perform_edit (f : Editor π → Editor π) (s : Editor π × World) :
    perform (Editor.edit f) s = (some (), f s.1, s.2) := rfl

@[simp] theorem perform_say (message : String) (s : Editor π × World) :
    perform (Editor.say message) s = (some (), { s.1 with status := some message }, s.2) := rfl

/-- What only looks at a result changes nothing more. -/
theorem perform_bind_of_still (x : Act π α) {f : α → Act π β}
    (hf : ∀ a s, ((f a).perform s).2 = s) (s : Editor π × World) :
    (perform (x >>= f) s).2 = (x.perform s).2 := by
  rw [perform_bind]
  rcases x.perform s with ⟨_ | a, s'⟩
  · rfl
  · exact hf a s'

/-- A loop whose body never waits nor breaks off is a fold. -/
theorem perform_forIn (step : β × Editor π × World → α → β × Editor π × World)
    {f : α → β → Act π (ForInStep β)}
    (h : ∀ a b s, (f a b).perform s = (some (.yield (step (b, s) a).1), (step (b, s) a).2))
    (as : List α) (b : β) (s : Editor π × World) :
    perform (forIn as b f) s = (some (as.foldl step (b, s)).1, (as.foldl step (b, s)).2) := by
  induction as generalizing b s with
  | nil => rfl
  | cons a as ih =>
    rw [List.forIn_cons, perform_bind, h]
    exact ih _ _

end Act

/-- The text that an event is for the messages of the editor. -/
def Event.text? : Event → Option String
  | .showMessage params | .logMessage params => some (Editor.textMember "message" params)
  | _ => none

theorem Buffer.save_eq_ok {b b' : Buffer} {fs fs' : FileSystem} {p : Path} (hp : b.path = some p)
    (h : b.save fs p = .ok (b', fs')) :
    fs.writeText p b.text = .ok fs' ∧ b' = { b with modified := false } := by
  rcases hw : fs.writeText p b.text with fault | files
  · simp [Buffer.save, hw, Except.mapError] at h
  · obtain ⟨rfl, rfl⟩ : { b with path := some p, modified := false } = b' ∧ files = fs' := by
      simpa [Buffer.save, hw, Except.mapError] using h
    exact ⟨rfl, by rw [← hp]⟩

namespace Editor

open Act

/-! ### Parts that stay -/

/-- Whether two states of an editor differ only in what is seen of the servers. -/
structure Alike (e e' : Editor π) : Prop where
  launch : e'.launch = e.launch
  buffer : e'.buffer = e.buffer
  connections : e'.connections = e.connections

theorem Alike.refl (e : Editor π) : Alike e e := ⟨rfl, rfl, rfl⟩

theorem Alike.trans {e e' e'' : Editor π} (h : Alike e e') (h' : Alike e' e'') : Alike e e'' :=
  ⟨h'.launch.trans h.launch, h'.buffer.trans h.buffer, h'.connections.trans h.connections⟩

/-- Whether the servers and their messages stay as well. -/
structure Calm (e e' : Editor π) : Prop extends Alike e e' where
  servers : e'.servers = e.servers
  messages : e'.messages = e.messages

/-- Events change neither the servers nor the buffer; their texts are put behind the messages. -/
theorem foldl_replay (events : List Event) (e : Editor π) :
    Alike e (events.foldl replay e) ∧ (events.foldl replay e).servers = e.servers ∧
      (events.foldl replay e).messages = e.messages ++ events.filterMap Event.text? := by
  induction events generalizing e with
  | nil => exact ⟨.refl e, rfl, by simp⟩
  | cons event events ih =>
    have hone : Alike e (e.replay event) ∧ (e.replay event).servers = e.servers ∧
        (e.replay event).messages = e.messages ++ event.text?.toList := by
      cases event with
      | diagnostics params =>
        rw [replay]
        split <;> exact ⟨⟨rfl, rfl, rfl⟩, rfl, by simp [Event.text?]⟩
      | showMessage | logMessage | progress | answered | unknown =>
        exact ⟨⟨rfl, rfl, rfl⟩, rfl, by simp [replay, Event.text?]⟩
    obtain ⟨halike, hservers, hmessages⟩ := ih (e.replay event)
    refine ⟨hone.1.trans halike, hservers.trans hone.2.1, ?_⟩
    rw [List.foldl_cons, hmessages, hone.2.2, List.append_assoc]
    cases event <;> rfl

/-! ### Calls -/

theorem perform_callAt (key : ServerKey) (c : Client π) (call : Call π α) (e : Editor π) (w : World) :
    (callAt key c call).perform (e, w) =
      ((call.perform (c, w)).1, { e with servers := e.servers.put key (call.perform (c, w)).2.1 },
        (call.perform (c, w)).2.2) := by
  rcases h : call.perform (c, w) with ⟨_ | out, d, v⟩ <;> simp only [Call.perform, Id.run] at h <;>
    simp [callAt, perform_bind, h]

/-- The client of the buffer, with its key. -/
def current? (e : Editor π) (w : World) : Option (ServerKey × Client π) :=
  (ServerKey.ofBuffer? w.files e.buffer).bind fun key => (e.servers.get? key).map fun c => (key, c)

theorem current?_eq_some {e : Editor π} {w : World} {key : ServerKey} {c : Client π} :
    e.current? w = some (key, c) ↔
      ServerKey.ofBuffer? w.files e.buffer = some key ∧ e.servers.get? key = some c := by
  constructor
  · intro h
    obtain ⟨k, hkey, hk⟩ := Option.bind_eq_some_iff.1 h
    obtain ⟨d, hd, he⟩ := Option.map_eq_some_iff.1 hk
    obtain ⟨rfl, rfl⟩ := Prod.mk.inj he
    exact ⟨hkey, hd⟩
  · rintro ⟨hkey, hd⟩
    simp [current?, hkey, hd]

theorem perform_existing? (e : Editor π) (w : World) :
    existing?.perform (e, w) = (some (e.current? w), e, w) := by
  rcases h : ServerKey.ofBuffer? w.files e.buffer with _ | key <;>
    simp [existing?, key?, perform_bind, h, current?]

/-- What taking over the events of the buffer's server comes to. -/
inductive Finished (e : Editor π) (e' : Editor π) : Prop
  | idle (calm : Calm e e')
  | drained {key : ServerKey} {c : Client π} (alike : Alike e e')
      (found : e.servers.get? key = some c)
      (servers : e'.servers = e.servers.put key { c with link := c.link.drain.1 })
      (messages : e'.messages = e.messages ++ c.link.events.filterMap Event.text?)

theorem Finished.alike {e e' : Editor π} (h : Finished e e') : Alike e e' := by
  cases h with
  | idle calm => exact calm.toAlike
  | drained alike => exact alike

theorem Finished.calm {e e' e'' : Editor π} (h : Finished e e') (h' : Calm e' e'') :
    Finished e e'' := by
  cases h with
  | idle calm =>
    exact .idle ⟨calm.toAlike.trans h'.toAlike, h'.servers.trans calm.servers,
      h'.messages.trans calm.messages⟩
  | drained alike found servers messages =>
    exact .drained (alike.trans h'.toAlike) found (h'.servers.trans servers)
      (h'.messages.trans messages)

/-- The editor once the events of the buffer's server are taken over. -/
def drained (e : Editor π) (w : World) : Editor π :=
  match e.current? w with
  | none => e
  | some (key, c) =>
    c.link.events.foldl replay { e with servers := e.servers.put key { c with link := c.link.drain.1 } }

/-- The editor once the fault of an outcome is shown, if there is one. -/
def complained (feature : String) (e : Editor π) : Except ClientFault α → Editor π
  | .ok _ => e
  | .error fault =>
    match complaint? feature fault with
    | some message => { e with status := some message }
    | none => e

/-- The events are taken over first, whatever the outcome; then the fault is shown. -/
theorem perform_finish (feature : String) (outcome : Except ClientFault α) (e : Editor π) (w : World) :
    (finish feature outcome).perform (e, w) =
      (some outcome.toOption, complained feature (e.drained w) outcome, w) := by
  rcases h : e.current? w with _ | ⟨key, c⟩ <;> rcases outcome with fault | value
  · rcases hc : complaint? feature fault with _ | message <;>
      simp [finish, perform_bind, perform_existing?, h, hc, drained, complained, Except.toOption]
  · simp [finish, perform_bind, perform_existing?, h, drained, complained, Except.toOption]
  · rcases hc : complaint? feature fault with _ | message <;>
      simp [finish, perform_bind, perform_existing?, h, hc, drained, complained, Except.toOption,
        Connection.drain]
  · simp [finish, perform_bind, perform_existing?, h, drained, complained, Except.toOption,
      Connection.drain]

theorem drained_finished (e : Editor π) (w : World) : Finished e (e.drained w) := by
  rw [drained]
  split
  · exact .idle ⟨.refl e, rfl, rfl⟩
  · next key c h =>
    obtain ⟨halike, hservers, hmessages⟩ := foldl_replay c.link.events
      { e with servers := e.servers.put key { c with link := c.link.drain.1 } }
    exact .drained ⟨halike.launch, halike.buffer, halike.connections⟩ (current?_eq_some.1 h).2 hservers
      hmessages

theorem complained_calm (feature : String) (e : Editor π) (outcome : Except ClientFault α) :
    Calm e (complained feature e outcome) := by
  rw [complained.eq_def]
  split
  · exact ⟨.refl e, rfl, rfl⟩
  · split <;> exact ⟨⟨rfl, rfl, rfl⟩, rfl, rfl⟩

theorem finish_finished (feature : String) (outcome : Except ClientFault α) (e : Editor π) (w : World) :
    ∃ e', (finish feature outcome).perform (e, w) = (some outcome.toOption, e', w) ∧
      Finished e e' :=
  ⟨_, perform_finish feature outcome e w,
    (drained_finished e w).calm (complained_calm feature _ outcome)⟩

variable [Peer π]

/-! ### Servers -/

/-- What looking for the client of the buffer can come to. -/
inductive Sought (e : Editor π) (w : World) :
    Option (Option (ServerKey × Client π)) × Editor π × World → Prop
  | nobody : Sought e w (some none, e, w)
  | kept {key : ServerKey} {c : Client π} (keyed : ServerKey.ofBuffer? w.files e.buffer = some key)
      (found : e.servers.get? key = some c) (running : c.isRunning = true) :
      Sought e w (some (some (key, c)), e, w)
  | dropped {key : ServerKey} {e' : Editor π}
      (keyed : ServerKey.ofBuffer? w.files e.buffer = some key)
      (dead : ∀ c, e.servers.get? key = some c → c.isRunning = false)
      (alike : Alike e e') (servers : e'.servers = e.servers.erase key)
      (messages : e'.messages = e.messages) : Sought e w (some none, e', w)
  /-- A server was started, but the handshake was not completed. -/
  | failed {key : ServerKey} {command : ServerCommand} {peer : π} {files : FileSystem}
      {e' : Editor π} {out : Option (Option (ServerKey × Client π))}
      (keyed : ServerKey.ofBuffer? w.files e.buffer = some key)
      (launched : e.launch command key.root w.files = .ok (peer, files)) (nothing : out.join = none)
      (launch : e'.launch = e.launch) (buffer : e'.buffer = e.buffer)
      (connections : e'.connections = e.connections + 1) (servers : e'.servers = e.servers.erase key) :
      Sought e w (out, e', ((Client.setUp command.options).perform
        (.connect key.language key.root { number := e.connections, peer }, { w with files })).2.2)
  | started {key : ServerKey} {command : ServerCommand} {peer : π} {files : FileSystem}
      {e' : Editor π} {c : Client π} {v : World} {result : Json}
      (keyed : ServerKey.ofBuffer? w.files e.buffer = some key)
      (launched : e.launch command key.root w.files = .ok (peer, files))
      (greeted : (Client.setUp command.options).perform
        (.connect key.language key.root { number := e.connections, peer }, { w with files }) =
          (some (.ok result), c, v))
      (launch : e'.launch = e.launch) (buffer : e'.buffer = e.buffer)
      (connections : e'.connections = e.connections + 1)
      (servers : e'.servers = (e.servers.erase key).put key c) :
      Sought e w (some (some (key, c)), e', v)

/-- Starting a server is the handshake on a new connection. -/
theorem perform_start {e : Editor π} {w v : World} {key : ServerKey} {command : ServerCommand}
    {peer : π} {files : FileSystem} {out : Option (Except ClientFault Json)} {c : Client π}
    (hl : e.launch command key.root w.files = .ok (peer, files))
    (hs : (Client.setUp command.options).perform
      (.connect key.language key.root { number := e.connections, peer }, { w with files }) =
        (out, c, v)) :
    (start key command).perform (e, w) =
      (out.map fun result => (result.map fun _ => c).mapError fun fault =>
          .startup command.command fault.message,
        { e with connections := e.connections + 1 }, v) := by
  simp only [Call.perform, Id.run] at hs
  rcases out with _ | fault | result <;>
    simp [start, perform_bind, hl, hs, Except.map, Except.mapError]

theorem sought_of_launch {e : Editor π} {w : World} {key : ServerKey} {command : ServerCommand}
    {peer : π} {files : FileSystem} (hk : ServerKey.ofBuffer? w.files e.buffer = some key)
    (hkept : (e.servers.get? key).filter (fun c => c.isRunning) = none)
    (hc : e.config.command? key.language = some command)
    (hl : e.launch command key.root w.files = .ok (peer, files)) :
    Sought e w (client?.perform (e, w)) := by
  rcases hs : (Client.setUp command.options).perform
    (.connect key.language key.root { number := e.connections, peer }, { w with files }) with ⟨out, c, v⟩
  have hstart := perform_start (e := { e with servers := e.servers.erase key }) hl hs
  have hworld : v = ((Client.setUp command.options).perform
    (.connect key.language key.root { number := e.connections, peer }, { w with files })).2.2 := by
    rw [hs]
  rcases out with _ | fault | result
  · have h : client?.perform (e, w) =
        (none, { e with servers := e.servers.erase key, connections := e.connections + 1 }, v) := by
      simp [client?, key?, perform_bind, hk, hkept, hc, hstart]
    rw [h, hworld]
    exact .failed hk hl rfl rfl rfl rfl rfl
  · obtain ⟨status, h⟩ : ∃ status, client?.perform (e, w) = (some none,
        { e with servers := e.servers.erase key, connections := e.connections + 1, status }, v) := by
      simp [client?, key?, perform_bind, hk, hkept, hc, hstart, Except.map, Except.mapError]
    rw [h, hworld]
    exact .failed hk hl rfl rfl rfl rfl rfl
  · have h : client?.perform (e, w) = (some (some (key, c)),
        { e with servers := (e.servers.erase key).put key c, connections := e.connections + 1 }, v) := by
      simp [client?, key?, perform_bind, hk, hkept, hc, hstart, Except.map, Except.mapError]
    rw [h]
    exact .started hk hl hs rfl rfl rfl rfl

theorem client?_sought (e : Editor π) (w : World) : Sought e w (client?.perform (e, w)) := by
  rcases hk : ServerKey.ofBuffer? w.files e.buffer with _ | key
  · have h : client?.perform (e, w) = (some none, e, w) := by
      simp [client?, key?, perform_bind, hk]
    rw [h]
    exact .nobody
  · rcases hkept : (e.servers.get? key).filter fun c => c.isRunning with _ | c
    · have hdead : ∀ c, e.servers.get? key = some c → c.isRunning = false := by
        intro c hc
        rw [hc] at hkept
        simpa [Option.filter] using hkept
      rcases hc : e.config.command? key.language with _ | command
      · have h : client?.perform (e, w) = (some none, { e with servers := e.servers.erase key }, w) := by
          simp [client?, key?, perform_bind, hk, hkept, hc]
        rw [h]
        exact .dropped hk hdead ⟨rfl, rfl, rfl⟩ rfl rfl
      · rcases hl : e.launch command key.root w.files with reason | ⟨peer, files⟩
        · obtain ⟨status, h⟩ : ∃ status, client?.perform (e, w) =
              (some none, { e with servers := e.servers.erase key, status }, w) := by
            simp [client?, key?, perform_bind, hk, hkept, hc, start, hl]
          rw [h]
          exact .dropped hk hdead ⟨rfl, rfl, rfl⟩ rfl rfl
        · exact sought_of_launch hk hkept hc hl
    · have h : client?.perform (e, w) = (some (some (key, c)), e, w) := by
        simp [client?, key?, perform_bind, hk, hkept]
      rw [h]
      obtain ⟨hc, hr⟩ := Option.filter_eq_some_iff.1 hkept
      exact .kept hk hc hr

/-! ### Speaking to a server -/

theorem Sought.buffer {e e' : Editor π} {w w' : World} {out : Option (Option (ServerKey × Client π))}
    (h : Sought e w (out, e', w')) : e'.buffer = e.buffer := by
  cases h with
  | nobody | kept => rfl
  | dropped _ _ alike => exact alike.buffer
  | failed _ _ _ _ buffer => exact buffer
  | started _ _ _ _ buffer => exact buffer

/-- What a call of the buffer's server can come to, which is started when it does not run. -/
inductive Attended (e : Editor π) (w : World) (call : Call π α) : Editor π × World → Prop
  | unserved {out : Option (Option (ServerKey × Client π))} {e' : Editor π} {w' : World}
      (sought : Sought e w (out, e', w')) (nobody : out.join = none) : Attended e w call (e', w')
  | served {key : ServerKey} {c : Client π} {e' e'' : Editor π} {w' : World}
      (sought : Sought e w (some (some (key, c)), e', w'))
      (finished : Finished { e' with servers := e'.servers.put key (call.perform (c, w')).2.1 } e'') :
      Attended e w call (e'', (call.perform (c, w')).2.2)

theorem Attended.buffer {call : Call π α} {e e' : Editor π} {w w' : World}
    (h : Attended e w call (e', w')) : e'.buffer = e.buffer := by
  cases h with
  | unserved sought => exact sought.buffer
  | served sought finished => exact finished.alike.buffer.trans sought.buffer

omit [Peer π] in
/-- A call and what comes after it. -/
theorem finished_of_call (key : ServerKey) (c : Client π) (call : Call π α) (feature : String)
    (e : Editor π) (w : World) :
    ∃ e', Finished { e with servers := e.servers.put key (call.perform (c, w)).2.1 } e' ∧
      (callAt key c call >>= finish feature).perform (e, w) =
        ((call.perform (c, w)).1.map Except.toOption, e', (call.perform (c, w)).2.2) := by
  rw [perform_bind, perform_callAt]
  rcases call.perform (c, w) with ⟨_ | outcome, d, v⟩
  · exact ⟨_, .idle ⟨.refl _, rfl, rfl⟩, rfl⟩
  · obtain ⟨e', he, hfinished⟩ :=
      finish_finished feature outcome { e with servers := e.servers.put key d } v
    exact ⟨e', hfinished, he⟩

/-- Looking for the server of the buffer, a call that depends on it, and what comes after. -/
theorem attended_of_client? (feature : String) {act : Act π β} {call : Call π α} {e : Editor π}
    {w : World}
    (hnone : ∀ s, (client? : Act π _).perform (e, w) = (some none, s) → (act.perform (e, w)).2 = s)
    (hwait : ∀ s, (client? : Act π _).perform (e, w) = (none, s) → (act.perform (e, w)).2 = s)
    (hsome : ∀ key c s, client?.perform (e, w) = (some (some (key, c)), s) →
      s.1.buffer = e.buffer →
      (act.perform (e, w)).2 = ((callAt key c call >>= finish feature).perform s).2) :
    Attended e w call (act.perform (e, w)).2 := by
  have hsought := client?_sought e w
  rcases h : client?.perform (e, w) with ⟨_ | _ | ⟨key, c⟩, e', w'⟩
  · rw [h] at hsought
    rw [hwait _ h]
    exact .unserved hsought rfl
  · rw [h] at hsought
    rw [hnone _ h]
    exact .unserved hsought rfl
  · rw [h] at hsought
    obtain ⟨e'', hfinished, he⟩ := finished_of_call key c call feature e' w'
    rw [hsome key c _ h hsought.buffer, he]
    exact .served hsought hfinished

theorem notifyChange_attended (e : Editor π) (w : World) :
    Attended e w (Client.sync e.buffer) (notifyChange.perform (e, w)).2 := by
  refine attended_of_client? "didChange" ?_ ?_ ?_
  · intro s h
    simp [notifyChange, perform_bind, h]
  · intro s h
    simp [notifyChange, perform_bind, h]
  · intro key c s h hb
    rw [notifyChange, perform_bind, h, ← hb]
    simp only
    rw [perform_bind, perform_get]
    simp only
    rw [← bind_assoc]
    exact perform_bind_of_still _ (fun _ _ => rfl) s

theorem perform_withServer (feature : String) (call : Uri → Call π (Option α)) {key : ServerKey}
    {c : Client π} {s s' : Editor π × World} (h : client?.perform s = (some (some (key, c)), s')) :
    ((withServer feature call).perform s).2 =
      ((callAt key c (Client.sync s'.1.buffer >>= call) >>= finish feature).perform s').2 := by
  rw [withServer, perform_bind, h]
  simp only
  rw [perform_bind, perform_get]
  simp only
  rw [← bind_assoc]
  exact perform_bind_of_still _ (fun _ _ => rfl) s'

theorem withServer_attended (feature : String) (call : Uri → Call π (Option α)) (e : Editor π)
    (w : World) :
    Attended e w (Client.sync e.buffer >>= call) ((withServer feature call).perform (e, w)).2 := by
  refine attended_of_client? feature ?_ ?_ ?_
  · intro s h
    simp [withServer, perform_bind, h]
  · intro s h
    simp [withServer, perform_bind, h]
  · intro key c s h hb
    rw [← hb]
    exact perform_withServer feature call h

theorem workspaceSymbols_attended (query : String) (e : Editor π) (w : World) :
    Attended e w (Client.workspaceSymbols query) ((workspaceSymbols query).perform (e, w)).2 := by
  refine attended_of_client? "workspaceSymbol" ?_ ?_ ?_
  · intro s h
    simp [workspaceSymbols, perform_bind, h]
  · intro s h
    simp [workspaceSymbols, perform_bind, h]
  · intro key c s h _
    rw [workspaceSymbols, perform_bind, h]
    simp only
    rw [← bind_assoc]
    exact perform_bind_of_still _ (fun _ _ => rfl) s

/-- What a call of the buffer's server can come to, which is not started for it. -/
inductive Visited (e : Editor π) (w : World) (call : Call π α) : Editor π × World → Prop
  | absent {e' : Editor π} (nobody : e.current? w = none) (calm : Calm e e') :
      Visited e w call (e', w)
  | present {key : ServerKey} {c : Client π} {e' : Editor π}
      (found : e.current? w = some (key, c))
      (finished : Finished { e with servers := e.servers.put key (call.perform (c, w)).2.1 } e') :
      Visited e w call (e', (call.perform (c, w)).2.2)

omit [Peer π] in
theorem Visited.buffer {call : Call π α} {e e' : Editor π} {w w' : World}
    (h : Visited e w call (e', w')) : e'.buffer = e.buffer := by
  cases h with
  | absent nobody calm => exact calm.buffer
  | present found finished => exact finished.alike.buffer

theorem closeBuffer_visited (e : Editor π) (w : World) :
    e.buffer.uri? w.files = none ∧ (closeBuffer.perform (e, w)).2 = (e, w) ∨
      ∃ uri, e.buffer.uri? w.files = some uri ∧
        Visited e w (Client.didClose uri) (closeBuffer.perform (e, w)).2 := by
  rcases hu : e.buffer.uri? w.files with _ | uri
  · exact .inl ⟨rfl, by simp [closeBuffer, perform_bind, hu]⟩
  · refine .inr ⟨uri, rfl, ?_⟩
    rcases hc : e.current? w with _ | ⟨key, c⟩
    · have h : closeBuffer.perform (e, w) =
          (some (), { e with diagnostics := { e.diagnostics with active := none } }, w) := by
        simp [closeBuffer, perform_bind, hu, perform_existing?, hc]
      rw [h]
      exact .absent hc ⟨⟨rfl, rfl, rfl⟩, rfl, rfl⟩
    · obtain ⟨e', hfinished, he⟩ := finished_of_call key c (Client.didClose uri) "didClose" e w
      have h : closeBuffer.perform (e, w) =
          ((callAt key c (Client.didClose uri) >>= finish "didClose") >>= fun _ =>
            edit fun e => { e with diagnostics := { e.diagnostics with active := none } }).perform
              (e, w) := by
        simp [closeBuffer, perform_bind, hu, perform_existing?, hc]
      rw [h, perform_bind, he]
      rcases ((Client.didClose uri).perform (c, w)).1.map Except.toOption with _ | out
      · exact .present hc hfinished
      · exact .present hc (hfinished.calm ⟨⟨rfl, rfl, rfl⟩, rfl, rfl⟩)

/-- What saving the buffer can come to: nothing, or it is written and its server is told. -/
inductive Saved (e : Editor π) (w : World) : Editor π × World → Prop
  | unsaved : Saved e w (e, w)
  | saved {p : Path} {b : Buffer} {files : FileSystem} {out : Editor π × World}
      (named : e.buffer.path = some p) (written : w.files.writeText p e.buffer.text = .ok files)
      (stored : b = { e.buffer with modified := false })
      (visited : Visited { e with buffer := b } { w with files }
        (Client.sync b >>= fun uri => Client.didSave uri none) out) : Saved e w out

theorem save_saved (e : Editor π) (w : World) : Saved e w (save.perform (e, w)).2 := by
  rcases hp : e.buffer.path with _ | p
  · have h : (save.perform (e, w)).2 = (e, w) := by simp [save, perform_bind, hp]
    rw [h]
    exact .unsaved
  · rcases hb : e.buffer.save w.files p with fault | ⟨b, files⟩
    · have h : (save.perform (e, w)).2 = (e, w) := by simp [save, perform_bind, hp, hb]
      rw [h]
      exact .unsaved
    · obtain ⟨hwritten, hstored⟩ := Buffer.save_eq_ok hp hb
      refine .saved hp hwritten hstored ?_
      rcases hc : current? { e with buffer := b } { w with files } with _ | ⟨key, c⟩
      · have h : (save.perform (e, w)).2 = ({ e with buffer := b }, { w with files }) := by
          simp [save, perform_bind, hp, hb, perform_existing?, hc]
        rw [h]
        exact .absent hc ⟨.refl _, rfl, rfl⟩
      · obtain ⟨e', hfinished, he⟩ := finished_of_call key c
          (Client.sync b >>= fun uri => Client.didSave uri none) "didSave"
          { e with buffer := b } { w with files }
        have h : save.perform (e, w) = ((callAt key c (Client.sync b >>=
            fun uri => Client.didSave uri none) >>= finish "didSave") >>= fun _ => pure (.ok ())).perform
              ({ e with buffer := b }, { w with files }) := by
          simp [save, perform_bind, hp, hb, perform_existing?, hc]
        rw [h, perform_bind_of_still _ (fun _ _ => rfl), he]
        exact .present hc hfinished

/-! ### Events of all servers -/

/-- Drops a server that is gone. -/
def sweep (s : Editor π × World) (entry : ServerKey × Client π) : Editor π × World :=
  if entry.2.isRunning then s
  else ({ s.1 with servers := s.1.servers.erase entry.1,
                   status := some (entry.1.language ++ " language server stopped") }, s.2)

/-- Takes in what a server has sent, and puts its events behind those of others. -/
def gather (acc : List Event × Editor π × World) (entry : ServerKey × Client π) :
    List Event × Editor π × World :=
  let (link, w, _) := entry.2.link.poll acc.2.2
  let servers := acc.2.1.servers.put entry.1 { entry.2 with link }
  match servers.get? entry.1 with
  | some c =>
    (acc.1 ++ c.link.events,
      { acc.2.1 with servers := servers.put entry.1 { c with link := c.link.drain.1 } }, w)
  | none => (acc.1, { acc.2.1 with servers }, w)

theorem perform_process (s : Editor π × World) :
    process.perform s =
      let swept := s.1.servers.foldl sweep s
      let gathered := swept.1.servers.foldl gather ([], swept)
      (some (), gathered.1.foldl replay gathered.2.1, gathered.2.2) := by
  have hfold (entries : List (ServerKey × Client π)) (s : Editor π × World) :
      entries.foldl (fun acc entry => (PUnit.unit, sweep acc.2 entry)) (PUnit.unit, s) =
        (PUnit.unit, entries.foldl sweep s) := by
    induction entries generalizing s with
    | nil => rfl
    | cons entry entries ih => exact ih _
  rw [process, perform_bind, perform_get]
  simp only
  rw [perform_bind, perform_forIn fun acc entry => (PUnit.unit, sweep acc.2 entry), hfold]
  · simp only
    rw [perform_bind, perform_get]
    simp only
    rw [perform_bind, perform_forIn gather]
    · rfl
    · rintro ⟨key, c⟩ events ⟨e, w⟩
      rcases hg : (e.servers.put key { c with link := (c.link.poll w).1 }).get? key with _ | d <;>
        simp [gather, perform_bind, perform_callAt, Client.perform_poll, hg, Connection.drain]
  · rintro ⟨key, c⟩ _ s
    cases h : c.isRunning <;> simp [sweep, h, perform_bind]

omit [Peer π] in
theorem foldl_sweep (entries : List (ServerKey × Client π)) (s : Editor π × World) :
    Alike s.1 (entries.foldl sweep s).1 := by
  induction entries generalizing s with
  | nil => exact .refl _
  | cons entry entries ih =>
    have hone : Alike s.1 (sweep s entry).1 := by
      rw [sweep]
      split <;> exact ⟨rfl, rfl, rfl⟩
    exact hone.trans (ih _)

theorem foldl_gather (entries : List (ServerKey × Client π)) (acc : List Event × Editor π × World) :
    Alike acc.2.1 (entries.foldl gather acc).2.1 := by
  induction entries generalizing acc with
  | nil => exact .refl _
  | cons entry entries ih =>
    have hone : Alike acc.2.1 (gather acc entry).2.1 := by
      rw [gather]
      dsimp only
      split <;> exact ⟨rfl, rfl, rfl⟩
    exact hone.trans (ih _)

theorem process_alike (s : Editor π × World) : Alike s.1 (process.perform s).2.1 := by
  rw [perform_process]
  refine .trans ?_ (foldl_replay _ _).1
  exact (foldl_sweep s.1.servers s).trans (foldl_gather _ ([], s.1.servers.foldl sweep s))

end Editor

end LuaLens
