import LuaLens.Proofs.Host.Turns
import LuaLens.Wire.FarEnd

/-!
The messages of the only server of an editor. As long as its connection is kept, every message that was
taken off the queue is shown or waits in the buffer of the connection. A connection that is closed is
dropped with its buffer, so that what waits there then is never shown.
-/

namespace LuaLens

variable {π : Type}

/-! ### What a far end has sent -/

/-- A far end with all that it has sent, oldest first. -/
structure Noted (π : Type) where
  peer : π
  sent : List Sending := []

instance [Peer π] : Peer (Noted π) where
  reads p := Peer.reads p.peer
  hear p fs m :=
    let (peer, fs, sending) := Peer.hear p.peer fs m
    ({ peer, sent := p.sent ++ [sending] }, fs, sending)

/-- The text of a message for the user that has its shape. -/
def Message.note? : Message → Option String
  | .notification n =>
    if n.method = "window/showMessage" ∨ n.method = "window/logMessage" then
      (Shape.showMessage n.params).map (Editor.textMember "message")
    else none
  | _ => none

theorem Message.note?_eq (m : Message) : m.note? = m.event?.bind Event.text? := by
  cases m with
  | request r => rfl
  | response r => rfl
  | notification n =>
    simp only [note?, event?, Option.bind_some, Event.ofNotification]
    split
    · next h =>
      rcases h with h | h <;> rw [h] <;> rcases Shape.showMessage n.params with _ | params <;> rfl
    · next h =>
      -- What is left are the two other events with a shape, and those that have none.
      obtain ⟨hshow, hlog⟩ := not_or.1 h
      split
      · rcases Shape.publishDiagnostics n.params with _ | params <;> rfl
      · next hm => exact absurd hm hshow
      · next hm => exact absurd hm hlog
      · rcases Shape.progress n.params with _ | params <;> rfl
      · rfl

namespace Connection

theorem receive_congr {c d : Connection π} (hu : c.unread = d.unread) (he : c.ended = d.ended)
    (s : Sending) :
    (c.receive s).unread = (d.receive s).unread ∧ (c.receive s).ended = (d.receive s).ended := by
  simp only [receive, hu, he]
  cases d.ended with
  | true => exact ⟨by simpa using hu, by simpa using he⟩
  | false => cases (Frame.readAll s.closes (d.unread ++ s.bytes)).2 <;> simp

theorem receiveAll_congr {c d : Connection π} (hu : c.unread = d.unread) (he : c.ended = d.ended)
    (ss : List Sending) : (c.receiveAll ss).unread = (d.receiveAll ss).unread ∧
      (c.receiveAll ss).ended = (d.receiveAll ss).ended := by
  induction ss generalizing c d with
  | nil => exact ⟨hu, he⟩
  | cons s ss ih =>
    obtain ⟨hu', he'⟩ := receive_congr hu he s
    exact ih hu' he'

theorem receiveAll_append (c : Connection π) (ss ts : List Sending) :
    c.receiveAll (ss ++ ts) = (c.receiveAll ss).receiveAll ts := List.foldl_append

theorem arrivals_append (c : Connection π) (ss ts : List Sending) :
    c.arrivals (ss ++ ts) = c.arrivals ss ++ (c.receiveAll ss).arrivals ts := by
  induction ss generalizing c with
  | nil => rfl
  | cons s ss ih =>
    rw [List.cons_append, arrivals, arrivals, ih, List.append_assoc]
    rfl

/-- A connection on which nothing has arrived yet. -/
def unspoken (peer : π) : Connection π := { number := 0, peer }

/-- The messages that have arrived with all that the far end has sent. -/
def arrived (c : Connection (Noted π)) : List Message := (unspoken c.peer).arrivals c.peer.sent

/-! ### The account of a connection -/

/-- What has arrived on a connection was taken or is on the queue, and of what was taken the texts were
shown or wait in its buffer, all in the order of arrival. -/
structure Accounted (shown : List String) (c : Connection (Noted π)) : Prop where
  taken : ∃ taken, c.arrived = taken ++ c.queue ∧
    shown ++ c.events.filterMap Event.text? = taken.filterMap Message.note?
  unread : ((unspoken c.peer).receiveAll c.peer.sent).unread = c.unread
  ended : ((unspoken c.peer).receiveAll c.peer.sent).ended = c.ended

variable {shown : List String} {c d : Connection (Noted π)} {w v : World} {ms : List Message}

theorem Accounted.new (number : Nat) (peer : π) :
    Accounted [] ({ number, peer := { peer } } : Connection (Noted π)) :=
  ⟨⟨[], rfl, rfl⟩, rfl, rfl⟩

/-- More arrives, and the far end has noted it. -/
theorem Accounted.receive (h : Accounted shown c) {peer : Noted π} {ss : List Sending}
    (hpeer : peer.sent = c.peer.sent ++ ss) (next : Nat) :
    Accounted shown (receiveAll { c with peer, nextId := next } ss) := by
  have hu : ((unspoken peer).receiveAll c.peer.sent).unread = c.unread :=
    (receiveAll_congr (c := unspoken peer) (d := unspoken c.peer) rfl rfl _).1.trans h.unread
  have he : ((unspoken peer).receiveAll c.peer.sent).ended = c.ended :=
    (receiveAll_congr (c := unspoken peer) (d := unspoken c.peer) rfl rfl _).2.trans h.ended
  have hp : (receiveAll { c with peer, nextId := next } ss).peer = peer := receiveAll_peer _ _
  obtain ⟨taken, harrived, hshown⟩ := h.taken
  refine ⟨⟨taken, ?_, ?_⟩, ?_, ?_⟩
  · rw [arrived, hp, hpeer, arrivals_append, receiveAll_queue, ← List.append_assoc, ← harrived, arrived,
      arrivals_congr (c := unspoken peer) (d := unspoken c.peer) rfl rfl]
    congr 1
    exact arrivals_congr (d := { c with peer, nextId := next }) hu he ss
  · rw [receiveAll_events]
    exact hshown
  · rw [hp, hpeer, receiveAll_append]
    exact (receiveAll_congr (d := { c with peer, nextId := next }) hu he ss).1
  · rw [hp, hpeer, receiveAll_append]
    exact (receiveAll_congr (d := { c with peer, nextId := next }) hu he ss).2

theorem Accounted.step [Peer π] (h : Accounted shown c) (hs : Step c w ms d v) :
    Accounted shown d := by
  cases hs with
  | asked unclosed method params => exact h.receive rfl _
  | told unclosed n => exact h.receive rfl _
  | unheard later => exact ⟨h.taken, h.unread, h.ended⟩
  | @took m rest first =>
    obtain ⟨taken, harrived, hshown⟩ := h.taken
    refine ⟨⟨taken ++ [m], ?_, ?_⟩, h.unread, h.ended⟩
    · rw [List.append_assoc, List.singleton_append]
      exact first ▸ harrived
    · rw [List.filterMap_append, ← hshown, Connection.took, absorb, List.filterMap_append,
        List.append_assoc, List.filterMap_filterMap]
      simp [Message.note?_eq]
  | @unanswered r rest first =>
    obtain ⟨taken, harrived, hshown⟩ := h.taken
    refine ⟨⟨taken ++ [.request r], ?_, ?_⟩, h.unread, h.ended⟩
    · rw [List.append_assoc, List.singleton_append]
      exact first ▸ harrived
    · rw [List.filterMap_append, ← hshown]
      simp [Message.note?]
  | ended done empty => exact ⟨h.taken, h.unread, h.ended⟩

theorem Accounted.does [Peer π] (h : Accounted shown c) (hd : Does c w ms d v) :
    Accounted shown d := by
  induction hd with
  | refl => exact h
  | step first _ ih => exact ih (h.step first)

/-- The buffer is emptied, and its texts are shown. -/
theorem Accounted.drain (h : Accounted shown c) :
    Accounted (shown ++ c.events.filterMap Event.text?) c.drain.1 := by
  obtain ⟨taken, harrived, hshown⟩ := h.taken
  exact ⟨⟨taken, harrived, by simpa [Connection.drain] using hshown⟩, h.unread, h.ended⟩

end Connection

/-! ### The only connection of an editor -/

namespace Servers

variable {key k : ServerKey} {c d : Client π}

theorem get?_singleton (h : Servers.get? [(key, c)] k = some d) : key.same k = true ∧ d = c := by
  cases hs : key.same k <;> simp_all [get?]

theorem put_singleton (h : key.same k = true) (c d : Client π) :
    Servers.put k d [(key, c)] = [(key, d)] := by simp [put, h]

theorem erase_singleton (key k : ServerKey) (c : Client π) :
    Servers.erase [(key, c)] k = if key.same k then [] else [(key, c)] := by
  cases h : key.same k <;> simp [erase, h]

theorem same_self (key : ServerKey) : key.same key = true := (ServerKey.same_iff key key).2 rfl

end Servers

namespace Editor

/-- What an editor has of its only connection: it keeps it as it is, or it has dropped it when it was
closed. -/
structure Tallied (last : Connection (Noted π)) (e : Editor (Noted π)) : Prop where
  refuses : ∀ command root fs, ∃ reason, e.launch command root fs = .error reason
  exact : last.Accounted e.messages
  kept : e.servers = [] ∧ last.isClosed = true ∨ ∃ key c, e.servers = [(key, c)] ∧ c.link = last

/-- Whether an editor still has its connection, in whatever state, or has dropped it as it was. -/
def Follows (last : Connection (Noted π)) (e : Editor (Noted π)) : Prop :=
  ∃ last', Tallied last' e ∧ (e.servers = [] → last' = last)

variable {last : Connection (Noted π)} {e e' : Editor (Noted π)} {w w' : World}

theorem Tallied.follows (h : Tallied last e) : Follows last e := ⟨last, h, fun _ => rfl⟩

theorem Tallied.congr (h : Tallied last e) (launch : e'.launch = e.launch)
    (servers : e'.servers = e.servers) (messages : e'.messages = e.messages) : Tallied last e' :=
  ⟨launch ▸ h.refuses, messages ▸ h.exact, servers ▸ h.kept⟩

/-- The only client is the one that is found under a key. -/
theorem Tallied.found (h : Tallied last e) {k : ServerKey} {c : Client (Noted π)}
    (hc : e.servers.get? k = some c) :
    c.link = last ∧ ∀ d, ∃ key, e.servers.put k d = [(key, d)] := by
  obtain ⟨hnone, -⟩ | ⟨key, c', hs, hlast⟩ := h.kept
  · rw [hnone] at hc
    cases hc
  · rw [hs] at hc
    obtain ⟨hsame, rfl⟩ := Servers.get?_singleton hc
    exact ⟨hlast, fun d => ⟨key, by rw [hs, Servers.put_singleton hsame]⟩⟩

/-- Another state of the connection is put in the place of the one before. -/
theorem Tallied.put (h : Tallied last e) {k : ServerKey} {c d : Client (Noted π)}
    (hc : e.servers.get? k = some c) (hlaunch : e'.launch = e.launch)
    (hservers : e'.servers = e.servers.put k d) (hexact : d.link.Accounted e'.messages) :
    Tallied d.link e' ∧ e'.servers ≠ [] := by
  obtain ⟨key, hput⟩ := (h.found hc).2 d
  refine ⟨⟨hlaunch ▸ h.refuses, hexact, .inr ⟨key, d, hservers.trans hput, rfl⟩⟩, ?_⟩
  rw [hservers, hput]
  simp

theorem Tallied.finished (h : Tallied last e) (hf : Finished e e') (hs : e.servers ≠ []) :
    ∃ last', Tallied last' e' ∧ e'.servers ≠ [] := by
  cases hf with
  | idle calm => exact ⟨last, h.congr calm.launch calm.servers calm.messages, calm.servers ▸ hs⟩
  | drained alike found servers messages =>
    have hexact := (h.found found).1 ▸ h.exact.drain
    exact ⟨_, h.put found alike.launch servers (messages ▸ hexact)⟩

variable [Peer π]

/-- A call of the client, and what comes after it. -/
theorem Tallied.served {α : Type} (h : Tallied last e) {k : ServerKey} {c : Client (Noted π)}
    {call : Call (Noted π) α} (hc : e.servers.get? k = some c) (hcall : Client.Speaks call)
    (hf : Finished { e with servers := e.servers.put k (call.perform (c, w)).2.1 } e') :
    Follows last e' := by
  obtain ⟨ms, hms⟩ := hcall c w
  have hexact : c.link.Accounted e.messages := (h.found hc).1 ▸ h.exact
  obtain ⟨hput, hne⟩ : Tallied (call.perform (c, w)).2.1.link
      { e with servers := e.servers.put k (call.perform (c, w)).2.1 } ∧
        e.servers.put k (call.perform (c, w)).2.1 ≠ [] := by
    refine h.put hc ?_ ?_ (hexact.does hms)
    · rfl
    · rfl
  obtain ⟨last', hlast, hne'⟩ := hput.finished hf hne
  exact ⟨last', hlast, fun hnil => absurd hnil hne'⟩

theorem Tallied.sought (h : Tallied last e) {out : Option (Option (ServerKey × Client (Noted π)))}
    (hs : Sought e w (out, e', w')) : Tallied last e' := by
  cases hs with
  | nobody | kept => exact h
  | @dropped key _ keyed dead alike servers messages =>
    refine ⟨alike.launch ▸ h.refuses, messages ▸ h.exact, ?_⟩
    rw [servers]
    obtain ⟨hnone, hclosed⟩ | ⟨k, c, hone, hlast⟩ := h.kept
    · exact .inl ⟨by rw [hnone]; rfl, hclosed⟩
    · rw [hone, Servers.erase_singleton]
      split
      · next hsame =>
        have hdead := dead c (by simp [hone, Servers.get?, hsame])
        exact .inl ⟨rfl, by simpa [Client.isRunning, hlast] using hdead⟩
      · exact .inr ⟨k, c, rfl, hlast⟩
  | failed _ launched | started _ launched =>
    obtain ⟨reason, hrefused⟩ := h.refuses _ _ _
    rw [hrefused] at launched
    cases launched

theorem Tallied.attended {α : Type} (h : Tallied last e) {call : Call (Noted π) α}
    (hcall : Client.Speaks call) (ha : Attended e w call (e', w')) : Follows last e' := by
  cases ha with
  | unserved sought nobody => exact (h.sought sought).follows
  | served sought finished =>
    cases sought with
    | kept keyed found running => exact h.served found hcall finished
    | started _ launched =>
      obtain ⟨reason, hrefused⟩ := h.refuses _ _ _
      rw [hrefused] at launched
      cases launched
    | failed _ _ nothing => cases nothing

theorem Tallied.visited {α : Type} (h : Tallied last e) {call : Call (Noted π) α}
    (hcall : Client.Speaks call) (hv : Visited e w call (e', w')) : Follows last e' := by
  cases hv with
  | absent nobody calm => exact (h.congr calm.launch calm.servers calm.messages).follows
  | present found finished => exact h.served ((current?_eq_some.1 found).2) hcall finished

theorem Tallied.closeBuffer (h : Tallied last e) (w : World) :
    Follows last (closeBuffer.perform (e, w)).2.1 := by
  obtain ⟨-, hclose⟩ | ⟨uri, -, hvisited⟩ := closeBuffer_visited e w
  · rw [hclose]
    exact h.follows
  · exact h.visited (Client.didClose_speaks uri) hvisited

/-- All that is polled is shown, unless the connection is closed by then. -/
theorem Tallied.process (h : Tallied last e) (w : World) :
    Follows last (process.perform (e, w)).2.1 := by
  rw [perform_process]
  obtain ⟨hnone, -⟩ | ⟨key, c, hone, hlast⟩ := h.kept
  · simp only [hnone, List.foldl_nil]
    exact h.follows
  · cases hr : c.isRunning with
    | false =>
      have hclosed : last.isClosed = true := by simpa [Client.isRunning, hlast] using hr
      simp only [hone, List.foldl_cons, List.foldl_nil, sweep, hr, Bool.false_eq_true, ↓reduceIte,
        Servers.erase_singleton, Servers.same_self]
      exact ⟨last, ⟨h.refuses, h.exact, .inl ⟨rfl, hclosed⟩⟩, fun _ => rfl⟩
    | true =>
      have hpoll := (hlast ▸ h.exact).does (c.link.poll_does w)
      have hget : ∀ d : Client (Noted π), Servers.get? [(key, d)] key = some d := by
        simp [Servers.get?, Servers.same_self]
      simp only [hone, List.foldl_cons, List.foldl_nil, sweep, hr, ↓reduceIte, gather, hget,
        Servers.put_singleton (Servers.same_self key), List.nil_append]
      obtain ⟨halike, hservers, hmessages⟩ := foldl_replay (c.link.poll w).1.events
        { e with servers := [(key, { c with link := (c.link.poll w).1.drain.1 })] }
      refine ⟨_, ⟨?_, hmessages ▸ hpoll.drain, .inr ⟨key, _, hservers, rfl⟩⟩, ?_⟩
      · rw [halike.launch]
        exact h.refuses
      · rw [hservers]
        simp

theorem Tallied.turn (h : Tallied last e) (w : World) (t : Turn (Noted π)) :
    Follows last (t.run (e, w)).1 := by
  cases t with
  | edit f own => exact (h.congr (own e).launch (own e).servers (own e).messages).follows
  | swap p =>
    have hclose := h.closeBuffer w
    obtain hrun | ⟨b, e', -, hrun, -, hlaunch, -, hservers, hmessages⟩ := run_swap (e, w) p
    · rw [hrun]
      exact hclose
    · rw [hrun]
      obtain ⟨last', hlast, hsame⟩ := hclose
      exact ⟨last', hlast.congr hlaunch hservers hmessages, fun hnil => hsame (hservers ▸ hnil)⟩
  | sync => exact h.attended (Client.sync_speaks _) (notifyChange_attended e w)
  | close => exact h.closeBuffer w
  | save =>
    have hsaved := save_saved e w
    rw [run_save]
    generalize (Editor.save.perform (e, w)).2 = out at hsaved
    cases hsaved with
    | unsaved => exact h.follows
    | @saved _ b _ _ named written stored visited =>
      refine Tallied.visited (e := { e with buffer := b }) (h.congr rfl rfl rfl) ?_ visited
      exact .bind (Client.sync_speaks _) fun _ => Client.notify_speaks _ _
  | process => exact h.process w
  | ask q =>
    rw [run_ask]
    exact h.attended (.bind (Client.sync_speaks _) fun _ => Client.request_speaks _ _ _)
      (withServer_attended q.feature q.call e w)
  | search query =>
    rw [run_search]
    exact h.attended (Client.request_speaks _ _ _) (workspaceSymbols_attended query e w)

/-! ### Runs -/

/-- An editor with its only connection, as it is or as it was when it was dropped. -/
structure Watch (π : Type) where
  editor : Editor (Noted π)
  world : World
  last : Connection (Noted π)

namespace Watch

/-- Lets something happen. -/
def see (x : Watch π) (h : Happening (Noted π)) : Watch π :=
  let s := h.run (x.editor, x.world)
  { editor := s.1, world := s.2, last := (s.1.servers.head?.map (·.2.link)).getD x.last }

/-- What the far end sends of itself is noted. -/
def Fair : Happening (Noted π) → Prop
  | .meanwhile _ change arrived => ∀ p, (change p).sent = p.sent ++ arrived
  | _ => True

/-- An editor that has just made its only connection. -/
def start (e : Editor (Noted π)) (key : ServerKey) (peer : π) (options : Option Json) (w : World) :
    Watch π :=
  let (_, c, w) := (Client.setUp options).perform
    (.connect key.language key.root { number := e.connections, peer := { peer } }, w)
  { editor := { e with servers := [(key, c)], connections := e.connections + 1 }
    world := w
    last := c.link }

variable {x : Watch π}

theorem tallied_start {e : Editor (Noted π)} (hnew : e.messages = [])
    (hrefuses : ∀ command root fs, ∃ reason, e.launch command root fs = .error reason)
    (key : ServerKey) (peer : π) (options : Option Json) (w : World) :
    Tallied (start e key peer options w).last (start e key peer options w).editor := by
  obtain ⟨ms, hms⟩ := Client.setUp_speaks options
    (.connect key.language key.root { number := e.connections, peer := ({ peer } : Noted π) }) w
  refine ⟨hrefuses, ?_, .inr ⟨key, _, rfl, rfl⟩⟩
  rw [show (start e key peer options w).editor.messages = [] from hnew]
  exact (Connection.Accounted.new e.connections peer).does hms

omit [Peer π] in
/-- A connection that is kept is the one that is seen. -/
theorem tallied_of_follows {e : Editor (Noted π)} {last : Connection (Noted π)}
    (h : Follows last e) : Tallied ((e.servers.head?.map (·.2.link)).getD last) e := by
  obtain ⟨last', hlast, hsame⟩ := h
  obtain ⟨hnone, -⟩ | ⟨key, c, hone, hc⟩ := hlast.kept
  · obtain rfl := hsame hnone
    simpa [hnone] using hlast
  · simpa [hone, hc] using hlast

theorem tallied_see (hx : Tallied x.last x.editor) (h : Happening (Noted π)) (hfair : Fair h) :
    Tallied (x.see h).last (x.see h).editor := by
  apply tallied_of_follows
  cases h with
  | turn t => exact hx.turn x.world t
  | files fs => exact hx.follows
  | meanwhile number change arrived =>
    obtain ⟨hnone, hclosed⟩ | ⟨key, c, hone, hlast⟩ := hx.kept
    · have hservers : (x.editor.meanwhile number change arrived).servers = [] := by
        simp [Editor.meanwhile, hnone]
      exact ⟨x.last, ⟨hx.refuses, hx.exact, .inl ⟨hservers, hclosed⟩⟩, fun _ => rfl⟩
    · let d := if c.link.number = number then
        { c with link := { c.link with peer := change c.link.peer }.receiveAll arrived } else c
      have hservers : (x.editor.meanwhile number change arrived).servers = [(key, d)] := by
        simp [Editor.meanwhile, hone, d]
      have hexact : d.link.Accounted x.editor.messages := by
        have hc : c.link.Accounted x.editor.messages := hlast ▸ hx.exact
        simp only [d]
        split
        · exact hc.receive (hfair c.link.peer) _
        · exact hc
      refine ⟨d.link, ⟨hx.refuses, hexact, .inr ⟨key, d, hservers, rfl⟩⟩, fun hnil => ?_⟩
      rw [show (Happening.run (x.editor, x.world) (.meanwhile number change arrived)).1.servers =
        [(key, d)] from hservers] at hnil
      cases hnil

theorem tallied_run (hx : Tallied x.last x.editor) (hs : List (Happening (Noted π)))
    (hfair : ∀ h ∈ hs, Fair h) :
    Tallied (hs.foldl see x).last (hs.foldl see x).editor := by
  induction hs generalizing x with
  | nil => exact hx
  | cons h hs ih =>
    exact ih (tallied_see hx h (hfair h (by simp))) fun k hk => hfair k (List.mem_cons_of_mem _ hk)

theorem foldl_see (x : Watch π) (hs : List (Happening (Noted π))) :
    ((hs.foldl see x).editor, (hs.foldl see x).world) = hs.foldl Happening.run (x.editor, x.world) := by
  induction hs generalizing x with
  | nil => rfl
  | cons h hs ih => exact ih (x.see h)

/-- Over every run of operations on an editor with one connection, at every point between turns: the
messages of the editor and the texts that wait in the buffer of the connection are those of all messages
taken off its queue, in the order of their arrival. A connection is dropped only once it is closed, and
then its buffer is dropped with it as it is. -/
theorem messages_exact (e : Editor (Noted π)) (hnew : e.messages = [])
    (hrefuses : ∀ command root fs, ∃ reason, e.launch command root fs = .error reason)
    (key : ServerKey) (peer : π) (options : Option Json) (w : World) (ops : List (Op (Noted π)))
    (hfair : ∀ op ∈ ops, ∀ h, op.happening? = some h → Fair h) :
    let first := start e key peer options w
    ∃ hs : List (Happening (Noted π)),
      ops.foldl Op.run (first.editor, first.world) =
        ((hs.foldl see first).editor, (hs.foldl see first).world) ∧
      ∀ earlier, earlier <+: hs →
        let x := earlier.foldl see first
        (∃ taken, x.last.arrived = taken ++ x.last.queue ∧
          x.editor.messages ++ x.last.events.filterMap Event.text? = taken.filterMap Message.note?) ∧
        ((∃ k c, x.editor.servers = [(k, c)] ∧ c.link = x.last) ∨
          x.editor.servers = [] ∧ x.last.isClosed = true) := by
  intro first
  obtain ⟨hs, hrun, hall⟩ := ops_made (P := Fair) (fun _ => trivial) ops hfair
    (first.editor, first.world)
  refine ⟨hs, hrun.trans (foldl_see first hs).symm, fun earlier hearlier => ?_⟩
  have htallied := tallied_run (tallied_start hnew hrefuses key peer options w) earlier
    fun h hh => hall h (hearlier.subset hh)
  exact ⟨htallied.exact.taken, htallied.kept.symm⟩

/-- A message that comes during the handshake waits in the buffer. When the far end goes away before the
editor has looked at it, the connection is dropped and the message is not shown. -/
theorem messages_exact_dropped :
    let note : Message := .notification { method := "window/logMessage",
                                          params := .obj [("type", .int 3), ("message", .str "hi")] }
    let answer := some ("result", Json.obj [("capabilities", .obj [])])
    let peer : FarEnd := .script
      { cues := [{ method := "initialize", before := FarEnd.frameOf note, answer }] }
    let e : Editor (Noted FarEnd) := { launch := fun _ _ _ => .error "" }
    let close : Sending := { closes := true }
    let ops : List (Op (Noted FarEnd)) :=
      [.meanwhile 0 (fun p => { p with sent := p.sent ++ [close] }) [close], .process]
    let first := start e ⟨"lua", ⟨"/p"⟩⟩ peer none {}
    let after := (ops.foldl Op.run (first.editor, first.world)).1
    (first.last.events.filterMap Event.text? = ["hi"] ∧ after.messages = [] ∧
      after.servers.isEmpty = true) ∧
    ∃ hs : List (Happening (Noted FarEnd)),
      let x := hs.foldl see first
      after = x.editor ∧ ∃ taken, x.last.arrived = taken ++ x.last.queue ∧
        x.editor.messages ++ x.last.events.filterMap Event.text? = taken.filterMap Message.note? := by
  intro note answer peer e close ops first after
  have hfair : ∀ op ∈ ops, ∀ h, op.happening? = some h → Fair h := by
    intro op hop h hh
    obtain rfl | rfl : op = _ ∨ op = _ := by simpa [ops] using hop
    · obtain rfl := Option.some.inj hh
      exact fun _ => rfl
    · cases hh
  obtain ⟨hs, hrun, hall⟩ :=
    messages_exact e rfl (fun _ _ _ => ⟨_, rfl⟩) ⟨"lua", ⟨"/p"⟩⟩ peer none {} ops hfair
  obtain ⟨htaken, -⟩ := hall hs List.prefix_rfl
  exact ⟨by decide +kernel, hs, congrArg Prod.fst hrun, htaken⟩

end Watch

end Editor

end LuaLens
