import LuaLens.Proofs.Host.Shown
import LuaLens.Wire.FarEnd

/-!
The questions of an editor. Whatever is done, and whatever the servers do meanwhile, all clients stay in
step with the buffer, so that a question is only ever asked about a document that is open with the text
of the buffer.
-/

namespace LuaLens

variable {π : Type}

namespace Editor

open Act

/-! ### Editors in step -/

/-- Whether the servers of an editor have places and connections of their own. -/
structure Kept (peers : π → Prop) (e : Editor π) : Prop where
  sorted : Servers.Sorted e.servers
  peer : ∀ entry ∈ e.servers, peers entry.2.link.peer
  made : ∀ entry ∈ e.servers, entry.2.link.number < e.connections
  apart : ∀ a ∈ e.servers, ∀ b ∈ e.servers, a.2.link.number = b.2.link.number → a.1.place = b.1.place

/-- Whether all clients of an editor are in step with its buffer. -/
structure InStep (launch : Launcher π) (paths : Path → Prop) (trees : FileSystem → Prop)
    (peers : π → Prop) (e : Editor π) (w : World) : Prop extends Kept peers e where
  launch : e.launch = launch
  path : ∀ p, e.buffer.path = some p → paths p
  files : trees w.files
  knows : ∀ entry ∈ e.servers, Knows e.buffer w entry.1 entry.2

section

variable {launch : Launcher π} {paths : Path → Prop} {trees : FileSystem → Prop} {peers : π → Prop}
  {e e' : Editor π} {w v w' : World} {key : ServerKey} {c d : Client π}

theorem InStep.sublist (h : InStep launch paths trees peers e w) (hlaunch : e'.launch = e.launch)
    (hbuffer : e'.buffer = e.buffer) (hmade : e.connections ≤ e'.connections)
    (hs : e'.servers.Sublist e.servers) : InStep launch paths trees peers e' w where
  sorted := List.Pairwise.sublist hs h.sorted
  peer entry hm := h.peer entry (hs.subset hm)
  made entry hm := (h.made entry (hs.subset hm)).trans_le hmade
  apart a ha b hb := h.apart a (hs.subset ha) b (hs.subset hb)
  launch := hlaunch.trans h.launch
  path := hbuffer ▸ h.path
  files := h.files
  knows entry hm := hbuffer ▸ h.knows entry (hs.subset hm)

theorem InStep.alike (h : InStep launch paths trees peers e w) (ha : Alike e e')
    (hs : e'.servers = e.servers) : InStep launch paths trees peers e' w :=
  h.sublist ha.launch ha.buffer ha.connections.ge (hs ▸ .refl _)

/-- A client in step, under the key that it is found by. -/
theorem InStep.found (h : InStep launch paths trees peers e w) (hc : e.servers.get? key = some c) :
    Knows e.buffer w key c ∧ peers c.link.peer := by
  obtain ⟨k, hk, hm⟩ := Servers.mem_of_get? hc
  exact ⟨(h.knows _ hm).of_place hk.symm, h.peer _ hm⟩

/-- After edits, what was shown is behind. -/
theorem Knows.edited {b b' : Buffer} (h : Knows b w key c) (he : Edited b b') : Knows b' w key c := by
  intro hc doc hd
  obtain ⟨named, keyed, behind, text, hshown, hsame⟩ := h hc doc hd
  have huri : b'.uri? w.files = b.uri? w.files := by rw [Buffer.uri?, Buffer.uri?, he.path]
  have hkey : ServerKey.ofBuffer? w.files b' = ServerKey.ofBuffer? w.files b := by
    rw [ServerKey.ofBuffer?, ServerKey.ofBuffer?, he.path, he.language]
  refine ⟨huri ▸ named, hkey ▸ keyed, ?_, text, hshown, fun hv => ?_⟩
  · obtain ⟨hversion, -⟩ | hlt := he.version <;> omega
  · obtain ⟨hversion, htext⟩ | hlt := he.version
    · rw [htext, hsame (hversion ▸ hv)]
    · omega

/-- The buffer is another one. -/
theorem InStep.turned (h : InStep launch paths trees peers e w) (hlaunch : e'.launch = e.launch)
    (hmade : e'.connections = e.connections) (hservers : e'.servers = e.servers)
    (hpath : ∀ p, e'.buffer.path = some p → paths p)
    (hknows : ∀ entry ∈ e.servers, Knows e'.buffer w entry.1 entry.2) :
    InStep launch paths trees peers e' w where
  sorted := hservers ▸ h.sorted
  peer := hservers ▸ h.peer
  made := hservers ▸ hmade ▸ h.made
  apart := hservers ▸ h.apart
  launch := hlaunch.trans h.launch
  path := hpath
  files := h.files
  knows := hservers ▸ hknows

variable [Peer π] (steady : Steady launch paths trees peers)

include steady

/-- What happens on other connections and to the files does not matter. -/
theorem InStep.move (h : InStep launch paths trees peers e w) (hv : trees v.files)
    (hsent : ∀ n < e.connections, v.sent n = w.sent n) : InStep launch paths trees peers e v where
  toKept := h.toKept
  launch := h.launch
  path := h.path
  files := hv
  knows entry hm := by
    have hsame : v.sent entry.2.link.number = w.sent entry.2.link.number ++ [] := by
      rw [hsent _ (h.made entry hm), List.append_nil]
    exact (h.knows entry hm).kept steady h.path h.files hv rfl id hsame (by simp)

/-- A client takes its place, on a connection of its own. -/
theorem InStep.put (h : InStep launch paths trees peers e w) (hv : trees v.files)
    (hpeer : peers d.link.peer) (hmade : d.link.number < e.connections)
    (hown : ∀ entry ∈ e.servers, entry.1.place ≠ key.place → entry.2.link.number ≠ d.link.number)
    (hsent : ∀ n, n ≠ d.link.number → v.sent n = w.sent n) (hknows : Knows e.buffer v key d) :
    InStep launch paths trees peers { e with servers := e.servers.put key d } v := by
  have hput : ∀ entry ∈ e.servers.put key d, entry.1.place = key.place ∧ entry.2 = d ∨
      entry.1.place ≠ key.place ∧ entry ∈ e.servers := fun _ hm => Servers.mem_put h.sorted hm
  refine ⟨⟨h.sorted.put key d, ?_, ?_, ?_⟩, h.launch, h.path, hv, ?_⟩
  · intro entry hm
    obtain ⟨-, hd⟩ | ⟨-, hm⟩ := hput entry hm
    · exact hd ▸ hpeer
    · exact h.peer entry hm
  · intro entry hm
    obtain ⟨-, hd⟩ | ⟨-, hm⟩ := hput entry hm
    · exact hd ▸ hmade
    · exact h.made entry hm
  · intro x hx y hy heq
    obtain ⟨hxk, hxd⟩ | ⟨hxk, hx⟩ := hput x hx <;> obtain ⟨hyk, hyd⟩ | ⟨hyk, hy⟩ := hput y hy
    · exact hxk.trans hyk.symm
    · exact absurd (hxd ▸ heq.symm) (hown y hy hyk)
    · exact absurd (hyd ▸ heq) (hown x hx hxk)
    · exact h.apart x hx y hy heq
  · intro entry hm
    obtain ⟨hk, hd⟩ | ⟨hk, hm⟩ := hput entry hm
    · exact hd ▸ hknows.of_place hk
    · have hsame : v.sent entry.2.link.number = w.sent entry.2.link.number ++ [] := by
        rw [hsent _ (hown entry hm hk), List.append_nil]
      exact (h.knows entry hm).kept steady h.path h.files hv rfl id hsame (by simp)

/-- A client is replaced by another state of it. -/
theorem InStep.replace (h : InStep launch paths trees peers e w) (hc : e.servers.get? key = some c)
    (hv : trees v.files) (hpeer : peers d.link.peer) (hnumber : d.link.number = c.link.number)
    (hsent : ∀ n, n ≠ c.link.number → v.sent n = w.sent n) (hknows : Knows e.buffer v key d) :
    InStep launch paths trees peers { e with servers := e.servers.put key d } v := by
  obtain ⟨k, hk, hm⟩ := Servers.mem_of_get? hc
  refine h.put steady hv hpeer (hnumber ▸ h.made _ hm) ?_ (hnumber ▸ hsent) hknows
  intro entry he hne heq
  exact hne ((h.apart entry he _ hm (heq.trans hnumber)).trans hk)

theorem InStep.call (h : InStep launch paths trees peers e w) (hc : e.servers.get? key = some c)
    (hh : Heeds e.buffer key c w d v) :
    InStep launch paths trees peers { e with servers := e.servers.put key d } v := by
  obtain ⟨ms, hms⟩ := hh.does
  obtain ⟨hpeer, hv⟩ := hms.keeps steady.hear (h.found hc).2 h.files
  exact h.replace steady hc hv hpeer hms.number (fun n hn => hms.sent_of_ne hn.symm) hh.knows

/-- The events of a client are taken over. -/
theorem InStep.drain (h : InStep launch paths trees peers e w) (hc : e.servers.get? key = some c) :
    InStep launch paths trees peers
      { e with servers := e.servers.put key { c with link := c.link.drain.1 } } w :=
  h.replace steady hc h.files (h.found hc).2 rfl (fun _ _ => rfl) (h.found hc).1

theorem InStep.finished (h : InStep launch paths trees peers e w) (hf : Finished e e') :
    InStep launch paths trees peers e' w := by
  cases hf with
  | idle calm => exact h.alike calm.toAlike calm.servers
  | drained alike found servers messages =>
    exact (h.drain steady found).alike ⟨alike.launch, alike.buffer, alike.connections⟩ servers

/-! ### Servers and calls -/

/-- A new client knows nothing, and its handshake is on a connection of its own. -/
theorem InStep.greet (h : InStep launch paths trees peers e w) {command : ServerCommand} {peer : π}
    {files : FileSystem} (hl : e.launch command key.root w.files = .ok (peer, files)) :
    peers peer ∧ trees files ∧ Heeds e.buffer key
      (.connect key.language key.root { number := e.connections, peer }) { w with files }
      ((Client.setUp command.options).perform
        (.connect key.language key.root { number := e.connections, peer }, { w with files })).2.1
      ((Client.setUp command.options).perform
        (.connect key.language key.root { number := e.connections, peer }, { w with files })).2.2 := by
  obtain ⟨hpeer, hfiles⟩ := steady.start _ _ _ _ _ h.files (h.launch ▸ hl)
  exact ⟨hpeer, hfiles, setUp_heeds steady h.path _ (.of_unopened fun _ => rfl) hpeer hfiles⟩

/-- Looking for the server of the buffer asks nothing about documents. -/
theorem InStep.sought (h : InStep launch paths trees peers e w)
    {out : Option (Option (ServerKey × Client π))} (hs : Sought e w (out, e', w')) :
    InStep launch paths trees peers e' w' ∧ Asks e.buffer.text w w' := by
  cases hs with
  | nobody | kept => exact ⟨h, .of_sent fun _ => rfl⟩
  | dropped keyed dead alike servers =>
    refine ⟨h.sublist alike.launch alike.buffer alike.connections.ge ?_, .of_sent fun _ => rfl⟩
    exact servers ▸ List.filter_sublist
  | failed keyed launched nothing hlaunch hbuffer hconnections servers =>
    obtain ⟨hpeer, hfiles, hh⟩ := h.greet steady launched
    obtain ⟨ms, hms⟩ := hh.does
    have hmoved := h.move steady (hms.keeps steady.hear hpeer hfiles).2
      fun n hn => hms.sent_of_ne (Nat.ne_of_gt hn)
    refine ⟨hmoved.sublist hlaunch hbuffer (by omega) ?_, hh.asks⟩
    exact servers ▸ List.filter_sublist
  | @started key _ _ _ _ c _ _ keyed launched greeted hlaunch hbuffer hconnections servers =>
    obtain ⟨hpeer, hfiles, hh⟩ := h.greet steady launched
    rw [greeted] at hh
    obtain ⟨ms, hms⟩ := hh.does
    obtain ⟨hpeer', hv⟩ := hms.keeps steady.hear hpeer hfiles
    have hnumber : c.link.number = e.connections := hms.number
    have herased : InStep launch paths trees peers
        { e with servers := e.servers.erase key, connections := e.connections + 1 } w := by
      refine h.sublist ?_ ?_ ?_ List.filter_sublist
      · rfl
      · rfl
      · exact Nat.le_succ _
    have hput := herased.put (d := c) steady hv hpeer' (by simp [hnumber])
      (fun entry hm _ => hnumber ▸ (h.made entry (List.mem_of_mem_filter hm)).ne)
      (fun n hn => hms.sent_of_ne fun he => hn (he ▸ hnumber.symm)) hh.knows
    exact ⟨hput.alike ⟨hlaunch, hbuffer, hconnections⟩ servers, hh.asks⟩

/-- The client that is found is that of the buffer. -/
theorem InStep.sought_client (h : InStep launch paths trees peers e w)
    (hs : Sought e w (some (some (key, c)), e', w')) : e'.servers.get? key = some c ∧
      (ServerKey.ofBuffer? w'.files e'.buffer).map (·.place) = some key.place := by
  have hfiles := (h.sought steady hs).1.files
  rw [hs.buffer, steady.place h.path hfiles h.files]
  cases hs with
  | kept keyed found => exact ⟨found, by rw [keyed, Option.map_some]⟩
  | failed _ _ nothing => cases nothing
  | started keyed _ _ _ _ _ servers =>
    exact ⟨servers ▸ Servers.get?_put_self (h.sorted.erase key) key c, by rw [keyed, Option.map_some]⟩

theorem InStep.attended {α : Type} {call : Call π α} (h : InStep launch paths trees peers e w)
    (hcall : Faithful trees peers e.buffer call) (ha : Attended e w call (e', w')) :
    InStep launch paths trees peers e' w' ∧ Asks e.buffer.text w w' := by
  cases ha with
  | unserved sought nobody => exact h.sought steady sought
  | @served key c mid _ u sought finished =>
    obtain ⟨hmid, hasks⟩ := h.sought steady sought
    obtain ⟨hfound, hkeyed⟩ := h.sought_client steady sought
    rw [← sought.buffer] at hcall hasks ⊢
    obtain ⟨hknows, hpeer⟩ := hmid.found hfound
    have hh := hcall key c u hknows hpeer hmid.files hkeyed
    have hdone := hmid.call steady hfound hh
    exact ⟨hdone.finished steady finished, hasks.trans hh.asks⟩

theorem InStep.visited {α : Type} {call : Call π α} (h : InStep launch paths trees peers e w)
    (hcall : Faithful trees peers e.buffer call) (hv : Visited e w call (e', w')) :
    InStep launch paths trees peers e' w' ∧ Asks e.buffer.text w w' := by
  cases hv with
  | absent nobody calm => exact ⟨h.alike calm.toAlike calm.servers, .of_sent fun _ => rfl⟩
  | @present key c _ found finished =>
    obtain ⟨hkey, hfound⟩ := current?_eq_some.1 found
    obtain ⟨hknows, hpeer⟩ := h.found hfound
    have hh := hcall key c w hknows hpeer h.files (by rw [hkey, Option.map_some])
    have hdone := h.call steady hfound hh
    exact ⟨hdone.finished steady finished, hh.asks⟩

/-! ### Turns -/

/-- Whether no client that can write knows a document. -/
def Cleared (e : Editor π) : Prop :=
  ∀ entry ∈ e.servers, entry.2.link.closed = false → entry.2.opened = []

omit [Peer π] steady in
theorem Cleared.finished (h : Cleared e) (hs : Servers.Sorted e.servers) (hf : Finished e e') :
    Cleared e' := by
  cases hf with
  | idle calm => exact fun entry hm => h entry (calm.servers ▸ hm)
  | drained alike found servers =>
    intro entry hm
    rw [servers] at hm
    obtain ⟨-, hd⟩ | ⟨-, hm⟩ := Servers.mem_put hs hm
    · obtain ⟨k, -, hk⟩ := Servers.mem_of_get? found
      rw [hd]
      exact h _ hk
    · exact h entry hm

omit [Peer π] steady in
/-- A client that knows a document is that of the buffer. -/
theorem InStep.unopened (h : InStep launch paths trees peers e w) {entry : ServerKey × Client π}
    (hm : entry ∈ e.servers) (hc : entry.2.link.closed = false)
    (hother : e.buffer.uri? w.files = none ∨
      (ServerKey.ofBuffer? w.files e.buffer).map (·.place) ≠ some entry.1.place) :
    entry.2.opened = [] := by
  refine List.eq_nil_iff_forall_not_mem.2 fun doc hdoc => ?_
  have hshown := h.knows entry hm hc doc hdoc
  obtain hnone | hplace := hother
  · cases hnone.symm.trans hshown.named
  · exact hplace hshown.keyed

/-- After the buffer was closed, no client knows a document any more. -/
theorem InStep.closeBuffer (h : InStep launch paths trees peers e w) :
    InStep launch paths trees peers (closeBuffer.perform (e, w)).2.1 (closeBuffer.perform (e, w)).2.2 ∧
      Asks e.buffer.text w (closeBuffer.perform (e, w)).2.2 ∧
      Cleared (closeBuffer.perform (e, w)).2.1 := by
  obtain ⟨hnone, hclose⟩ | ⟨uri, hnamed, hvisited⟩ := closeBuffer_visited e w
  · rw [hclose]
    exact ⟨h, .of_sent fun _ => rfl, fun entry hm hc => h.unopened hm hc (.inl hnone)⟩
  · generalize (Editor.closeBuffer.perform (e, w)).2 = out at hvisited
    cases hvisited with
    | absent nobody calm =>
      refine ⟨h.alike calm.toAlike calm.servers, .of_sent fun _ => rfl, fun entry hm hc => ?_⟩
      rw [calm.servers] at hm
      refine h.unopened hm hc (.inr fun hplace => ?_)
      obtain ⟨key, hkey, hk⟩ := Option.map_eq_some_iff.1 hplace
      have hfound := Servers.get?_of_mem h.sorted hk.symm hm
      simp [current?_eq_some.2 ⟨hkey, hfound⟩] at nobody
    | @present key c _ found finished =>
      obtain ⟨hkey, hfound⟩ := current?_eq_some.1 found
      obtain ⟨hh, hempty⟩ := didClose_heeds (h.found hfound).1 hnamed
      have hdone := h.call steady hfound hh
      refine ⟨hdone.finished steady finished, hh.asks, ?_⟩
      refine Cleared.finished (fun entry hm hc => ?_) hdone.sorted finished
      obtain ⟨-, hd⟩ | ⟨hne, -⟩ := Servers.mem_put h.sorted hm
      · rw [hd] at hc ⊢
        exact hempty hc
      · refine hdone.unopened hm hc (.inr ?_)
        rw [steady.place h.path hdone.files h.files, hkey, Option.map_some]
        exact fun hsame => hne (Option.some.inj hsame).symm

omit [Peer π] steady in
theorem InStep.sweep (h : InStep launch paths trees peers e w)
    (entries : List (ServerKey × Client π)) :
    InStep launch paths trees peers (entries.foldl sweep (e, w)).1 w ∧
      (entries.foldl Editor.sweep (e, w)).2 = w := by
  induction entries generalizing e with
  | nil => exact ⟨h, rfl⟩
  | cons entry entries ih =>
    rw [List.foldl_cons, Editor.sweep]
    split
    · exact ih h
    · exact ih (h.sublist rfl rfl le_rfl List.filter_sublist)

omit steady in
theorem gather_eq (hs : Servers.Sorted e.servers) (events : List Event) (w : World) (key : ServerKey)
    (c : Client π) :
    let d := { c with link := (c.link.poll w).1 }
    gather (events, e, w) (key, c) = (events ++ d.link.events,
      { e with servers := (e.servers.put key d).put key { d with link := d.link.drain.1 } },
      (c.link.poll w).2.1) := by
  simp [gather, Servers.get?_put_self hs]

/-- The servers are polled one after the other, each as it was found before. -/
theorem InStep.gather (h : InStep launch paths trees peers e w) {entries : List (ServerKey × Client π)}
    (hsub : ∀ entry ∈ entries, entry ∈ e.servers) (hs : Servers.Sorted entries)
    (events : List Event) :
    InStep launch paths trees peers (entries.foldl gather (events, e, w)).2.1
        (entries.foldl Editor.gather (events, e, w)).2.2 ∧
      Asks e.buffer.text w (entries.foldl Editor.gather (events, e, w)).2.2 := by
  induction entries generalizing e w events with
  | nil => exact ⟨h, .of_sent fun _ => rfl⟩
  | cons entry entries ih =>
    obtain ⟨key, c⟩ := entry
    obtain ⟨hfirst, hrest⟩ := List.pairwise_cons.1 hs
    have hmem := hsub (key, c) List.mem_cons_self
    have hpoll := c.link.poll_does w
    have hh : Heeds e.buffer key c w { c with link := (c.link.poll w).1 } (c.link.poll w).2.1 :=
      .of_does steady h.path (h.knows _ hmem) (h.peer _ hmem) h.files rfl hpoll (by simp)
        (.of_does hpoll (by simp))
    have hpolled := h.call steady (Servers.get?_of_mem h.sorted rfl hmem) hh
    have hdrained := hpolled.drain steady (Servers.get?_put_self h.sorted key _)
    rw [List.foldl_cons, gather_eq h.sorted]
    obtain ⟨hdone, hasks⟩ := ih hdrained (by
      intro entry hm
      have hne : entry.1.place ≠ key.place := (hfirst entry hm).ne'
      have hold := hsub entry (List.mem_cons_of_mem _ hm)
      exact Servers.mem_put_of_ne (Servers.mem_put_of_ne hold hne) hne) hrest
      (events ++ (c.link.poll w).1.events)
    exact ⟨hdone, hh.asks.trans hasks⟩

theorem InStep.process (h : InStep launch paths trees peers e w) :
    InStep launch paths trees peers (process.perform (e, w)).2.1 (process.perform (e, w)).2.2 ∧
      Asks e.buffer.text w (process.perform (e, w)).2.2 := by
  rw [perform_process]
  obtain ⟨hswept, hworld⟩ := h.sweep e.servers
  have hbuffer := (foldl_sweep e.servers (e, w)).buffer
  rcases hs : e.servers.foldl Editor.sweep (e, w) with ⟨e₁, w₁⟩
  rw [hs] at hswept hworld hbuffer
  obtain rfl : w₁ = w := hworld
  obtain ⟨hdone, hasks⟩ := hswept.gather steady (fun _ hm => hm) hswept.sorted []
  obtain ⟨halike, hservers, -⟩ := foldl_replay
    (e₁.servers.foldl Editor.gather ([], e₁, w₁)).1 (e₁.servers.foldl Editor.gather ([], e₁, w₁)).2.1
  exact ⟨hdone.alike halike hservers, hbuffer ▸ hasks⟩

/-- In a turn all clients stay in step, and what is asked is about the text of the buffer. -/
theorem InStep.turn (h : InStep launch paths trees peers e w) (t : Turn π)
    (hpath : ∀ p, (t.run (e, w)).1.buffer.path = some p → paths p) :
    InStep launch paths trees peers (t.run (e, w)).1 (t.run (e, w)).2 ∧
      Asks e.buffer.text w (t.run (e, w)).2 := by
  cases t with
  | edit f own =>
    have hown := own e
    refine ⟨h.turned hown.launch hown.connections hown.servers hpath fun entry hm => ?_,
      .of_sent fun _ => rfl⟩
    exact (h.knows entry hm).edited hown.buffer
  | swap p =>
    obtain ⟨hclosed, hasks, hcleared⟩ := h.closeBuffer steady
    obtain hrun | ⟨b, e', -, hrun, -, hlaunch, hconnections, hservers, -⟩ := run_swap (e, w) p
    · rw [hrun]
      exact ⟨hclosed, hasks⟩
    · rw [hrun] at hpath ⊢
      refine ⟨hclosed.turned hlaunch hconnections hservers hpath fun entry hm => ?_, hasks⟩
      exact .of_unopened (hcleared entry hm)
  | sync => exact h.attended steady (sync_faithful steady h.path) (notifyChange_attended e w)
  | close =>
    obtain ⟨hclosed, hasks, -⟩ := h.closeBuffer steady
    exact ⟨hclosed, hasks⟩
  | save =>
    have hsaved := save_saved e w
    rw [run_save]
    generalize (Editor.save.perform (e, w)).2 = out at hsaved
    cases hsaved with
    | unsaved => exact ⟨h, .of_sent fun _ => rfl⟩
    | @saved p b files _ named written stored visited =>
      have hedited : Edited e.buffer b := stored ▸ ⟨rfl, rfl, .inl ⟨rfl, rfl⟩⟩
      have hstored : InStep launch paths trees peers { e with buffer := b } w := by
        refine h.turned ?_ ?_ ?_ (hedited.path ▸ h.path) fun entry hm => ?_
        · rfl
        · rfl
        · rfl
        · exact (h.knows entry hm).edited hedited
      have hmoved := hstored.move (v := { w with files }) steady
        (steady.save p w.files _ files (h.path p named) h.files written) fun _ _ => rfl
      obtain ⟨hdone, hasks⟩ := hmoved.visited steady (didSave_faithful steady hmoved.path) visited
      have htext : b.text = e.buffer.text := stored ▸ rfl
      exact ⟨hdone, htext ▸ hasks⟩
  | process => exact h.process steady
  | ask q =>
    rw [run_ask]
    exact h.attended steady (ask_faithful steady h.path q) (withServer_attended q.feature q.call e w)
  | search query =>
    rw [run_search]
    exact h.attended steady (workspaceSymbols_faithful steady h.path query)
      (workspaceSymbols_attended query e w)

/-! ### Runs -/

omit [Peer π] steady in
/-- Whether what happens of itself leaves the far ends and the files what they are. -/
def Harmless (trees : FileSystem → Prop) (peers : π → Prop) : Happening π → Prop
  | .turn _ => True
  | .meanwhile _ change _ => ∀ p, peers p → peers (change p)
  | .files fs => trees fs

omit [Peer π] steady in
/-- What a far end does of itself changes nothing of what a client knows. -/
theorem InStep.meanwhile (h : InStep launch paths trees peers e w) (number : Nat) {change : π → π}
    (hchange : ∀ p, peers p → peers (change p)) (arrived : List Sending) :
    InStep launch paths trees peers (e.meanwhile number change arrived) w := by
  have hentry : ∀ entry ∈ (e.meanwhile number change arrived).servers, ∃ c, (entry.1, c) ∈ e.servers ∧
      peers entry.2.link.peer ∧ entry.2.link.number = c.link.number ∧
      entry.2.link.closed = c.link.closed ∧ entry.2.opened = c.opened := by
    intro entry hm
    obtain ⟨⟨key, c⟩, hc, rfl⟩ := List.mem_map.1 hm
    refine ⟨c, hc, ?_⟩
    dsimp only
    split
    · refine ⟨?_, Connection.receiveAll_number _ _, Connection.receiveAll_closed _ _, rfl⟩
      rw [Connection.receiveAll_peer]
      exact hchange _ (h.peer _ hc)
    · exact ⟨h.peer _ hc, rfl, rfl, rfl⟩
  refine ⟨⟨?_, ?_, ?_, ?_⟩, h.launch, h.path, h.files, ?_⟩
  · exact List.pairwise_map.2 h.sorted
  · intro entry hm
    obtain ⟨c, -, hpeer, -⟩ := hentry entry hm
    exact hpeer
  · intro entry hm
    obtain ⟨c, hc, -, hnumber, -⟩ := hentry entry hm
    exact hnumber ▸ h.made _ hc
  · intro x hx y hy heq
    obtain ⟨c, hc, -, hnumber, -⟩ := hentry x hx
    obtain ⟨d, hd, -, hnumber', -⟩ := hentry y hy
    exact h.apart (x.1, c) hc (y.1, d) hd (hnumber.symm.trans (heq.trans hnumber'))
  · intro entry hm hclosed doc hdoc
    obtain ⟨c, hc, -, hnumber, hclosed', hopened⟩ := hentry entry hm
    rw [hnumber]
    exact h.knows _ hc (hclosed' ▸ hclosed) doc (hopened ▸ hdoc)

theorem InStep.happening (h : InStep launch paths trees peers e w) {x : Happening π}
    (hx : Harmless trees peers x) (hpath : ∀ p, (x.run (e, w)).1.buffer.path = some p → paths p) :
    InStep launch paths trees peers (x.run (e, w)).1 (x.run (e, w)).2 ∧
      Asks e.buffer.text w (x.run (e, w)).2 := by
  cases x with
  | turn t => exact h.turn steady t hpath
  | meanwhile number change arrived => exact ⟨h.meanwhile number hx arrived, .of_sent fun _ => rfl⟩
  | files fs => exact ⟨h.move steady hx fun _ _ => rfl, .of_sent fun _ => rfl⟩

theorem InStep.run (h : InStep launch paths trees peers e w) (hs : List (Happening π))
    (hharmless : ∀ x ∈ hs, Harmless trees peers x)
    (hpath : ∀ earlier, earlier <+: hs →
      ∀ p, (earlier.foldl Happening.run (e, w)).1.buffer.path = some p → paths p) :
    InStep launch paths trees peers (hs.foldl Happening.run (e, w)).1
      (hs.foldl Happening.run (e, w)).2 := by
  induction hs generalizing e w with
  | nil => exact h
  | cons x hs ih =>
    obtain ⟨hx, hrest⟩ := List.forall_mem_cons.1 hharmless
    refine ih (h.happening steady hx (hpath [x] (by simp))).1 hrest fun earlier he => ?_
    exact hpath (x :: earlier) (by simpa using he)

/-- An operation is made of turns and of what happens of itself, and in each of them what is asked is
about the text that the buffer has then. -/
theorem InStep.op (h : InStep launch paths trees peers e w) {op : Op π}
    (hop : ∀ x, op.happening? = some x → Harmless trees peers x)
    (hpath : ∀ p, (op.run (e, w)).1.buffer.path = some p → paths p) :
    InStep launch paths trees peers (op.run (e, w)).1 (op.run (e, w)).2 ∧
      ∃ hs : List (Happening π), op.run (e, w) = hs.foldl Happening.run (e, w) ∧
        ∀ before x after, hs = before ++ x :: after →
          let s := before.foldl Happening.run (e, w)
          Asks s.1.buffer.text s.2 (x.run s).2 := by
  obtain ⟨hs, hrun, hall, hbetween⟩ := Op.made (P := Harmless trees peers) (fun _ => trivial) hop (e, w)
  have hpaths : ∀ earlier, earlier <+: hs →
      ∀ p, (earlier.foldl Happening.run (e, w)).1.buffer.path = some p → paths p := by
    intro earlier he p hp
    obtain hsame | hsame := hbetween earlier he
    · exact h.path p (hsame ▸ hp)
    · exact hpath p (hsame ▸ hp)
  refine ⟨hrun ▸ h.run steady hs hall hpaths, hs, hrun, fun before x after he => ?_⟩
  subst he
  have hbefore := h.run steady before (fun y hy => hall y (by simp [hy]))
    fun earlier he => hpaths earlier (he.trans (List.prefix_append _ _))
  refine (hbefore.happening steady (hall x (by simp)) ?_).2
  have hafter := hpaths (before ++ [x]) (by simp)
  rwa [List.foldl_append] at hafter

theorem InStep.ops (h : InStep launch paths trees peers e w) (ops : List (Op π))
    (hops : ∀ op ∈ ops, ∀ x, op.happening? = some x → Harmless trees peers x)
    (hpaths : ∀ earlier, earlier <+: ops →
      ∀ p, (earlier.foldl Op.run (e, w)).1.buffer.path = some p → paths p) :
    InStep launch paths trees peers (ops.foldl Op.run (e, w)).1 (ops.foldl Op.run (e, w)).2 := by
  induction ops generalizing e w with
  | nil => exact h
  | cons op ops ih =>
    obtain ⟨hop, hrest⟩ := List.forall_mem_cons.1 hops
    refine ih (h.op steady hop (hpaths [op] (by simp))).1 hrest fun earlier he => ?_
    exact hpaths (op :: earlier) (by simpa using he)

end

variable [Peer π] {paths : Path → Prop} {trees : FileSystem → Prop} {peers : π → Prop}

/-- Over every run of operations on an editor whose files keep their identifiers and roots: each
operation is made of turns and of what happens of itself, and when a question about a document is
written to a server in one of them, the document is open there, and its text is that of the buffer at
that moment. -/
theorem questions_about_shown_text (e : Editor π) (w : World)
    (steady : Steady e.launch paths trees peers) (hfiles : trees w.files) (hkept : Kept peers e)
    (hnew : ∀ entry ∈ e.servers, entry.2.opened = []) (ops : List (Op π))
    (hharmless : ∀ op ∈ ops, ∀ h, op.happening? = some h → Harmless trees peers h)
    (hpaths : ∀ earlier, earlier <+: ops →
      ∀ p, (earlier.foldl Op.run (e, w)).1.buffer.path = some p → paths p) :
    ∀ earlier op later, ops = earlier ++ op :: later →
      let s₀ := earlier.foldl Op.run (e, w)
      ∃ hs : List (Happening π), op.run s₀ = hs.foldl Happening.run s₀ ∧
        ∀ before h after, hs = before ++ h :: after →
          let s := before.foldl Happening.run s₀
          Asks s.1.buffer.text s.2 (h.run s).2 := by
  intro earlier op later hops
  subst hops
  have hstart : InStep e.launch paths trees peers e w :=
    ⟨hkept, rfl, hpaths [] List.nil_prefix, hfiles, fun entry hm => .of_unopened fun _ => hnew entry hm⟩
  have hearlier := hstart.ops steady earlier (fun x hx => hharmless x (by simp [hx]))
    fun first he => hpaths first (he.trans (List.prefix_append _ _))
  refine (hearlier.op steady (hharmless op (by simp)) ?_).2
  have hafter := hpaths (earlier ++ [op]) (by simp)
  rwa [List.foldl_append] at hafter

/-- A file that was changed by others and is opened again counts from its first version again, but it
was taken back in between: the question is about its new text. -/
theorem questions_about_shown_text_reopened :
    let tree (text : String) : FileSystem :=
      { nodes := [(["p"], .directory), (["p", ".git"], .directory),
          (["p", "a.lua"], .file (.text text))] }
    let c : Client FarEnd :=
      { language := "lua", root := ⟨"/p"⟩, initialized := true,
        link := { number := 0, peer := .script {} } }
    let e : Editor FarEnd :=
      { launch := fun _ _ _ => .error "", servers := [(⟨"lua", ⟨"/p"⟩⟩, c)], connections := 1 }
    let w : World := { files := tree "one" }
    let ops : List (Op FarEnd) :=
      [.openFile ⟨"/p/a.lua"⟩, .files (tree "two"), .openFile ⟨"/p/a.lua"⟩, .askHover]
    let sent := (ops.foldl Op.run (e, w)).2.sent 0
    (showings "file:///p/a.lua" sent = [.opened "one", .closed, .opened "two"] ∧
      sent.filterMap Message.question? = ["file:///p/a.lua"]) ∧
    ∀ earlier op later, ops = earlier ++ op :: later →
      let s₀ := earlier.foldl Op.run (e, w)
      ∃ hs : List (Happening FarEnd), op.run s₀ = hs.foldl Happening.run s₀ ∧
        ∀ before h after, hs = before ++ h :: after →
          let s := before.foldl Happening.run s₀
          Asks s.1.buffer.text s.2 (h.run s).2 := by
  intro tree c e w ops sent
  have steady : Steady e.launch (fun p => (tree "one").isFile p = true) (tree "one").SameShape
      fun p => ∃ s, p = .script s := by
    refine .of_shape _ ?_ ?_
    · rintro _ fs m ⟨s, rfl⟩ -
      cases m <;> exact ⟨⟨_, rfl⟩, .refl fs⟩
    · intro _ _ _ _ _ _ hl
      cases hl
  have hkept : Kept (fun p => ∃ s, p = FarEnd.script s) e :=
    ⟨List.pairwise_singleton _ _, by simp [e, c], by simp [e, c], by simp [e]⟩
  have hchanged : (tree "one").SameShape (tree "two") :=
    .writeText (p := ⟨"/p/a.lua"⟩) (t := "two") (by decide +kernel) (by rfl)
  have hexists : ∀ earlier ∈ ops.inits,
      (earlier.foldl Op.run (e, w)).1.buffer.path.all (tree "one").isFile = true := by decide +kernel
  refine ⟨by decide +kernel, questions_about_shown_text e w steady (.refl _) hkept (by simp [e, c]) ops
    (fun op hop h hh => ?_) fun earlier he p hp => ?_⟩
  · obtain rfl | rfl | rfl | rfl : op = _ ∨ op = _ ∨ op = _ ∨ op = _ := by simpa [ops] using hop
    · cases hh
    · obtain rfl := Option.some.inj hh
      exact hchanged
    · cases hh
    · cases hh
  · have hpath := hexists earlier ((List.mem_inits _ _).2 he)
    rwa [hp] at hpath

end Editor

end LuaLens
