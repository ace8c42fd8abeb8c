import LuaLens.Proofs.Host.Act
import LuaLens.Proofs.Host.Documents
import LuaLens.Proofs.Host.Markers
import LuaLens.Wire.FarEnd

/-!
What is left when a file cannot be opened. The buffer is closed before the file is read: it stays in the
editor, but its server has been told that it is closed, and what that server finds in it is not shown.
-/

namespace LuaLens

variable {π α : Type}

/-- A notification is written without taking in what waits. -/
theorem Connection.notify_events [Peer π] (c : Connection π) (w : World) (method : String)
    (params : Json) : (c.notify w method params).1.events = c.events := by
  cases hc : c.closed with
  | true => simp [notify, hc]
  | false =>
    by_cases hr : Peer.reads c.peer = true
    · rw [notify_eq hc hr, heard, receiveAll_events]
    · simp [notify, write, hc, hr]

namespace Client

/-- Forgetting a document changes something if it is open. -/
theorem filter_opened_eq_iff (c : Client π) (uri : Uri) :
    c.opened.filter (·.1 != uri) = c.opened ↔ c.isOpen uri = false := by
  rw [isOpen, Option.isSome_eq_false_iff, Option.isNone_iff_eq_none, List.lookup_eq_none_iff,
    List.filter_eq_self]
  refine forall₂_congr fun entry _ => ?_
  rw [bne_iff_ne, bne_iff_ne, ne_comm]

variable [Peer π]

/-- Taking back a document never waits. It forgets the document, and takes in nothing. -/
theorem didClose_opened (uri : Uri) (c : Client π) (w : World) :
    ∃ outcome d v, (didClose uri).perform (c, w) = (some outcome, d, v) ∧
      d.opened = c.opened.filter (·.1 != uri) ∧ d.link.events = c.link.events := by
  cases ho : c.isOpen uri with
  | false =>
    refine ⟨.ok (), c, w, ?_, ((c.filter_opened_eq_iff uri).2 ho).symm, rfl⟩
    simp [didClose, Call.perform_bind, ho]
  | true =>
    cases hi : c.initialized with
    | false =>
      refine ⟨.error .notInitialized, { c with opened := c.opened.filter (·.1 != uri) }, w, ?_, rfl, rfl⟩
      simp [didClose, Call.perform_bind, ho, notify, perform_ready, hi]
    | true =>
      have h : (didClose uri).perform (c, w) =
          (tell "textDocument/didClose" (.obj [("textDocument", documentJson uri)])).perform
            ({ c with opened := c.opened.filter (·.1 != uri) }, w) := by
        simp [didClose, Call.perform_bind, ho, notify, perform_ready, hi]
      rw [h, perform_tell]
      exact ⟨_, _, _, rfl, rfl, c.link.notify_events w _ _⟩

end Client

namespace Editor

open Act

/-! ### Taking over events -/

/-- The documents that are open on the connection under a key. -/
def documents (e : Editor π) (key : ServerKey) : Option (List (Uri × Int)) :=
  (e.servers.get? key).map (·.opened)

/-- What events leave as it is: markers and view too while no document is active. -/
structure Keeps (e e' : Editor π) : Prop where
  buffer : e'.buffer = e.buffer
  cursor : e'.cursor = e.cursor
  active : e'.diagnostics.active = e.diagnostics.active
  documents : ∀ key, e'.documents key = e.documents key
  undrawn : e.diagnostics.active = none →
    e'.view = e.view ∧ e'.diagnostics.markers = e.diagnostics.markers

theorem Keeps.refl (e : Editor π) : Keeps e e := ⟨rfl, rfl, rfl, fun _ => rfl, fun _ => ⟨rfl, rfl⟩⟩

theorem Keeps.trans {e e' e'' : Editor π} (h : Keeps e e') (h' : Keeps e' e'') : Keeps e e'' where
  buffer := h'.buffer.trans h.buffer
  cursor := h'.cursor.trans h.cursor
  active := h'.active.trans h.active
  documents key := (h'.documents key).trans (h.documents key)
  undrawn hactive :=
    ⟨(h'.undrawn (h.active.trans hactive)).1.trans (h.undrawn hactive).1,
      (h'.undrawn (h.active.trans hactive)).2.trans (h.undrawn hactive).2⟩

theorem replay_keeps (e : Editor π) (event : Event) : Keeps e (e.replay event) := by
  cases event with
  | diagnostics params =>
    rw [replay]
    split
    · next uri set _ =>
      obtain ⟨hactive, hp⟩ | ⟨hactive, hp⟩ := e.diagnostics.publish_cases uri set e.buffer e.view
      · simp only [hp]
        exact ⟨rfl, rfl, rfl, fun _ => rfl, fun hnone => by simp [hnone] at hactive⟩
      · simp only [hp]
        exact ⟨rfl, rfl, rfl, fun _ => rfl, fun _ => ⟨rfl, rfl⟩⟩
    · exact .refl e
  | showMessage | logMessage | progress | answered | unknown =>
    exact ⟨rfl, rfl, rfl, fun _ => rfl, fun _ => ⟨rfl, rfl⟩⟩

theorem foldl_keeps (events : List Event) (e : Editor π) : Keeps e (events.foldl replay e) := by
  induction events generalizing e with
  | nil => exact .refl e
  | cons event events ih => exact (replay_keeps e event).trans (ih _)

theorem documents_put (e : Editor π) (key k : ServerKey) (c : Client π) :
    ({ e with servers := e.servers.put key c } : Editor π).documents k =
      if key.same k then some c.opened else e.documents k := by
  rw [documents, Servers.get?_put]
  split <;> rfl

/-- A client may be replaced by one with the same documents. -/
theorem put_keeps {e : Editor π} {key : ServerKey} {c d : Client π}
    (found : e.servers.get? key = some c) (hd : d.opened = c.opened) :
    Keeps e { e with servers := e.servers.put key d } := by
  refine ⟨rfl, rfl, rfl, fun k => ?_, fun _ => ⟨rfl, rfl⟩⟩
  rw [documents_put]
  split
  · next hk => rw [documents, Servers.get?_congr hk, found, hd, Option.map_some]
  · rfl

/-- Whether no events wait to be taken over. -/
def Quiet (e : Editor π) : Prop := ∀ key c, e.servers.get? key = some c → c.link.events = []

theorem Quiet.put {e : Editor π} (h : Quiet e) (key : ServerKey) {c : Client π}
    (hc : c.link.events = []) : Quiet { e with servers := e.servers.put key c } := by
  intro k d hd
  simp only [Servers.get?_put] at hd
  split at hd
  · exact Option.some.inj hd ▸ hc
  · exact h k d hd

theorem complained_keeps (feature : String) (e : Editor π) (outcome : Except ClientFault α) :
    Keeps e (complained feature e outcome) ∧ (complained feature e outcome).view = e.view ∧
      (complained feature e outcome).diagnostics = e.diagnostics := by
  rw [complained.eq_def]
  split
  · exact ⟨.refl e, rfl, rfl⟩
  · split <;> exact ⟨⟨rfl, rfl, rfl, fun _ => rfl, fun _ => ⟨rfl, rfl⟩⟩, rfl, rfl⟩

theorem drained_keeps (e : Editor π) (w : World) :
    Keeps e (e.drained w) ∧ (Quiet e → (e.drained w).view = e.view ∧
      (e.drained w).diagnostics = e.diagnostics) := by
  rw [drained]
  split
  · exact ⟨.refl e, fun _ => ⟨rfl, rfl⟩⟩
  · next key c h =>
    have found := (current?_eq_some.1 h).2
    refine ⟨.trans ?_ (foldl_keeps c.link.events _), fun hquiet => ?_⟩
    · exact put_keeps found rfl
    · rw [hquiet key c found]
      exact ⟨rfl, rfl⟩

theorem finish_keeps (feature : String) (outcome : Except ClientFault α) (e : Editor π) (w : World) :
    ∃ e', (finish feature outcome).perform (e, w) = (some outcome.toOption, e', w) ∧ Keeps e e' ∧
      (Quiet e → e'.view = e.view ∧ e'.diagnostics = e.diagnostics) := by
  obtain ⟨hdrained, hquiet⟩ := drained_keeps e w
  obtain ⟨hcomplained, hview, hdiagnostics⟩ := complained_keeps feature (e.drained w) outcome
  refine ⟨_, perform_finish feature outcome e w, hdrained.trans hcomplained, fun h => ?_⟩
  exact ⟨hview.trans (hquiet h).1, hdiagnostics.trans (hquiet h).2⟩

variable [Peer π]

/-! ### Closing the buffer -/

/-- What closing the buffer leaves: no document is active, and that of the buffer is not open on its
server. Markers and view are drawn anew only for events that were waiting. -/
structure Closed (e : Editor π) (w : World) (uri : Uri) (e' : Editor π) : Prop where
  active : e'.diagnostics.active = none
  documents : ∀ key, e'.documents key =
    if (e.current? w).any (·.1.same key) then (e.documents key).map (List.filter (·.1 != uri))
    else e.documents key
  undrawn : e.diagnostics.active = none ∨ Quiet e →
    e'.view = e.view ∧ e'.diagnostics.markers = e.diagnostics.markers

theorem closeBuffer_closed (e : Editor π) (w : World) {uri : Uri}
    (named : e.buffer.uri? w.files = some uri) :
    ∃ e' v, closeBuffer.perform (e, w) = (some (), e', v) ∧ e'.buffer = e.buffer ∧
      e'.cursor = e.cursor ∧ Closed e w uri e' := by
  rcases hc : e.current? w with _ | ⟨key, c⟩
  · refine ⟨{ e with diagnostics := { e.diagnostics with active := none } }, w, ?_, rfl, rfl,
      rfl, fun k => ?_, fun _ => ⟨rfl, rfl⟩⟩
    · simp [closeBuffer, perform_bind, named, perform_existing?, hc]
    · simp [hc, documents]
  · have found := (current?_eq_some.1 hc).2
    obtain ⟨outcome, d, v, hcall, hopened, hevents⟩ := Client.didClose_opened uri c w
    obtain ⟨e', hfinish, hkeeps, hquiet⟩ :=
      finish_keeps "didClose" outcome { e with servers := e.servers.put key d } v
    refine ⟨{ e' with diagnostics := { e'.diagnostics with active := none } }, v, ?_, hkeeps.buffer,
      hkeeps.cursor, rfl, fun k => ?_, ?_⟩
    · simp [closeBuffer, perform_bind, named, perform_existing?, hc, perform_callAt, hcall, hfinish]
    · have hdocuments := hkeeps.documents k
      rw [documents_put, hopened] at hdocuments
      simp only [hc, Option.any_some]
      refine hdocuments.trans ?_
      split
      · next hk =>
        rw [documents, Servers.get?_congr hk, found]
        rfl
      · rfl
    · rintro (hactive | h)
      · exact hkeeps.undrawn hactive
      · obtain ⟨hview, hdiagnostics⟩ := hquiet (h.put key (hevents.trans (h key c found)))
        have hmarkers := congrArg Diagnostics.markers hdiagnostics
        exact ⟨hview, hmarkers⟩

/-! ### Files that cannot be opened -/

/-- Whether nothing has changed of the text on the screen, its markers and the documents that the
servers were shown. -/
structure Unmoved (e e' : Editor π) : Prop where
  buffer : e'.buffer = e.buffer
  cursor : e'.cursor = e.cursor
  view : e'.view = e.view
  active : e'.diagnostics.active = e.diagnostics.active
  markers : e'.diagnostics.markers = e.diagnostics.markers
  documents : ∀ key, e'.documents key = e.documents key

omit [Peer π] in
/-- Closing the buffer changes nothing only if there was nothing to close. -/
theorem Closed.unmoved_iff {e e' : Editor π} {w : World} {uri : Uri} (h : Closed e w uri e')
    (hbuffer : e'.buffer = e.buffer) (hcursor : e'.cursor = e.cursor) :
    Unmoved e e' ↔ e.diagnostics.active = none ∧
      ∀ key c, e.current? w = some (key, c) → c.isOpen uri = false := by
  constructor
  · intro hunmoved
    refine ⟨hunmoved.active.symm.trans h.active, fun key c hc => ?_⟩
    have hdocuments := (h.documents key).symm.trans (hunmoved.documents key)
    have hsame : key.same key = true := (ServerKey.same_iff key key).2 rfl
    simp only [hc, Option.any_some, hsame, ↓reduceIte, Editor.documents, (current?_eq_some.1 hc).2,
      Option.map_some, Option.some.injEq] at hdocuments
    exact (c.filter_opened_eq_iff uri).1 hdocuments
  · rintro ⟨hactive, hunopened⟩
    obtain ⟨hview, hmarkers⟩ := h.undrawn (.inl hactive)
    refine ⟨hbuffer, hcursor, hview, h.active.trans hactive.symm, hmarkers, fun k => ?_⟩
    rw [h.documents k]
    split
    · next hany =>
      obtain ⟨⟨key, c⟩, hc, hk⟩ := (Option.any_eq_true _ _).1 hany
      rw [Editor.documents, Servers.get?_congr hk, (current?_eq_some.1 hc).2, Option.map_some,
        Option.map_some, (c.filter_opened_eq_iff uri).2 (hunopened key c hc)]
    · rfl

/-- The file that a jump to a place has to open, if it has to. -/
def opens? (e : Editor π) (w : World) (location : Json) : Option Path :=
  match Uri.member? "uri" location, (location.get? "range").bind Range.ofJson? with
  | some uri, some _ => if e.buffer.uri? w.files == some uri then none else uri.toPath?
  | _, _ => none

variable {e e' : Editor π} {w w' : World} {p : Path} {fault : Buffer.Fault}

/-- A file that cannot be opened is left after the buffer was closed. -/
theorem closeBuffer_of_openFile (h : (openFile p).perform (e, w) = (some (.error fault), e', w')) :
    closeBuffer.perform (e, w) = (some (), e', w') := by
  rw [openFile, perform_bind] at h
  rcases hclose : closeBuffer.perform (e, w) with ⟨_ | _, e₁, w₁⟩
  · simp [hclose] at h
  · simp only [hclose, perform_bind, perform_get] at h
    rcases hload : Buffer.load w₁.files p with fault' | buffer
    · simp only [hload, perform_pure, Prod.mk.injEq] at h
      rw [h.2.1, h.2.2]
    · simp only [hload, perform_bind, perform_edit] at h
      split at h <;> simp at h

theorem jump_of_openFile {location : Json} (hopens : e.opens? w location = some p)
    (h : (openFile p).perform (e, w) = (some (.error fault), e', w')) :
    (jump location).perform (e, w) = (some (),
      { e' with status := some ("Cannot open " ++ p.text ++ ": " ++ fault.message) }, w') := by
  rw [opens?] at hopens
  split at hopens
  · next uri range huri hrange =>
    split_ifs at hopens with hsame
    rw [beq_iff_eq] at hsame
    simp [jump, perform_bind, huri, hrange, hsame, hopens, h]
  · cases hopens

theorem goToDefinition_of_openFile {s : Editor π × World} {location : Json}
    (hfound : (related .definition).perform s = (some [location], e, w))
    (hopens : e.opens? w location = some p)
    (h : (openFile p).perform (e, w) = (some (.error fault), e', w')) :
    goToDefinition.perform s = (some [location],
      { e' with status := some ("Cannot open " ++ p.text ++ ": " ++ fault.message) }, w') := by
  simp [goToDefinition, perform_bind, hfound, jump_of_openFile hopens h]

/-- What is left when a file could not be opened: the buffer, which was closed, and the caret. -/
structure Abandoned (e : Editor π) (w : World) (left : Editor π) : Prop where
  buffer : left.buffer = e.buffer
  cursor : left.cursor = e.cursor
  /-- The rest is as it was only if there was nothing to close. -/
  unmoved_iff : Unmoved e left ↔ ∀ uri, e.buffer.uri? w.files = some uri →
    e.diagnostics.active = none ∧ ∀ key c, e.current? w = some (key, c) → c.isOpen uri = false
  closed : ∀ uri, e.buffer.uri? w.files = some uri → Closed e w uri left
  /-- Whatever is found in the buffer from then on is not drawn. -/
  muted : ∀ uri, e.buffer.uri? w.files = some uri → ∀ events : List Event,
    (events.foldl replay left).view = left.view ∧
      (events.foldl replay left).diagnostics.markers = left.diagnostics.markers

omit [Peer π] in
theorem Abandoned.refl (e : Editor π) {w : World} (unnamed : e.buffer.uri? w.files = none) :
    Abandoned e w e where
  buffer := rfl
  cursor := rfl
  unmoved_iff := iff_of_true ⟨rfl, rfl, rfl, rfl, rfl, fun _ => rfl⟩ (by simp [unnamed])
  closed := by simp [unnamed]
  muted := by simp [unnamed]

omit [Peer π] in
theorem Abandoned.of_closed {uri : Uri} (named : e.buffer.uri? w.files = some uri)
    (h : Closed e w uri e') (hbuffer : e'.buffer = e.buffer) (hcursor : e'.cursor = e.cursor) :
    Abandoned e w e' where
  buffer := hbuffer
  cursor := hcursor
  unmoved_iff := by simpa [named] using h.unmoved_iff hbuffer hcursor
  closed := by simpa [named] using h
  muted := fun _ _ events => (foldl_keeps events e').undrawn h.active

omit [Peer π] in
/-- The status line is of no importance. -/
theorem Abandoned.say (h : Abandoned e w e') (status : Option String) :
    Abandoned e w { e' with status } where
  buffer := h.buffer
  cursor := h.cursor
  unmoved_iff := by
    rw [← h.unmoved_iff]
    exact ⟨fun h => ⟨h.buffer, h.cursor, h.view, h.active, h.markers, h.documents⟩,
      fun h => ⟨h.buffer, h.cursor, h.view, h.active, h.markers, h.documents⟩⟩
  closed uri named :=
    ⟨(h.closed uri named).active, (h.closed uri named).documents, (h.closed uri named).undrawn⟩
  muted uri named events := (foldl_keeps events _).undrawn (h.closed uri named).active

/-- A file that cannot be opened leaves the buffer in the editor but closed, also when it was the goal of
a jump, by itself or to a definition; a jump says in the status line why it failed. -/
theorem failed_open_closes_buffer (e e' : Editor π) (w w' : World) (p : Path) (fault : Buffer.Fault)
    (h : (openFile p).perform (e, w) = (some (.error fault), e', w')) :
    let said : Editor π :=
      { e' with status := some ("Cannot open " ++ p.text ++ ": " ++ fault.message) }
    Abandoned e w e' ∧ Abandoned e w said ∧ ∀ location, e.opens? w location = some p →
      (jump location).perform (e, w) = (some (), said, w') ∧
      ∀ s, (related .definition).perform s = (some [location], e, w) →
        goToDefinition.perform s = (some [location], said, w') := by
  intro said
  have hclose := closeBuffer_of_openFile h
  have hleft : Abandoned e w e' := by
    cases named : e.buffer.uri? w.files with
    | none =>
      obtain ⟨-, hsame⟩ | ⟨uri, huri, -⟩ := closeBuffer_visited e w
      · rw [hclose] at hsame
        cases hsame
        exact .refl e named
      · rw [named] at huri
        cases huri
    | some uri =>
      obtain ⟨e₁, v, hperform, hbuffer, hcursor, hclosed⟩ := closeBuffer_closed e w named
      rw [hclose] at hperform
      cases hperform
      exact .of_closed named hclosed hbuffer hcursor
  exact ⟨hleft, hleft.say _, fun location hopens => ⟨jump_of_openFile hopens h,
    fun s hfound => goToDefinition_of_openFile hfound hopens h⟩⟩

/-- A file that does not exist: the server is told that the document of the buffer is closed, and no
document is active. -/
theorem failed_open_closes_buffer_missing :
    let uri : Uri := { scheme := "file", authority := some "", path := "/p/a.lua" }
    let c : Client FarEnd :=
      { language := "lua", root := ⟨"/p"⟩, initialized := true, opened := [(uri, 0)],
        link := { number := 0, peer := .script {} } }
    let e : Editor FarEnd :=
      { launch := fun _ _ _ => .error "", servers := [(⟨"lua", ⟨"/p"⟩⟩, c)], connections := 1
        buffer := { chars := "x".toList, path := some ⟨"/p/a.lua"⟩, language := some "lua" }
        diagnostics := { active := some uri } }
    let w : World :=
      { files := { nodes := [(["p"], .directory), (["p", ".git"], .directory),
          (["p", "a.lua"], .file (.text "x"))] } }
    let out := (openFile ⟨"/p/b.lua"⟩).perform (e, w)
    (out.1 = some (.error (.io .notFound)) ∧ showings uri.text (out.2.2.sent 0) = [.closed]) ∧
      ¬Unmoved e out.2.1 ∧ out.2.1.diagnostics.active = none := by
  intro uri c e w out
  have hrun : out.1 = some (.error (.io .notFound)) ∧
      showings uri.text (out.2.2.sent 0) = [.closed] := by decide +kernel
  have named : e.buffer.uri? w.files = some uri := by decide +kernel
  have h : (openFile ⟨"/p/b.lua"⟩).perform (e, w) =
      (some (.error (.io .notFound)), out.2.1, out.2.2) := Prod.ext hrun.1 rfl
  obtain ⟨hleft, -⟩ := failed_open_closes_buffer e out.2.1 w out.2.2 ⟨"/p/b.lua"⟩ _ h
  refine ⟨hrun, fun hsame => ?_, (hleft.closed uri named).active⟩
  obtain ⟨hactive, -⟩ := hleft.unmoved_iff.1 hsame uri named
  simp [e] at hactive

end Editor

end LuaLens
