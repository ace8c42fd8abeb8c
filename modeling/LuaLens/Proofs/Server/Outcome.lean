import LuaLens.Server
import LuaLens.Proofs.Uri

/-!
What messages do to the documents and the index of a server. Each is about one file at most, and brings
a new text of it, closes it, or leaves everything as it is.
-/

namespace LuaLens

/-! ### What messages are about -/

/-- The document that a notification changes, saves or closes. -/
def ClientNotification.uri? : ClientNotification → Option Uri
  | .didOpen uri _ | .didChange uri (some _) | .didSave uri _ | .didClose uri => some uri
  | .didChange _ none | .initialized | .exit | .unknown _ => none

/-- The text of a document after a notification: the one it brings, else the one of the document or of
its file. -/
def Server.newText? (s : Server) (fs : FileSystem) (p : Path) : ClientNotification → Option String
  | .didOpen _ text => some text
  | .didChange _ text => text
  | .didSave _ (some text) => some text
  | .didSave _ none => s.documents.source? fs p
  | .didClose _ => (fs.readText p).toOption
  | .initialized | .exit | .unknown _ => none

namespace Message

def notice? : Message → Option ClientNotification
  | .notification n => ClientNotification.parse? n.method n.params
  | .request _ | .response _ => none

/-- The file that a message is about. -/
def path? (m : Message) : Option Path := (m.notice?.bind ClientNotification.uri?).bind Uri.toPath?

end Message

theorem parse?_of_documentUri? {params : Json} {u : Uri} (h : documentUri? params = some u) :
    ∃ text, Uri.parse? text = some u := by
  obtain ⟨document, -, h⟩ := Option.bind_eq_some_iff.1 h
  obtain ⟨member, -, h⟩ := Option.bind_eq_some_iff.1 h
  obtain ⟨text, -, h⟩ := Option.bind_eq_some_iff.1 h
  exact ⟨text, h⟩

theorem ClientNotification.eq_of_uri?_didChange {uri u : Uri} {text : Option String}
    (h : (ClientNotification.didChange uri text).uri? = some u) : uri = u := by
  cases text with
  | none => cases h
  | some text => exact Option.some.inj h

theorem ClientNotification.parse?_of_uri? {method : String} {params : Json} {n : ClientNotification}
    {u : Uri} (h : parse? method params = some n) (hu : n.uri? = some u) :
    ∃ text, Uri.parse? text = some u := by
  obtain ⟨params, h⟩ : ∃ params, ofNormal? method params = some n := by
    rw [parse?] at h
    split at h
    · obtain ⟨params, -, h⟩ := Option.bind_eq_some_iff.1 h
      exact ⟨params, h⟩
    · exact ⟨params, h⟩
  refine @parse?_of_documentUri? params u ?_
  unfold ofNormal? at h
  split at h
  · obtain rfl := Option.some.inj h
    cases hu
  · obtain rfl := Option.some.inj h
    cases hu
  · simp only [Option.bind_eq_bind, Option.bind_eq_some_iff] at h
    obtain ⟨_, _, text, _, uri, huri, h⟩ := h
    obtain rfl := Option.some.inj h
    rwa [← Option.some.inj hu]
  · simp only [Option.bind_eq_bind, Option.bind_eq_some_iff] at h
    obtain ⟨_, _, changes, _, uri, huri, h⟩ := h
    obtain rfl := Option.some.inj h
    rwa [← eq_of_uri?_didChange hu]
  · obtain ⟨uri, huri, h⟩ := Option.bind_eq_some_iff.1 h
    obtain rfl := Option.some.inj h
    rwa [← Option.some.inj hu]
  · obtain ⟨uri, huri, rfl⟩ := Option.map_eq_some_iff.1 h
    rwa [← Option.some.inj hu]
  · obtain rfl := Option.some.inj h
    cases hu

theorem Message.path?_of_notice? {m : Message} {n : ClientNotification} {u : Uri}
    (hn : m.notice? = some n) (hu : n.uri? = some u) : m.path? = u.toPath? := by
  rw [path?, hn, Option.bind_some, hu, Option.bind_some]

theorem Message.isAbsolute_of_path? {m : Message} {p : Path} (h : m.path? = some p) :
    p.isAbsolute = true := by
  obtain ⟨u, hbind, hp⟩ := Option.bind_eq_some_iff.1 h
  obtain ⟨n, hn, hu⟩ := Option.bind_eq_some_iff.1 hbind
  cases m with
  | request r => cases hn
  | response r => cases hn
  | notification n =>
    obtain ⟨text, htext⟩ := ClientNotification.parse?_of_uri? hn hu
    exact Uri.isAbsolute_of_toPath? htext hp

namespace Server

variable {s : Server} {fs : FileSystem} {m : Message}

theorem handleRequest_cases (s : Server) (fs : FileSystem) {r : Request}
    (h : ∀ dir, ClientRequest.parse? r.method r.params ≠ some (.setUp dir)) :
    (s.handleRequest fs r).1.index = s.index ∧ (s.handleRequest fs r).1.documents = s.documents := by
  rw [handleRequest]
  split
  · exact ⟨rfl, rfl⟩
  · split
    · exact ⟨rfl, rfl⟩
    · rename_i hsetUp
      exact absurd hsetUp (h _)
    · split
      · exact ⟨rfl, rfl⟩
      · split
        · exact ⟨rfl, rfl⟩
        · exact ⟨rfl, rfl⟩

theorem updateDocument_of_toPath? (fs : FileSystem) {uri : Uri} {p : Path}
    (hroot : s.index.root.isSome = true)
    (hp : uri.toPath? = some p) (text : String) :
    (s.updateDocument fs uri text).1.index = (s.index.rescan fs p text).1 ∧
      (s.updateDocument fs uri text).1.documents =
        s.documents.update (s.index.rescan fs p text).2.1 p text := by
  simp only [updateDocument, hp, hroot]
  exact ⟨rfl, rfl⟩

theorem closeDocument_of_toPath? (fs : FileSystem) {uri : Uri} {p : Path}
    (hroot : s.index.root.isSome = true)
    (hp : uri.toPath? = some p) :
    (s.closeDocument fs uri).1.documents = s.documents.close fs p ∧
      ((∃ text, (fs.readText p).toOption = some text ∧
          (s.closeDocument fs uri).1.index = (s.index.rescan fs p text).1) ∨
        (s.closeDocument fs uri).1.index = (s.index.forget fs p).1) := by
  have hnone : s.index.root.isNone = false := by simpa using hroot
  simp only [closeDocument, hp, hnone]
  cases hread : fs.readText p with
  | ok text => exact ⟨rfl, .inl ⟨text, rfl, rfl⟩⟩
  | error e => exact ⟨rfl, .inr rfl⟩

/-- What can become of documents and index: a document has a new text, one is closed, or both are as
they were and the document in question is not open. -/
inductive Outcome (s : Server) (fs : FileSystem) (m : Message) (s' : Server) : Prop
  | updated {p : Path} {text : String} (path : m.path? = some p)
      (given : m.notice?.bind (s.newText? fs p) = some text)
      (index : s'.index = (s.index.rescan fs p text).1)
      (documents : s'.documents = s.documents.update (s.index.rescan fs p text).2.1 p text)
  | reread {p : Path} {text : String} (path : m.path? = some p)
      (given : m.notice?.bind (s.newText? fs p) = some text)
      (index : s'.index = (s.index.rescan fs p text).1)
      (documents : s'.documents = s.documents.close fs p)
  | forgotten {p : Path} (path : m.path? = some p) (index : s'.index = (s.index.forget fs p).1)
      (documents : s'.documents = s.documents.close fs p)
  | kept (path : ∀ p, m.path? = some p → s.documents.get? fs p = none)
      (index : s'.index = s.index) (documents : s'.documents = s.documents)

theorem get?_of_source? {d : Documents} {p : Path} (h : d.source? fs p = none) : d.get? fs p = none := by
  rw [Documents.source?] at h
  split at h
  · cases h
  · assumption

theorem outcome_updateDocument {n : ClientNotification} {uri : Uri} {text : String}
    (hroot : s.index.root.isSome = true) (hn : m.notice? = some n) (hu : n.uri? = some uri)
    (ht : ∀ p, uri.toPath? = some p → s.newText? fs p n = some text) :
    Outcome s fs m (s.updateDocument fs uri text).1 := by
  have hpath := Message.path?_of_notice? hn hu
  cases hp : uri.toPath? with
  | none =>
    rw [updateDocument, hp]
    refine .kept (fun p hm => ?_) rfl rfl
    rw [hpath, hp] at hm
    cases hm
  | some p =>
    obtain ⟨hindex, hdocuments⟩ := updateDocument_of_toPath? fs hroot hp text
    refine .updated (hpath.trans hp) ?_ hindex hdocuments
    rw [hn, Option.bind_some, ht p hp]

theorem outcome_closeDocument {uri : Uri} (hroot : s.index.root.isSome = true)
    (hn : m.notice? = some (.didClose uri)) : Outcome s fs m (s.closeDocument fs uri).1 := by
  have hpath := Message.path?_of_notice? hn rfl
  cases hp : uri.toPath? with
  | none =>
    rw [closeDocument, hp]
    refine .kept (fun p hm => ?_) rfl rfl
    rw [hpath, hp] at hm
    cases hm
  | some p =>
    obtain ⟨hdocuments, ⟨text, htext, hindex⟩ | hindex⟩ := closeDocument_of_toPath? fs hroot hp
    · refine .reread (hpath.trans hp) ?_ hindex hdocuments
      rw [hn, Option.bind_some, newText?, htext]
    · exact .forgotten (hpath.trans hp) hindex hdocuments

theorem outcome_of_uri?_eq_none {n : ClientNotification} (hn : m.notice? = some n)
    (hu : n.uri? = none) : Outcome s fs m s := by
  refine .kept (fun p hp => ?_) rfl rfl
  rw [Message.path?, hn, Option.bind_some, hu] at hp
  cases hp

theorem outcome_handleNotification {n : Notification} (hroot : s.index.root.isSome = true) :
    Outcome s fs (.notification n) (s.handleNotification fs n).1 := by
  have hnotice : Message.notice? (.notification n) = ClientNotification.parse? n.method n.params := rfl
  rw [handleNotification]
  cases hc : ClientNotification.parse? n.method n.params with
  | none =>
    refine .kept (fun p hp => ?_) rfl rfl
    rw [Message.path?, hnotice, hc] at hp
    cases hp
  | some c =>
    have hn := hnotice.trans hc
    cases c with
    | initialized => exact outcome_of_uri?_eq_none hn rfl
    | exit => exact outcome_of_uri?_eq_none hn rfl
    | didOpen uri text => exact outcome_updateDocument hroot hn rfl fun p _ => rfl
    | didChange uri text =>
      cases text with
      | none => exact outcome_of_uri?_eq_none hn rfl
      | some text => exact outcome_updateDocument hroot hn rfl fun p _ => rfl
    | didSave uri text =>
      cases text with
      | some text => exact outcome_updateDocument hroot hn rfl fun p _ => rfl
      | none =>
        cases hsource : uri.toPath?.bind (s.documents.source? fs) with
        | none =>
          simp only [hsource]
          refine .kept (fun p hp => ?_) rfl rfl
          rw [Message.path?_of_notice? hn rfl] at hp
          rw [hp, Option.bind_some] at hsource
          exact get?_of_source? hsource
        | some text =>
          simp only [hsource]
          refine outcome_updateDocument hroot hn rfl fun p hp => ?_
          rwa [hp, Option.bind_some] at hsource
    | didClose uri => exact outcome_closeDocument hroot hn
    | unknown method => exact outcome_of_uri?_eq_none hn rfl

/-- Every message but a second request to set up comes to one of these outcomes. -/
theorem outcome_handle (fs : FileSystem) (hroot : s.index.root.isSome = true)
    (h : ∀ r dir, m = .request r → ClientRequest.parse? r.method r.params ≠ some (.setUp dir)) :
    Outcome s fs m (s.handle fs m).1 := by
  cases m with
  | request r =>
    obtain ⟨hindex, hdocuments⟩ := handleRequest_cases s fs fun dir => h r dir rfl
    exact .kept (by rintro p ⟨⟩) hindex hdocuments
  | response r => exact .kept (by rintro p ⟨⟩) rfl rfl
  | notification n => exact outcome_handleNotification hroot

end Server

end LuaLens
