import LuaLens.Proofs.Host.Documents
import LuaLens.Proofs.Host.Steady
import LuaLens.Proofs.Host.Turns

/-!
What the servers of an editor have been shown. A client knows the document of the buffer and no other
one, and a version that is not behind stands for the present text. This is kept as long as the
identifier and the root of every file in use stay the same.
-/

namespace LuaLens

variable {π : Type}

/-! ### The text of a document -/

/-- The text of a document after one more showing, if it is open. -/
def shownText : Option String → Showing → Option String
  | _, .opened text => some text
  | some _, .changed text => some text
  | none, .changed _ => none
  | _, .closed => none

/-- The text of a document after what was written, if it is open. -/
def shownIn (doc : String) (ms : List Message) : Option String :=
  (showings doc ms).foldl shownText none

theorem shownIn_append (doc : String) (ms ns : List Message) :
    shownIn doc (ms ++ ns) = (showings doc ns).foldl shownText (shownIn doc ms) := by
  rw [shownIn, showings_append, List.foldl_append, shownIn]

/-- The document that a request asks about. -/
def Message.question? : Message → Option String
  | .request r =>
    if "textDocument/".toList.isPrefixOf r.method.toList then some (documentOf r.params) else none
  | _ => none

@[simp] theorem Message.question?_notification (n : Notification) :
    (Message.notification n).question? = none := rfl

theorem Connection.question?_call {method : String}
    (h : "textDocument/".toList.isPrefixOf method.toList = false) (c : Connection π) (params : Json) :
    (c.call method params).question? = none := by
  rw [call, Message.question?, h, if_neg Bool.false_ne_true]

/-- Whether all questions that are written from one world to another find their document open, with the
given text. -/
def Asks (text : String) (w v : World) : Prop :=
  ∀ n, ∃ more, v.sent n = w.sent n ++ more ∧ ∀ before m after, more = before ++ m :: after →
    ∀ doc, m.question? = some doc → shownIn doc (w.sent n ++ before) = some text

namespace Asks

variable {text : String} {w v u : World}

theorem of_sent (h : ∀ n, v.sent n = w.sent n) : Asks text w v := by
  intro n
  refine ⟨[], by rw [h, List.append_nil], ?_⟩
  intro before m after he
  simp at he

theorem trans (h : Asks text w v) (h' : Asks text v u) : Asks text w u := by
  intro n
  obtain ⟨more, hv, hmore⟩ := h n
  obtain ⟨rest, hu, hrest⟩ := h' n
  refine ⟨more ++ rest, by rw [hu, hv, List.append_assoc], fun before m after he doc hd => ?_⟩
  obtain ⟨front, rfl, htail⟩ | ⟨back, rfl, htail⟩ := List.append_eq_append_iff.1 he
  · have := hrest front m after htail doc hd
    rwa [hv, List.append_assoc] at this
  · rcases back with _ | ⟨x, back⟩
    · have := hrest [] m after (by simpa using htail.symm) doc hd
      simpa [hv] using this
    · obtain ⟨rfl, -⟩ := List.cons.inj htail
      exact hmore before m back rfl doc hd

variable [Peer π] {c d : Connection π} {ms : List Message}

/-- What writes no questions. -/
theorem of_does (h : c.Does w ms d v) (hms : ∀ m ∈ ms, m.question? = none) : Asks text w v := by
  intro n
  refine ⟨_, h.sent_eq n, fun before m after he doc hd => ?_⟩
  split at he
  · rw [hms m (by simp [he])] at hd
    cases hd
  · simp at he

/-- A question about a document that is open with the given text. -/
theorem of_question {m : Message} (h : c.Does w [m] d v)
    (hm : ∀ doc, m.question? = some doc → shownIn doc (w.sent c.number) = some text) :
    Asks text w v := by
  intro n
  refine ⟨_, h.sent_eq n, fun before m' after he doc hd => ?_⟩
  split at he
  · next hn =>
    obtain ⟨rfl, rfl, -⟩ : before = [] ∧ m' = m ∧ after = [] := by
      rcases before with _ | ⟨x, before⟩
      · simpa [eq_comm] using he
      · simp at he
    rw [List.append_nil, ← hn]
    exact hm doc hd
  · simp at he

end Asks

namespace Editor

/-! ### Clients in step -/

/-- Whether a document that a client knows is that of the buffer, and its version that of a text it was
shown: the present one if it is the present version. -/
structure Shown (b : Buffer) (fs : FileSystem) (key : ServerKey) (sent : List Message)
    (doc : Uri × Int) : Prop where
  named : b.uri? fs = some doc.1
  keyed : (ServerKey.ofBuffer? fs b).map (·.place) = some key.place
  behind : doc.2 ≤ b.version
  text : ∃ text, shownIn doc.1.text sent = some text ∧ (doc.2 = b.version → text = b.text)

/-- Whether a client that can write knows only what it has shown. -/
def Knows (b : Buffer) (w : World) (key : ServerKey) (c : Client π) : Prop :=
  c.link.closed = false → ∀ doc ∈ c.opened, Shown b w.files key (w.sent c.link.number) doc

theorem Knows.of_unopened {b : Buffer} {w : World} {key : ServerKey} {c : Client π}
    (h : c.link.closed = false → c.opened = []) : Knows b w key c := by
  intro hc doc hd
  rw [h hc] at hd
  cases hd

theorem Knows.of_place {b : Buffer} {w : World} {key k : ServerKey} {c : Client π}
    (h : Knows b w key c) (hk : k.place = key.place) : Knows b w k c := fun hc doc hd =>
  { h hc doc hd with keyed := hk ▸ (h hc doc hd).keyed }

theorem documentOf_question (q : Question) (uri : Uri) :
    Message.documentOf (.obj (("textDocument", Client.documentJson uri) :: q.members)) = uri.text := by
  have hother : (q.members.reverse.find? fun m => m.1 == "textDocument") = none := by
    rw [List.find?_eq_none]
    intro m hm
    simpa using q.other m (List.mem_reverse.1 hm)
  simp [Message.documentOf, Json.get?, Json.members?, Json.str?, Client.documentJson, hother]

theorem mem_of_lookup {docs : List (Uri × Int)} {uri : Uri} {version : Int}
    (h : docs.lookup uri = some version) : (uri, version) ∈ docs := by
  obtain ⟨before, after, rfl, -⟩ := List.lookup_eq_some_iff.1 h
  simp

variable [Peer π]

/-- What a call does to a client that is in step with a buffer: it stays so, and all that is asked is
about the text of the buffer. -/
structure Heeds (b : Buffer) (key : ServerKey) (c : Client π) (w : World) (d : Client π) (v : World) :
    Prop where
  does : ∃ ms, c.link.Does w ms d.link v
  knows : Knows b v key d
  asks : Asks b.text w v

/-- Whether a call does so with every client of the buffer. -/
def Faithful {α : Type} (trees : FileSystem → Prop) (peers : π → Prop) (b : Buffer) (call : Call π α) :
    Prop :=
  ∀ key c w, Knows b w key c → peers c.link.peer → trees w.files →
    (ServerKey.ofBuffer? w.files b).map (·.place) = some key.place →
    Heeds b key c w (call.perform (c, w)).2.1 (call.perform (c, w)).2.2

theorem Heeds.refl {b : Buffer} {key : ServerKey} {c : Client π} {w : World} (h : Knows b w key c) :
    Heeds b key c w c w := ⟨⟨[], .refl _ _⟩, h, .of_sent fun _ => rfl⟩

theorem Heeds.trans {b : Buffer} {key : ServerKey} {c d d' : Client π} {w v u : World}
    (h : Heeds b key c w d v) (h' : Heeds b key d v d' u) : Heeds b key c w d' u := by
  obtain ⟨ms, hms⟩ := h.does
  obtain ⟨ns, hns⟩ := h'.does
  exact ⟨⟨_, hms.trans hns⟩, h'.knows, h.asks.trans h'.asks⟩

variable {b : Buffer} {key : ServerKey} {c d : Client π} {w v : World}

/-- After a buffer was synchronized, the client knows its version. -/
theorem mem_opened_of_sync {uri : Uri} (hs : (Client.sync b).perform (c, w) = (some (.ok uri), d, v)) :
    (uri, (b.version : Int)) ∈ d.opened := by
  have hsynced := Client.sync_synced b c w
  rw [hs] at hsynced
  cases hsynced with
  | current named same => exact mem_of_lookup same
  | shown => exact List.mem_cons_self

/-- After a document was taken back, a client that can write knows none. -/
theorem didClose_heeds {uri : Uri} (h : Knows b w key c)
    (named : b.uri? w.files = some uri) :
    Heeds b key c w ((Client.didClose uri).perform (c, w)).2.1
        ((Client.didClose uri).perform (c, w)).2.2 ∧
      (((Client.didClose uri).perform (c, w)).2.1.link.closed = false →
        ((Client.didClose uri).perform (c, w)).2.1.opened = []) := by
  have hnamed : c.link.closed = false → ∀ doc ∈ c.opened, doc.1 = uri := by
    intro hc doc hdoc
    have hdoc' := (h hc doc hdoc).named
    rw [named] at hdoc'
    exact (Option.some.inj hdoc').symm
  have hempty : c.link.closed = false → c.opened.filter (·.1 != uri) = [] := by
    intro hc
    rw [List.filter_eq_nil_iff]
    intro doc hdoc
    simp [hnamed hc doc hdoc]
  have htook := Client.didClose_tookBack uri c w
  generalize (Client.didClose uri).perform (c, w) = out at htook
  cases htook with
  | unknown unopened =>
    refine ⟨.refl h, fun hc => List.eq_nil_iff_forall_not_mem.2 fun doc hdoc => ?_⟩
    rw [List.lookup_eq_none_iff] at unopened
    simpa [hnamed hc doc hdoc] using unopened doc hdoc
  | told opened rest =>
    cases rest with
    | unready => exact ⟨⟨⟨[], .refl _ _⟩, .of_unopened hempty, .of_sent fun _ => rfl⟩, hempty⟩
    | heard ready does | unheard ready does =>
      exact ⟨⟨⟨_, does⟩, .of_unopened fun hd => hempty (does.unclosed hd), .of_does does (by simp)⟩,
        fun hd => hempty (does.unclosed hd)⟩

section

variable {launch : Launcher π} {paths : Path → Prop} {trees : FileSystem → Prop}
  {peers : π → Prop} (steady : Steady launch paths trees peers)
  (hb : ∀ p, b.path = some p → paths p)

include steady hb

/-- What a client knows it knows in another tree, and after messages that show nothing. -/
theorem Knows.kept (h : Knows b w key c) (hw : trees w.files) (hv : trees v.files)
    (hopened : d.opened = c.opened) (hclosed : d.link.closed = false → c.link.closed = false)
    {ms : List Message} (hsent : v.sent d.link.number = w.sent c.link.number ++ ms)
    (hms : ∀ m ∈ ms, m.showing? = none) : Knows b v key d := by
  intro hd doc hdoc
  obtain ⟨named, keyed, behind, text⟩ := h (hclosed hd) doc (hopened ▸ hdoc)
  refine ⟨steady.uri? hb hw hv ▸ named, steady.place hb hw hv ▸ keyed, behind, ?_⟩
  rwa [hsent, shownIn_append, showings_eq_nil hms]

/-- What shows nothing leaves the client in step. -/
theorem Heeds.of_does (h : Knows b w key c) (hp : peers c.link.peer) (hw : trees w.files)
    (hopened : d.opened = c.opened) {ms : List Message} (hd : c.link.Does w ms d.link v)
    (hms : ∀ m ∈ ms, m.showing? = none) (hasks : Asks b.text w v) : Heeds b key c w d v :=
  ⟨⟨ms, hd⟩, h.kept steady hb hw (hd.keeps steady.hear hp hw).2 hopened hd.unclosed
    (hd.number ▸ hd.sent) hms, hasks⟩

/-- A request that, if it is a question, is about a document with the text of the buffer. -/
theorem request_heeds (method : String) (params : Json) (shape : Shape) (h : Knows b w key c)
    (hp : peers c.link.peer) (hw : trees w.files)
    (hq : c.link.closed = false → ∀ doc, (c.link.call method params).question? = some doc →
      shownIn doc (w.sent c.link.number) = some b.text) :
    Heeds b key c w ((Client.request method params shape).perform (c, w)).2.1
      ((Client.request method params shape).perform (c, w)).2.2 := by
  have hasked := Client.request_asked method params shape c w
  generalize (Client.request method params shape).perform (c, w) = out at hasked
  cases hasked with
  | unready | spent => exact .refl h
  | heard _ does =>
    exact .of_does steady hb h hp hw rfl does (by simp [Connection.call, Message.showing?])
      (.of_question does (hq (does.unclosed_of_ne (by simp))))
  | unheard _ does =>
    exact .of_does steady hb h hp hw rfl does (by simp) (.of_does does (by simp))

theorem notify_heeds (method : String) (params : Json)
    (hm : Message.showing? (.notification { method, params }) = none) (h : Knows b w key c)
    (hp : peers c.link.peer) (hw : trees w.files) :
    Heeds b key c w ((Client.notify method params).perform (c, w)).2.1
      ((Client.notify method params).perform (c, w)).2.2 := by
  have htold := Client.notify_told method params c w
  generalize (Client.notify method params).perform (c, w) = out at htold
  cases htold with
  | unready => exact .refl h
  | heard _ does =>
    exact .of_does steady hb h hp hw rfl does (by simpa using hm)
      (.of_does does (by simp))
  | unheard _ does =>
    exact .of_does steady hb h hp hw rfl does (by simp) (.of_does does (by simp))

/-- A new client, whatever becomes of its handshake. -/
theorem setUp_heeds (options : Option Json) (h : Knows b w key c) (hp : peers c.link.peer)
    (hw : trees w.files) :
    Heeds b key c w ((Client.setUp options).perform (c, w)).2.1
      ((Client.setUp options).perform (c, w)).2.2 := by
  have hset := Client.setUp_setUp options c w
  generalize (Client.setUp options).perform (c, w) = out at hset
  have hhello : (c.link.call "initialize" (Client.setUpParams c.root options)).question? = none :=
    Connection.question?_call (by decide) _ _
  cases hset with
  | unheard does => exact .of_does steady hb h hp hw rfl does (by simp) (.of_does does (by simp))
  | unanswered does =>
    exact .of_does steady hb h hp hw rfl does (by simp [Connection.call, Message.showing?])
      (.of_does does (by simpa using hhello))
  | complete _ written does =>
    exact .of_does steady hb h hp hw rfl (written.trans does)
      (by simp [Connection.call, Message.showing?]) (.of_does (written.trans does) (by simp [hhello]))

/-- After its document was shown, all that a client knows is the present text. -/
theorem Knows.shown {uri : Uri} {link : Connection π} (h : Knows b w key c) (hp : peers c.link.peer)
    (hw : trees w.files) (keyed : (ServerKey.ofBuffer? w.files b).map (·.place) = some key.place)
    (named : b.uri? w.files = some uri)
    (does : c.link.Does w [.notification (c.showing b uri)] link v) :
    Knows b v key { c with link, opened := (uri, b.version) :: c.opened.filter (·.1 != uri) } := by
  have hv := (does.keeps steady.hear hp hw).2
  have hc := does.unclosed_of_ne (by simp)
  have htext : shownIn uri.text (v.sent link.number) = some b.text := by
    rw [does.number, does.sent, shownIn_append, showings_of_showing? (Client.showing?_showing c b uri),
      if_pos rfl]
    cases hl : c.opened.lookup uri with
    | none => rfl
    | some version =>
      -- A change counts only where the document is open.
      obtain ⟨text, hshown, -⟩ := (h hc (uri, version) (mem_of_lookup hl)).text
      rw [hshown]
      rfl
  intro _ doc hdoc
  obtain rfl | hother := List.mem_cons.1 hdoc
  · exact ⟨steady.uri? hb hw hv ▸ named, steady.place hb hw hv ▸ keyed, le_refl _,
      b.text, htext, fun _ => rfl⟩
  · obtain ⟨hmem, hne⟩ := List.mem_filter.1 hother
    have hsame := (h hc doc hmem).named
    rw [named] at hsame
    simp [Option.some.inj hsame] at hne

theorem sync_faithful : Faithful trees peers b (Client.sync b) := by
  intro key c w h hp hw keyed
  have hsynced := Client.sync_synced b c w
  generalize (Client.sync b).perform (c, w) = out at hsynced
  cases hsynced with
  | refused | current => exact .refl h
  | shown named ready does =>
    exact ⟨⟨_, does⟩, h.shown steady hb hp hw keyed named does, .of_does does (by simp)⟩
  | unheard _ does =>
    exact .of_does steady hb h hp hw rfl does (by simp) (.of_does does (by simp))

/-- A buffer is synchronized, and something is said about its document. -/
theorem sync_bind_faithful {α : Type} {f : Uri → Call π α}
    (hf : ∀ uri key c w, Knows b w key c → peers c.link.peer → trees w.files →
      (uri, (b.version : Int)) ∈ c.opened →
      Heeds b key c w ((f uri).perform (c, w)).2.1 ((f uri).perform (c, w)).2.2) :
    Faithful trees peers b (Client.sync b >>= f) := by
  intro key c w h hp hw keyed
  have hsync := sync_faithful steady hb key c w h hp hw keyed
  rw [Call.perform_bind]
  rcases hs : (Client.sync b).perform (c, w) with ⟨_ | _ | uri, d, v⟩ <;> rw [hs] at hsync
  · exact hsync
  · exact hsync
  · obtain ⟨ms, hms⟩ := hsync.does
    obtain ⟨hpeer, hfiles⟩ := hms.keeps steady.hear hp hw
    exact hsync.trans (hf uri key d v hsync.knows hpeer hfiles (mem_opened_of_sync hs))

/-- A question is about the text of the buffer. -/
theorem ask_faithful (q : Question) : Faithful trees peers b (Client.sync b >>= q.call) := by
  refine sync_bind_faithful steady hb fun uri key c w h hp hw hmem => ?_
  refine request_heeds steady hb q.method _ q.shape h hp hw fun hc doc hdoc => ?_
  obtain ⟨text, hshown, hsame⟩ := (h hc _ hmem).text
  simp only [Connection.call, Message.question?] at hdoc
  split at hdoc
  · obtain rfl := Option.some.inj hdoc
    rw [documentOf_question, hshown, hsame rfl]
  · cases hdoc

theorem didSave_faithful :
    Faithful trees peers b (Client.sync b >>= fun uri => Client.didSave uri none) :=
  sync_bind_faithful steady hb fun _ _ _ _ h hp hw _ =>
    notify_heeds steady hb _ _ (by simp [Message.showing?]) h hp hw

theorem workspaceSymbols_faithful (query : String) :
    Faithful trees peers b (Client.workspaceSymbols query) := by
  intro key c w h hp hw _
  refine request_heeds steady hb "workspace/symbol" _ _ h hp hw fun _ doc hdoc => ?_
  rw [Connection.question?_call (by decide)] at hdoc
  cases hdoc

end

end Editor

end LuaLens
