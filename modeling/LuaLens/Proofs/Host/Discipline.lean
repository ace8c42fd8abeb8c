import LuaLens.Proofs.Host.Documents
import LuaLens.Proofs.Server.Serving

/-!
What a client writes in the course of its life, whatever it is used for and however the far end behaves:
the handshake first, documents in order, nothing after the farewell, and requests by increasing
numbers.
-/

namespace LuaLens

variable {π : Type}

namespace Client

/-! ### Uses of a client -/

/-- What a host does with a client after the handshake, and what happens of itself. -/
inductive Use (π : Type)
  | sync (b : Buffer)
  | didSave (uri : Uri) (text : Option String)
  | didClose (uri : Uri)
  | request (method : String) (params : Json) (shape : Shape)
  | shutDown
  | poll
  | drain
  /-- The far end changes and sends something, and files change. -/
  | meanwhile (peer : π) (arrived : List Sending) (files : FileSystem)

variable [Peer π]

def use (s : Client π × World) : Use π → Client π × World
  | .sync b => ((Client.sync b).perform s).2
  | .didSave uri text => ((Client.didSave uri text).perform s).2
  | .didClose uri => ((Client.didClose uri).perform s).2
  | .request method params shape => ((Client.request method params shape).perform s).2
  | .shutDown => (Client.shutDown.perform s).2
  | .poll => (Client.poll.perform s).2
  | .drain => (Client.drain.perform s).2
  | .meanwhile peer arrived files =>
    ({ s.1 with link := { s.1.link with peer }.receiveAll arrived }, { s.2 with files })

/-! ### What is kept -/

variable {c d e : Client π} {w v u : World} {sent ms ns : List Message}

/-- The documents of which a client keeps the versions are those that are open after what was
written. -/
def Knows (sent : List Message) (c : Client π) : Prop :=
  ∀ doc, (doc ∈ c.opened.map (·.1.text) → showings doc sent ∈ openWords) ∧
    (doc ∉ c.opened.map (·.1.text) → showings doc sent ∈ documentWords)

/-- What has been written is in order, as far as the client knows. -/
structure Disciplined (sent : List Message) (c : Client π) : Prop where
  /-- What is shown of a document is the beginning of a word. -/
  words : ∀ doc, ∃ rest, showings doc sent ++ rest ∈ documentWords
  /-- While anything can be written, the client knows which documents are open. -/
  opened : c.initialized = true → c.link.closed = false → c.Knows sent
  files : ∀ entry ∈ c.opened, entry.1.IsFile
  /-- The farewell comes last. -/
  last : ∀ before m after, sent = before ++ m :: after → m.isExit = true → after = []
  /-- A client that can write has not said farewell. -/
  stays : c.initialized = true → ∀ m ∈ sent, m.isExit = false

omit [Peer π] in
/-- A document that is open can be closed. -/
theorem Knows.words (h : c.Knows sent) (doc : String) :
    ∃ rest, showings doc sent ++ rest ∈ documentWords := by
  by_cases hd : doc ∈ c.opened.map (·.1.text)
  · exact ⟨[.closed], append_closed ((h doc).1 hd)⟩
  · exact ⟨[], by simpa using (h doc).2 hd⟩

omit [Peer π] in
/-- More is written, and the documents are still known. -/
theorem Disciplined.extend (h : c.Disciplined sent) (hi : c.initialized = true)
    (hms : ∀ m ∈ ms, m.isExit = false) (hfiles : ∀ entry ∈ d.opened, entry.1.IsFile)
    (hknows : d.Knows (sent ++ ms)) : d.Disciplined (sent ++ ms) := by
  have hstays : ∀ m ∈ sent ++ ms, m.isExit = false := by
    intro m hm
    exact (List.mem_append.1 hm).elim (h.stays hi m) (hms m)
  refine ⟨hknows.words, fun _ _ => hknows, hfiles, ?_, fun _ => hstays⟩
  intro before m after he hm
  simp [hstays m (by simp [he])] at hm

omit [Peer π] in
/-- Nothing is written, and nothing more can be. -/
theorem Disciplined.fail (h : c.Disciplined sent) (hd : d.link.closed = true)
    (hfiles : ∀ entry ∈ d.opened, entry.1.IsFile) (hi : d.initialized = c.initialized) :
    d.Disciplined sent :=
  ⟨h.words, fun _ hc => by simp [hd] at hc, hfiles, h.last, fun hd => h.stays (hi ▸ hd)⟩

/-- What is neither a showing nor the farewell leaves all as it is. -/
theorem Disciplined.plain (h : c.Disciplined sent) {link : Connection π}
    (hdoes : c.link.Does w ms link v) (hi : c.initialized = true)
    (hms : ∀ m ∈ ms, m.showing? = none ∧ m.isExit = false) :
    Disciplined (sent ++ ms) { c with link } := by
  cases hc : c.link.closed with
  | true =>
    obtain ⟨hlink, rfl⟩ := hdoes.of_closed hc
    rw [List.append_nil]
    exact h.fail hlink h.files rfl
  | false =>
    refine h.extend hi (fun m hm => (hms m hm).2) h.files fun doc => ?_
    rw [showings_append, showings_eq_nil fun m hm => (hms m hm).1, List.append_nil]
    exact h.opened hi hc doc

/-! ### What one use writes -/

/-- What a client writes on its way from one state to another, and that it is in order. -/
structure Orderly (c : Client π) (w : World) (ms : List Message) (d : Client π) (v : World) :
    Prop where
  number : d.link.number = c.link.number
  sent : v.sent c.link.number = w.sent c.link.number ++ ms
  /-- Without a handshake nothing is written, and none is made. -/
  idle : c.initialized = false → d.initialized = false ∧ ms = []
  checked : d.link.checked = c.link.checked
  numbered : c.link.nextId ≤ d.link.nextId ∧ Numbered c.link.checked c.link.nextId d.link.nextId ms
  disciplined : ∀ sent, c.Disciplined sent → d.Disciplined (sent ++ ms)

omit [Peer π] in
theorem Orderly.refl (c : Client π) (w : World) : Orderly c w [] c w :=
  ⟨rfl, by simp, fun h => ⟨h, rfl⟩, rfl, ⟨Nat.le_refl _, .nil _ _ _⟩, fun _ h => by simpa using h⟩

omit [Peer π] in
theorem Orderly.trans (h : Orderly c w ms d v) (h' : Orderly d v ns e u) :
    Orderly c w (ms ++ ns) e u := by
  refine ⟨h'.number.trans h.number, ?_, fun hi => ?_, h'.checked.trans h.checked, ?_, fun sent hs => ?_⟩
  · rw [← h.number, h'.sent, h.number, h.sent, List.append_assoc]
  · obtain ⟨hd, rfl⟩ := h.idle hi
    exact h'.idle hd
  · have hnext := h'.numbered
    rw [h.checked] at hnext
    exact ⟨h.numbered.1.trans hnext.1, h.numbered.2.append hnext.2 h.numbered.1 hnext.1⟩
  · rw [← List.append_assoc]
    exact h'.disciplined _ (h.disciplined _ hs)

/-- Steps of the connection of a client that is ready. -/
theorem Orderly.of_does (hdoes : c.link.Does w ms d.link v) (hi : c.initialized = true)
    (hd : ∀ sent, c.Disciplined sent → d.Disciplined (sent ++ ms)) : Orderly c w ms d v :=
  ⟨hdoes.number, hdoes.sent, fun hn => by simp [hi] at hn, hdoes.checked, hdoes.numbered, hd⟩

theorem Orderly.plain {link : Connection π} (hdoes : c.link.Does w ms link v)
    (hi : c.initialized = true) (hms : ∀ m ∈ ms, m.showing? = none ∧ m.isExit = false) :
    Orderly c w ms { c with link } v :=
  .of_does hdoes hi fun _ h => h.plain hdoes hi hms

theorem Told.orderly {n : Notification} {out : Option (Except ClientFault Unit)}
    (h : Told c w n (out, d, v)) (hn : (Message.notification n).showing? = none)
    (he : (Message.notification n).isExit = false) : ∃ ms, Orderly c w ms d v := by
  cases h with
  | unready fresh => exact ⟨[], .refl c w⟩
  | heard ready does => exact ⟨_, .plain does ready (by simp [hn, he])⟩
  | unheard ready does closed => exact ⟨_, .plain does ready (by simp)⟩

theorem request_orderly (method : String) (params : Json) (shape : Shape) (c : Client π) (w : World) :
    ∃ ms, Orderly c w ms ((request method params shape).perform (c, w)).2.1
      ((request method params shape).perform (c, w)).2.2 := by
  have h := request_asked method params shape c w
  generalize (request method params shape).perform (c, w) = out at h
  cases h with
  | unready | spent => exact ⟨[], .refl c w⟩
  | heard ready does =>
    exact ⟨_, .plain does ready (by simp [Connection.call, Message.showing?, Message.isExit])⟩
  | unheard ready does closed => exact ⟨_, .plain does ready (by simp)⟩

/-! Documents are told apart by their texts, as all of them are files. -/

omit [Peer π] in
theorem lookup_isSome_iff_text (hfiles : ∀ entry ∈ c.opened, entry.1.IsFile) {uri : Uri}
    (hu : uri.IsFile) : (c.opened.lookup uri).isSome = true ↔ uri.text ∈ c.opened.map (·.1.text) := by
  rw [List.lookup_isSome_iff]
  simp only [beq_iff_eq, List.mem_map]
  constructor
  · rintro ⟨entry, hm, rfl⟩
    exact ⟨entry, hm, rfl⟩
  · rintro ⟨entry, hm, ht⟩
    exact ⟨entry, hm, hu.ext (hfiles entry hm) ht.symm⟩

omit [Peer π] in
theorem mem_text_filter_iff (hfiles : ∀ entry ∈ c.opened, entry.1.IsFile) {uri : Uri}
    (hu : uri.IsFile) (doc : String) :
    doc ∈ (c.opened.filter (·.1 != uri)).map (·.1.text) ↔
      uri.text ≠ doc ∧ doc ∈ c.opened.map (·.1.text) := by
  simp only [List.mem_map, List.mem_filter, bne_iff_ne]
  constructor
  · rintro ⟨entry, ⟨hm, hne⟩, rfl⟩
    exact ⟨fun ht => hne ((hfiles entry hm).ext hu ht.symm), entry, hm, rfl⟩
  · rintro ⟨hne, entry, hm, rfl⟩
    exact ⟨entry, ⟨hm, fun he => hne (he ▸ rfl)⟩, rfl⟩

omit [Peer π] in
theorem isFile_of_mem_filter (hfiles : ∀ entry ∈ c.opened, entry.1.IsFile) {uri : Uri} :
    ∀ entry ∈ c.opened.filter (·.1 != uri), entry.1.IsFile :=
  fun entry hm => hfiles entry (List.mem_of_mem_filter hm)

/-- Showing a buffer opens a document that is not open, and changes one that is. -/
theorem Disciplined.shown (h : c.Disciplined sent) {b : Buffer} {uri : Uri} {link : Connection π}
    (hu : uri.IsFile) (hi : c.initialized = true)
    (hdoes : c.link.Does w [.notification (c.showing b uri)] link v) :
    Disciplined (sent ++ [.notification (c.showing b uri)])
      { c with link, opened := (uri, b.version) :: c.opened.filter (·.1 != uri) } := by
  have hc : c.link.closed = false := hdoes.unclosed_of_ne (by simp)
  have hexit : Message.isExit (.notification (c.showing b uri)) = false := by
    rw [showing]
    split <;> rfl
  have hfiles : ∀ entry ∈ (uri, (b.version : Int)) :: c.opened.filter (·.1 != uri), entry.1.IsFile := by
    simpa [hu] using isFile_of_mem_filter h.files
  refine h.extend hi (by simpa using hexit) hfiles fun doc => ?_
  have hknows := h.opened hi hc doc
  have hmem := mem_text_filter_iff h.files hu doc
  rw [showings_append, showings_of_showing? (showing?_showing c b uri)]
  simp only [List.map_cons, List.mem_cons, hmem]
  by_cases hd : uri.text = doc
  · refine ⟨fun _ => ?_, fun hn => absurd (.inl hd.symm) hn⟩
    subst hd
    rw [if_pos rfl]
    split
    · next hs => exact append_changed (hknows.1 ((lookup_isSome_iff_text h.files hu).1 hs)) _
    · next hs => exact append_opened (hknows.2 fun hm => hs ((lookup_isSome_iff_text h.files hu).2 hm)) _
  · simpa [hd, Ne.symm hd, List.append_nil] using hknows

theorem sync_orderly (b : Buffer) (c : Client π) (w : World) :
    ∃ ms, Orderly c w ms ((sync b).perform (c, w)).2.1 ((sync b).perform (c, w)).2.2 := by
  have h := sync_synced b c w
  generalize (sync b).perform (c, w) = out at h
  cases h with
  | refused | current => exact ⟨[], .refl c w⟩
  | shown named ready does =>
    exact ⟨_, .of_does does ready fun _ h => h.shown (Buffer.isFile_of_uri? named) ready does⟩
  | unheard ready does closed => exact ⟨_, .plain does ready (by simp)⟩

/-- Taking back a document closes it. -/
theorem Disciplined.tookBack (h : c.Disciplined sent) {uri : Uri} {link : Connection π}
    (ho : (c.opened.lookup uri).isSome = true) (hi : c.initialized = true)
    (hdoes : c.link.Does w [.notification (withdrawal uri)] link v) :
    Disciplined (sent ++ [.notification (withdrawal uri)])
      { c with link, opened := c.opened.filter (·.1 != uri) } := by
  have hc : c.link.closed = false := hdoes.unclosed_of_ne (by simp)
  have hu : uri.IsFile := by
    obtain ⟨entry, hm, he⟩ := List.lookup_isSome_iff.1 ho
    exact beq_iff_eq.1 he ▸ h.files entry hm
  refine h.extend hi (by simp [Message.isExit, withdrawal]) (isFile_of_mem_filter h.files) fun doc => ?_
  have hknows := h.opened hi hc doc
  rw [showings_append, showings_of_showing? (showing?_withdrawal uri),
    mem_text_filter_iff h.files hu doc]
  by_cases hd : uri.text = doc
  · refine ⟨fun hm => absurd hd hm.1, fun _ => ?_⟩
    subst hd
    rw [if_pos rfl]
    exact append_closed (hknows.1 ((lookup_isSome_iff_text h.files hu).1 ho))
  · simpa [hd] using hknows

theorem didClose_orderly (uri : Uri) (c : Client π) (w : World) :
    ∃ ms, Orderly c w ms ((didClose uri).perform (c, w)).2.1 ((didClose uri).perform (c, w)).2.2 := by
  have h := didClose_tookBack uri c w
  generalize (didClose uri).perform (c, w) = out at h
  cases h with
  | unknown => exact ⟨[], .refl c w⟩
  | told opened rest =>
    cases rest with
    | unready fresh =>
      refine ⟨[], rfl, by simp, fun h => ⟨h, rfl⟩, rfl, ⟨Nat.le_refl _, .nil _ _ _⟩, fun sent h => ?_⟩
      rw [List.append_nil]
      refine ⟨h.words, fun hi => ?_, isFile_of_mem_filter h.files, h.last, h.stays⟩
      exact absurd (show c.initialized = true from hi) (Bool.eq_false_iff.1 fresh)
    | heard ready does => exact ⟨_, .of_does does ready fun _ h => h.tookBack opened ready does⟩
    | unheard ready does closed =>
      refine ⟨_, .of_does does ready fun sent h => ?_⟩
      rw [List.append_nil]
      exact h.fail closed (isFile_of_mem_filter h.files) rfl

omit [Peer π] in
/-- After the farewell nothing can be written. -/
theorem Disciplined.left (h : c.Disciplined sent) (hi : c.initialized = true)
    {asked told : List Message} {link : Connection π}
    (called : asked = [] ∨ asked = [c.link.call "shutdown" .null])
    (bade : told = [] ∨ told = [.notification { method := "exit", params := .null }]) :
    Disciplined (sent ++ (asked ++ told)) { c with link, initialized := false, opened := [] } := by
  have hplain : ∀ m ∈ asked ++ told, m.showing? = none := by
    rcases called with rfl | rfl <;> rcases bade with rfl | rfl <;>
      simp [Connection.call, Message.showing?]
  have hasked : ∀ m ∈ sent ++ asked, m.isExit = false := by
    intro m hm
    rcases List.mem_append.1 hm with hm | hm
    · exact h.stays hi m hm
    · rcases called with rfl | rfl
      · cases hm
      · rw [List.mem_singleton.1 hm]
        rfl
  refine ⟨fun doc => ?_, fun hi => by simp at hi, by simp, fun before m after he hm => ?_,
    fun hi => by simp at hi⟩
  · rw [showings_append, showings_eq_nil hplain, List.append_nil]
    exact h.words doc
  · rw [← List.append_assoc] at he
    rcases bade with rfl | rfl
    · rw [List.append_nil] at he
      simp [hasked m (by simp [he])] at hm
    · -- The farewell is the last message, so that an earlier one would not be alone.
      rcases List.eq_nil_or_concat after with rfl | ⟨after, x, rfl⟩
      · rfl
      · have hinit : sent ++ asked = before ++ m :: after := by
          have he' : sent ++ asked ++ [.notification { method := "exit", params := .null }] =
              (before ++ m :: after) ++ [x] := by simpa using he
          exact (List.append_inj' he' rfl).1
        simp [hasked m (by simp [hinit])] at hm

theorem shutDown_orderly (c : Client π) (w : World) :
    ∃ ms, Orderly c w ms (shutDown.perform (c, w)).2.1 (shutDown.perform (c, w)).2.2 := by
  have h := shutDown_tookLeave c w
  generalize (shutDown : Call π Unit).perform (c, w) = out at h
  cases h with
  | idle => exact ⟨[], .refl c w⟩
  | waiting ready does called =>
    refine ⟨_, .plain does ready ?_⟩
    rcases called with rfl | rfl <;> simp [Connection.call, Message.showing?, Message.isExit]
  | left ready first called last bade =>
    exact ⟨_, .of_does (first.trans last) ready fun _ h => h.left ready called bade⟩

omit [Peer π] in
/-- A change of the connection that writes nothing. -/
theorem Orderly.silent {link : Connection π} (hn : link.number = c.link.number)
    (hs : v.sent c.link.number = w.sent c.link.number) (hchecked : link.checked = c.link.checked)
    (hi : c.link.nextId ≤ link.nextId) (hc : link.closed = false → c.link.closed = false) : Orderly c w [] { c with link } v := by
  refine ⟨hn, by simpa using hs, fun h => ⟨h, rfl⟩, hchecked, ⟨hi, .nil _ _ _⟩, fun sent h => ?_⟩
  rw [List.append_nil]
  exact ⟨h.words, fun hi hlink => h.opened hi (hc hlink), h.files, h.last, h.stays⟩

theorem use_orderly (s : Client π × World) (u : Use π) :
    ∃ ms, Orderly s.1 s.2 ms (use s u).1 (use s u).2 := by
  obtain ⟨c, w⟩ := s
  cases u with
  | sync b => exact sync_orderly b c w
  | didSave uri text =>
    exact Told.orderly (notify_told "textDocument/didSave" _ c w) (by simp [Message.showing?])
      (by simp [Message.isExit])
  | didClose uri => exact didClose_orderly uri c w
  | request method params shape => exact request_orderly method params shape c w
  | shutDown => exact shutDown_orderly c w
  | poll =>
    have hdoes := c.link.poll_does w
    simp only [use, perform_poll]
    refine ⟨[], .silent hdoes.number (by simpa using hdoes.sent) hdoes.checked hdoes.numbered.1
      fun hc => ?_⟩
    by_contra h
    simp [hdoes.of_closed (Bool.not_eq_false _ ▸ h)] at hc
  | drain => exact ⟨[], .silent rfl rfl rfl (Nat.le_refl _) id⟩
  | meanwhile peer arrived files =>
    have hid := Connection.receiveAll_nextId { c.link with peer } arrived
    exact ⟨[], .silent (Connection.receiveAll_number _ _) rfl (Connection.receiveAll_checked _ _)
      (Nat.le_of_eq hid.symm) fun hc => by rwa [Connection.receiveAll_closed] at hc⟩

theorem uses_orderly (s : Client π × World) (uses : List (Use π)) :
    ∃ ms, Orderly s.1 s.2 ms (uses.foldl use s).1 (uses.foldl use s).2 := by
  induction uses generalizing s with
  | nil => exact ⟨[], .refl s.1 s.2⟩
  | cons u uses ih =>
    obtain ⟨ms, hu⟩ := use_orderly s u
    obtain ⟨ns, hrest⟩ := ih (use s u)
    exact ⟨ms ++ ns, hu.trans hrest⟩

/-! ### From the handshake on -/

omit [Peer π] in
/-- After the handshake no document is open. -/
theorem Disciplined.start (ho : c.opened = [])
    (hms : ∀ m ∈ ms, m.showing? = none ∧ m.isExit = false) : c.Disciplined ms := by
  have hknows : c.Knows ms := by
    intro doc
    rw [ho, showings_eq_nil fun m hm => (hms m hm).1]
    exact ⟨by simp, fun _ => Language.nil_mem_kstar _⟩
  refine ⟨hknows.words, fun _ _ => hknows, by simp [ho], fun before m after he hm => ?_,
    fun _ m hm => (hms m hm).2⟩
  simp [(hms m (by simp [he])).2] at hm

/-- What a client writes is in order, whatever it is used for after its handshake and however the far
end behaves. Its requests are numbered upward, and if it goes unnoticed that the numbers of 32 bits are
used up, at least until then. -/
theorem uses_in_order (language : String) (root : Path) (link : Connection π) (w : World)
    (options : Option Json) (uses : List (Use π)) :
    let hello := link.call "initialize" (setUpParams root options)
    let answer := link.request w "initialize" (setUpParams root options)
    let s := uses.foldl use ((setUp options).perform (connect language root link, w)).2
    ∃ sent, s.2.sent link.number = w.sent link.number ++ sent ∧
      (sent = [] ∨ sent = [hello] ∨ ∃ rest value,
        sent = hello :: .notification { method := "initialized", params := .obj [] } :: rest ∧
        answer.2.2 = some (.ok (some value)) ∧
        answer.2.1.sent link.number = w.sent link.number ++ [hello]) ∧
      (∀ doc, ∃ rest, showings doc sent ++ rest ∈ documentWords) ∧
      (∀ before m after, sent = before ++ m :: after → m.isExit = true → after = []) ∧
      ∃ ids : List Int, sent.filterMap Message.requestId? = ids.map .number ∧
        (link.checked = true ∨ s.1.link.nextId ≤ 2147483648 → ids.Pairwise (· < ·)) := by
  intro hello answer s
  have hsetUp := setUp_setUp options (connect language root link) w
  obtain ⟨ms, hms⟩ := uses_orderly ((setUp options).perform (connect language root link, w)).2 uses
  change Orderly _ _ ms s.1 s.2 at hms
  generalize (setUp options).perform (connect language root link, w) = out at hsetUp hms
  have hplain : hello.showing? = none ∧ hello.isExit = false := ⟨rfl, rfl⟩
  -- What the handshake wrote, and that it was in order.
  obtain ⟨first, hdoes, hstart, hhello⟩ : ∃ first, link.Does w first out.2.1.link out.2.2 ∧
      out.2.1.Disciplined first ∧ (first = [] ∧ ms = [] ∨ first = [hello] ∧ ms = [] ∨ ∃ value,
        first = [hello, .notification { method := "initialized", params := .obj [] }] ∧
        answer.2.2 = some (.ok (some value)) ∧
        answer.2.1.sent link.number = w.sent link.number ++ [hello]) := by
    cases hsetUp with
    | unheard does failed =>
      exact ⟨[], does, .start rfl (by simp), .inl ⟨rfl, (hms.idle rfl).2⟩⟩
    | unanswered does failed =>
      exact ⟨[hello], does, .start rfl (by simpa using hplain), .inr (.inl ⟨rfl, (hms.idle rfl).2⟩)⟩
    | @complete _ value _ mid _ u _ asked written does =>
      have hanswer : answer = (mid, u, some (.ok (some value))) := asked
      refine ⟨_, written.trans does, .start rfl ?_, .inr (.inr ⟨value, rfl, ?_⟩)⟩
      · simp [Connection.call, Message.showing?, Message.isExit]
      · rw [hanswer]
        exact ⟨rfl, written.sent⟩
  have hnumber : out.2.1.link.number = link.number := hdoes.number
  have hdone := hms.disciplined first hstart
  have hlater := hms.numbered
  rw [show out.2.1.link.checked = link.checked from hdoes.checked] at hlater
  have hnumbered := hdoes.numbered.2.append hlater.2 hdoes.numbered.1 hlater.1
  refine ⟨first ++ ms, ?_, ?_, hdone.words, hdone.last, hnumbered.exists_ids⟩
  · rw [← hnumber, hms.sent, hnumber, hdoes.sent, List.append_assoc]
  · obtain ⟨rfl, rfl⟩ | ⟨rfl, rfl⟩ | ⟨value, rfl, hanswer⟩ := hhello
    · exact .inl rfl
    · exact .inr (.inl rfl)
    · exact .inr (.inr ⟨ms, value, rfl, hanswer⟩)

end Client

end LuaLens
