import LuaLens.Proofs.Host.Act

/-!
The operations of an editor as sequences of turns. In a turn the buffer stays as it is while a server is
spoken to, and a server is dropped, if at all, before anything is said to it.
-/

namespace LuaLens

variable {π α β : Type}

namespace Editor

open Act

/-! ### Turns -/

/-- A question about a document, apart from the document. -/
structure Question where
  feature : String
  method : String
  /-- The parameters besides the document. -/
  members : List (String × Json)
  shape : Shape
  other : ∀ m ∈ members, m.1 ≠ "textDocument"

/-- Whether a buffer is another one after edits, or has the same text. -/
structure Edited (b b' : Buffer) : Prop where
  path : b'.path = b.path
  language : b'.language = b.language
  version : b'.version = b.version ∧ b'.text = b.text ∨ b.version < b'.version

/-- Whether the editor has only changed what is its own. -/
structure Own (e e' : Editor π) : Prop where
  launch : e'.launch = e.launch
  connections : e'.connections = e.connections
  servers : e'.servers = e.servers
  messages : e'.messages = e.messages
  buffer : Edited e.buffer e'.buffer

inductive Turn (π : Type)
  | edit (f : Editor π → Editor π) (own : ∀ e, Own e (f e))
  /-- The buffer is closed, and a file takes its place if it can be read. -/
  | swap (p : Path)
  | sync
  | close
  | save
  | process
  | ask (q : Question)
  | search (query : String)

variable [Peer π]

def Question.call (q : Question) (uri : Uri) : Call π (Option Json) :=
  Client.request q.method (.obj (("textDocument", Client.documentJson uri) :: q.members)) q.shape

/-- Closes the buffer and puts a file in its place; `false` when it cannot be read. -/
def swap (p : Path) : Act π Bool := do
  closeBuffer
  let (_, w) ← get
  match Buffer.load w.files p with
  | .error _ => pure false
  | .ok buffer =>
    edit fun e =>
      let active := buffer.uri? w.files
      let (diagnostics, view) := ({ e.diagnostics with active } : Diagnostics).redraw buffer e.view.reset
      { e with buffer, cursor := {}, diagnostics, view }
    pure true

def Turn.act : Turn π → Act π Unit
  | .edit f _ => Editor.edit f
  | .swap p => do let _ ← Editor.swap p
  | .sync => notifyChange
  | .close => closeBuffer
  | .save => do let _ ← Editor.save
  | .process => Editor.process
  | .ask q => do let _ ← withServer q.feature q.call
  | .search query => do let _ ← workspaceSymbols query

def Turn.run (s : Editor π × World) (t : Turn π) : Editor π × World := (t.act.perform s).2

theorem run_save (s : Editor π × World) : Turn.run s .save = (Editor.save.perform s).2 :=
  perform_bind_of_still _ (fun _ _ => rfl) s

theorem run_ask (s : Editor π × World) (q : Question) :
    Turn.run s (.ask q) = ((withServer q.feature q.call).perform s).2 :=
  perform_bind_of_still _ (fun _ _ => rfl) s

theorem run_search (s : Editor π × World) (query : String) :
    Turn.run s (.search query) = ((workspaceSymbols query).perform s).2 :=
  perform_bind_of_still _ (fun _ _ => rfl) s

/-- After the buffer was closed, nothing else happens or a file takes its place. -/
theorem run_swap (s : Editor π × World) (p : Path) :
    Turn.run s (.swap p) = (closeBuffer.perform s).2 ∨
      ∃ b e', Buffer.load (closeBuffer.perform s).2.2.files p = .ok b ∧
        Turn.run s (.swap p) = (e', (closeBuffer.perform s).2.2) ∧ e'.buffer = b ∧
        e'.launch = (closeBuffer.perform s).2.1.launch ∧
        e'.connections = (closeBuffer.perform s).2.1.connections ∧
        e'.servers = (closeBuffer.perform s).2.1.servers ∧
        e'.messages = (closeBuffer.perform s).2.1.messages := by
  have hrun : Turn.run s (.swap p) = ((swap p).perform s).2 :=
    perform_bind_of_still _ (fun _ _ => rfl) s
  rw [hrun, swap, perform_bind]
  rcases closeBuffer.perform s with ⟨_ | _, e, w⟩
  · exact .inl rfl
  · simp only [perform_bind, perform_get]
    rcases hl : Buffer.load w.files p with fault | b
    · exact .inl rfl
    · exact .inr ⟨b, _, rfl, rfl, rfl, rfl, rfl, rfl, rfl⟩

/-! ### Operations as turns -/

/-- Whether a turn can put another file in the place of the buffer. -/
def Turn.swaps : Turn π → Bool
  | .swap _ => true
  | _ => false

/-- Whether an operation comes to a sequence of turns, in a given state, so many of which at most put
another file in the place of the buffer. -/
def MadeAt (n : Nat) (act : Act π α) (s : Editor π × World) : Prop :=
  ∃ turns : List (Turn π), (act.perform s).2 = turns.foldl Turn.run s ∧ turns.countP Turn.swaps ≤ n

/-- Whether an operation comes to such a sequence of turns in whatever state. -/
def MadeOf (n : Nat) (act : Act π α) : Prop := ∀ s, MadeAt n act s

variable {n m k : Nat}

theorem MadeAt.still {act : Act π α} {s : Editor π × World} (h : (act.perform s).2 = s) :
    MadeAt n act s := ⟨[], h, by simp⟩

theorem MadeAt.bind_add {x : Act π α} {f : α → Act π β} {s : Editor π × World} (hx : MadeAt m x s)
    (hf : ∀ a s', x.perform s = (some a, s') → MadeAt k (f a) s') : MadeAt (m + k) (x >>= f) s := by
  obtain ⟨turns, hturns, hm⟩ := hx
  rw [MadeAt, perform_bind]
  rcases h : x.perform s with ⟨_ | a, s'⟩
  · exact ⟨turns, by rw [← hturns, h], by omega⟩
  · obtain ⟨more, hmore, hk⟩ := hf a s' h
    refine ⟨turns ++ more, ?_, by rw [List.countP_append]; omega⟩
    rw [List.foldl_append, ← hturns, h]
    exact hmore

theorem MadeAt.bind {x : Act π α} {f : α → Act π β} {s : Editor π × World} (hx : MadeAt 0 x s)
    (hf : ∀ a s', x.perform s = (some a, s') → MadeAt n (f a) s') : MadeAt n (x >>= f) s :=
  Nat.zero_add n ▸ hx.bind_add hf

theorem MadeOf.bind {x : Act π α} {f : α → Act π β} (hx : MadeOf 0 x) (hf : ∀ a, MadeOf n (f a)) :
    MadeOf n (x >>= f) := fun s => (hx s).bind fun a s' _ => hf a s'

/-- An operation, and what comes after it without another file. -/
theorem MadeOf.before {x : Act π α} {f : α → Act π β} (hx : MadeOf n x)
    (hf : ∀ a, MadeOf 0 (f a)) : MadeOf n (x >>= f) := fun s => (hx s).bind_add fun a s' _ => hf a s'

theorem MadeOf.pure (a : α) : MadeOf n (pure a : Act π α) := fun _ => .still rfl

theorem MadeOf.get : MadeOf n (get : Act π (Editor π × World)) := fun _ => .still rfl

/-- What comes to the same state as a turn. -/
theorem MadeOf.of_turn {act : Act π α} (t : Turn π) (ht : t.swaps = false)
    (h : ∀ s, (act.perform s).2 = (t.act.perform s).2) : MadeOf n act :=
  fun s => ⟨[t], h s, by simp [ht]⟩

omit [Peer π] in
theorem Own.refl (e : Editor π) : Own e e := ⟨rfl, rfl, rfl, rfl, rfl, rfl, .inl ⟨rfl, rfl⟩⟩

theorem MadeOf.edit {f : Editor π → Editor π} (own : ∀ e, Own e (f e)) :
    MadeOf n (Editor.edit f) := .of_turn (.edit f own) rfl fun _ => rfl

theorem MadeOf.say (message : String) : MadeOf n (say message : Act π Unit) :=
  .edit fun e => { Own.refl e with }

theorem notifyChange_madeOf : MadeOf n (notifyChange : Act π Unit) := .of_turn .sync rfl fun _ => rfl

/-! Questions -/

theorem withServer_madeOf {feature : String} {call : Uri → Call π (Option Json)} (q : Question)
    (hf : q.feature = feature) (hq : q.call = call) : MadeOf n (withServer feature call) :=
  .of_turn (.ask q) rfl fun s => by
    subst hf hq
    exact (perform_bind_of_still _ (fun _ _ => rfl) s).symm

/-- A question about a place. -/
def Question.place (feature method : String) (p : Position) (shape : Shape) : Question where
  feature := feature
  method := method
  members := [("position", p.toJson)]
  shape := shape
  other := by simp

theorem place_madeOf : MadeOf n (place : Act π Position) := fun _ => .still rfl

theorem requestChoices_madeOf (context : Json) : MadeOf n (requestChoices context : Act π Nat) := by
  refine place_madeOf.bind fun p => .bind ?_ fun response => ?_
  · exact withServer_madeOf
      { feature := "completion", method := "textDocument/completion", shape := Shape.completions,
        members := [("position", p.toJson), ("context", context)], other := by simp } rfl rfl
  · rcases response with _ | response
    · exact .pure 0
    · exact .bind (.edit fun e => { Own.refl e with }) fun _ => .bind .get fun _ => .pure _

theorem askHover_madeOf : MadeOf n (askHover : Act π (Option String)) := by
  refine place_madeOf.bind fun p => .bind ?_ fun response => ?_
  · exact withServer_madeOf (.place "hover" "textDocument/hover" p Shape.hover) rfl rfl
  · rcases response with _ | response
    · exact .pure none
    · exact .bind (.edit fun e => { Own.refl e with }) fun _ => .pure _

theorem askSignature_madeOf : MadeOf n (askSignature : Act π (Option Json)) := by
  refine place_madeOf.bind fun p => .bind ?_ fun response => ?_
  · exact withServer_madeOf
      (.place "signatureHelp" "textDocument/signatureHelp" p Shape.signatureHelp) rfl rfl
  · rcases response with _ | response
    · exact .pure none
    · exact .bind (.edit fun e => { Own.refl e with }) fun _ => .pure _

theorem related_madeOf (r : Client.Relation) : MadeOf n (related r : Act π (List Json)) := by
  refine place_madeOf.bind fun p => .bind ?_ fun _ => .pure _
  by_cases hr : r = .references
  · subst hr
    exact withServer_madeOf
      { feature := "references", method := "textDocument/references",
        shape := Shape.listOf Shape.location, other := by simp,
        members := [("position", p.toJson), ("context", .obj [("includeDeclaration", .bool true)])] }
      rfl rfl
  · refine withServer_madeOf (.place r.name ("textDocument/" ++ r.name) p Shape.locations) rfl ?_
    funext uri
    rw [Client.related, if_neg hr]
    rfl

theorem selectionRanges_madeOf : MadeOf n (selectionRanges : Act π (List Json)) := by
  refine place_madeOf.bind fun p => .bind ?_ fun _ => .pure _
  exact withServer_madeOf
    { feature := "selectionRange", method := "textDocument/selectionRange",
      shape := Shape.listOf Shape.selectionRange, other := by simp,
      members := [("positions", .arr ([p].map Position.toJson))] } rfl rfl

omit [Peer π] in
/-- What comes after a call depends on how it failed, and not on its value. -/
theorem finish_congr (feature : String) {out : Except ClientFault α} {out' : Except ClientFault β}
    (h : out.map (fun _ => ()) = out'.map fun _ => ()) (s : Editor π × World) :
    ((finish feature out).perform s).2 = ((finish feature out').perform s).2 := by
  obtain ⟨e, w⟩ := s
  rw [perform_finish, perform_finish]
  rcases out with fault | a <;> rcases out' with fault' | a' <;> simp [Except.map] at h
  · rw [h]
    rfl
  · rfl

omit [Peer π] in
theorem callAt_congr (feature : String) (key : ServerKey) (c : Client π) {call : Call π α}
    {call' : Call π β} (h : (fun _ => ()) <$> call = (fun _ => ()) <$> call')
    (s : Editor π × World) :
    ((callAt key c call >>= finish feature).perform s).2 =
      ((callAt key c call' >>= finish feature).perform s).2 := by
  obtain ⟨e, w⟩ := s
  have hp := congrArg (Call.perform · (c, w)) h
  simp only [Call.perform_map] at hp
  rw [perform_bind, perform_bind, perform_callAt, perform_callAt]
  generalize call.perform (c, w) = done at hp
  generalize call'.perform (c, w) = done' at hp
  obtain ⟨out, d, v⟩ := done
  obtain ⟨out', d', v'⟩ := done'
  obtain ⟨hout, hstate⟩ := Prod.mk.inj hp
  cases hstate
  rcases out with _ | out <;> rcases out' with _ | out'
  · rfl
  · cases hout
  · cases hout
  · exact finish_congr feature (Option.some.inj hout) _

/-- What is made of an answer does not matter to the editor. -/
theorem withServer_map (feature : String) (call : Uri → Call π (Option α))
    (g : Uri → Option α → Option β) (s : Editor π × World) :
    ((withServer feature fun uri => g uri <$> call uri).perform s).2 =
      ((withServer feature call).perform s).2 := by
  rcases h : client?.perform s with ⟨_ | _ | ⟨key, c⟩, s'⟩
  · simp [withServer, perform_bind, h]
  · simp [withServer, perform_bind, h]
  · rw [perform_withServer feature _ h, perform_withServer feature _ h]
    exact callAt_congr feature key c (by simp) s'

theorem documentSymbols_madeOf : MadeOf n (documentSymbols : Act π (List Json)) := by
  let q : Question :=
    { feature := "documentSymbol", method := "textDocument/documentSymbol", members := []
      shape := Shape.documentSymbols, other := by simp }
  refine .bind (.of_turn (.ask q) rfl fun s => ?_) fun _ => .pure _
  exact (withServer_map _ _ _ s).trans (perform_bind_of_still _ (fun _ _ => rfl) s).symm

theorem workspaceSymbols_madeOf (query : String) :
    MadeOf n (workspaceSymbols query : Act π (List Json)) :=
  .of_turn (.search query) rfl fun s => (perform_bind_of_still _ (fun _ _ => rfl) s).symm

/-! Files -/

theorem openFile_madeOf (p : Path) : MadeOf 1 (openFile p : Act π (Except Buffer.Fault Unit)) := by
  intro s
  have h : ((openFile p).perform s).2 =
      ((do if ← swap p then notifyChange : Act π Unit).perform s).2 := by
    rw [openFile, swap, bind_assoc, perform_bind, perform_bind]
    rcases closeBuffer.perform s with ⟨_ | _, e, w⟩
    · rfl
    · simp only [perform_bind, perform_get]
      rcases hl : Buffer.load w.files p with fault | buffer
      · simp
      · simp [perform_bind]
  rw [MadeAt, h]
  refine MadeOf.before (fun s => ⟨[.swap p], ?_, Nat.le_refl 1⟩) (fun b => ?_) s
  · exact (perform_bind_of_still _ (fun _ _ => rfl) s).symm
  · cases b
    · exact .pure _
    · exact notifyChange_madeOf

/-- Once the file is reached, what is left of a jump is to move the caret. -/
theorem arrive_madeOf (start : Position) (arrived : Bool) :
    MadeOf n (if arrived = true then
      Editor.edit fun e =>
        let (line, column) := e.buffer.caretAt start
        let cursor := Cursor.within e.buffer line column
        { e with cursor, view := e.view.reveal cursor.line cursor.column }
      else Pure.pure () : Act π Unit) := by
  cases arrived with
  | false => exact .pure ()
  | true =>
    rw [if_pos rfl]
    exact .edit fun e => { Own.refl e with }

theorem jump_madeOf (location : Json) : MadeOf 1 (jump location : Act π Unit) := by
  rw [jump]
  split
  · refine .bind .get fun s => ?_
    simp only
    split
    · exact .bind (.pure true) (arrive_madeOf _)
    · split
      · exact .bind (.pure false) (arrive_madeOf _)
      · refine .before (openFile_madeOf _) fun opened => ?_
        rcases opened with fault | _
        · exact .bind (.say _) fun _ => .bind (.pure false) (arrive_madeOf _)
        · exact .bind (.pure true) (arrive_madeOf _)
  · exact .pure ()

theorem goToDefinition_madeOf : MadeOf 1 (goToDefinition : Act π (List Json)) := by
  refine .bind (related_madeOf _) fun found => ?_
  rcases found with _ | ⟨only, _ | _⟩
  · exact .bind (.say _) fun _ => .pure _
  · exact .before (jump_madeOf only) fun _ => .pure _
  · exact .pure _

/-! Edits -/

theorem Edited.trans {b b' b'' : Buffer} (h : Edited b b') (h' : Edited b' b'') : Edited b b'' := by
  refine ⟨h'.path.trans h.path, h'.language.trans h.language, ?_⟩
  obtain ⟨hv, ht⟩ | hlt := h.version
  · rw [← hv, ← ht]
    exact h'.version
  · obtain ⟨hv, -⟩ | hlt' := h'.version
    · exact .inr (hv ▸ hlt)
    · exact .inr (hlt.trans hlt')

theorem edited_edit (b : Buffer) (chars : List Char) : Edited b (b.edit chars) :=
  ⟨rfl, rfl, .inr (Nat.lt_succ_self _)⟩

theorem exists_edit_of_insert {b b' : Buffer} {text : String} {line column : Nat}
    (h : b.insert text line column = .ok b') : ∃ chars, b' = b.edit chars := by
  rcases hs : b.lineStart line with fault | start
  · simp [Buffer.insert, hs, bind, Except.bind] at h
  · simp only [Buffer.insert, hs, bind, Except.bind] at h
    split at h
    · cases h
    · exact ⟨_, (Except.ok.inj h).symm⟩

theorem exists_edit_of_delete {b b' : Buffer} {start stop : Nat} (h : b.delete start stop = .ok b') :
    ∃ chars, b' = b.edit chars := by
  rw [Buffer.delete] at h
  split_ifs at h
  exact ⟨_, (Except.ok.inj h).symm⟩

theorem edited_of_insert {b b' : Buffer} {text : String} {line column : Nat}
    (h : b.insert text line column = .ok b') : Edited b b' := by
  obtain ⟨chars, rfl⟩ := exists_edit_of_insert h
  exact edited_edit b chars

theorem edited_of_delete {b b' : Buffer} {start stop : Nat} (h : b.delete start stop = .ok b') :
    Edited b b' := by
  obtain ⟨chars, rfl⟩ := exists_edit_of_delete h
  exact edited_edit b chars

omit [Peer π] in
theorem own_of_insertText {e e' : Editor π} {text : String} (h : e.insertText text = .ok e') :
    Own e e' := by
  rcases hb : e.buffer.insert text e.cursor.line e.cursor.column with fault | b
  · simp [insertText, hb, bind, Except.bind] at h
  · simp only [insertText, hb, bind, Except.bind] at h
    obtain rfl := Except.ok.inj h
    exact { Own.refl e with buffer := edited_of_insert hb }

omit [Peer π] in
theorem own_of_acceptChoice {e e' : Editor π} {b : Bool} (h : e.acceptChoice = .ok (e', b)) :
    Own e e' := by
  rw [acceptChoice] at h
  split at h
  · obtain ⟨rfl, -⟩ := Prod.mk.inj (Except.ok.inj h)
    exact .refl e
  · next text _ =>
    rcases hs : e.buffer.lineStart e.cursor.line with fault | start
    · simp [hs, bind, Except.bind] at h
    · simp only [hs, bind, Except.bind] at h
      split at h
      · cases h
      · next buffer hd =>
        split at h
        · cases h
        · next inserted hi =>
          obtain ⟨rfl, -⟩ := Prod.mk.inj (Except.ok.inj h)
          have hown := own_of_insertText hi
          exact ⟨hown.launch, hown.connections, hown.servers, hown.messages,
            (edited_of_delete hd).trans hown.buffer⟩

/-- The editor after a text was inserted, if it could be. -/
def inserted (text : String) (e : Editor π) : Editor π := (e.insertText text).toOption.getD e

omit [Peer π] in
theorem own_inserted (text : String) (e : Editor π) : Own e (e.inserted text) := by
  rcases h : e.insertText text with fault | e'
  · rw [inserted, h]
    exact .refl e
  · rw [inserted, h]
    exact own_of_insertText h

/-- The editor after the selected completion was inserted, if it could be. -/
def accepted (e : Editor π) : Editor π := (e.acceptChoice.toOption.map (·.1)).getD e

omit [Peer π] in
theorem own_accepted (e : Editor π) : Own e e.accepted := by
  rcases h : e.acceptChoice with fault | ⟨e', b⟩
  · rw [accepted, h]
    exact .refl e
  · rw [accepted, h]
    exact own_of_acceptChoice h

theorem typeChar_madeOf (c : Char) : MadeOf n (typeChar c : Act π (Except Buffer.Fault Unit)) := by
  rintro ⟨e, w⟩
  rw [typeChar]
  refine .bind (.still rfl) fun s s' h => ?_
  obtain ⟨rfl, rfl⟩ : (e, w) = s ∧ (e, w) = s' := by simpa using h
  simp only
  split
  · exact .still rfl
  · next e' he =>
    have hset : MadeAt 0 (set (e', w) : Act π PUnit) (e, w) := by
      refine ⟨[.edit (inserted c.toString) (own_inserted _)], ?_, Nat.le_refl 0⟩
      change (e', w) = (inserted c.toString e, w)
      rw [inserted, he]
      rfl
    refine hset.bind fun _ s _ => ?_
    refine MadeOf.bind notifyChange_madeOf (fun _ => ?_) s
    refine .bind (fun s => .still (by rw [perform_existing?])) fun found => ?_
    rcases found with _ | ⟨key, client⟩
    · exact .pure _
    · have hsignature : MadeOf n (if client.abilities.asksSignature c = true then do
          let _ ← askSignature
          pure (.ok ())
          else pure (.ok ()) : Act π (Except Buffer.Fault Unit)) := by
        split
        · exact .bind askSignature_madeOf fun _ => .pure _
        · exact .pure _
      simp only
      split
      · exact .bind (requestChoices_madeOf _) fun _ => hsignature
      · exact hsignature

theorem typeText_madeOf (text : List Char) :
    MadeOf n (typeText text : Act π (Except Buffer.Fault Unit)) := by
  induction text with
  | nil => exact .pure _
  | cons c text ih =>
    refine .bind (typeChar_madeOf c) fun out => ?_
    rcases out with fault | _
    · exact .pure _
    · exact ih

/-! ### Runs -/

/-- What a user does, other than ending the editor, and what happens of itself. -/
inductive Op (π : Type)
  | openFile (p : Path)
  | insertText (text : String)
  | typeChar (c : Char)
  | typeText (text : List Char)
  | acceptChoice
  | notifyChange
  | closeBuffer
  | save
  | process
  | complete
  | askHover
  | askSignature
  | related (r : Client.Relation)
  | jump (location : Json)
  | goToDefinition
  | documentSymbols
  | workspaceSymbols (query : String)
  | selectionRanges
  /-- Moving the caret, scrolling, going through completions. -/
  | edit (f : Editor π → Editor π) (own : ∀ e, Own e (f e))
  /-- The far end of a connection changes and sends something. -/
  | meanwhile (number : Nat) (change : π → π) (arrived : List Sending)
  /-- Files change. -/
  | files (fs : FileSystem)

/-- The editor when the far end of a connection has changed and something has arrived from it. -/
def meanwhile (number : Nat) (change : π → π) (arrived : List Sending) (e : Editor π) : Editor π :=
  { e with servers := e.servers.map fun (key, c) =>
      (key, if c.link.number = number then
        { c with link := { c.link with peer := change c.link.peer }.receiveAll arrived } else c) }

def Op.run (s : Editor π × World) : Op π → Editor π × World
  | .openFile p => ((Editor.openFile p).perform s).2
  | .insertText text => (s.1.inserted text, s.2)
  | .typeChar c => ((Editor.typeChar c).perform s).2
  | .typeText text => ((Editor.typeText text).perform s).2
  | .acceptChoice => (s.1.accepted, s.2)
  | .notifyChange => (Editor.notifyChange.perform s).2
  | .closeBuffer => (Editor.closeBuffer.perform s).2
  | .save => (Editor.save.perform s).2
  | .process => (Editor.process.perform s).2
  | .complete => (Editor.complete.perform s).2
  | .askHover => (Editor.askHover.perform s).2
  | .askSignature => (Editor.askSignature.perform s).2
  | .related r => ((Editor.related r).perform s).2
  | .jump location => ((Editor.jump location).perform s).2
  | .goToDefinition => (Editor.goToDefinition.perform s).2
  | .documentSymbols => (Editor.documentSymbols.perform s).2
  | .workspaceSymbols query => ((Editor.workspaceSymbols query).perform s).2
  | .selectionRanges => (Editor.selectionRanges.perform s).2
  | .edit f _ => (f s.1, s.2)
  | .meanwhile number change arrived => (s.1.meanwhile number change arrived, s.2)
  | .files fs => (s.1, { s.2 with files := fs })

/-- A turn, or something that happens of itself. -/
inductive Happening (π : Type)
  | turn (t : Turn π)
  | meanwhile (number : Nat) (change : π → π) (arrived : List Sending)
  | files (fs : FileSystem)

def Happening.run (s : Editor π × World) : Happening π → Editor π × World
  | .turn t => t.run s
  | .meanwhile number change arrived => (s.1.meanwhile number change arrived, s.2)
  | .files fs => (s.1, { s.2 with files := fs })

/-- What happens of itself. -/
def Op.happening? : Op π → Option (Happening π)
  | .meanwhile number change arrived => some (.meanwhile number change arrived)
  | .files fs => some (.files fs)
  | _ => none

/-- An operation is one thing that happens of itself, or turns of which one at most opens a file. -/
theorem Op.happening_or_turns (op : Op π) (s : Editor π × World) :
    (∃ h, op.happening? = some h ∧ op.run s = h.run s) ∨
      ∃ turns : List (Turn π), op.run s = turns.foldl Turn.run s ∧ turns.countP Turn.swaps ≤ 1 := by
  have hone (t : Turn π) (ht : t.swaps = false) (h : op.run s = t.run s) :
      ∃ turns : List (Turn π), op.run s = turns.foldl Turn.run s ∧ turns.countP Turn.swaps ≤ 1 :=
    ⟨[t], h, by simp [ht]⟩
  cases op with
  | openFile p => exact .inr (openFile_madeOf p s)
  | insertText text => exact .inr (hone (.edit (inserted text) (own_inserted text)) rfl rfl)
  | typeChar c => exact .inr (typeChar_madeOf c s)
  | typeText text => exact .inr (typeText_madeOf text s)
  | acceptChoice => exact .inr (hone (.edit accepted own_accepted) rfl rfl)
  | notifyChange => exact .inr (hone .sync rfl rfl)
  | closeBuffer => exact .inr (hone .close rfl rfl)
  | save => exact .inr (hone .save rfl (run_save s).symm)
  | process => exact .inr (hone .process rfl rfl)
  | complete => exact .inr (requestChoices_madeOf _ s)
  | askHover => exact .inr (askHover_madeOf s)
  | askSignature => exact .inr (askSignature_madeOf s)
  | related r => exact .inr (related_madeOf r s)
  | jump location => exact .inr (jump_madeOf location s)
  | goToDefinition => exact .inr (goToDefinition_madeOf s)
  | documentSymbols => exact .inr (documentSymbols_madeOf s)
  | workspaceSymbols query => exact .inr (workspaceSymbols_madeOf query s)
  | selectionRanges => exact .inr (selectionRanges_madeOf s)
  | edit f own => exact .inr (hone (.edit f own) rfl rfl)
  | meanwhile number change arrived => exact .inl ⟨_, rfl, rfl⟩
  | files fs => exact .inl ⟨_, rfl, rfl⟩

theorem Turn.path_run {t : Turn π} (ht : t.swaps = false) (s : Editor π × World) :
    (t.run s).1.buffer.path = s.1.buffer.path := by
  obtain ⟨e, w⟩ := s
  cases t with
  | edit f own => exact (own e).buffer.path
  | swap p => cases ht
  | sync => exact congrArg Buffer.path (notifyChange_attended e w).buffer
  | close =>
    obtain ⟨-, hclose⟩ | ⟨uri, -, hvisited⟩ := closeBuffer_visited e w
    · exact congrArg (·.1.buffer.path) hclose
    · exact congrArg Buffer.path hvisited.buffer
  | save =>
    rw [run_save]
    have hsaved := save_saved e w
    generalize (Editor.save.perform (e, w)).2 = out at hsaved
    cases hsaved with
    | unsaved => rfl
    | saved named written stored visited => rw [visited.buffer, stored]
  | process => exact congrArg Buffer.path (process_alike (e, w)).buffer
  | ask q =>
    rw [run_ask]
    exact congrArg Buffer.path (withServer_attended q.feature q.call e w).buffer
  | search query =>
    rw [run_search]
    exact congrArg Buffer.path (workspaceSymbols_attended query e w).buffer

theorem path_of_no_swap {turns : List (Turn π)} (h : turns.countP Turn.swaps = 0)
    (s : Editor π × World) : (turns.foldl Turn.run s).1.buffer.path = s.1.buffer.path := by
  induction turns generalizing s with
  | nil => rfl
  | cons t turns ih =>
    obtain ⟨ht, hturns⟩ := List.forall_mem_cons.1 (List.countP_eq_zero.1 h)
    rw [List.foldl_cons, ih (List.countP_eq_zero.2 hturns), Turn.path_run (Bool.eq_false_iff.2 ht)]

/-- In turns of which one at most opens a file, the buffer has the path from before or that from after
all of them. -/
theorem path_of_one_swap {turns earlier : List (Turn π)} (h : turns.countP Turn.swaps ≤ 1)
    (he : earlier <+: turns) (s : Editor π × World) :
    (earlier.foldl Turn.run s).1.buffer.path = s.1.buffer.path ∨
      (earlier.foldl Turn.run s).1.buffer.path = (turns.foldl Turn.run s).1.buffer.path := by
  induction turns generalizing earlier s with
  | nil => exact .inl (by rw [List.prefix_nil.1 he]; rfl)
  | cons t turns ih =>
    obtain rfl | ⟨rest, rfl, hrest⟩ := List.prefix_cons_iff.1 he
    · exact .inl rfl
    · cases ht : t.swaps with
      | false =>
        rw [List.countP_cons, ht] at h
        rw [List.foldl_cons, List.foldl_cons, ← Turn.path_run ht s]
        exact ih h hrest _
      | true =>
        rw [List.countP_cons, ht] at h
        have hnone : turns.countP Turn.swaps = 0 := by simpa using h
        have hearlier : rest.countP Turn.swaps = 0 :=
          Nat.eq_zero_of_le_zero (hnone ▸ hrest.sublist.countP_le)
        right
        rw [List.foldl_cons, List.foldl_cons, path_of_no_swap hnone, path_of_no_swap hearlier]

/-- An operation is made of turns and of what happens of itself, and at every point of it the buffer has
the path from before or that from after. -/
theorem Op.made {P : Happening π → Prop} (hturn : ∀ t, P (.turn t)) {op : Op π}
    (hop : ∀ h, op.happening? = some h → P h) (s : Editor π × World) :
    ∃ hs : List (Happening π), op.run s = hs.foldl Happening.run s ∧ (∀ h ∈ hs, P h) ∧
      ∀ earlier, earlier <+: hs →
        (earlier.foldl Happening.run s).1.buffer.path = s.1.buffer.path ∨
        (earlier.foldl Happening.run s).1.buffer.path = (op.run s).1.buffer.path := by
  obtain ⟨h, hh, hrun⟩ | ⟨turns, hturns, hone⟩ := op.happening_or_turns s
  · refine ⟨[h], hrun, by simpa using hop h hh, fun earlier he => ?_⟩
    obtain rfl | ⟨t, rfl, ht⟩ := List.prefix_cons_iff.1 he
    · exact .inl rfl
    · rw [List.prefix_nil.1 ht, hrun]
      exact .inr rfl
  · refine ⟨turns.map .turn, by rw [List.foldl_map]; exact hturns, ?_, fun earlier he => ?_⟩
    · intro h hm
      obtain ⟨t, -, rfl⟩ := List.mem_map.1 hm
      exact hturn t
    · obtain ⟨first, hfirst, rfl⟩ := List.prefix_map_iff.1 he
      rw [List.foldl_map, hturns]
      exact path_of_one_swap hone hfirst s

/-- A run of operations is a run of turns and of what happens of itself. -/
theorem ops_made {P : Happening π → Prop} (hturn : ∀ t, P (.turn t)) (ops : List (Op π))
    (hops : ∀ op ∈ ops, ∀ h, op.happening? = some h → P h) (s : Editor π × World) :
    ∃ hs : List (Happening π), ops.foldl Op.run s = hs.foldl Happening.run s ∧ ∀ h ∈ hs, P h := by
  induction ops generalizing s with
  | nil => exact ⟨[], rfl, by simp⟩
  | cons op ops ih =>
    obtain ⟨hop, hrest⟩ := List.forall_mem_cons.1 hops
    obtain ⟨first, hfirst, hP, -⟩ := Op.made hturn hop s
    obtain ⟨rest, hrun, hP'⟩ := ih hrest (op.run s)
    refine ⟨first ++ rest, ?_, fun h hm => (List.mem_append.1 hm).elim (hP h) (hP' h)⟩
    rw [List.foldl_cons, List.foldl_append, ← hfirst, hrun]

end Editor

end LuaLens
