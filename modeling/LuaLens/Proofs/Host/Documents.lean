import Mathlib.Computability.Language
import LuaLens.Proofs.Host.Call

/-!
What a server is shown of documents. The messages written to it say which documents they are about, and
what is shown of a document is a word of openings, changes and closings.
-/

namespace LuaLens

open scoped Computability

/-! ### Identifiers of files -/

namespace Uri

/-- Whether an identifier is made of a path alone. -/
structure IsFile (u : Uri) : Prop where
  scheme : u.scheme = "file"
  authority : u.authority = some ""
  query : u.query = none
  fragment : u.fragment = none

theorem isFile_of_ofPath? {p : Path} {u : Uri} (h : ofPath? p = some u) : u.IsFile := by
  rw [ofPath?] at h
  split at h
  · obtain rfl := Option.some.inj h
    exact ⟨rfl, rfl, rfl, rfl⟩
  · cases h

theorem IsFile.text_eq {u : Uri} (h : u.IsFile) : u.text = "file://" ++ u.path := by
  simp only [text, h.scheme, h.authority, h.query, h.fragment, Option.elim, String.append_empty]
  rfl

/-- Identifiers of files are told apart by their texts. -/
theorem IsFile.ext {u u' : Uri} (h : u.IsFile) (h' : u'.IsFile) (ht : u.text = u'.text) : u = u' := by
  rw [h.text_eq, h'.text_eq, String.append_right_inj] at ht
  obtain ⟨scheme, authority, path, query, fragment⟩ := u
  obtain ⟨scheme', authority', path', query', fragment'⟩ := u'
  obtain ⟨rfl, rfl, rfl, rfl⟩ := h
  obtain ⟨rfl, rfl, rfl, rfl⟩ := h'
  simpa using ht

end Uri

theorem Buffer.isFile_of_uri? {b : Buffer} {fs : FileSystem} {u : Uri} (h : b.uri? fs = some u) :
    u.IsFile := by
  obtain ⟨p, -, h⟩ := Option.bind_eq_some_iff.1 h
  exact Uri.isFile_of_ofPath? h

/-! ### Showings -/

/-- What is shown of a document. -/
inductive Showing
  | opened (text : String)
  | changed (text : String)
  | closed
deriving DecidableEq, Repr

namespace Message

/-- The document that parameters name. -/
def documentOf (params : Json) : String :=
  (((params.get? "textDocument").bind (·.get? "uri")).bind Json.str?).getD ""

/-- The text of a document that is opened. -/
def openedText (params : Json) : String :=
  (((params.get? "textDocument").bind (·.get? "text")).bind Json.str?).getD ""

/-- The text of a document after its changes, the last of which counts. -/
def changedText (params : Json) : String :=
  (((((params.get? "contentChanges").bind Json.items?).bind List.getLast?).bind (·.get? "text")).bind
    Json.str?).getD ""

/-- What a message shows, and of which document. -/
def showing? : Message → Option (String × Showing)
  | .notification n =>
    match n.method with
    | "textDocument/didOpen" => some (documentOf n.params, .opened (openedText n.params))
    | "textDocument/didChange" => some (documentOf n.params, .changed (changedText n.params))
    | "textDocument/didClose" => some (documentOf n.params, .closed)
    | _ => none
  | _ => none

end Message

/-- What messages show of a document, in order. -/
def showings (doc : String) (ms : List Message) : List Showing :=
  ms.filterMap fun m => m.showing?.bind fun shown => if shown.1 = doc then some shown.2 else none

theorem showings_append (doc : String) (ms ns : List Message) :
    showings doc (ms ++ ns) = showings doc ms ++ showings doc ns := List.filterMap_append

theorem showings_of_showing? {m : Message} {doc : String} {s : Showing}
    (h : m.showing? = some (doc, s)) (doc' : String) :
    showings doc' [m] = if doc = doc' then [s] else [] := by
  by_cases hd : doc = doc' <;> simp [showings, h, hd]

theorem showings_eq_nil {ms : List Message} (h : ∀ m ∈ ms, m.showing? = none) (doc : String) :
    showings doc ms = [] := by
  rw [showings, List.filterMap_eq_nil_iff]
  intro m hm
  rw [h m hm, Option.bind_none]

namespace Client

variable {π : Type}

/-- Showing a buffer opens its document, or changes it when it is open. -/
theorem showing?_showing (c : Client π) (b : Buffer) (uri : Uri) :
    Message.showing? (.notification (c.showing b uri)) =
      some (uri.text, if (c.opened.lookup uri).isSome then .changed b.text else .opened b.text) := by
  cases h : (c.opened.lookup uri).isSome <;>
    simp [showing, h, Message.showing?, Message.documentOf, Message.openedText, Message.changedText,
      Json.get?, Json.members?, Json.items?, Json.str?]

theorem showing?_withdrawal (uri : Uri) :
    Message.showing? (.notification (withdrawal uri)) = some (uri.text, .closed) := by
  simp [withdrawal, Message.showing?, Message.documentOf, documentJson, Json.get?, Json.members?,
    Json.str?]

end Client

/-! ### Words -/

def opening : Language Showing := {word | ∃ text, word = [.opened text]}

def changing : Language Showing := {word | ∃ text, word = [.changed text]}

def closing : Language Showing := {[.closed]}

/-- The words of documents that were opened, changed any number of times and closed, again and again. -/
def documentWords : Language Showing := (opening * changing∗ * closing)∗

/-- The beginnings of such words in which the document is open. -/
def openWords : Language Showing := documentWords * (opening * changing∗)

theorem append_opened {word : List Showing} (h : word ∈ documentWords) (text : String) :
    word ++ [.opened text] ∈ openWords := by
  refine Language.append_mem_mul h ?_
  have hopened : [.opened text] ∈ opening := ⟨text, rfl⟩
  exact Language.append_mem_mul hopened (Language.nil_mem_kstar changing)

theorem append_changed {word : List Showing} (h : word ∈ openWords) (text : String) :
    word ++ [.changed text] ∈ openWords := by
  have hle : openWords * changing ≤ openWords := by
    rw [openWords, mul_assoc, mul_assoc]
    exact mul_le_mul_right (mul_le_mul_right kstar_mul_le_kstar _) _
  exact hle (Language.append_mem_mul h ⟨text, rfl⟩)

theorem append_closed {word : List Showing} (h : word ∈ openWords) :
    word ++ [.closed] ∈ documentWords := by
  have hle : openWords * closing ≤ documentWords := by
    rw [openWords, mul_assoc]
    exact kstar_mul_le_kstar
  exact hle (Language.append_mem_mul h rfl)

end LuaLens
