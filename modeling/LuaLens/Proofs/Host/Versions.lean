import LuaLens.Proofs.Host.Shown
import LuaLens.Wire.FarEnd

/-!
One buffer and the client of one server. Whether the text is sent is decided by its version. Edits move
the version and loading a file sets it back, so that versions tell texts apart as long as no file is
loaded.
-/

namespace LuaLens

variable {π : Type}

/-! ### The last text of a document -/

/-- The text that a showing brings. -/
def Showing.text? : Showing → Option String
  | .opened text | .changed text => some text
  | .closed => none

/-- The text of a document that was shown last, whether it was closed since or not. -/
def lastText (doc : String) (ms : List Message) : Option String :=
  ((showings doc ms).filterMap Showing.text?).getLast?

theorem lastText_congr {doc : String} {ms ns : List Message} (h : showings doc ms = showings doc ns) :
    lastText doc ms = lastText doc ns := by
  rw [lastText, h, lastText]

theorem lastText_showing (ms : List Message) (c : Client π) (b : Buffer) (uri : Uri) :
    lastText uri.text (ms ++ [.notification (c.showing b uri)]) = some b.text := by
  rw [lastText, showings_append, showings_of_showing? (Client.showing?_showing c b uri), if_pos rfl,
    List.filterMap_append]
  split <;> simp [Showing.text?]

/-! ### Steps -/

/-- A buffer, and a client that it is shown to. -/
structure Shared (π : Type) where
  buffer : Buffer
  client : Client π
  world : World

namespace Shared

/-- What is done with the buffer and the client, and what happens of itself. -/
inductive Step (π : Type)
  | insert (text : String) (line column : Nat)
  | delete (start stop : Nat)
  | setText (text : String)
  | load (p : Path)
  | save (p : Path)
  | sync
  | didClose (uri : Uri)
  /-- The far end changes and sends something, and files change. -/
  | meanwhile (peer : π) (arrived : List Sending) (files : FileSystem)

/-- What was written to the server. -/
def sent (s : Shared π) : List Message := s.world.sent s.client.link.number

/-- An operation that fails leaves the buffer as it was. -/
def edited (s : Shared π) (out : Except Buffer.Fault Buffer) : Shared π :=
  { s with buffer := out.toOption.getD s.buffer }

def called (s : Shared π) (out : Client π × World) : Shared π :=
  { s with client := out.1, world := out.2 }

/-- Whether a step loads a file and does not fail. -/
def Step.Loads (s : Shared π) : Step π → Prop
  | .load p => ∃ b, Buffer.load s.world.files p = .ok b
  | _ => False

variable [Peer π]

def Step.run (s : Shared π) : Step π → Shared π
  | .insert text line column => s.edited (s.buffer.insert text line column)
  | .delete start stop => s.edited (s.buffer.delete start stop)
  | .setText text => s.edited (.ok (s.buffer.setText text))
  | .load p => s.edited (Buffer.load s.world.files p)
  | .save p =>
    match s.buffer.save s.world.files p with
    | .ok (buffer, files) => { s with buffer, world := { s.world with files } }
    | .error _ => s
  | .sync => s.called ((Client.sync s.buffer).perform (s.client, s.world)).2
  | .didClose uri => s.called ((Client.didClose uri).perform (s.client, s.world)).2
  | .meanwhile peer arrived files =>
    s.called ({ s.client with link := { s.client.link with peer }.receiveAll arrived },
      { s.world with files })

variable {s s' : Shared π} {x : Step π} {steps : List (Step π)} {doc : String} {entry : Uri × Int}

/-- Whether the version of a buffer has moved, or its text is the same. -/
def Ahead (b b' : Buffer) : Prop := b'.version = b.version ∧ b'.text = b.text ∨ b.version < b'.version

/-- What a step can come to. -/
inductive Stepped (s : Shared π) (x : Step π) (s' : Shared π) : Prop
  | loaded (loads : x.Loads s) (opened : s'.client.opened = s.client.opened) (sent : s'.sent = s.sent)
  | silent (ahead : Ahead s.buffer s'.buffer) (opened : s'.client.opened = s.client.opened)
      (sent : s'.sent = s.sent)
  | shown {uri : Uri} (file : uri.IsFile) (buffer : s'.buffer = s.buffer)
      (opened : s'.client.opened =
        (uri, (s.buffer.version : Int)) :: s.client.opened.filter (·.1 != uri))
      (sent : s'.sent = s.sent ++ [.notification (s.client.showing s.buffer uri)])
  | closed {uri : Uri} {ms : List Message} (known : (s.client.opened.lookup uri).isSome = true)
      (buffer : s'.buffer = s.buffer)
      (opened : s'.client.opened = s.client.opened.filter (·.1 != uri))
      (sent : s'.sent = s.sent ++ ms)
      (about : ∀ m ∈ ms, m = .notification (Client.withdrawal uri))

omit [Peer π] in
theorem Ahead.refl (b : Buffer) : Ahead b b := .inl ⟨rfl, rfl⟩

omit [Peer π] in
theorem edited_stepped {out : Except Buffer.Fault Buffer}
    (h : ∀ b, out = .ok b → Editor.Edited s.buffer b) : Stepped s x (s.edited out) := by
  cases out with
  | error fault => exact .silent (.refl _) rfl rfl
  | ok b => exact .silent (h b rfl).version rfl rfl

/-- What the connection did is all that was written. -/
theorem sent_called {d : Client π} {v : World} {ms : List Message}
    (h : s.client.link.Does s.world ms d.link v) : (s.called (d, v)).sent = s.sent ++ ms := by
  rw [sent, called, h.number, h.sent, sent]

theorem sync_stepped (s : Shared π) : Stepped s x (Step.run s .sync) := by
  rw [Step.run]
  have h := Client.sync_synced s.buffer s.client s.world
  generalize (Client.sync s.buffer).perform (s.client, s.world) = out at h
  cases h with
  | refused | current => exact .silent (.refl _) rfl rfl
  | shown named ready does => exact .shown (Buffer.isFile_of_uri? named) rfl rfl (sent_called does)
  | unheard ready does closed =>
    exact .silent (.refl _) rfl ((sent_called does).trans (List.append_nil _))

theorem didClose_stepped (s : Shared π) (uri : Uri) : Stepped s x (Step.run s (.didClose uri)) := by
  rw [Step.run]
  have h := Client.didClose_tookBack uri s.client s.world
  generalize (Client.didClose uri).perform (s.client, s.world) = out at h
  cases h with
  | unknown => exact .silent (.refl _) rfl rfl
  | told opened rest =>
    cases rest with
    | unready => exact .closed opened rfl rfl (List.append_nil _).symm (by simp)
    | heard ready does => exact .closed opened rfl rfl (sent_called does) (by simp)
    | unheard ready does => exact .closed opened rfl rfl (sent_called does) (by simp)

theorem run_stepped (s : Shared π) (x : Step π) : Stepped s x (Step.run s x) := by
  cases x with
  | insert text line column => exact edited_stepped fun _ => Editor.edited_of_insert
  | delete start stop => exact edited_stepped fun _ => Editor.edited_of_delete
  | setText text => exact .silent (Editor.edited_edit s.buffer text.toList).version rfl rfl
  | load p =>
    cases h : Buffer.load s.world.files p with
    | error fault =>
      have hrun : Step.run s (.load p) = s := by rw [Step.run, h]; rfl
      rw [hrun]
      exact .silent (.refl _) rfl rfl
    | ok b => exact .loaded ⟨b, h⟩ rfl rfl
  | save p =>
    rw [Step.run]
    cases hw : s.world.files.writeText p s.buffer.text with
    | error fault =>
      simp only [Buffer.save, hw]
      exact .silent (.refl _) rfl rfl
    | ok files =>
      simp only [Buffer.save, hw]
      exact .silent (.refl _) rfl rfl
  | sync => exact sync_stepped s
  | didClose uri => exact didClose_stepped s uri
  | meanwhile peer arrived files =>
    refine .silent (.refl _) rfl ?_
    rw [Step.run, sent, called, Connection.receiveAll_number]
    rfl

/-- A step moves the version by one at most. -/
theorem version_run_le (s : Shared π) (x : Step π) :
    (Step.run s x).buffer.version ≤ s.buffer.version + 1 := by
  have hedited {out : Except Buffer.Fault Buffer} (h : ∀ b, out = .ok b → ∃ chars, b = s.buffer.edit chars) :
      (s.edited out).buffer.version ≤ s.buffer.version + 1 := by
    cases out with
    | error fault => exact Nat.le_succ _
    | ok b =>
      obtain ⟨chars, rfl⟩ := h b rfl
      exact Nat.le_refl _
  cases x with
  | insert text line column => exact hedited fun _ => Editor.exists_edit_of_insert
  | delete start stop => exact hedited fun _ => Editor.exists_edit_of_delete
  | setText text => exact Nat.le_refl _
  | load p =>
    rw [Step.run]
    cases h : Buffer.load s.world.files p with
    | error fault => exact Nat.le_succ _
    | ok b =>
      have hzero : b.version = 0 := by
        rw [Buffer.load] at h
        cases ht : (s.world.files.readText p).mapError Buffer.Fault.io with
        | error fault => simp [ht, bind, Except.bind] at h
        | ok text =>
          simp only [ht, bind, Except.bind] at h
          exact congrArg Buffer.version (Except.ok.inj h).symm
      exact hzero ▸ Nat.zero_le _
  | save p =>
    rw [Step.run]
    cases hw : s.world.files.writeText p s.buffer.text with
    | error fault =>
      simp only [Buffer.save, hw]
      exact Nat.le_succ _
    | ok files =>
      simp only [Buffer.save, hw]
      exact Nat.le_succ _
  | sync | didClose | meanwhile => exact Nat.le_succ _

/-- Versions stay below the number of steps, so that 32 bits hold them in every run of fewer steps. -/
theorem version_steps_le (s : Shared π) (steps : List (Step π)) :
    (steps.foldl Step.run s).buffer.version ≤ s.buffer.version + steps.length := by
  induction steps generalizing s with
  | nil => exact Nat.le_refl _
  | cons x steps ih =>
    have hstep := version_run_le s x
    have hrest := ih (Step.run s x)
    rw [List.foldl_cons, List.length_cons]
    omega

/-! ### What the versions tell -/

/-- Whether a file was loaded after the last that was written about a document. -/
def Reloaded (s : Shared π) (steps : List (Step π)) (doc : String) : Prop :=
  ∃ before x after, steps = before ++ x :: after ∧ x.Loads (before.foldl Step.run s) ∧
    showings doc (steps.foldl Step.run s).sent = showings doc (before.foldl Step.run s).sent

theorem Reloaded.snoc (h : Reloaded s steps doc)
    (hsent : showings doc ((steps ++ [x]).foldl Step.run s).sent =
      showings doc (steps.foldl Step.run s).sent) : Reloaded s (steps ++ [x]) doc := by
  obtain ⟨before, y, after, hsteps, hloads, hsame⟩ := h
  exact ⟨before, y, after ++ [x], by simp [hsteps], hloads, hsent.trans hsame⟩

/-- What is true of a document whose version a client keeps: the version is that of a text it was shown,
which is the present one if the version is, unless a file was loaded in between. -/
structure Follows (s : Shared π) (steps : List (Step π)) (entry : Uri × Int) : Prop where
  file : entry.1.IsFile
  shown : ∃ text, lastText entry.1.text (steps.foldl Step.run s).sent = some text ∧
    (entry.2 = (steps.foldl Step.run s).buffer.version ∧ text = (steps.foldl Step.run s).buffer.text ∨
      entry.2 < (steps.foldl Step.run s).buffer.version ∨ Reloaded s steps entry.1.text)

/-- A step that writes nothing about a document. -/
theorem Follows.snoc (h : Follows s steps entry)
    (hsent : showings entry.1.text ((steps ++ [x]).foldl Step.run s).sent =
      showings entry.1.text (steps.foldl Step.run s).sent)
    (hstep : Ahead (steps.foldl Step.run s).buffer ((steps ++ [x]).foldl Step.run s).buffer ∨
      x.Loads (steps.foldl Step.run s)) : Follows s (steps ++ [x]) entry := by
  obtain ⟨text, htext, hcase⟩ := h.shown
  refine ⟨h.file, text, (lastText_congr hsent).trans htext, ?_⟩
  obtain (⟨hversion, hsame⟩ | hlt) | hloads := hstep
  · rw [hversion, hsame]
    exact hcase.imp_right (·.imp_right (·.snoc hsent))
  · obtain ⟨hv, -⟩ | hv | hreloaded := hcase
    · exact .inr (.inl (by omega))
    · exact .inr (.inl (by omega))
    · exact .inr (.inr (hreloaded.snoc hsent))
  · exact .inr (.inr ⟨steps, x, [], rfl, hloads, hsent⟩)

/-- What was written about one file shows nothing of another one. -/
theorem showings_of_ne {ms ns : List Message} {m : Message} {uri uri' : Uri} {shown : Showing}
    (hm : m.showing? = some (uri.text, shown)) (hns : ∀ n ∈ ns, n = m) (hu : uri.IsFile)
    (hu' : uri'.IsFile) (hne : uri' ≠ uri) :
    showings uri'.text (ms ++ ns) = showings uri'.text ms := by
  rw [showings_append, List.append_right_eq_self, showings, List.filterMap_eq_nil_iff]
  intro n hn
  rw [hns n hn, hm, Option.bind_some, if_neg fun ht => hne (hu'.ext hu ht.symm)]

theorem follows_snoc (h : ∀ entry ∈ (steps.foldl Step.run s).client.opened, Follows s steps entry)
    (x : Step π) :
    ∀ entry ∈ ((steps ++ [x]).foldl Step.run s).client.opened, Follows s (steps ++ [x]) entry := by
  have hstepped := run_stepped (steps.foldl Step.run s) x
  have hrun : (steps ++ [x]).foldl Step.run s = Step.run (steps.foldl Step.run s) x := by simp
  rw [← hrun] at hstepped
  intro entry hentry
  cases hstepped with
  | loaded loads opened sent =>
    exact (h entry (opened ▸ hentry)).snoc (by rw [sent]) (.inr loads)
  | silent ahead opened sent =>
    exact (h entry (opened ▸ hentry)).snoc (by rw [sent]) (.inl ahead)
  | @shown uri file buffer opened sent =>
    rw [opened, List.mem_cons, List.mem_filter] at hentry
    obtain rfl | ⟨hmem, hne⟩ := hentry
    · refine ⟨file, _, ?_, .inl ⟨by rw [buffer], rfl⟩⟩
      rw [sent, buffer]
      exact lastText_showing _ _ _ _
    · have hfollows := h entry hmem
      refine hfollows.snoc ?_ (.inl (buffer ▸ .refl _))
      rw [sent]
      exact showings_of_ne (Client.showing?_showing _ _ uri) (fun _ => List.mem_singleton.1) file
        hfollows.file (bne_iff_ne.1 hne)
  | @closed uri ms known buffer opened sent about =>
    rw [opened, List.mem_filter] at hentry
    obtain ⟨hmem, hne⟩ := hentry
    have hfollows := h entry hmem
    have hfile : uri.IsFile := by
      obtain ⟨other, hother, he⟩ := List.lookup_isSome_iff.1 known
      exact beq_iff_eq.1 he ▸ (h other hother).file
    refine hfollows.snoc ?_ (.inl (buffer ▸ .refl _))
    rw [sent]
    exact showings_of_ne (Client.showing?_withdrawal uri) about hfile hfollows.file (bne_iff_ne.1 hne)

theorem follows_run (hnew : s.client.opened = []) (steps : List (Step π)) :
    ∀ entry ∈ (steps.foldl Step.run s).client.opened, Follows s steps entry := by
  induction steps using List.reverseRecOn with
  | nil => simp [hnew]
  | append_singleton steps x ih => exact follows_snoc ih x

/-! ### The text after a synchronization -/

/-- Whether the buffer has the version under which the server was shown another text. -/
def Stale (s : Shared π) (uri : Uri) : Prop :=
  s.client.opened.lookup uri = some (s.buffer.version : Int) ∧
    ∃ text, lastText uri.text s.sent = some text ∧ text ≠ s.buffer.text

theorem sync_of_current {b : Buffer} {c : Client π} {w : World} {uri : Uri}
    (named : b.uri? w.files = some uri) (same : c.opened.lookup uri = some (b.version : Int)) :
    (Client.sync b).perform (c, w) = (some (.ok uri), c, w) := by
  simp [Client.sync, Call.perform_bind, named, same]

/-- Over every run of edits, loads, saves, synchronizations and closings: after one more synchronization
the server has the text of the buffer, unless it was shown another text under the same version. It was
so only if a file has been loaded since anything was written about the document. The version is at most the
number of steps above the first one, so that 32 bits hold it in every run that is not longer than they
count. -/
theorem sync_shows_text (s : Shared π) (hnew : s.client.opened = []) (steps : List (Step π)) {uri : Uri}
    (hsync : let s' := steps.foldl Step.run s
      ((Client.sync s'.buffer).perform (s'.client, s'.world)).1 = some (.ok uri)) :
    let s' := steps.foldl Step.run s
    (lastText uri.text (Step.run s' .sync).sent = some s'.buffer.text ↔ ¬s'.Stale uri) ∧
      (s'.Stale uri → s.Reloaded steps uri.text) ∧
      s'.buffer.version ≤ s.buffer.version + steps.length := by
  intro s'
  have hfollows := follows_run hnew steps
  have hsynced := Client.sync_synced s'.buffer s'.client s'.world
  rcases hout : (Client.sync s'.buffer).perform (s'.client, s'.world) with ⟨out, c, w⟩
  obtain rfl : out = some (.ok uri) := (congrArg Prod.fst hout).symm.trans hsync
  rw [hout] at hsynced
  refine ⟨?_, fun ⟨same, text, htext, hother⟩ => ?_, version_steps_le s steps⟩
  · by_cases same : s'.client.opened.lookup uri = some (s'.buffer.version : Int)
    · -- Nothing is written, so that the last text is the one it was.
      have named : s'.buffer.uri? s'.world.files = some uri := by
        cases hsynced with
        | current named | shown named => exact named
      have hstill : Step.run s' .sync = s' := by
        rw [Step.run, sync_of_current named same]
        rfl
      obtain ⟨text, htext, -⟩ := (hfollows _ (Editor.mem_of_lookup same)).shown
      change lastText uri.text s'.sent = some text at htext
      simp [hstill, Stale, same, htext]
    · refine iff_of_true ?_ fun hstale => same hstale.1
      rw [Step.run, hout]
      cases hsynced with
      | current named same' => exact absurd same' same
      | shown named ready does =>
        rw [sent_called does]
        exact lastText_showing _ _ _ _
  · obtain ⟨text', htext', ⟨-, hsame⟩ | hbehind | hreloaded⟩ :=
      (hfollows _ (Editor.mem_of_lookup same)).shown
    · rw [Option.some.inj (htext.symm.trans htext')] at hother
      exact absurd hsame hother
    · exact absurd hbehind (lt_irrefl _)
    · exact hreloaded

/-- A file that was changed by others and is loaded again has its first version again: nothing is sent,
and the server keeps the text from before. -/
theorem sync_shows_text_reloaded :
    let tree (text : String) : FileSystem :=
      { nodes := [(["p"], .directory), (["p", "a.lua"], .file (.text text))] }
    let c : Client FarEnd :=
      { language := "lua", root := ⟨"/p"⟩, initialized := true,
        link := { number := 0, peer := .script {} } }
    let s : Shared FarEnd := { buffer := {}, client := c, world := { files := tree "one" } }
    let steps : List (Step FarEnd) :=
      [.load ⟨"/p/a.lua"⟩, .sync, .meanwhile (.script {}) [] (tree "two"), .load ⟨"/p/a.lua"⟩]
    let s' := steps.foldl Step.run s
    let uri : Uri := { scheme := "file", authority := some "", path := "/p/a.lua" }
    (((Client.sync s'.buffer).perform (s'.client, s'.world)).1 = some (.ok uri) ∧
      s'.buffer.text = "two" ∧ lastText uri.text (Step.run s' .sync).sent = some "one") ∧
    s'.Stale uri ∧ s.Reloaded steps uri.text := by
  intro tree c s steps s' uri
  have hrun : ((Client.sync s'.buffer).perform (s'.client, s'.world)).1 = some (.ok uri) ∧
      s'.buffer.text = "two" ∧ lastText uri.text (Step.run s' .sync).sent = some "one" := by
    decide +kernel
  obtain ⟨hok, hbuffer, hlast⟩ := hrun
  obtain ⟨hcurrent, hreloaded, -⟩ := sync_shows_text s rfl steps hok
  have hstale : s'.Stale uri := by
    by_contra hfresh
    have htext := hcurrent.2 hfresh
    rw [hlast, hbuffer] at htext
    simp at htext
  exact ⟨⟨hok, hbuffer, hlast⟩, hstale, hreloaded hstale⟩

end Shared

end LuaLens
