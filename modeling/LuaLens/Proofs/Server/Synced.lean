import LuaLens.Proofs.Canonical
import LuaLens.Proofs.Index.Rescan
import LuaLens.Proofs.Server.Outcome

/-!
A server keeps the open documents and the index in step. Whatever messages arrive after the root was
scanned, the entries of an open document are those of its text, and the entries of a file that no
message was about are those of the scan.
-/

namespace LuaLens

open Text

/-! ### Documents by their components -/

namespace Documents

variable {d : Documents} {fs : FileSystem} {p : Path} {text : String}

/-- The text of the document of the given components. -/
def at? (d : Documents) (k : List Path.Component) : Option String :=
  (d.opened.find? (·.1 == k)).map (·.2)

theorem get?_eq (d : Documents) (fs : FileSystem) (p : Path) : d.get? fs p = d.at? (key fs p) := rfl

theorem at?_update_self : (d.update fs p text).at? (key fs p) = some text := by
  simp [at?, update]

theorem at?_update_of_ne {k : List Path.Component} (h : k ≠ key fs p) :
    (d.update fs p text).at? k = d.at? k := by
  rw [at?, at?, update]
  simp only
  rw [List.find?_cons_of_neg (by simpa using h.symm), find?_filter_of_kept _ fun e he => by simpa [he] using h]

theorem at?_close_self : (d.close fs p).at? (key fs p) = none := by
  rw [at?, close, Option.map_eq_none_iff, List.find?_eq_none]
  intro e he
  simpa using (List.mem_filter.1 he).2

theorem at?_close_of_ne {k : List Path.Component} (h : k ≠ key fs p) :
    (d.close fs p).at? k = d.at? k := by
  rw [at?, at?, close, find?_filter_of_kept _ fun e he => by simpa [he] using h]

end Documents

namespace Server

variable {s s' : Server} {fs : FileSystem} {m : Message} {root : Path} {scanned : Corpus}
  {seen : List (FileSystem × Message)}

/-! ### Runs -/

/-- The state after messages that each find a tree of their own. -/
def attend (s : Server) (messages : List (FileSystem × Message)) : Server :=
  messages.foldl (fun s e => (s.handle e.1 e.2).1) s

/-- The path by which the document of the given components was named last. -/
def lastNamed (messages : List (FileSystem × Message)) (k : List Path.Component) : Option Path :=
  messages.foldl (fun last e =>
    ((e.2.path?.map e.1.canonical).filter fun q => q.components == k).or last) none

theorem lastNamed_concat (seen : List (FileSystem × Message)) (fs : FileSystem) (m : Message)
    (k : List Path.Component) :
    lastNamed (seen ++ [(fs, m)]) k =
      ((m.path?.map fs.canonical).filter fun q => q.components == k).or (lastNamed seen k) := by
  rw [lastNamed, List.foldl_append]
  rfl

theorem lastNamed_concat_self {p : Path} (h : m.path? = some p) :
    lastNamed (seen ++ [(fs, m)]) (fs.canonical p).components = some (fs.canonical p) := by
  simp [lastNamed_concat, h]

theorem lastNamed_concat_of_ne {k : List Path.Component}
    (h : ∀ p, m.path? = some p → (fs.canonical p).components ≠ k) :
    lastNamed (seen ++ [(fs, m)]) k = lastNamed seen k := by
  rw [lastNamed_concat]
  cases hp : m.path? with
  | none => rfl
  | some p =>
    rw [Option.map_some, Option.filter_some, if_neg (by simpa using h p hp), Option.none_or]

theorem isSome_lastNamed_concat {k : List Path.Component} (h : (lastNamed seen k).isSome = true) :
    (lastNamed (seen ++ [(fs, m)]) k).isSome = true := by
  rw [lastNamed_concat, Option.isSome_or, h, Bool.or_true]

/-- A message as it is expected of a client and a machine: there is no second request to set up, the
path does not lead upward, the files of the project have no white space or backslash in their names,
and the files that the index needs can be written. -/
structure Regular (root : Path) (s : Server) (fs : FileSystem) (m : Message) : Prop where
  once : ∀ r dir, m = .request r → ClientRequest.parse? r.method r.params ≠ some (.setUp dir)
  level : ∀ p, m.path? = some p → ['.', '.'] ∉ p.pieces
  unspaced : ∀ p, m.path? = some p → ∀ tail, (fs.canonical p).steps = root.steps ++ tail →
    Unspaced tail
  written : ∀ p text, m.path? = some p → m.notice?.bind (s.newText? fs p) = some text →
    ∀ path fault, (s.index.rescan fs p text).2.2 ≠ .error (.io path fault)

/-- All messages of a run are regular, each in the state in which it arrives. -/
def Regularly (root : Path) : Server → List (FileSystem × Message) → Prop
  | _, [] => True
  | s, (fs, m) :: rest => Regular root s fs m ∧ Regularly root (s.handle fs m).1 rest

/-! ### Overrides of a path -/

/-- An override that a rescan of the given path has left. -/
structure Held (root q : Path) (o : String × Rescan) : Prop where
  absolute : q.isAbsolute = true
  unspaced : ∀ tail, q.steps = root.steps ++ tail → Unspaced tail
  label : o.1 = Label.ofPath root q
  inside : root.steps <+: q.steps → ∀ e ∈ o.2.corpus, e.tag.file = o.1
  outside : ¬ root.steps <+: q.steps → ∀ e ∈ o.2.corpus, Label.Outlying e.tag.file.toList

/-- Files with different components have different labels, if one of them is in the project. -/
theorem ofPath_ne {q q' : Path} {tail : List (List Char)} (hb : root.Below q tail)
    (hu : Unspaced tail) (hq' : q'.isAbsolute = true)
    (hu' : ∀ tail, q'.steps = root.steps ++ tail → Unspaced tail)
    (hne : q'.components ≠ q.components) : Label.ofPath root q' ≠ Label.ofPath root q := by
  intro hl
  by_cases hin : root.steps <+: q'.steps
  · obtain ⟨tail', hsteps⟩ := hin
    have hb' : root.Below q' tail' := ⟨hb.rooted, hq', hsteps.symm⟩
    have hsame := Label.steps_of_ofPath hb' (hu' tail' hsteps.symm) hb hu hl
    refine hne ?_
    rw [Path.components_of_isAbsolute hq', Path.components_of_isAbsolute hb.absolute, hsame]
  · have hout := Label.outlying_outside hb.rooted hq' hin
    rw [hl] at hout
    exact Label.not_outlying_below hb hu hout

/-- Such an override has no entries of any other file of the project. -/
theorem Held.file_ne {q q' : Path} {o : String × Rescan} {tail : List (List Char)}
    (h : Held root q' o) (hb : root.Below q tail) (hu : Unspaced tail)
    (hne : o.1 ≠ Label.ofPath root q) : ∀ e ∈ o.2.corpus, e.tag.file ≠ Label.ofPath root q := by
  intro e he hfile
  by_cases hin : root.steps <+: q'.steps
  · exact hne ((h.inside hin e he).symm.trans hfile)
  · have hout := h.outside hin e he
    rw [hfile] at hout
    exact Label.not_outlying_below hb hu hout

/-- An index in which only the override of one path can be another. -/
structure Replaced (root q : Path) (x x' : Index) : Prop where
  root_eq : x'.root = x.root
  cache_eq : x'.cache = x.cache
  project_eq : x'.project = x.project
  ordered : Index.Ordered x'.overrides
  back : ∀ o ∈ x'.overrides, o ∈ x.overrides ∨ Held root q o
  forth : ∀ o ∈ x.overrides, o.1 ≠ Label.ofPath root q → o ∈ x'.overrides

theorem Replaced.refl {q : Path} {x : Index} (h : Index.Ordered x.overrides) :
    Replaced root q x x :=
  ⟨rfl, rfl, rfl, h, fun _ ho => .inl ho, fun _ ho _ => ho⟩

theorem replaced_insert {q : Path} {x x' : Index} {r : Rescan} (h : Index.Ordered x.overrides)
    (hr : Held root q (Label.ofPath root q, r))
    (hx : x' = { x with
      issued := x.issued + 1
      overrides := Index.insertOverride (Label.ofPath root q) r x.overrides }) :
    Replaced root q x x' := by
  subst hx
  refine ⟨rfl, rfl, rfl, Index.ordered_insertOverride h _ _, fun o ho => ?_, fun o ho hne => ?_⟩
  · obtain rfl | ⟨ho, -⟩ := (Index.mem_insertOverride h).1 ho
    · exact .inr hr
    · exact .inl ho
  · exact (Index.mem_insertOverride h).2 (.inr ⟨ho, hne⟩)

theorem replaced_forget (fs : FileSystem) (p : Path) {x : Index} (h : Index.Ordered x.overrides)
    (hroot : x.root = some root) : Replaced root (fs.canonical p) x (x.forget fs p).1 := by
  have hlabel : x.labelOf fs p = Label.ofPath root (fs.canonical p) := by rw [Index.labelOf, hroot]
  rw [Index.forget_eq, hlabel]
  refine ⟨rfl, rfl, rfl, h.filter _, fun o ho => .inl (List.mem_filter.1 ho).1, fun o ho hne => ?_⟩
  exact List.mem_filter.2 ⟨ho, by simpa using hne⟩

/-- A rescan of a named file replaces its override, and for a file of the project by its entries. -/
theorem replaced_rescan {p : Path} {text : String} {x : Index} (h : Index.Ordered x.overrides)
    (hroot : x.root = some root) (habs : root.isAbsolute = true) (hcache : x.cache.isAbsolute = true)
    (hq : (fs.canonical p).isAbsolute = true)
    (hu : ∀ tail, (fs.canonical p).steps = root.steps ++ tail → Unspaced tail)
    (hio : ∀ path fault, (x.rescan fs p text).2.2 ≠ .error (.io path fault)) :
    Replaced root (fs.canonical p) x (x.rescan fs p text).1 ∧
      ∀ tail, tail ≠ [] → (fs.canonical p).steps = root.steps ++ tail →
        ∃ r, (Label.ofPath root (fs.canonical p), r) ∈ (x.rescan fs p text).1.overrides ∧
          r.corpus = Corpus.ofSymbols (Label.ofPath root (fs.canonical p))
            (extractSymbols text (rescanModule root (fs.canonical p) r.id)) := by
  by_cases hin : root.steps <+: (fs.canonical p).steps
  · obtain ⟨tail, hsteps⟩ := hin
    have hb : root.Below (fs.canonical p) tail := ⟨habs, hq, hsteps.symm⟩
    obtain ⟨module, hmodule, hx⟩ := Index.rescan_below hroot hcache hb (hu tail hsteps.symm) hio
    refine ⟨replaced_insert h ?_ hx, fun tail' ht' hsteps' => ?_⟩
    · refine ⟨hq, hu, rfl, fun _ e he => ?_, fun hout => absurd ⟨tail, hsteps⟩ hout⟩
      obtain ⟨s, -, rfl⟩ := List.mem_map.1 he
      rfl
    · have htail : tail = tail' := List.append_cancel_left (hsteps.trans hsteps')
      rw [hx]
      refine ⟨_, (Index.mem_insertOverride h).2 (.inl rfl), ?_⟩
      simp only [hmodule (htail ▸ ht')]
  · have hno (tail : List (List Char)) (hsteps : (fs.canonical p).steps = root.steps ++ tail) : False :=
      hin (hsteps ▸ List.prefix_append _ _)
    refine ⟨?_, fun tail _ hsteps => (hno tail hsteps).elim⟩
    obtain hx | ⟨r, hr, hx⟩ := Index.rescan_outside hroot habs hq hin hio
    · rw [hx]
      exact ⟨rfl, rfl, rfl, h, fun _ ho => .inl ho, fun _ ho _ => ho⟩
    · exact replaced_insert h ⟨hq, hu, rfl, fun hc => absurd hc hin, fun _ => hr⟩ hx

/-! ### Synchrony -/

/-- The entries of a named document are those of its text, if it is in the project. -/
structure Stands (root q : Path) (text : String) (overrides : List (String × Rescan)) : Prop where
  absolute : q.isAbsolute = true
  unspaced : ∀ tail, q.steps = root.steps ++ tail → Unspaced tail
  entries : ∀ tail, tail ≠ [] → q.steps = root.steps ++ tail →
    ∃ r, (Label.ofPath root q, r) ∈ overrides ∧ r.corpus =
      Corpus.ofSymbols (Label.ofPath root q) (extractSymbols text (rescanModule root q r.id))

/-- What holds of a server after the given messages: each override is of a path that was named, and
each document has its entries under the label of the path by which it was named last. -/
structure Synced (root : Path) (scanned : Corpus) (seen : List (FileSystem × Message)) (s : Server) :
    Prop where
  rooted : root.isAbsolute = true
  root_eq : s.index.root = some root
  cache : s.index.cache.isAbsolute = true
  project : s.index.project = scanned
  ordered : Index.Ordered s.index.overrides
  overrides : ∀ o ∈ s.index.overrides,
    ∃ q, Held root q o ∧ (lastNamed seen q.components).isSome = true
  documents : ∀ k text, s.documents.at? k = some text →
    ∃ q, lastNamed seen k = some q ∧ q.components = k ∧ Stands root q text s.index.overrides

/-- An override of another path stays. -/
theorem Stands.replaced {q q' : Path} {text : String} {x x' : Index}
    (h : Stands root q text x.overrides) (hr : Replaced root q' x x') (hroot : root.isAbsolute = true)
    (hq' : q'.isAbsolute = true) (hu' : ∀ tail, q'.steps = root.steps ++ tail → Unspaced tail)
    (hne : q'.components ≠ q.components) : Stands root q text x'.overrides := by
  refine ⟨h.absolute, h.unspaced, fun tail ht hsteps => ?_⟩
  obtain ⟨r, hmem, hcorpus⟩ := h.entries tail ht hsteps
  have hlabel := ofPath_ne ⟨hroot, h.absolute, hsteps⟩ (h.unspaced tail hsteps) hq' hu' hne
  exact ⟨r, hr.forth _ hmem hlabel.symm, hcorpus⟩

/-- A message about one path keeps the server in step if it replaces only what is of that path. -/
theorem Synced.of_replaced {p : Path} (h : Synced root scanned seen s) (hp : m.path? = some p)
    (hu : ∀ tail, (fs.canonical p).steps = root.steps ++ tail → Unspaced tail)
    (hr : Replaced root (fs.canonical p) s.index s'.index)
    (hother : ∀ k, (fs.canonical p).components ≠ k → s'.documents.at? k = s.documents.at? k)
    (hown : ∀ text, s'.documents.at? (fs.canonical p).components = some text →
      Stands root (fs.canonical p) text s'.index.overrides) :
    Synced root scanned (seen ++ [(fs, m)]) s' where
  rooted := h.rooted
  root_eq := hr.root_eq.trans h.root_eq
  cache := hr.cache_eq ▸ h.cache
  project := hr.project_eq.trans h.project
  ordered := hr.ordered
  overrides o ho := by
    obtain ho | hheld := hr.back o ho
    · obtain ⟨q, hq, hseen⟩ := h.overrides o ho
      exact ⟨q, hq, isSome_lastNamed_concat hseen⟩
    · refine ⟨_, hheld, ?_⟩
      rw [lastNamed_concat_self hp]
      rfl
  documents k text hk := by
    by_cases hkey : (fs.canonical p).components = k
    · subst hkey
      exact ⟨_, lastNamed_concat_self hp, rfl, hown text hk⟩
    · rw [hother k hkey] at hk
      obtain ⟨q, hq, rfl, hstands⟩ := h.documents k text hk
      refine ⟨q, ?_, rfl, hstands.replaced hr h.rooted ?_ hu hkey⟩
      · rw [lastNamed_concat_of_ne, hq]
        intro p' hp'
        obtain rfl := Option.some.inj (hp.symm.trans hp')
        exact hkey
      · exact FileSystem.isAbsolute_canonical (m.isAbsolute_of_path? hp)

theorem Synced.of_kept (h : Synced root scanned seen s) (hp : m.path? = none)
    (hindex : s'.index = s.index) (hdocuments : s'.documents = s.documents) :
    Synced root scanned (seen ++ [(fs, m)]) s' where
  rooted := h.rooted
  root_eq := hindex ▸ h.root_eq
  cache := hindex ▸ h.cache
  project := hindex ▸ h.project
  ordered := hindex ▸ h.ordered
  overrides o ho := by
    obtain ⟨q, hq, hseen⟩ := h.overrides o (hindex ▸ ho)
    exact ⟨q, hq, isSome_lastNamed_concat hseen⟩
  documents k text hk := by
    obtain ⟨q, hq, hkey, hstands⟩ := h.documents k text (hdocuments ▸ hk)
    refine ⟨q, ?_, hkey, hindex ▸ hstands⟩
    rw [lastNamed_concat_of_ne (fun p hp' => by rw [hp] at hp'; cases hp'), hq]

/-- A path without steps upward has one key in whatever trees. -/
theorem key_of_path? {p : Path} (hp : m.path? = some p) (h : ['.', '.'] ∉ p.pieces)
    (fs fs' : FileSystem) : Documents.key fs' p = (fs.canonical p).components := by
  have habs := m.isAbsolute_of_path? hp
  rw [Documents.key, FileSystem.components_canonical habs h, FileSystem.components_canonical habs h]

/-- A document that was opened has the text that came with it. -/
theorem get?_of_didOpen {uri : Uri} {p : Path} {text : String} (fs fs' : FileSystem)
    (hroot : s.index.root.isSome = true) (hn : m.notice? = some (.didOpen uri text))
    (hp : m.path? = some p) (h : ['.', '.'] ∉ p.pieces) :
    (s.handle fs m).1.documents.get? fs' p = some text := by
  have hpath := (Message.path?_of_notice? hn rfl).symm.trans hp
  cases m with
  | request r => cases hn
  | response r => cases hn
  | notification n =>
    have hc : ClientNotification.parse? n.method n.params = some (.didOpen uri text) := hn
    obtain ⟨-, hdocuments⟩ := updateDocument_of_toPath? fs hroot hpath text
    have hhandle : (s.handle fs (.notification n)).1.documents =
        (s.updateDocument fs uri text).1.documents := by
      rw [handle, handleNotification, hc]
    rw [hhandle, hdocuments, Documents.get?_eq, key_of_path? hp h fs, ← key_of_path? hp h fs,
      Documents.at?_update_self]

/-- Every regular message keeps the server in step. -/
theorem Synced.handle (h : Synced root scanned seen s) (hm : Regular root s fs m) :
    Synced root scanned (seen ++ [(fs, m)]) (s.handle fs m).1 := by
  have hroot : s.index.root.isSome = true := by rw [h.root_eq]; rfl
  have hkey {p : Path} (hp : m.path? = some p) (fs' : FileSystem) :
      Documents.key fs' p = (fs.canonical p).components := key_of_path? hp (hm.level p hp) fs fs'
  have hrescan {p : Path} {text : String} (hp : m.path? = some p)
      (hgiven : m.notice?.bind (s.newText? fs p) = some text) :=
    replaced_rescan h.ordered h.root_eq h.rooted h.cache
      (FileSystem.isAbsolute_canonical (m.isAbsolute_of_path? hp)) (hm.unspaced p hp)
      (hm.written p text hp hgiven)
  cases outcome_handle fs hroot hm.once with
  | @updated p text hp hgiven hindex hdocuments =>
    obtain ⟨hr, hentries⟩ := hrescan hp hgiven
    rw [← hindex] at hr hentries
    refine h.of_replaced hp (hm.unspaced p hp) hr (fun k hk => ?_) fun text' ht => ?_
    · rw [hdocuments, Documents.at?_update_of_ne (by rw [hkey hp]; exact hk.symm)]
    · rw [hdocuments, ← hkey hp, Documents.at?_update_self] at ht
      obtain rfl := Option.some.inj ht
      exact ⟨FileSystem.isAbsolute_canonical (m.isAbsolute_of_path? hp), hm.unspaced p hp, hentries⟩
  | @reread p text hp hgiven hindex hdocuments =>
    obtain ⟨hr, -⟩ := hrescan hp hgiven
    rw [← hindex] at hr
    refine h.of_replaced hp (hm.unspaced p hp) hr (fun k hk => ?_) fun text' ht => ?_
    · rw [hdocuments, Documents.at?_close_of_ne (by rw [hkey hp]; exact hk.symm)]
    · rw [hdocuments, ← hkey hp fs, Documents.at?_close_self] at ht
      cases ht
  | @forgotten p hp hindex hdocuments =>
    have hr := replaced_forget fs p h.ordered h.root_eq
    rw [← hindex] at hr
    refine h.of_replaced hp (hm.unspaced p hp) hr (fun k hk => ?_) fun text' ht => ?_
    · rw [hdocuments, Documents.at?_close_of_ne (by rw [hkey hp]; exact hk.symm)]
    · rw [hdocuments, ← hkey hp fs, Documents.at?_close_self] at ht
      cases ht
  | kept hpath hindex hdocuments =>
    cases hp : m.path? with
    | none => exact h.of_kept hp hindex hdocuments
    | some p =>
      have hr : Replaced root (fs.canonical p) s.index (s.handle fs m).1.index := by
        rw [hindex]
        exact .refl h.ordered
      refine h.of_replaced hp (hm.unspaced p hp) hr (fun k _ => by rw [hdocuments]) fun text' ht => ?_
      have hnone := hpath p hp
      rw [Documents.get?_eq, Documents.key] at hnone
      rw [hdocuments, hnone] at ht
      cases ht

/-- So does a whole run. -/
theorem Synced.attend {rest : List (FileSystem × Message)} (h : Synced root scanned seen s)
    (hr : Regularly root s rest) : Synced root scanned (seen ++ rest) (s.attend rest) := by
  induction rest generalizing s seen with
  | nil => simpa [Server.attend] using h
  | cons e rest ih =>
    obtain ⟨fs, m⟩ := e
    have hnext := ih (h.handle hr.1) hr.2
    rw [List.append_assoc] at hnext
    exact hnext

/-! ### From the scan on -/

theorem isAbsolute_of_isDirectory {p : Path} (h : fs.isDirectory (fs.canonical p) = true) :
    (fs.canonical p).isAbsolute = true ∧ fs.isFile (fs.canonical p) = false := by
  have hnode : fs.nodeAt? (fs.canonical p) = some .directory := by
    simpa [FileSystem.isDirectory] using h
  refine ⟨?_, by rw [FileSystem.isFile, hnode]⟩
  rw [FileSystem.canonical] at hnode ⊢
  split
  · exact FileSystem.isAbsolute_pathOf _
  · rename_i e he
    rw [he] at hnode
    simp [FileSystem.nodeAt?, he] at hnode

theorem cache_create (fs₀ : FileSystem) (cache : Path) :
    (create fs₀ cache).1.index.cache = cache := by
  simp only [create, Index.create]
  split <;> rfl

/-- After the request to set up, nothing has been named and there are no documents. -/
theorem synced_setUp {fs₀ : FileSystem} {cache dir : Path} {r : Request} {summary : ScanSummary}
    (hcache : cache.isAbsolute = true)
    (hinit : ClientRequest.parse? r.method r.params = some (.setUp (some dir)))
    (hdir : fs.isDirectory (fs.canonical dir) = true)
    (hscan : ((create fs₀ cache).1.index.scan fs dir).2.2 = .ok summary)
    (hs : ((create fs₀ cache).1.handle fs (.request r)).1 = s) :
    Synced (fs.canonical dir) s.index.project [] s := by
  obtain ⟨habs, hfile⟩ := isAbsolute_of_isDirectory hdir
  obtain ⟨hroot, hover, hkept⟩ := Index.scan_directory hscan hfile
  have hindex : s.index = ((create fs₀ cache).1.index.scan fs dir).1 := by
    rw [← hs, handle, handleRequest, hinit]
    rfl
  have hdocuments : s.documents = {} := by
    rw [← hs, handle, handleRequest, hinit]
    rfl
  refine ⟨habs, ?_, ?_, rfl, ?_, ?_, ?_⟩
  · rw [hindex, hroot]
  · rw [hindex, hkept, cache_create, hcache]
  · rw [hindex, hover]
    exact List.Pairwise.nil
  · rw [hindex, hover]
    simp
  · rw [hdocuments]
    rintro k text ⟨⟩

theorem Synced.entriesOf_document {k : List Path.Component} {text : String} {tail : List (List Char)}
    (h : Synced root scanned seen s) (hk : s.documents.at? k = some text) (ht : tail ≠ [])
    (hb : ∀ q : Path, q.components = k → q.isAbsolute = true → q.steps = root.steps ++ tail) :
    ∃ q id, lastNamed seen k = some q ∧ s.index.entriesOf (Label.ofPath root q) =
      Corpus.ofSymbols (Label.ofPath root q) (extractSymbols text (rescanModule root q id)) := by
  obtain ⟨q, hq, hcomponents, hstands⟩ := h.documents k text hk
  have hsteps := hb q hcomponents hstands.absolute
  obtain ⟨r, hr, hcorpus⟩ := hstands.entries tail ht hsteps
  refine ⟨q, r.id, hq, ?_⟩
  rw [← hcorpus]
  refine Index.entriesOf_of_mem h.ordered hr ?_ fun o ho hne => ?_
  · intro e he
    rw [hcorpus] at he
    obtain ⟨symbol, -, rfl⟩ := List.mem_map.1 he
    rfl
  · obtain ⟨q', hheld, -⟩ := h.overrides o ho
    exact hheld.file_ne ⟨h.rooted, hstands.absolute, hsteps⟩ (hstands.unspaced tail hsteps) hne

theorem Synced.entriesOf_unnamed {q : Path} {tail : List (List Char)}
    (h : Synced root scanned seen s) (hb : root.Below q tail) (hu : Unspaced tail)
    (hnone : lastNamed seen q.components = none) :
    s.index.entriesOf (Label.ofPath root q) =
      scanned.filter fun e => e.tag.file == Label.ofPath root q := by
  rw [← h.project]
  refine Index.entriesOf_of_forall fun o ho => ?_
  obtain ⟨q', hheld, hnamed⟩ := h.overrides o ho
  have hne : o.1 ≠ Label.ofPath root q := by
    rw [hheld.label]
    refine ofPath_ne hb hu hheld.absolute hheld.unspaced fun hsame => ?_
    rw [hsame, hnone] at hnamed
    cases hnamed
  exact ⟨hne, hheld.file_ne hb hu hne⟩

/-- Whatever regular messages follow the scan of a root directory, each finding whatever tree: every open
document of the project has, under the label of the path by which it was named last, exactly the entries
of its text, in the module of that path unless it is an `init` directly in the root; and every file of the
project that was not named has the entries of the scan. -/
theorem entries_in_step {fs₀ : FileSystem} {cache dir : Path} {r : Request} {summary : ScanSummary}
    {messages : List (FileSystem × Message)} (hcache : cache.isAbsolute = true)
    (hinit : ClientRequest.parse? r.method r.params = some (.setUp (some dir)))
    (hdir : fs.isDirectory (fs.canonical dir) = true)
    (hscan : ((create fs₀ cache).1.index.scan fs dir).2.2 = .ok summary)
    (hs : ((create fs₀ cache).1.handle fs (.request r)).1 = s)
    (hrun : Regularly (fs.canonical dir) s messages) (fs' : FileSystem) (p : Path)
    {tail : List (List Char)} (ht : tail ≠ [])
    (hb : (fs.canonical dir).Below (fs'.canonical p) tail) (hu : Unspaced tail) :
    (∀ text, (s.attend messages).documents.get? fs' p = some text →
      ∃ q id, lastNamed messages (fs'.canonical p).components = some q ∧
        (s.attend messages).index.entriesOf (Label.ofPath (fs.canonical dir) q) =
          Corpus.ofSymbols (Label.ofPath (fs.canonical dir) q)
            (extractSymbols text (rescanModule (fs.canonical dir) q id))) ∧
      (lastNamed messages (fs'.canonical p).components = none →
        (s.attend messages).index.entriesOf ((s.attend messages).index.labelOf fs' p) =
          s.index.entriesOf (s.index.labelOf fs' p)) := by
  have hstart := synced_setUp hcache hinit hdir hscan hs
  have hend := hstart.attend hrun
  rw [List.nil_append] at hend
  constructor
  · intro text htext
    refine hend.entriesOf_document htext ht fun q hq habs => ?_
    rw [Path.steps_eq_of_components habs hb.absolute hq, hb.steps]
  · intro hnone
    rw [Index.labelOf, Index.labelOf, hend.root_eq, hstart.root_eq]
    simp only
    rw [hend.entriesOf_unnamed hb hu hnone, hstart.entriesOf_unnamed hb hu rfl]

/-- Two empty directories: a project and a private directory. -/
def emptyTree : FileSystem := { nodes := [(["w"], .directory), (["c"], .directory)] }

def setUpEmpty : Request where
  id := .number 1
  method := "initialize"
  params := .obj [("capabilities", .obj []), ("rootUri", .str "file:///w")]

/-- Opens a new file named `init` directly in the root. -/
def openInit : Message := .notification {
  method := "textDocument/didOpen"
  params := .obj [("textDocument", .obj [("uri", .str "file:///w/init.luau"),
    ("languageId", .str "lua"), ("version", .int 1), ("text", .str "local M = {}\nreturn M\n")])] }

/-- The server after the request to set up in the empty directory. -/
def scannedEmpty : Server := ((create {} ⟨"/c"⟩).1.handle emptyTree (.request setUpEmpty)).1

theorem notice?_openInit : openInit.notice? = some (.didOpen
    { scheme := "file", authority := some "", path := "/w/init.luau" }
    "local M = {}\nreturn M\n") := by
  decide +kernel

theorem path?_openInit : openInit.path? = some ⟨"/w/init.luau"⟩ := by
  rw [Message.path?_of_notice? notice?_openInit rfl]
  decide +kernel

theorem isOk_rescan_init : (scannedEmpty.index.rescan emptyTree ⟨"/w/init.luau"⟩
    "local M = {}\nreturn M\n").2.2.isOk = true := by
  decide +kernel

theorem unspaced_init : Unspaced ["init.luau".toList] := by decide

theorem below_init : Path.Below ⟨"/w"⟩ (emptyTree.canonical ⟨"/w/init.luau"⟩) ["init.luau".toList] :=
  ⟨by decide, by decide, by decide⟩

theorem regular_openInit : Regular ⟨"/w"⟩ scannedEmpty emptyTree openInit where
  once r dir h := by cases h
  level p hp := by
    obtain rfl := Option.some.inj (hp.symm.trans path?_openInit)
    decide
  unspaced p hp tail hsteps := by
    obtain rfl := Option.some.inj (hp.symm.trans path?_openInit)
    obtain rfl := List.append_cancel_left (below_init.steps.symm.trans hsteps)
    exact unspaced_init
  written p text hp htext path fault herror := by
    obtain rfl := Option.some.inj (hp.symm.trans path?_openInit)
    rw [notice?_openInit] at htext
    obtain rfl := Option.some.inj htext
    have hok := isOk_rescan_init
    rw [herror] at hok
    cases hok

/-- The entry of an `init` directly in the root is of a module named after the scan. -/
theorem entries_in_step_init : ∃ id : RescanId,
    (scannedEmpty.attend [(emptyTree, openInit)]).index.entriesOf
        (Label.ofPath ⟨"/w"⟩ ⟨"/w/init.luau"⟩) =
      Corpus.ofSymbols (Label.ofPath ⟨"/w"⟩ ⟨"/w/init.luau"⟩)
        (extractSymbols "local M = {}\nreturn M\n" id.text) := by
  have hroot : emptyTree.canonical ⟨"/w"⟩ = ⟨"/w"⟩ := by decide
  have hinit : ClientRequest.parse? setUpEmpty.method setUpEmpty.params =
      some (.setUp (some ⟨"/w"⟩)) := by decide +kernel
  obtain ⟨summary, hscan⟩ : ∃ summary,
      ((create {} ⟨"/c"⟩).1.index.scan emptyTree ⟨"/w"⟩).2.2 = .ok summary := by
    have hok : ((create {} ⟨"/c"⟩).1.index.scan emptyTree ⟨"/w"⟩).2.2.isOk = true := by
      decide +kernel
    cases hr : ((create {} ⟨"/c"⟩).1.index.scan emptyTree ⟨"/w"⟩).2.2 with
    | ok summary => exact ⟨summary, rfl⟩
    | error e =>
      rw [hr] at hok
      cases hok
  have hrun : Regularly (emptyTree.canonical ⟨"/w"⟩) scannedEmpty [(emptyTree, openInit)] := by
    rw [hroot]
    exact ⟨regular_openInit, trivial⟩
  have hopen : (scannedEmpty.attend [(emptyTree, openInit)]).documents.get? emptyTree
      ⟨"/w/init.luau"⟩ = some "local M = {}\nreturn M\n" := by
    rw [attend, List.foldl_cons, List.foldl_nil]
    exact get?_of_didOpen _ _ (by decide +kernel) notice?_openInit path?_openInit (by decide)
  have hnamed : lastNamed [(emptyTree, openInit)]
      (emptyTree.canonical ⟨"/w/init.luau"⟩).components = some ⟨"/w/init.luau"⟩ := by decide +kernel
  obtain ⟨h, -⟩ := entries_in_step (by decide) hinit (by decide) hscan rfl hrun
    emptyTree ⟨"/w/init.luau"⟩ (List.cons_ne_nil _ _) (hroot.symm ▸ below_init) unspaced_init
  obtain ⟨q, id, hq, hentries⟩ := h _ hopen
  obtain rfl := Option.some.inj (hq.symm.trans hnamed)
  refine ⟨id, ?_⟩
  rw [hroot, rescanModule, if_pos (by decide)] at hentries
  exact hentries

end Server

end LuaLens
