import LuaLens.Proofs.Index.Rescan

/-!
Calls of an index, one after the other. What was rescanned since the last full scan and not forgotten
counts for its label, and for every other label what that scan loaded; the entries of two files never mix.
-/

namespace LuaLens.Index

variable {x : Index} {fs : FileSystem} {label : String}

/-! ### Runs -/

inductive Call
  | scan (root : Path)
  | rescan (p : Path) (text : String)
  | forget (p : Path)
deriving DecidableEq, Repr

/-- The index after a call that finds the given tree. -/
def perform (x : Index) (fs : FileSystem) : Call → Index
  | .scan root => (x.scan fs root).1
  | .rescan p text => (x.rescan fs p text).1
  | .forget p => (x.forget fs p).1

/-- The index after calls. Between any two of them the files may change. -/
def run (x : Index) (calls : List (FileSystem × Call)) : Index :=
  calls.foldl (fun x e => x.perform e.1 e.2) x

/-- The label of a call that is about one document. -/
def Call.label? (x : Index) (fs : FileSystem) : Call → Option String
  | .scan _ => none
  | .rescan p _ | .forget p => some (x.labelOf fs p)

/-- The path of a document that is scanned has no white space and no backslashes. -/
def Call.Unspaced (fs : FileSystem) : Call → Prop
  | .rescan p _ => LuaLens.Unspaced (fs.canonical p).pieces
  | .scan _ | .forget _ => True

/-! ### What is to be remembered -/

/-- What a call brings to be remembered of it. -/
inductive Note
  | scanned (loaded : Corpus)
  | rescanned (label : String) (loaded : Corpus)
  | forgotten (label : String)
deriving DecidableEq, Repr

/-- A call that fails brings nothing, but a scan that fails after its files were found has given up what
was loaded before. -/
def note? (x : Index) (fs : FileSystem) : Call → Option Note
  | .scan root =>
    match x.scan fs root with
    | (_, after, .ok _) =>
      some (.scanned ((Corpus.load after (x.cache.join "tags") (x.cache.join "api")).toOption.getD []))
    | (_, _, .error _) => if (x.plan fs root).2.isOk then some (.scanned []) else none
  | .rescan p text =>
    match x.root, (x.rescan fs p text).2.2 with
    | some root, .ok _ =>
      some (.rescanned (x.labelOf fs p) (x.rescanned root (fs.canonical p) text))
    | _, _ => none
  | .forget p => some (.forgotten (x.labelOf fs p))

def notes (x : Index) : List (FileSystem × Call) → List Note
  | [] => []
  | (fs, call) :: rest => (x.note? fs call).toList ++ notes (x.perform fs call) rest

/-- What the last full scan loaded. -/
def lastScanned (notes : List Note) : Corpus :=
  notes.foldl (fun last note =>
    match note with
    | .scanned loaded => loaded
    | .rescanned _ _ | .forgotten _ => last) []

/-- What the last rescan of a label loaded, unless it was forgotten or all was scanned since. -/
def lastRescanned (label : String) (notes : List Note) : Option Corpus :=
  notes.foldl (fun last note =>
    match note with
    | .scanned _ => none
    | .rescanned l loaded => if l = label then some loaded else last
    | .forgotten l => if l = label then none else last) none

theorem lastScanned_concat (notes : List Note) (note : Note) :
    lastScanned (notes ++ [note]) =
      match note with
      | .scanned loaded => loaded
      | .rescanned _ _ | .forgotten _ => lastScanned notes := by
  rw [lastScanned, List.foldl_append]
  rfl

theorem lastRescanned_concat (label : String) (notes : List Note) (note : Note) :
    lastRescanned label (notes ++ [note]) =
      match note with
      | .scanned _ => none
      | .rescanned l loaded => if l = label then some loaded else lastRescanned label notes
      | .forgotten l => if l = label then none else lastRescanned label notes := by
  rw [lastRescanned, List.foldl_append]
  rfl

/-! ### One call -/

/-- An index holds what there is to remember, and under each label entries of that label only. -/
structure Holds (x : Index) (notes : List Note) : Prop where
  cache : x.cache.isAbsolute = true
  ordered : Ordered x.overrides
  own : ∀ o ∈ x.overrides, ∀ e ∈ o.2.corpus, e.tag.file = o.1
  project : x.project = lastScanned notes
  overrides : ∀ label c, (∃ r, (label, r) ∈ x.overrides ∧ r.corpus = c) ↔
    lastRescanned label notes = some c

variable {notes : List Note}

theorem Holds.scanned {x' : Index} {loaded : Corpus} (h : Holds x notes) (hcache : x'.cache = x.cache)
    (hproject : x'.project = loaded) (hoverrides : x'.overrides = []) :
    Holds x' (notes ++ [.scanned loaded]) where
  cache := hcache ▸ h.cache
  ordered := by
    rw [hoverrides]
    exact .nil
  own := by simp [hoverrides]
  project := by rw [hproject, lastScanned_concat]
  overrides label c := by simp [hoverrides, lastRescanned_concat]

theorem Holds.rescanned {x' : Index} {id : RescanId} {c : Corpus} (h : Holds x notes)
    (hc : ∀ e ∈ c, e.tag.file = label)
    (hx : x' = { x with
      issued := x.issued + 1
      overrides := insertOverride label { id, corpus := c } x.overrides }) :
    Holds x' (notes ++ [.rescanned label c]) where
  cache := hx ▸ h.cache
  ordered := hx ▸ ordered_insertOverride h.ordered _ _
  own o ho := by
    rw [hx, mem_insertOverride h.ordered] at ho
    obtain rfl | ⟨ho, -⟩ := ho
    · exact hc
    · exact h.own o ho
  project := by rw [hx, lastScanned_concat, h.project]
  overrides l d := by
    rw [lastRescanned_concat, hx]
    simp only [mem_insertOverride h.ordered]
    by_cases hl : label = l
    · subst hl
      simp
    · rw [if_neg hl, ← h.overrides l d]
      simp [Ne.symm hl]

theorem Holds.forgotten {p : Path} (h : Holds x notes) :
    Holds (x.forget fs p).1 (notes ++ [.forgotten (x.labelOf fs p)]) := by
  rw [forget_eq]
  refine ⟨h.cache, h.ordered.filter _, fun o ho => h.own o (List.mem_filter.1 ho).1, ?_, ?_⟩
  · rw [lastScanned_concat, h.project]
  · intro l d
    rw [lastRescanned_concat]
    simp only [List.mem_filter]
    by_cases hl : x.labelOf fs p = l
    · simp [hl]
    · rw [if_neg hl, ← h.overrides l d]
      simp [Ne.symm hl]

/-- After each call an index holds what the call brings, too. -/
theorem Holds.perform {call : Call} (h : Holds x notes) (hc : call.Unspaced fs) :
    Holds (x.perform fs call) (notes ++ (x.note? fs call).toList) := by
  cases call with
  | scan root =>
    obtain ⟨config, ⟨e, hplan, hscan⟩ | ⟨base, files, truncated, hplan, ⟨e, he, hx⟩ |
      ⟨written, loaded, -, hload, hscan⟩⟩⟩ := scan_cases x fs root
    · have hnote : x.note? fs (.scan root) = none := by
        rw [note?, hscan, hplan]
        rfl
      rw [hnote, Option.toList_none, List.append_nil, Index.perform, hscan]
      exact ⟨h.cache, h.ordered, h.own, h.project, h.overrides⟩
    · have hnote : x.note? fs (.scan root) = some (.scanned []) := by
        rw [note?, hplan]
        rcases hscan : x.scan fs root with ⟨x', after, result⟩
        rw [hscan] at he
        obtain rfl : result = .error e := he
        rfl
      rw [hnote, Index.perform, hx]
      exact h.scanned rfl rfl rfl
    · rw [Index.perform, note?, hscan]
      simp only [hload]
      exact h.scanned rfl rfl rfl
  | rescan p text =>
    rw [Index.perform, note?]
    cases hroot : x.root with
    | none =>
      rw [rescan, hroot]
      simpa using h
    | some root =>
      have hlabel : x.labelOf fs p = Label.ofPath root (fs.canonical p) := by rw [labelOf, hroot]
      obtain ⟨e, he, hx⟩ | ⟨hok, hx⟩ := rescan_unspaced hroot h.cache hc text
      · rw [hx, he, Option.toList_none, List.append_nil]
        exact ⟨h.cache, h.ordered, h.own, h.project, h.overrides⟩
      · rw [hok, hlabel]
        refine h.rescanned (fun e he => ?_) hx
        obtain ⟨s, -, rfl⟩ := List.mem_map.1 he
        rfl
  | forget p => exact h.forgotten

/-! ### All calls -/

theorem Holds.run {calls : List (FileSystem × Call)} (h : Holds x notes)
    (hc : ∀ e ∈ calls, e.2.Unspaced e.1) : Holds (x.run calls) (notes ++ x.notes calls) := by
  induction calls generalizing x notes with
  | nil => simpa [Index.run, Index.notes] using h
  | cons e calls ih =>
    have hrest := ih (h.perform (hc e (by simp))) fun d hd => hc d (by simp [hd])
    rwa [List.append_assoc] at hrest

/-- The entries of a label are those of its last rescan or else of the last full scan. -/
theorem Holds.entriesOf_eq (h : Holds x notes) (label : String) :
    x.entriesOf label = (lastRescanned label notes).getD
      ((lastScanned notes).filter fun e => e.tag.file == label) := by
  cases hlast : lastRescanned label notes with
  | some c =>
    obtain ⟨r, hr, rfl⟩ := (h.overrides label c).2 hlast
    refine entriesOf_of_mem h.ordered hr (h.own _ hr) fun o ho hne e he => ?_
    rw [h.own o ho e he]
    exact hne
  | none =>
    rw [Option.getD_none, ← h.project]
    refine entriesOf_of_forall fun o ho => ?_
    have hne : o.1 ≠ label := by
      rintro rfl
      have hsome := (h.overrides o.1 o.2.corpus).1 ⟨o.2, ho, rfl⟩
      rw [hlast] at hsome
      cases hsome
    exact ⟨hne, fun e he => by rwa [h.own o ho e he]⟩

/-- A call about one document leaves the entries of every other label. -/
theorem Holds.entriesOf_perform {call : Call} {l : String} (h : Holds x notes) (hc : call.Unspaced fs)
    (hl : call.label? x fs = some l) (hne : label ≠ l) :
    (x.perform fs call).entriesOf label = x.entriesOf label := by
  rw [(h.perform hc).entriesOf_eq, h.entriesOf_eq]
  cases call with
  | scan root => cases hl
  | rescan p text =>
    obtain rfl : x.labelOf fs p = l := Option.some.inj hl
    rw [note?]
    split
    · simp only [Option.toList_some, lastRescanned_concat, lastScanned_concat, if_neg (Ne.symm hne)]
    · rw [Option.toList_none, List.append_nil]
  | forget p =>
    obtain rfl : x.labelOf fs p = l := Option.some.inj hl
    simp only [note?, Option.toList_some, lastRescanned_concat, lastScanned_concat,
      if_neg (Ne.symm hne)]

theorem create_index (fs : FileSystem) (cache : Path) : (create fs cache).1 = { cache } := by
  simp only [create]
  split <;> rfl

theorem holds_create (fs : FileSystem) {cache : Path} (h : cache.isAbsolute = true) :
    Holds (create fs cache).1 [] := by
  rw [create_index]
  exact ⟨h, .nil, by simp, rfl, by simp [lastRescanned]⟩

/-- Whatever calls an index has seen, its entries are sorted by label; the entries of a label are, in
source order, those of its last rescan that nothing has undone or else those of the last full scan; a
call about one document changes no other label; and the built-in entries follow. -/
theorem entries_of_calls (fs₀ : FileSystem) {cache : Path} (hcache : cache.isAbsolute = true)
    {calls : List (FileSystem × Call)} (hc : ∀ e ∈ calls, e.2.Unspaced e.1) :
    let x := (create fs₀ cache).1.run calls
    let seen := (create fs₀ cache).1.notes calls
    (x.projectEntries.Pairwise fun a b => a.tag.file ≤ b.tag.file) ∧
      (∀ label, x.projectEntries.filter (fun e => e.tag.file == label) =
        (lastRescanned label seen).getD
          ((lastScanned seen).filter fun e => e.tag.file == label)) ∧
      (∀ fs call label l, call.Unspaced fs → call.label? x fs = some l → label ≠ l →
        (x.perform fs call).projectEntries.filter (fun e => e.tag.file == label) =
          x.projectEntries.filter fun e => e.tag.file == label) ∧
      x.entries = x.projectEntries ++ Builtins.corpus := by
  intro x seen
  have h : Holds x seen := (holds_create fs₀ hcache).run hc
  refine ⟨pairwise_mergeSort_byLabel _ _, h.entriesOf_eq, ?_, rfl⟩
  intro fs call label l hcall hl hne
  exact h.entriesOf_perform hcall hl hne

/-- A project of one file. -/
def single : FileSystem where
  nodes := [(["c"], .directory), (["w"], .directory),
    (["w", "a.lua"], .file (.text "function f() end\n"))]

/-- A full scan, and a scan of a document that is no file yet. -/
def pairCalls : List (FileSystem × Call) :=
  [(single, .scan ⟨"/w"⟩), (single, .rescan ⟨"/w/b.lua"⟩ "function g() end\n")]

theorem unspaced_pairCalls : ∀ e ∈ pairCalls, e.2.Unspaced e.1 := by
  have hunspaced : LuaLens.Unspaced (single.canonical ⟨"/w/b.lua"⟩).pieces := by decide
  rw [pairCalls, List.forall_mem_cons, List.forall_mem_singleton]
  exact ⟨trivial, hunspaced⟩

/-- The entries of the file are those of the full scan, and of the document those of its rescan. -/
theorem entries_of_calls_pair :
    let x := (create {} ⟨"/c"⟩).1.run pairCalls
    ((x.projectEntries.filter fun e => e.tag.file == "$ROOT/a.lua").map (·.tag.name) = ["f"]) ∧
      (x.projectEntries.filter fun e => e.tag.file == "$ROOT/b.lua").map (·.tag.name) = ["g"] := by
  have hcache : Path.isAbsolute ⟨"/c"⟩ = true := by decide
  obtain ⟨-, hentries, -, -⟩ := entries_of_calls {} hcache unspaced_pairCalls
  simp only [hentries]
  decide +kernel

end LuaLens.Index
