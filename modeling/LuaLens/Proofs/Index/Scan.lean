import LuaLens.Proofs.Corpus.Load
import LuaLens.Proofs.Index.Entries
import LuaLens.Proofs.Path
import LuaLens.Proofs.Symbol

/-!
Scans of a whole project. The entries go through two files, and come back as they were exactly when no
symbol has a separator in its name or its owner.
-/

namespace LuaLens

open Text

/-- A symbol that survives the files of a corpus. -/
structure Symbol.Storable (s : Symbol) : Prop where
  name : ' ' ∉ s.name.toList ∧ '\t' ∉ s.name.toList ∧ '\n' ∉ s.name.toList
  owner : '\t' ∉ s.owner.toList ∧ '\n' ∉ s.owner.toList
  ownerEnd : s.owner.toList.getLast? ≠ some '\r'

namespace Index

variable {x : Index} {fs fs' : FileSystem} {root : Path} {dir : FileSystem.Location}
  {files sorted : List Path}

/-! ### Files -/

/-- The symbols of a file, none if it cannot be read. -/
def fileSymbols (fs : FileSystem) (p : Path) : List Symbol :=
  match fs.readText p with
  | .ok text => extractSymbols text (moduleNameOf p)
  | .error _ => []

/-- The entries of a file below a root. -/
def fileEntries (fs : FileSystem) (root p : Path) : Corpus :=
  Corpus.ofSymbols (Label.ofPath root p) (fileSymbols fs p)

theorem fileSymbols_congr {p : Path} {text : String} (h : fs.readText p = .ok text)
    (h' : fs'.readText p = .ok text) : fileSymbols fs' p = fileSymbols fs p := by
  rw [fileSymbols, fileSymbols, h, h']

/-- In whatever order files are found, their symbols come by label. -/
theorem extractFiles_eq (hread : ∀ p ∈ files, ∃ text, fs.readText p = .ok text)
    (hp : sorted.Perm files)
    (hs : sorted.Pairwise fun p q => Label.ofPath root p < Label.ofPath root q) :
    extractFiles fs root files = sorted.map fun p => (Label.ofPath root p, fileSymbols fs p) := by
  rw [extractFiles]
  refine (congrArg (List.mergeSort · _) (List.filterMap_congr
    (g := fun p => some (Label.ofPath root p, fileSymbols fs p)) fun p hp => ?_)).trans ?_
  · obtain ⟨text, ht⟩ := hread p hp
    simp only [fileSymbols, ht]
  · rw [List.filterMap_eq_map']
    refine mergeSort_byLabel_of_perm Prod.fst (hp.map _) ?_
    rw [List.pairwise_map]
    exact hs

/-! ### The private directory -/

/-- The private directory is there, and nothing stands in the way of the two files. -/
structure Ready (x : Index) (fs : FileSystem) (dir : FileSystem.Location) : Prop where
  located : fs.locate x.cache = .ok dir
  directory : fs.node? dir = some .directory
  tags : fs.node? (dir ++ ["tags"]) ≠ some .directory
  api : fs.node? (dir ++ ["api"]) ≠ some .directory

theorem thinned_foldl {names : List String} (hfs : fs.WellFormed) (hr : x.Ready fs dir)
    (hn : ∀ name ∈ names,
      FileSystem.IsName name ∧ ∃ c, fs.node? (dir ++ [name]) = some (.file c))
    (h : FileSystem.Thinned dir fs fs') :
    FileSystem.Thinned dir fs (names.foldl (fun fs name => fs.removeAt (x.cache.join name)) fs') := by
  induction names generalizing fs' with
  | nil => exact h
  | cons name names ih =>
    obtain ⟨hname, c, hc⟩ := hn name (by simp)
    rw [List.foldl_cons]
    exact ih (fun m hm => hn m (by simp [hm])) (h.removeAt hfs hr.located hr.directory hname hc)

/-- Clearing removes no file but those directly in the private directory. -/
theorem thinned_clear (hfs : fs.WellFormed) (hr : x.Ready fs dir) :
    FileSystem.Thinned dir fs (x.clear fs).2 := by
  refine thinned_foldl hfs hr ?_ (.refl dir fs)
  intro name hname
  rw [corpusFiles, hr.located, List.mem_filterMap] at hname
  obtain ⟨⟨m, n⟩, hm, he⟩ := hname
  have hmem := FileSystem.mem_children hm
  cases n with
  | directory => simp [Walk.isDirectoryNode] at he
  | file c =>
    obtain rfl : m = name := by simpa [Walk.isDirectoryNode] using he
    exact ⟨hfs.names _ hmem m (by simp), c, hfs.node?_of_mem hmem⟩

theorem Ready.of_thinned (hr : x.Ready fs dir) (h : FileSystem.Thinned dir fs fs') :
    x.Ready fs' dir := by
  have hdir := h.keeps.directory dir hr.directory
  have hfile (name : String) (hn : fs.node? (dir ++ [name]) ≠ some .directory) :
      fs'.node? (dir ++ [name]) ≠ some .directory := by
    obtain hs | ⟨hs, -⟩ := h.node (dir ++ [name])
    · rwa [hs]
    · simp [hs]
  exact ⟨h.keeps.locate (by rw [hdir]; rfl) hr.located, hdir, hfile _ hr.tags, hfile _ hr.api⟩

theorem isName_tags : FileSystem.IsName "tags" := by decide

theorem isName_api : FileSystem.IsName "api" := by decide

/-- Both files can be written. -/
theorem Ready.write (hr : x.Ready fs dir) (c : Corpus) :
    ∃ fs', c.write fs (x.cache.join "tags") (x.cache.join "api") = .ok fs' := by
  have htags := FileSystem.writeText_join hr.located hr.directory isName_tags hr.tags c.tagText
  have hkeeps := FileSystem.keeps_put hr.tags (.file (.text c.tagText))
  have hdir := hkeeps.directory dir hr.directory
  have hapi : (fs.put (dir ++ ["tags"]) (.file (.text c.tagText))).node? (dir ++ ["api"]) ≠
      some .directory := by
    rw [FileSystem.node?_put_of_ne (by simp)]
    exact hr.api
  have hwrite := FileSystem.writeText_join (hkeeps.locate (by rw [hdir]; rfl) hr.located) hdir
    isName_api hapi c.apiText
  rw [Corpus.write, htags]
  simp only [Except.mapError, bind, Except.bind, hwrite]
  exact ⟨_, rfl⟩

/-! ### Entries that are stored -/

theorem made_of_slash_not_mem {text module : String} {s : Symbol} (hm : '/' ∉ module.toList)
    (hs : s ∈ extractSymbols text module) : s.Made (· ≠ '/') := by
  refine made_of_mem_extractSymbols ?_ ?_ hs
  · rintro c hc rfl
    revert hc
    decide
  · rintro c hc rfl
    exact hm hc

/-- What is always so of the symbols of a file. -/
theorem made_of_mem_fileSymbols {p : Path} {s : Symbol} (hs : s ∈ fileSymbols fs p) :
    s.Made (· ≠ '/') := by
  rw [fileSymbols] at hs
  split at hs
  · exact made_of_slash_not_mem (slash_not_mem_moduleNameOf p) hs
  · cases hs

theorem mem_fileEntries {p : Path} {e : Entry} :
    e ∈ fileEntries fs root p ↔
      ∃ s ∈ fileSymbols fs p, Entry.ofSymbol (Label.ofPath root p) s = e := List.mem_map

/-- An owner without slashes does not end the locator. -/
theorem not_infix_of_slash_not_mem {owner : List Char} (h : '/' ∉ owner) :
    ¬ Tag.locatorEnd <:+: owner := by
  intro hi
  exact h (hi.subset (by rw [Tag.locatorEnd_eq]; simp))

theorem legible_ofSymbol {s : Symbol} (hs : s.Made (· ≠ '/')) (label : String)
    (hn : ' ' ∉ s.name.toList ∧ '\t' ∉ s.name.toList ∧ '\n' ∉ s.name.toList)
    (ho : '\t' ∉ s.owner.toList ∧ '\n' ∉ s.owner.toList) : (Entry.ofSymbol label s).Legible where
  tagName := hn.2
  owner := ho
  ownerEnd := not_infix_of_slash_not_mem fun h => hs.owner '/' h rfl
  locator := hs.locator
  apiName := ⟨hn.1, hn.2.2⟩
  doc := hs.doc

/-- The entries of files in order of label are in order of label. -/
theorem pairwise_flatMap_fileEntries (fs : FileSystem)
    (hs : sorted.Pairwise fun p q => Label.ofPath root p < Label.ofPath root q) :
    (sorted.flatMap (fileEntries fs root)).Pairwise fun a b => a.tag.file ≤ b.tag.file := by
  have hlabel {p : Path} {e : Entry} (he : e ∈ fileEntries fs root p) :
      e.tag.file = Label.ofPath root p := by
    obtain ⟨s, -, rfl⟩ := mem_fileEntries.1 he
    rfl
  rw [List.pairwise_flatMap]
  refine ⟨fun p _ => ?_, hs.imp fun hpq a ha b hb => ?_⟩
  · refine List.Pairwise.imp_of_mem (R := fun _ _ => True) ?_
      (List.pairwise_of_forall fun _ _ => trivial)
    intro a b ha hb _
    rw [hlabel ha, hlabel hb]
  · rw [hlabel ha, hlabel hb]
    exact le_of_lt hpq

/-- Storable symbols are loaded as they were written. -/
theorem load_of_storable {c : Corpus} {written : FileSystem} {dir : Path} {t a : String}
    (hc : ∀ e ∈ c, ∃ label s, Entry.ofSymbol label s = e ∧ s.Made (· ≠ '/') ∧ s.Storable)
    (ht : Path.IsPlain t) (ha : Path.IsPlain a) (hne : t ≠ a)
    (hw : c.write fs (dir.join t) (dir.join a) = .ok written) :
    Corpus.load written (dir.join t) (dir.join a) = .ok c := by
  have hlegible : ∀ e ∈ c, e.Legible := by
    intro e he
    obtain ⟨label, s, rfl, hmade, hs⟩ := hc e he
    exact legible_ofSymbol hmade label hs.name hs.owner
  have hstored : c.map Entry.stored = c := by
    rw [List.map_congr_left (g := id), List.map_id]
    intro e he
    obtain ⟨label, s, rfl, -, hs⟩ := hc e he
    exact Entry.stored_of_getLast?_ne hs.ownerEnd
  rw [Corpus.load_write hlegible ht ha hne hw, hstored]

/-- A corpus of symbols survives its files exactly when all of them are storable. -/
theorem load_exact_iff {c : Corpus} {written : FileSystem} {cache : Path}
    (hof : ∀ e ∈ c, ∃ label s, Entry.ofSymbol label s = e ∧ s.Made (· ≠ '/'))
    (hsorted : c.Pairwise fun a b => a.tag.file ≤ b.tag.file)
    (hw : c.write fs (cache.join "tags") (cache.join "api") = .ok written) :
    (∃ loaded, Corpus.load written (cache.join "tags") (cache.join "api") = .ok loaded ∧
      loaded.mergeSort (byLabel fun e => e.tag.file) = c) ↔
    ∀ label s, Entry.ofSymbol label s ∈ c → s.Storable := by
  have hload (h : ∀ e ∈ c, e.Legible) :=
    Corpus.load_write h isName_tags.1 isName_api.1 (by decide) hw
  have hmade (label : String) (s : Symbol) (he : Entry.ofSymbol label s ∈ c) : s.Made (· ≠ '/') := by
    obtain ⟨l, t, ht, hm⟩ := hof _ he
    simp only [Entry.ofSymbol, Entry.mk.injEq, Tag.mk.injEq, Api.mk.injEq] at ht
    obtain ⟨⟨hn, -, hl, -, ho⟩, -, hd⟩ := ht
    exact ⟨hn ▸ hm.name, ho ▸ hm.owner, hl ▸ hm.locator, hd ▸ hm.doc⟩
  constructor
  · rintro ⟨loaded, hl, hsame⟩
    -- Every entry was loaded, and so has no separators; then all were stored pairwise.
    have hlegible : ∀ e ∈ c, e.Legible := by
      intro e he
      obtain ⟨label, s, rfl, hs⟩ := hof e he
      obtain ⟨⟨htab, hfeed⟩, howner, hspace, -⟩ :=
        Corpus.of_mem_load hl (List.mem_mergeSort.1 (hsame ▸ he))
      exact legible_ofSymbol hs label ⟨hspace, htab, hfeed⟩ howner
    rw [hload hlegible] at hl
    obtain rfl := Except.ok.inj hl
    have hsorted' : (c.map Entry.stored).Pairwise fun a b => a.tag.file ≤ b.tag.file :=
      List.pairwise_map.2 hsorted
    rw [mergeSort_byLabel_of_pairwise _ hsorted'] at hsame
    have hstored : ∀ e ∈ c, e.stored = e := by
      rw [← List.map_id c] at hsame
      exact List.map_inj_left.1 (by simpa using hsame)
    intro label s he
    have hl := hlegible _ he
    exact ⟨⟨hl.apiName.1, hl.tagName⟩, hl.owner, Entry.getLast?_ne_of_stored (hstored _ he)⟩
  · intro h
    refine ⟨c, load_of_storable (fun e he => ?_) isName_tags.1 isName_api.1 (by decide) hw,
      mergeSort_byLabel_of_pairwise _ hsorted⟩
    obtain ⟨label, s, rfl, hs⟩ := hof e he
    exact ⟨label, s, rfl, hs, h label s he⟩

/-! ### Scans -/

/-- What is planned depends on the tree alone. -/
theorem plan_congr (x y : Index) (fs : FileSystem) (root : Path) :
    (x.plan fs root).2 = (y.plan fs root).2 := by
  simp only [plan]
  split
  · rfl
  · rfl

/-- Planning reads the configuration and nothing else. -/
theorem plan_index (x : Index) (fs : FileSystem) (root : Path) :
    ∃ config, (x.plan fs root).1 = { x with config } := by
  simp only [plan]
  split
  · exact ⟨_, rfl⟩
  · exact ⟨_, rfl⟩

theorem plan_cache (x : Index) (fs : FileSystem) (root : Path) :
    (x.plan fs root).1.cache = x.cache := by
  obtain ⟨config, hconfig⟩ := plan_index x fs root
  rw [hconfig]

theorem plan_base {base : Path} {truncated : Bool} (hd : fs.isFile (fs.canonical root) = false)
    (h : (x.plan fs root).2 = .ok (base, files, truncated)) : base = fs.canonical root := by
  simp only [plan, hd] at h
  cases hw : luaFiles fs (ProjectConfig.loadOrUsual fs (fs.canonical root)) (fs.canonical root) with
  | error e => simp [hw, Except.map] at h
  | ok w =>
    simp only [hw, Except.map, Bool.false_eq_true, ↓reduceIte, Except.ok.injEq, Prod.mk.injEq] at h
    exact h.1.symm

/-- The entries of all files that can be read. -/
def filesCorpus (fs : FileSystem) (root : Path) (files : List Path) : Corpus :=
  (extractFiles fs root files).flatMap fun f => Corpus.ofSymbols f.1 f.2

theorem mem_filesCorpus {e : Entry} (h : e ∈ filesCorpus fs root files) :
    ∃ p ∈ files, ∃ text, fs.readText p = .ok text ∧
      ∃ s ∈ extractSymbols text (moduleNameOf p), Entry.ofSymbol (Label.ofPath root p) s = e := by
  obtain ⟨f, hf, he⟩ := List.mem_flatMap.1 h
  rw [extractFiles, List.mem_mergeSort, List.mem_filterMap] at hf
  obtain ⟨p, hp, hfound⟩ := hf
  split at hfound
  · rename_i text hread
    obtain rfl := Option.some.inj hfound
    obtain ⟨s, hs, rfl⟩ := List.mem_map.1 he
    exact ⟨p, hp, text, hread, s, hs, rfl⟩
  · cases hfound

/-- What a scan comes to: nothing can be planned, or the former entries are given up and those of the
files are written and loaded in their place. -/
theorem scan_cases (x : Index) (fs : FileSystem) (root : Path) : ∃ config,
    (∃ e, (x.plan fs root).2 = .error e ∧ x.scan fs root = ({ x with config }, fs, .error e)) ∨
      ∃ base files truncated, (x.plan fs root).2 = .ok (base, files, truncated) ∧
        ((∃ e, (x.scan fs root).2.2 = .error e ∧
            (x.scan fs root).1 = { x with config, overrides := [], project := [] }) ∨
          ∃ written loaded,
            Corpus.write (filesCorpus (x.clear fs).2 base files) (x.clear fs).2
              (x.cache.join "tags") (x.cache.join "api") = .ok written ∧
            Corpus.load written (x.cache.join "tags") (x.cache.join "api") = .ok loaded ∧
            x.scan fs root =
              ({ x with config, overrides := [], project := loaded, root := some base }, written,
                .ok { files := files.length, symbols := loaded.length, truncated })) := by
  obtain ⟨config, hconfig⟩ := plan_index x fs root
  refine ⟨config, ?_⟩
  rcases hplan : x.plan fs root with ⟨x₁, planned⟩
  obtain rfl : x₁ = { x with config } := by rw [← hconfig, hplan]
  generalize hr : x.scan fs root = r
  rw [scan, hplan] at hr
  cases planned with
  | error e => exact .inl ⟨e, rfl, hr.symm⟩
  | ok found =>
    obtain ⟨base, files, truncated⟩ := found
    refine .inr ⟨base, files, truncated, rfl, ?_⟩
    simp only at hr
    split at hr
    · rename_i e _
      subst hr
      exact .inl ⟨e, rfl, rfl⟩
    · rename_i written hwrite
      split at hr
      · rename_i e _
        subst hr
        exact .inl ⟨e, rfl, rfl⟩
      · rename_i loaded hload
        exact .inr ⟨written, loaded, hwrite, hload, hr.symm⟩

/-- A scan that succeeds has loaded what it wrote of the files it planned to scan. -/
theorem scan_of_ok {summary : ScanSummary} (h : (x.scan fs root).2.2 = .ok summary) :
    ∃ config base files truncated written loaded,
      (x.plan fs root).2 = .ok (base, files, truncated) ∧
      Corpus.write (filesCorpus (x.clear fs).2 base files) (x.clear fs).2 (x.cache.join "tags")
        (x.cache.join "api") = .ok written ∧
      Corpus.load written (x.cache.join "tags") (x.cache.join "api") = .ok loaded ∧
      (x.scan fs root).1 =
        { x with config, overrides := [], project := loaded, root := some base } := by
  obtain ⟨config, ⟨e, -, hscan⟩ | ⟨base, files, truncated, hplan, ⟨e, he, -⟩ |
    ⟨written, loaded, hwrite, hload, hscan⟩⟩⟩ := scan_cases x fs root
  · rw [hscan] at h
    cases h
  · rw [he] at h
    cases h
  · exact ⟨config, base, files, truncated, written, loaded, hplan, hwrite, hload, by rw [hscan]⟩

/-- A scan of a directory that succeeds makes it the root and starts without overrides. -/
theorem scan_directory {summary : ScanSummary} (h : (x.scan fs root).2.2 = .ok summary)
    (hd : fs.isFile (fs.canonical root) = false) :
    (x.scan fs root).1.root = some (fs.canonical root) ∧ (x.scan fs root).1.overrides = [] ∧
      (x.scan fs root).1.cache = x.cache := by
  obtain ⟨config, base, files, truncated, written, loaded, hplan, -, -, hx⟩ := scan_of_ok h
  rw [hx]
  exact ⟨congrArg some (plan_base hd hplan), rfl, rfl⟩

/-- With files that can be read, all that a scan depends on is what is loaded. -/
theorem scan_eq {base : Path} {truncated : Bool} (hfs : fs.WellFormed) (hr : x.Ready fs dir)
    (hplan : (x.plan fs root).2 = .ok (base, files, truncated))
    (hread : ∀ p ∈ files, ∃ text, fs.readText p = .ok text)
    (hout : ∀ p ∈ files, ∀ l, fs.locate p = .ok l → l.dropLast ≠ dir)
    (hp : sorted.Perm files)
    (hs : sorted.Pairwise fun p q => Label.ofPath base p < Label.ofPath base q) :
    ∃ cleared written,
      Corpus.write (sorted.flatMap (fileEntries fs base)) cleared (x.cache.join "tags")
        (x.cache.join "api") = .ok written ∧
      (∀ loaded, Corpus.load written (x.cache.join "tags") (x.cache.join "api") = .ok loaded →
        (x.scan fs root).2.2 =
            .ok { files := files.length, symbols := loaded.length, truncated } ∧
          (x.scan fs root).1.project = loaded ∧ (x.scan fs root).1.overrides = []) ∧
      ∀ e, Corpus.load written (x.cache.join "tags") (x.cache.join "api") = .error e →
        (x.scan fs root).2.2 = .error e := by
  rcases hx : x.plan fs root with ⟨x₁, planned⟩
  obtain rfl : planned = .ok (base, files, truncated) := by rw [← hplan, hx]
  have hcache : x₁.cache = x.cache := by rw [← plan_cache x fs root, hx]
  have hr₁ : x₁.Ready fs dir := ⟨hcache ▸ hr.located, hr.directory, hr.tags, hr.api⟩
  have hthin := thinned_clear hfs hr₁
  -- What was read before clearing is read after it.
  have hread' : ∀ p ∈ files, ∀ text, fs.readText p = .ok text →
      (x₁.clear fs).2.readText p = .ok text := by
    intro p hp text ht
    refine hthin.keeps.readText ht fun l hl => ?_
    obtain h | ⟨-, h, -⟩ := hthin.node l
    · exact h
    · exact absurd h (hout p hp l hl)
  have hfiles : extractFiles (x₁.clear fs).2 base files =
      sorted.map fun p => (Label.ofPath base p, fileSymbols fs p) := by
    rw [extractFiles_eq (fun p hp => (hread p hp).imp fun t ht => hread' p hp t ht) hp hs]
    refine List.map_congr_left fun p hm => ?_
    obtain ⟨text, ht⟩ := hread p (hp.subset hm)
    rw [fileSymbols_congr ht (hread' p (hp.subset hm) text ht)]
  have hproject : (sorted.flatMap fun p => Corpus.ofSymbols (Label.ofPath base p) (fileSymbols fs p)) =
      sorted.flatMap (fileEntries fs base) := rfl
  obtain ⟨written, hw⟩ := (hr₁.of_thinned hthin).write (sorted.flatMap (fileEntries fs base))
  refine ⟨(x₁.clear fs).2, written, hcache ▸ hw, fun loaded hload => ?_, fun e hload => ?_⟩
  · rw [← hcache] at hload
    have hscan : x.scan fs root = ({ x₁ with overrides := [], project := loaded, root := some base },
        written, .ok { files := files.length, symbols := loaded.length, truncated }) := by
      rw [scan, hx]
      simp only [hfiles, List.flatMap_map, hproject]
      simp only [clear] at hw ⊢
      simp only [hw, hload]
    rw [hscan]
    exact ⟨rfl, rfl, rfl⟩
  · rw [← hcache] at hload
    rw [scan, hx]
    simp only [hfiles, List.flatMap_map, hproject]
    simp only [clear] at hw ⊢
    simp only [hw, hload]

theorem projectEntries_of_overrides_eq_nil (h : x.overrides = []) :
    x.projectEntries = x.project.mergeSort (byLabel fun e => e.tag.file) := by
  have hkept : (x.project.filter fun e => !x.isOverridden e.tag.file) = x.project := by
    rw [List.filter_eq_self]
    intro e _
    simp [isOverridden, h]
  rw [projectEntries_eq, hkept, h, List.flatMap_nil, List.append_nil]

/-- A scan loses and alters nothing exactly when no name or owner has a separator in it. -/
theorem scan_exact_iff {base : Path} {truncated : Bool} (hfs : fs.WellFormed) (hr : x.Ready fs dir)
    (hplan : (x.plan fs root).2 = .ok (base, files, truncated))
    (hread : ∀ p ∈ files, ∃ text, fs.readText p = .ok text)
    (hout : ∀ p ∈ files, ∀ l, fs.locate p = .ok l → l.dropLast ≠ dir)
    (hp : sorted.Perm files)
    (hs : sorted.Pairwise fun p q => Label.ofPath base p < Label.ofPath base q) :
    ((x.scan fs root).2.2 = .ok {
        files := files.length
        symbols := (sorted.flatMap (fileEntries fs base)).length
        truncated } ∧
      (x.scan fs root).1.projectEntries = sorted.flatMap (fileEntries fs base)) ↔
    ∀ p ∈ files, ∀ s ∈ fileSymbols fs p, s.Storable := by
  obtain ⟨cleared, written, hw, hok, herror⟩ := scan_eq hfs hr hplan hread hout hp hs
  have hof : ∀ e ∈ sorted.flatMap (fileEntries fs base), ∃ p ∈ files, ∃ s ∈ fileSymbols fs p,
      Entry.ofSymbol (Label.ofPath base p) s = e := by
    intro e he
    obtain ⟨p, hpm, he⟩ := List.mem_flatMap.1 he
    exact ⟨p, hp.subset hpm, mem_fileEntries.1 he⟩
  have hmade : ∀ e ∈ sorted.flatMap (fileEntries fs base),
      ∃ label s, Entry.ofSymbol label s = e ∧ s.Made (· ≠ '/') := by
    intro e he
    obtain ⟨p, -, s, hs, rfl⟩ := hof e he
    exact ⟨_, s, rfl, made_of_mem_fileSymbols hs⟩
  have hexact := load_exact_iff hmade (pairwise_flatMap_fileEntries fs hs) hw
  constructor
  · rintro ⟨hscan, hentries⟩ p hpf s hsp
    cases hl : Corpus.load written (x.cache.join "tags") (x.cache.join "api") with
    | error e =>
      rw [herror e hl] at hscan
      cases hscan
    | ok loaded =>
      obtain ⟨-, hproject, hnone⟩ := hok loaded hl
      rw [projectEntries_of_overrides_eq_nil hnone, hproject] at hentries
      refine hexact.1 ⟨loaded, hl, hentries⟩ (Label.ofPath base p) s ?_
      exact List.mem_flatMap.2 ⟨p, hp.symm.subset hpf, mem_fileEntries.2 ⟨s, hsp, rfl⟩⟩
  · intro h
    obtain ⟨loaded, hl, hsame⟩ := hexact.2 fun label s he => by
      obtain ⟨p, hpf, t, ht, heq⟩ := hof _ he
      simp only [Entry.ofSymbol, Entry.mk.injEq, Tag.mk.injEq, Api.mk.injEq] at heq
      obtain ⟨⟨hn, -, -, -, ho⟩, -⟩ := heq
      have hst := h p hpf t ht
      exact ⟨hn ▸ hst.name, ho ▸ hst.owner, ho ▸ hst.ownerEnd⟩
    obtain ⟨hscan, hproject, hnone⟩ := hok loaded hl
    have hlength := congrArg List.length hsame
    rw [List.length_mergeSort] at hlength
    rw [hscan, projectEntries_of_overrides_eq_nil hnone, hproject, hsame, hlength]
    exact ⟨rfl, rfl⟩

/-- A project of one file, whose name has a space in it. -/
def spaced : FileSystem where
  nodes := [(["c"], .directory), (["w"], .directory),
    (["w", "odd name.lua"], .file (.text "local M = \x7b\x7d\nreturn M\n"))]

def spacedFile : Path := ⟨"/w/odd name.lua"⟩

theorem fileSymbols_spaced : fileSymbols spaced spacedFile = [{
    name := "odd name", owner := "", kind := .module, locator := "local M = \x7b\x7d", line := 0,
    doc := "odd name" }] := by decide +kernel

/-- The symbol of a module that is named after such a file is altered. -/
theorem scan_not_exact_spaced :
    let x : Index := { cache := ⟨"/c"⟩ }
    ¬ ((x.scan spaced ⟨"/w"⟩).2.2 = .ok { files := 1, symbols := 1, truncated := false } ∧
      (x.scan spaced ⟨"/w"⟩).1.projectEntries = fileEntries spaced ⟨"/w"⟩ spacedFile) := by
  intro x
  have hfs : spaced.WellFormed := ⟨by decide, by decide, by decide⟩
  have hr : x.Ready spaced ["c"] :=
    ⟨by decide, by decide, by decide, by decide⟩
  have hplan : (x.plan spaced ⟨"/w"⟩).2 = .ok (⟨"/w"⟩, [spacedFile], false) := by decide +kernel
  have hread : ∀ p ∈ [spacedFile], ∃ text, spaced.readText p = .ok text :=
    List.forall_mem_singleton.2 ⟨"local M = \x7b\x7d\nreturn M\n", by decide⟩
  have hlocate : spaced.locate spacedFile = .ok ["w", "odd name.lua"] := by decide
  have hout : ∀ p ∈ [spacedFile], ∀ l, spaced.locate p = .ok l → l.dropLast ≠ ["c"] := by
    rw [List.forall_mem_singleton, hlocate]
    rintro l ⟨rfl⟩
    decide
  have hiff := scan_exact_iff hfs hr hplan hread hout (.refl _) (List.pairwise_singleton _ _)
  have hentries : [spacedFile].flatMap (fileEntries spaced ⟨"/w"⟩) =
      fileEntries spaced ⟨"/w"⟩ spacedFile := List.flatMap_singleton _ _
  have hlength : (fileEntries spaced ⟨"/w"⟩ spacedFile).length = 1 := by
    rw [fileEntries, fileSymbols_spaced]
    rfl
  rw [hentries, hlength] at hiff
  rw [List.length_singleton] at hiff
  rw [hiff, List.forall_mem_singleton, fileSymbols_spaced]
  intro h
  exact (h _ List.mem_cons_self).name.1 (by decide)

end Index

end LuaLens
