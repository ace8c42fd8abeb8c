import LuaLens.Proofs.Corpus.Reread
import LuaLens.Proofs.Index.Rescan
import LuaLens.Proofs.Index.Walk

/-!
Rescans of a file that has not changed. They change nothing unless another file has the same label, or
the module is named after the root, whose name is not copied with the file.
-/

namespace LuaLens

open Text

theorem Label.head?_below {root q : Path} {tail : List (List Char)} (h : root.Below q tail) :
    (ofPath root q).toList.head? = some '$' := by
  obtain ⟨text, hrel, -⟩ := Path.relativeTo?_of_steps h.rooted h.absolute h.steps
  simp only [ofPath, hrel]
  rw [String.toList_append, rootMark_toList]
  rfl

namespace Index

variable {x z : Index} {fs : FileSystem} {root base p : Path} {text : String} {files : List Path}
  {tail : List (List Char)}

/-! ### The entries of a label -/

/-- The entries of a file of the project are read back one by one. -/
theorem fenced_ofSymbols (text : String) {module : String} (hb : base.Below p tail)
    (hm : '/' ∉ module.toList) :
    ∀ e ∈ Corpus.ofSymbols (Label.ofPath base p) (extractSymbols text module), e.Fenced := by
  intro e he
  obtain ⟨s, hs, rfl⟩ := List.mem_map.1 he
  have hmade := made_of_slash_not_mem hm hs
  refine ⟨fun h => hmade.name '/' h rfl, ?_, hmade.locator, rfl⟩
  rw [Entry.ofSymbol, Label.head?_below hb]
  decide

theorem fenced_filesCorpus (fs : FileSystem) (hb : ∀ q ∈ files, ∃ tail, base.Below q tail) :
    ∀ e ∈ filesCorpus fs base files, e.Fenced := by
  intro e he
  obtain ⟨q, hq, text, -, s, hs, rfl⟩ := mem_filesCorpus he
  obtain ⟨tail, hbelow⟩ := hb q hq
  exact fenced_ofSymbols text hbelow (slash_not_mem_moduleNameOf q) _ (List.mem_map_of_mem hs)

theorem filter_ofSymbols (label : String) (f : String × List Symbol) :
    (Corpus.ofSymbols f.1 f.2).filter (fun e => e.tag.file == label) =
      if f.1 == label then Corpus.ofSymbols f.1 f.2 else [] := by
  split
  · rename_i hf
    rw [List.filter_eq_self]
    intro e he
    obtain ⟨s, -, rfl⟩ := List.mem_map.1 he
    exact hf
  · rename_i hf
    rw [List.filter_eq_nil_iff]
    intro e he
    obtain ⟨s, -, rfl⟩ := List.mem_map.1 he
    exact hf

/-- The entries of a label are those of the files that have it, in the order they were found. -/
theorem filter_filesCorpus (fs : FileSystem) (base : Path) (files : List Path) (label : String) :
    (filesCorpus fs base files).filter (fun e => e.tag.file == label) =
      (files.filter fun q => Label.ofPath base q == label).flatMap (fileEntries fs base) := by
  have hsorted (l : List (String × List Symbol)) :
      (l.flatMap fun f => Corpus.ofSymbols f.1 f.2).filter (fun e => e.tag.file == label) =
        (l.filter fun f => f.1 == label).flatMap fun f => Corpus.ofSymbols f.1 f.2 := by
    induction l with
    | nil => rfl
    | cons f l ih =>
      rw [List.flatMap_cons, List.filter_append, ih, filter_ofSymbols, List.filter_cons]
      split <;> rfl
  rw [filesCorpus, hsorted, extractFiles]
  -- The sort by label is stable, so that files of one label stay in the order they were found.
  refine (congrArg (List.flatMap _) (filter_mergeSort_byLabel Prod.fst _ label)).trans ?_
  induction files with
  | nil => rfl
  | cons q files ih =>
    cases hread : fs.readText q with
    | error fault =>
      have hnone : fileEntries fs base q = [] := by
        rw [fileEntries, fileSymbols, hread]
        rfl
      simp only [List.filterMap_cons, hread]
      rw [ih, List.filter_cons]
      split
      · rw [List.flatMap_cons, hnone, List.nil_append]
      · rfl
    | ok text =>
      have hentries : fileEntries fs base q =
          Corpus.ofSymbols (Label.ofPath base q) (extractSymbols text (moduleNameOf q)) := by
        rw [fileEntries, fileSymbols, hread]
      simp only [List.filterMap_cons, hread]
      rw [List.filter_cons, List.filter_cons]
      split
      · rw [List.flatMap_cons, List.flatMap_cons, ih, hentries]
      · exact ih

/-- What a scan of the project has for a label is what is read back of the entries of that label. -/
theorem filter_project_scan {summary : ScanSummary} {truncated : Bool} (hfs : fs.WellFormed)
    (hplan : (x.plan fs root).2 = .ok (base, files, truncated))
    (hscan : (x.scan fs root).2.2 = .ok summary) (label : String) :
    (x.scan fs root).1.project.filter (fun e => e.tag.file == label) =
      Corpus.reread ((files.filter fun q => Label.ofPath base q == label).flatMap
        (fileEntries (x.clear fs).2 base)) := by
  obtain ⟨config, base', files', truncated', written, loaded, hplan', hwrite, hload, hx⟩ :=
    scan_of_ok hscan
  rw [hplan] at hplan'
  obtain ⟨rfl, rfl, -⟩ : base = base' ∧ files = files' ∧ truncated = truncated' := by
    simpa using hplan'
  have hfenced := fenced_filesCorpus (x.clear fs).2 fun q hq => by
    obtain ⟨_, tail, -, -, -, hb⟩ := below_of_plan hfs hplan hq
    exact ⟨tail, hb⟩
  obtain ⟨hpaired, hloaded⟩ :=
    Corpus.load_eq_reread isName_tags.1 isName_api.1 (by decide) hwrite hload
  have hproject : (x.scan fs root).1.project = loaded := by rw [hx]
  rw [hproject, hloaded, Corpus.filter_reread hfenced hpaired, filter_filesCorpus]

/-! ### Rescans -/

/-- The entries that are read back of a text under the label of a file of the project. -/
def readAs (base p : Path) (text module : String) : Corpus :=
  Corpus.reread (Corpus.ofSymbols (Label.ofPath base p) (extractSymbols text module))

theorem rescanModule_slash {id : RescanId} : '/' ∉ (rescanModule base p id).toList := by
  rw [rescanModule]
  split
  · exact RescanId.not_mem_text id (by decide) (by decide)
  · exact slash_not_mem_moduleNameOf p

/-- A rescan of a file of the project that succeeds puts what is read back under its label. -/
theorem rescan_of_below {symbols : Nat} (hroot : z.root = some base)
    (hcache : z.cache.isAbsolute = true) (hb : base.Below p tail) (ht : tail ≠ [])
    (hcanonical : fs.canonical p = p) (hok : (z.rescan fs p text).2.2 = .ok symbols) :
    (∀ e ∈ readAs base p text (rescanModule base p z.nextId), e.tag.file = Label.ofPath base p) ∧
      (z.rescan fs p text).1 = { z with
        issued := z.issued + 1
        overrides := insertOverride (Label.ofPath base p)
          { id := z.nextId, corpus := readAs base p text (rescanModule base p z.nextId) }
          z.overrides } := by
  obtain ⟨⟨path, fault, hbad⟩, -⟩ | ⟨mid, written, hwrite, ⟨e, -, he, -⟩ | ⟨c, hload, -, hx⟩⟩ :=
    rescan_cases hroot fs p text
  · rw [hbad] at hok
    cases hok
  · rw [he] at hok
    cases hok
  · rw [hcanonical, moduleNameOf_copyOf hcache hb ht] at hwrite
    rw [hcanonical] at hx
    rw [nextTags, nextApi] at hwrite hload
    obtain ⟨hpaired, hc⟩ := Corpus.load_eq_reread
      (z.nextId.isPlain_text_append _ RescanId.slash_not_mem_tags)
      (z.nextId.isPlain_text_append _ RescanId.slash_not_mem_api) z.nextId.tags_ne_api hwrite hload
    rw [hc] at hx
    refine ⟨fun d hd => ?_, hx⟩
    have hmodule : '/' ∉ (rescanModule base p z.nextId).toList := rescanModule_slash
    have hfenced := fenced_ofSymbols text hb hmodule
    rw [readAs, Corpus.reread_eq_flatMap hfenced hpaired] at hd
    obtain ⟨e, he, hd⟩ := List.mem_flatMap.1 hd
    rw [Corpus.file_of_mem_reread (hfenced e he) (hpaired.singleton hfenced he) hd]
    obtain ⟨s, -, rfl⟩ := List.mem_map.1 he
    rfl

/-- The index after rescans of one text of one document, each in its own tree, if all succeed. -/
def rescanAll? (p : Path) (text : String) : Index → List FileSystem → Option Index
  | x, [] => some x
  | x, fs :: trees =>
    match x.rescan fs p text with
    | (x, _, .ok _) => rescanAll? p text x trees
    | (_, _, .error _) => none

/-- The only override is one of the given label. -/
def Sole (label : String) (overrides : List (String × Rescan)) : Prop := ∀ o ∈ overrides.head?,
  overrides = [(label, o.2)]

theorem Sole.insert {label : String} {overrides : List (String × Rescan)} (h : Sole label overrides)
    (r : Rescan) : insertOverride label r overrides = [(label, r)] := by
  cases overrides with
  | nil => rfl
  | cons o rest =>
    rw [h o rfl]
    simp [insertOverride]

theorem rescanAll?_cons {y : Index} {trees : List FileSystem}
    (h : rescanAll? p text z (fs :: trees) = some y) :
    ∃ symbols, (z.rescan fs p text).2.2 = .ok symbols ∧
      rescanAll? p text (z.rescan fs p text).1 trees = some y := by
  rcases hr : z.rescan fs p text with ⟨z', after, result⟩
  cases result with
  | error e => simp [rescanAll?, hr] at h
  | ok symbols =>
    simp only [rescanAll?, hr] at h
    exact ⟨symbols, rfl, h⟩

/-- Of rescans that all succeed the last counts. -/
theorem rescanAll?_of_below {y : Index} {trees : List FileSystem} (hroot : z.root = some base)
    (hcache : z.cache.isAbsolute = true) (hb : base.Below p tail) (ht : tail ≠ [])
    (hcanonical : ∀ fs : FileSystem, fs.canonical p = p) (hz : Sole (Label.ofPath base p) z.overrides)
    (h : rescanAll? p text z (fs :: trees) = some y) :
    y.project = z.project ∧
      y.overrides = [(Label.ofPath base p, ⟨⟨z.issued + trees.length⟩,
        readAs base p text (rescanModule base p ⟨z.issued + trees.length⟩)⟩)] ∧
      ∀ e ∈ readAs base p text (rescanModule base p ⟨z.issued + trees.length⟩),
        e.tag.file = Label.ofPath base p := by
  -- Each rescan takes the place of the one before, so that there is never a second override.
  induction trees generalizing z fs with
  | nil =>
    obtain ⟨symbols, hok, hrest⟩ := rescanAll?_cons h
    obtain ⟨hfile, hx⟩ := rescan_of_below hroot hcache hb ht (hcanonical fs) hok
    obtain rfl : (z.rescan fs p text).1 = y := by simpa [rescanAll?] using hrest
    rw [nextId] at hfile hx
    rw [hx, hz.insert, List.length_nil, Nat.add_zero]
    exact ⟨rfl, rfl, hfile⟩
  | cons next trees ih =>
    obtain ⟨symbols, hok, hrest⟩ := rescanAll?_cons h
    obtain ⟨-, hx⟩ := rescan_of_below hroot hcache hb ht (hcanonical fs) hok
    rw [hx, hz.insert] at hrest
    have hlast := ih (z := { z with issued := z.issued + 1, overrides := _ }) hroot hcache
      (by rintro o ⟨rfl⟩; rfl) hrest
    rwa [Nat.add_right_comm, Nat.add_assoc] at hlast

/-- An override leaves the entries of the project as they are exactly when it has what the project has
of its label. -/
theorem projectEntries_of_sole {y : Index} {label : String} {id : RescanId} {c : Corpus}
    (hx : x.overrides = []) (hproject : y.project = x.project) (hy : y.overrides = [(label, ⟨id, c⟩)])
    (hc : ∀ e ∈ c, e.tag.file = label) :
    y.projectEntries = x.projectEntries ↔ c = x.project.filter fun e => e.tag.file == label := by
  have hscanned (l : String) : x.entriesOf l = x.project.filter fun e => e.tag.file == l :=
    entriesOf_of_forall (by simp [hx])
  have hown : y.entriesOf label = c := by
    refine entriesOf_of_mem (r := ⟨id, c⟩) ?_ ?_ hc ?_
    · rw [hy]
      exact List.pairwise_singleton _ _
    · simp [hy]
    · simp [hy]
  have hother (l : String) (hl : label ≠ l) :
      y.entriesOf l = x.project.filter fun e => e.tag.file == l := by
    rw [← hproject]
    refine entriesOf_of_forall fun o ho => ?_
    rw [hy, List.mem_singleton] at ho
    subst ho
    exact ⟨hl, fun e he => by rwa [hc e he]⟩
  rw [projectEntries_eq_iff]
  constructor
  · intro h
    rw [← hown, h label, hscanned]
  · intro h l
    by_cases hl : label = l
    · rw [← hl, hown, hscanned, h]
    · rw [hother l hl, hscanned]

/-- A file that gives its name to no module but its directory does, which is the root. -/
def NamedByRoot (base p : Path) : Prop :=
  p.fileStem? = some "init" ∧ p.steps.length = base.steps.length + 1

/-- After a scan that succeeds, a file is rescanned with the text it had, once or more often, and all of
these rescans succeed. The entries of the project are the same exactly when what is read back of the last
rescan is what was read back of all files of its label; and so they are when no other file has the
label and the module is not named after the root. -/
theorem rescan_unchanged_iff {summary : ScanSummary} {truncated : Bool} {y : Index}
    {trees : List FileSystem} {fs₁ : FileSystem} (hfs : fs.WellFormed)
    (hcache : x.cache.isAbsolute = true)
    (hplan : (x.plan fs root).2 = .ok (base, files, truncated))
    (hscan : (x.scan fs root).2.2 = .ok summary) (hp : p ∈ files)
    (htext : (x.clear fs).2.readText p = .ok text)
    (hagain : rescanAll? p text (x.scan fs root).1 (fs₁ :: trees) = some y) :
    (y.projectEntries = (x.scan fs root).1.projectEntries ↔
      readAs base p text (rescanModule base p ⟨x.issued + trees.length⟩) =
        Corpus.reread ((files.filter fun q => Label.ofPath base q == Label.ofPath base p).flatMap
          (fileEntries (x.clear fs).2 base))) ∧
    (files.filter (fun q => Label.ofPath base q == Label.ofPath base p) = [p] →
      ¬ NamedByRoot base p → y.projectEntries = (x.scan fs root).1.projectEntries) := by
  obtain ⟨loc, tail, hpath, hplain, ht, hb⟩ := below_of_plan hfs hplan hp
  have hcanonical (fs : FileSystem) : fs.canonical p = p := by
    rw [hpath]
    exact fs.canonical_pathOf hplain
  obtain ⟨config, base', _, _, _, _, hplan', -, -, hx⟩ := scan_of_ok hscan
  obtain rfl : base = base' := by
    rw [hplan] at hplan'
    exact congrArg Prod.fst (Except.ok.inj hplan')
  have hfacts : (x.scan fs root).1.root = some base ∧ (x.scan fs root).1.cache = x.cache ∧
      (x.scan fs root).1.overrides = [] ∧ (x.scan fs root).1.issued = x.issued := by
    rw [hx]
    exact ⟨rfl, rfl, rfl, rfl⟩
  obtain ⟨hroot, hkept, hnone, hissued⟩ := hfacts
  obtain ⟨hproject, hover, hfile⟩ := rescanAll?_of_below hroot (hkept ▸ hcache) hb ht hcanonical
    (by simp [Sole, hnone]) hagain
  have hiff := projectEntries_of_sole hnone hproject hover hfile
  rw [hissued, filter_project_scan hfs hplan hscan] at hiff
  refine ⟨hiff, fun hone hnamed => hiff.2 ?_⟩
  have hentries : fileEntries (x.clear fs).2 base p =
      Corpus.ofSymbols (Label.ofPath base p) (extractSymbols text (moduleNameOf p)) := by
    rw [fileEntries, fileSymbols, htext]
  have hmodule : rescanModule base p ⟨x.issued + trees.length⟩ = moduleNameOf p := if_neg hnamed
  rw [hone, List.flatMap_singleton, hentries, readAs, hmodule]

/-- A project of one file, whose module is named after the root. -/
def initTree : FileSystem where
  nodes := [(["c"], .directory), (["w"], .directory),
    (["w", "init.lua"], .file (.text "local M = \x7b\x7d\nreturn M\n"))]

/-- An index that has scanned that project, and the tree the scan left. -/
def initScan : Index × FileSystem × Except IndexError ScanSummary :=
  ({ cache := ⟨"/c"⟩ } : Index).scan initTree ⟨"/w"⟩

/-- The module loses the name of the root when its file is rescanned. -/
theorem rescan_unchanged_iff_init : ∃ y,
    rescanAll? ⟨"/w/init.lua"⟩ "local M = \x7b\x7d\nreturn M\n" initScan.1 [initScan.2.1] = some y ∧
      y.projectEntries ≠ initScan.1.projectEntries := by
  have hfs : initTree.WellFormed := ⟨by decide, by decide, by decide⟩
  have hplan : (({ cache := ⟨"/c"⟩ } : Index).plan initTree ⟨"/w"⟩).2 =
      .ok (⟨"/w"⟩, [⟨"/w/init.lua"⟩], false) := by decide +kernel
  have hscan : (({ cache := ⟨"/c"⟩ } : Index).scan initTree ⟨"/w"⟩).2.2 =
      .ok { files := 1, symbols := 1, truncated := false } := by decide +kernel
  have htext : (({ cache := ⟨"/c"⟩ } : Index).clear initTree).2.readText ⟨"/w/init.lua"⟩ =
      .ok "local M = \x7b\x7d\nreturn M\n" := by decide +kernel
  have hagain : (rescanAll? ⟨"/w/init.lua"⟩ "local M = \x7b\x7d\nreturn M\n" initScan.1
      [initScan.2.1]).isSome = true := by decide +kernel
  obtain ⟨y, hy⟩ := Option.isSome_iff_exists.1 hagain
  obtain ⟨hiff, -⟩ := rescan_unchanged_iff hfs (by decide) hplan hscan (by decide) htext hy
  refine ⟨y, hy, fun h => ?_⟩
  have hsame := hiff.1 h
  revert hsame
  decide +kernel

end Index

end LuaLens
