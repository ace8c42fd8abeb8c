import LuaLens.Proofs.Index.Calls
import LuaLens.Query.Definition
import LuaLens.Query.Signature

/-!
Locals are seen from their own file only. Completion goes by the kind of a tag and the other questions
by the first line of the documentation; both say the same of every symbol that is ever extracted.
-/

namespace LuaLens

open Text Declaration

/-! ### The documentation of locals -/

/-- The documentation of a local begins with the mark of locals and a name. -/
def Symbol.Marked (s : Symbol) : Prop :=
  s.kind.isLocal = true → ∃ c, isBlank c = false ∧ Api.localMark ++ [c] <+: s.doc.toList

namespace Extraction

variable {x : Extraction}

theorem marked_push (h : ∀ s ∈ x.symbols, s.Marked) {kind : Symbol.Kind} {header : String}
    (hk : kind.isLocal = true → ∃ c, isBlank c = false ∧ Api.localMark ++ [c] <+: header.toList)
    (name owner : String) (description : List (List Char)) (line : Line) :
    ∀ s ∈ (x.push name owner kind header description line).symbols, s.Marked := by
  intro s hs
  simp only [push, List.mem_append, List.mem_singleton] at hs
  obtain hs | rfl := hs
  · exact h s hs
  · intro hlocal
    obtain ⟨c, hc, hpre⟩ := hk hlocal
    refine ⟨c, hc, ?_⟩
    rw [String.toList_ofList]
    exact prefix_trimEnd hc (hpre.trans (List.prefix_append _ _))

theorem localMark_isPrefix {target : List Char} (ht : IsTarget target) (hne : target ≠ [])
    (rest : String) : ∃ c, isBlank c = false ∧
      Api.localMark ++ [c] <+: ("local " ++ String.ofList target ++ rest).toList := by
  obtain ⟨c, s, rfl⟩ := List.exists_cons_of_ne_nil hne
  refine ⟨c, isBlank_of_isTarget (ht c (by simp)), s ++ rest.toList, ?_⟩
  simp [Api.localMark]

theorem marked_declare (h : ∀ s ∈ x.symbols, s.Marked) {d : Declaration} (ht : IsTarget d.target)
    (hne : d.target ≠ []) (description : List (List Char)) (line : Line) :
    ∀ s ∈ (x.declare d description line).symbols, s.Marked := by
  cases d with
  | function target params isLocal =>
    cases isLocal with
    | true =>
      refine marked_push h (fun _ => ?_) _ _ _ _
      have htarget : IsTarget target := ht
      have hmark := localMark_isPrefix htarget hne ("(" ++ String.ofList params ++ ")")
      simpa only [String.append_assoc] using hmark
    | false => exact marked_push h (fun hk => by cases hk) _ _ _ _
  | table target isLocal =>
    rw [declare]
    split_ifs
    · exact h
    · exact marked_push h (fun hk => by cases hk) _ _ _ _
    · refine marked_push h (fun _ => ?_) _ _ _ _
      have hmark := localMark_isPrefix ht hne ""
      rwa [String.append_empty] at hmark
    · exact marked_push h (fun hk => by cases hk) _ _ _ _
  | field target => exact marked_push h (fun hk => by cases hk) _ _ _ _

theorem marked_declareSelf (h : ∀ s ∈ x.symbols, s.Marked) (d : SelfDoc)
    (description : List (List Char)) (line : Line) :
    ∀ s ∈ (x.declareSelf d description line).symbols, s.Marked := by
  rw [declareSelf]
  split
  · exact marked_push h (fun hk => by cases hk) _ _ _ _
  · exact marked_push h (fun hk => by cases hk) _ _ _ _
  · exact marked_push h (fun hk => by cases hk) _ _ _ _
  · exact marked_push h (fun hk => by cases hk) _ _ _ _

end Extraction

theorem marked_of_mem_extractSymbols {text module : String} {s : Symbol}
    (hs : s ∈ extractSymbols text module) : s.Marked := by
  obtain ⟨x, hx, hsymbols⟩ := extractSymbols_induct (I := fun x => ∀ s ∈ x.symbols, s.Marked) text
    module (fun _ _ _ => by simp)
    (fun x d description line _ hd h =>
      Extraction.marked_declare h (isTarget_of_parse? hd) (target_ne_nil hd) description line)
    fun x d description line _ _ h => Extraction.marked_declareSelf h d description line
  exact hx s (hsymbols ▸ hs)

/-- An entry of a symbol that was extracted from some text. -/
def Entry.Extracted (e : Entry) : Prop :=
  ∃ label text module, ∃ s ∈ extractSymbols text module, Entry.ofSymbol label s = e

/-- The documentation of a local says so. -/
theorem Entry.Extracted.isLocal {e : Entry} (h : e.Extracted) (hk : e.tag.kind.isLocal = true) :
    e.api.isLocal = true := by
  obtain ⟨label, text, module, s, hs, rfl⟩ := h
  obtain ⟨c, hc, hpre⟩ := marked_of_mem_extractSymbols hs hk
  have hfeed : '\n' ∉ Api.localMark ++ [c] := by
    have hmark : '\n' ∉ Api.localMark := by decide
    have hne : '\n' ≠ c := by
      rintro rfl
      revert hc
      decide
    simpa [hmark] using hne
  have hreturn : c ≠ '\r' := by
    rintro rfl
    revert hc
    decide
  have hline := prefix_headD_lines hfeed hreturn hpre
  rw [Api.isLocal, List.isPrefixOf_iff_prefix, Api.header, firstLine, String.toList_ofList]
  exact (List.prefix_append _ _).trans hline

namespace Index

variable {x : Index} {fs : FileSystem}

/-! ### The entries of an index -/

/-- The files that a call reads. -/
def Call.files (fs : FileSystem) : Call → List Path
  | .scan root =>
    match (plan { cache := ⟨""⟩ } fs root).2 with
    | .ok (_, files, _) => files
    | .error _ => []
  | .rescan p _ => [fs.canonical p]
  | .forget _ => []

/-- All entries come from symbols that were extracted. -/
structure Pure (x : Index) : Prop where
  cache : x.cache.isAbsolute = true
  project : ∀ e ∈ x.project, e.Extracted
  overrides : ∀ o ∈ x.overrides, ∀ e ∈ o.2.corpus, e.Extracted

theorem mem_of_mem_insertOverride {overrides : List (String × Rescan)} {label : String} {r : Rescan}
    {o : String × Rescan} (h : o ∈ insertOverride label r overrides) :
    o = (label, r) ∨ o ∈ overrides := by
  induction overrides with
  | nil => simpa [insertOverride] using h
  | cons a rest ih =>
    rw [insertOverride] at h
    split_ifs at h
    · exact (List.mem_cons.1 h).imp_right (List.mem_cons_of_mem _)
    · exact List.mem_cons.1 h
    · obtain rfl | h := List.mem_cons.1 h
      · exact .inr List.mem_cons_self
      · exact (ih h).imp_right (List.mem_cons_of_mem _)

/-- What a scan loads of files without white space in their paths is what it wrote. -/
theorem extracted_of_mem_load {base dir : Path} {files : List Path} {mid written : FileSystem}
    {loaded : Corpus} (hu : ∀ p ∈ files, Unspaced p.pieces)
    (hw : Corpus.write (filesCorpus mid base files) mid (dir.join "tags") (dir.join "api") = .ok written)
    (hl : Corpus.load written (dir.join "tags") (dir.join "api") = .ok loaded) :
    ∀ e ∈ loaded, e.Extracted := by
  have hload : Corpus.load written (dir.join "tags") (dir.join "api") =
      .ok (filesCorpus mid base files) := by
    refine load_of_storable (fun e he => ?_) isName_tags.1 isName_api.1 (by decide) hw
    obtain ⟨p, hp, text, -, s, hs, rfl⟩ := mem_filesCorpus he
    refine ⟨_, s, rfl, made_of_slash_not_mem (slash_not_mem_moduleNameOf p) hs, ?_⟩
    exact storable_of_mem (fun c hc => (hu p hp).isBlank_of_spelt (spelt_of_mem_moduleNameOf hc)) hs
  obtain rfl := Except.ok.inj (hl.symm.trans hload)
  intro e he
  obtain ⟨p, -, text, -, s, hs, hsym⟩ := mem_filesCorpus he
  exact ⟨_, text, _, s, hs, hsym⟩

theorem Pure.perform {call : Call} (h : x.Pure) (hu : ∀ p ∈ call.files fs, Unspaced p.pieces) :
    (x.perform fs call).Pure := by
  cases call with
  | scan root =>
    obtain ⟨config, ⟨e, -, hscan⟩ | ⟨base, files, truncated, hplan, ⟨e, -, hx⟩ |
      ⟨written, loaded, hwrite, hload, hscan⟩⟩⟩ := scan_cases x fs root
    · rw [Index.perform, hscan]
      exact ⟨h.cache, h.project, h.overrides⟩
    · rw [Index.perform, hx]
      exact ⟨h.cache, by simp, by simp⟩
    · rw [Index.perform, hscan]
      rw [Call.files, plan_congr _ x, hplan] at hu
      exact ⟨h.cache, extracted_of_mem_load hu hwrite hload, by simp⟩
  | rescan p text =>
    rw [Index.perform]
    cases hroot : x.root with
    | none =>
      rw [rescan, hroot]
      exact h
    | some root =>
      obtain ⟨e, -, hx⟩ | ⟨-, hx⟩ := rescan_unspaced hroot h.cache
        (hu (fs.canonical p) (by simp [Call.files])) text
      · rw [hx]
        exact ⟨h.cache, h.project, h.overrides⟩
      · rw [hx]
        refine ⟨h.cache, h.project, fun o ho => ?_⟩
        obtain rfl | ho := mem_of_mem_insertOverride ho
        · intro e he
          obtain ⟨s, hs, rfl⟩ := List.mem_map.1 he
          exact ⟨_, text, _, s, hs, rfl⟩
        · exact h.overrides o ho
  | forget p =>
    rw [Index.perform, forget_eq]
    exact ⟨h.cache, h.project, fun o ho => h.overrides o (List.mem_filter.1 ho).1⟩

theorem Pure.run {calls : List (FileSystem × Call)} (h : x.Pure)
    (hu : ∀ e ∈ calls, ∀ p ∈ e.2.files e.1, Unspaced p.pieces) : (x.run calls).Pure := by
  induction calls generalizing x with
  | nil => exact h
  | cons e calls ih => exact ih (h.perform (hu e (by simp))) fun d hd => hu d (by simp [hd])

theorem Pure.extracted (h : x.Pure) {e : Entry} (he : e ∈ x.entries) : e.Extracted := by
  obtain he | he := List.mem_append.1 he
  · rw [projectEntries_eq, List.mem_mergeSort, List.mem_append] at he
    obtain he | he := he
    · exact h.project e (List.mem_filter.1 he).1
    · obtain ⟨o, ho, he⟩ := List.mem_flatMap.1 he
      exact h.overrides o ho e he
  · obtain ⟨s, hs, rfl⟩ := List.mem_map.1 he
    exact ⟨_, _, _, s, hs, rfl⟩

end Index

namespace Query

variable {entries : Corpus} {label : String}

/-! ### The entries behind an answer -/

/-- Whether an entry may be seen from a file. -/
def SeenFrom (label : String) (e : Entry) : Prop := e.tag.kind.isLocal = false ∨ e.tag.file = label

/-- The entries that completions are made of. -/
def completed (entries : Corpus) (label text : String) (p : Position) : Corpus :=
  let q := Completing.ofLine (lineBefore text.toList p)
  if q.isEmpty then [] else candidates entries label q (receiverType text.toList p.line q)

theorem complete_eq (entries : Corpus) (label text : String) (p : Position) :
    complete entries label text p = (completed entries label text p).map
      (Proposal.ofEntry ((Completing.ofLine (lineBefore text.toList p)).operator == some ':')) := by
  rw [complete, completed]
  split <;> rfl

/-- The entry that is shown for the name at a place. -/
def hovered (entries : Corpus) (label text : String) (p : Position) : Option Entry :=
  (symbolAt? text.toList p).bind fun name => (lookup entries label name).head?.map (·.entry)

theorem hover_eq (entries : Corpus) (label text : String) (p : Position) :
    hover entries label text p = (hovered entries label text p).map (·.api.doc) := by
  rw [hover, hovered]
  cases symbolAt? text.toList p with
  | none => rfl
  | some name =>
    simp only [Option.bind_eq_bind, Option.bind_some, Option.map_map]
    cases (lookup entries label name).head? <;> rfl

/-- The entries that the signatures of a call are made of. -/
def called (entries : Corpus) (label text : String) (p : Position) (site : CallSite) : Corpus :=
  ((bestMatches (lookup entries label (substituteReceiver text.toList p.line site.callee))).filter
    fun m => m.entry.api.header.toList.contains '(').map (·.entry)

/-- The signature of an entry that is called. -/
def Signature.ofEntry (site : CallSite) (e : Entry) : Signature where
  label := e.api.header
  documentation := description e.api.doc
  parameters := parameterOffsets e.api.header.toList
  activeParameter := site.argument +
    if site.callee.contains ':' && !e.api.header.toList.contains ':' then 1 else 0

theorem signatureHelp_eq (entries : Corpus) (label text : String) (p : Position) :
    signatureHelp entries label text p = (callSite? (textBefore text.toList p)).bind fun site =>
      if (called entries label text p site).isEmpty then none
      else some ((called entries label text p site).map (Signature.ofEntry site)) := by
  rw [signatureHelp]
  dsimp only
  split
  · rename_i hsite
    rw [hsite]
    rfl
  · rename_i site hsite
    rw [hsite, Option.bind_some, called]
    simp only [List.isEmpty_map, List.map_map]
    rfl

/-- The entries whose places are the answer to where a name is declared. -/
def sought (entries : Corpus) (label text : String) (p : Position) : Corpus :=
  ((symbolAt? text.toList p).map fun name => bestMatches (lookup entries label name)).getD []
    |>.map (·.entry)

theorem definition_eq (x : Index) (docs : Documents) (fs : FileSystem) (label text : String)
    (p : Position) : definition x docs fs label text p =
      distinct [] ((sought x.entries label text p).filterMap fun e => locate? x docs fs e.tag) := by
  rw [definition, sought]
  cases symbolAt? text.toList p with
  | none => rfl
  | some name =>
    simp only [Option.map_some, Option.getD_some, List.filterMap_map]
    rfl

/-! ### What is seen -/

theorem seenFrom_of_isVisible {e : Entry} (h : e.Extracted) (hv : isVisible label e = true) :
    SeenFrom label e := by
  rw [isVisible, Bool.or_eq_true, Bool.not_eq_true', beq_iff_eq] at hv
  obtain hv | hv := hv
  · refine .inl (Bool.eq_false_iff.2 fun hk => ?_)
    rw [h.isLocal hk] at hv
    cases hv
  · exact .inr hv

theorem mem_of_mem_firstOfEachName {seen : List String} {e : Entry}
    (h : e ∈ firstOfEachName seen entries) : e ∈ entries := by
  induction entries generalizing seen with
  | nil => cases h
  | cons a rest ih =>
    rw [firstOfEachName] at h
    split at h
    · exact List.mem_cons_of_mem _ (ih h)
    · obtain rfl | h := List.mem_cons.1 h
      · exact List.mem_cons_self
      · exact List.mem_cons_of_mem _ (ih h)

theorem seenFrom_of_mem_completed {text : String} {p : Position} {e : Entry}
    (h : e ∈ completed entries label text p) : SeenFrom label e := by
  rw [completed] at h
  split at h
  · cases h
  · have hfits := (List.mem_filter.1 (mem_of_mem_firstOfEachName h)).2
    rw [fits, Bool.and_eq_true, Bool.or_eq_true, Bool.not_eq_true', beq_iff_eq] at hfits
    exact hfits.2

section

variable (hentries : ∀ e ∈ entries, e.Extracted)
include hentries

theorem seenFrom_of_mem_lookup {name : List Char} {m : Match} (h : m ∈ lookup entries label name) :
    SeenFrom label m.entry := by
  rw [lookup, List.mem_mergeSort] at h
  obtain ⟨e, he, rfl⟩ := List.mem_map.1 h
  obtain ⟨hmem, hcond⟩ := List.mem_filter.1 he
  exact seenFrom_of_isVisible (hentries e hmem) (Bool.and_eq_true_iff.1 hcond).2

theorem seenFrom_of_mem_bestMatches {name : List Char} {m : Match}
    (h : m ∈ bestMatches (lookup entries label name)) : SeenFrom label m.entry := by
  rw [bestMatches] at h
  split at h
  · exact seenFrom_of_mem_lookup hentries (List.mem_filter.1 h).1
  · exact seenFrom_of_mem_lookup hentries h

theorem seenFrom_of_mem_hovered {text : String} {p : Position} {e : Entry}
    (h : e ∈ hovered entries label text p) : SeenFrom label e := by
  obtain ⟨name, -, h⟩ := Option.bind_eq_some_iff.1 h
  obtain ⟨m, hm, rfl⟩ := Option.map_eq_some_iff.1 h
  exact seenFrom_of_mem_lookup hentries (List.mem_of_mem_head? hm)

theorem seenFrom_of_mem_called {text : String} {p : Position} {site : CallSite} {e : Entry}
    (h : e ∈ called entries label text p site) : SeenFrom label e := by
  obtain ⟨m, hm, rfl⟩ := List.mem_map.1 h
  exact seenFrom_of_mem_bestMatches hentries (List.mem_filter.1 hm).1

theorem seenFrom_of_mem_sought {text : String} {p : Position} {e : Entry}
    (h : e ∈ sought entries label text p) : SeenFrom label e := by
  obtain ⟨m, hm, rfl⟩ := List.mem_map.1 h
  cases hname : symbolAt? text.toList p with
  | none => simp [hname] at hm
  | some name =>
    rw [hname, Option.map_some, Option.getD_some] at hm
    exact seenFrom_of_mem_bestMatches hentries hm

end

/-- Whatever files without white space in their paths an index has seen, and whatever is asked about a
text of a file, each answer is made of entries that are not local or are of that file. -/
theorem locals_stay_in_file (fs₀ : FileSystem) {cache : Path} (hcache : cache.isAbsolute = true)
    {calls : List (FileSystem × Index.Call)}
    (hu : ∀ e ∈ calls, ∀ p ∈ e.2.files e.1, Unspaced p.pieces) (label text : String) (p : Position)
    (docs : Documents) (fs : FileSystem) :
    let x := (Index.create fs₀ cache).1.run calls
    ((complete x.entries label text p = (completed x.entries label text p).map
        (Proposal.ofEntry ((Completing.ofLine (lineBefore text.toList p)).operator == some ':'))) ∧
      ∀ e ∈ completed x.entries label text p, SeenFrom label e) ∧
    (hover x.entries label text p = (hovered x.entries label text p).map (·.api.doc) ∧
      ∀ e ∈ hovered x.entries label text p, SeenFrom label e) ∧
    (signatureHelp x.entries label text p =
        (callSite? (textBefore text.toList p)).bind (fun site =>
          if (called x.entries label text p site).isEmpty then none
          else some ((called x.entries label text p site).map (Signature.ofEntry site))) ∧
      ∀ site, ∀ e ∈ called x.entries label text p site, SeenFrom label e) ∧
    (definition x docs fs label text p =
        distinct [] ((sought x.entries label text p).filterMap fun e => locate? x docs fs e.tag) ∧
      ∀ e ∈ sought x.entries label text p, SeenFrom label e) := by
  intro x
  have hpure : x.Pure := by
    refine Index.Pure.run ?_ hu
    rw [Index.create_index]
    exact ⟨hcache, by simp, by simp⟩
  have hentries : ∀ e ∈ x.entries, e.Extracted := fun e he => hpure.extracted he
  exact ⟨⟨complete_eq _ _ _ _, fun e he => seenFrom_of_mem_completed he⟩,
    ⟨hover_eq _ _ _ _, fun e he => seenFrom_of_mem_hovered hentries he⟩,
    ⟨signatureHelp_eq _ _ _ _, fun site e he => seenFrom_of_mem_called hentries he⟩,
    ⟨definition_eq _ _ _ _ _ _, fun e he => seenFrom_of_mem_sought hentries he⟩⟩

/-- A project of one file with a local function. -/
def withLocal : FileSystem where
  nodes := [(["c"], .directory), (["w"], .directory),
    (["w", "a.lua"], .file (.text "local function helper() end\n"))]

theorem files_withLocal : Index.Call.files withLocal (.scan ⟨"/w"⟩) = [⟨"/w/a.lua"⟩] := by
  decide +kernel

/-- The local is in the index, and the place of its name in another file is not its definition. -/
theorem locals_stay_in_file_helper :
    let x := (Index.create {} ⟨"/c"⟩).1.run [(withLocal, .scan ⟨"/w"⟩)]
    (x.projectEntries.map fun e => (e.tag.kind, e.tag.file)) = [(.localFunction, "$ROOT/a.lua")] ∧
      ∀ e ∈ sought x.entries "$ROOT/b.lua" "helper()" ⟨0, 2⟩, SeenFrom "$ROOT/b.lua" e := by
  intro x
  have hu : ∀ e ∈ [(withLocal, Index.Call.scan ⟨"/w"⟩)], ∀ p ∈ e.2.files e.1,
      Unspaced p.pieces := by
    rw [List.forall_mem_singleton, files_withLocal, List.forall_mem_singleton]
    decide
  have hcache : Path.isAbsolute ⟨"/c"⟩ = true := by decide
  obtain ⟨-, -, -, -, hsought⟩ := locals_stay_in_file {} hcache hu "$ROOT/b.lua" "helper()" ⟨0, 2⟩ {} {}
  exact ⟨by decide +kernel, hsought⟩

end Query

end LuaLens
