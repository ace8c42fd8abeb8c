import LuaLens.Proofs.Corpus.Fields
import LuaLens.Proofs.Index.Scan

/-!
Documents that are scanned by themselves. The text goes through a copy and two files, and its entries
take the place of those of its label: for a file of the project exactly the entries of its symbols, for
any other file entries that no file of the project has.
-/

namespace LuaLens

open Text

/-! ### Names of scans -/

namespace RescanId

theorem isAlphanum_of_mem_toDigits {n : Nat} {c : Char} (h : c ∈ Nat.toDigits 16 n) :
    c.isAlphanum = true := by
  have hdigit (d : Nat) (hd : d < 16) : d.digitChar.isAlphanum = true := by
    revert d
    decide
  induction n using Nat.strong_induction_on with
  | _ n ih =>
    rw [Nat.toDigits_eq_if (by decide)] at h
    split at h
    · rename_i hlt
      rw [List.mem_singleton] at h
      rw [h]
      exact hdigit n hlt
    · obtain h | h := List.mem_append.1 h
      · exact ih _ (by omega) h
      · rw [List.mem_singleton] at h
        rw [h]
        exact hdigit _ (by omega)

/-- What all names start with. -/
def lead : List Char := "00000000-0000-4000-8000-".toList

theorem toList_hex (width n : Nat) :
    (hex width n).toList =
      List.replicate (width - (Nat.toDigits 16 n).length) '0' ++ Nat.toDigits 16 n :=
  String.toList_ofList

theorem toList_text (id : RescanId) : id.text.toList = lead ++ (hex 12 id.number).toList :=
  String.toList_append

theorem head?_lead : lead.head? = some '0' := by decide

theorem all_lead : (lead.all fun c => c.isAlphanum || c == '-') = true := by decide

theorem mem_text {id : RescanId} {c : Char} (h : c ∈ id.text.toList) :
    c.isAlphanum = true ∨ c = '-' := by
  rw [toList_text, toList_hex, List.mem_append, List.mem_append] at h
  obtain h | h | h := h
  · simpa using List.all_eq_true.1 all_lead c h
  · rw [(List.mem_replicate.1 h).2]
    exact .inl rfl
  · exact .inl (isAlphanum_of_mem_toDigits h)

theorem not_mem_text (id : RescanId) {c : Char} (hc : c.isAlphanum = false) (hd : c ≠ '-') :
    c ∉ id.text.toList := by
  intro h
  obtain h | h := mem_text h
  · rw [hc] at h
    cases h
  · exact hd h

theorem isBlank_of_mem_text {id : RescanId} {c : Char} (h : c ∈ id.text.toList) :
    isBlank c = false := by
  obtain h | rfl := mem_text h
  · exact isBlank_of_isAlphanum (by rw [h]; rfl)
  · decide

theorem isPlain_text_append (id : RescanId) (ending : String) (h : '/' ∉ ending.toList) :
    Path.IsPlain (id.text ++ ending) := by
  obtain ⟨s, hs⟩ : ∃ s, (id.text ++ ending).toList = '0' :: s := by
    obtain ⟨s, hs⟩ := List.head?_eq_some_iff.1 head?_lead
    rw [String.toList_append, toList_text, hs]
    exact ⟨_, rfl⟩
  refine ⟨by rw [hs]; rfl, by rw [hs]; simp, ?_⟩
  rw [String.toList_append, List.mem_append, not_or]
  exact ⟨not_mem_text id (by decide) (by decide), h⟩

theorem isPlain_text (id : RescanId) : Path.IsPlain id.text := by
  have h := isPlain_text_append id "" (by simp)
  rwa [String.append_empty] at h

theorem stepStem_text (id : RescanId) : stepStem id.text.toList ≠ "init" := by
  have hdot : '.' ∉ id.text.toList := not_mem_text id (by decide) (by decide)
  rw [stepStem, Path.stepName?_of_isPlain id.isPlain_text, Option.map_some, Option.getD_some,
    Path.splitName_of_not_mem hdot]
  intro h
  have hhead := congrArg (fun s : String => s.toList.head?) h
  obtain ⟨s, hs⟩ := List.head?_eq_some_iff.1 head?_lead
  have hinit : "init".toList.head? = some 'i' := by decide
  rw [toList_text, hs, List.cons_append, List.head?_cons, hinit] at hhead
  cases hhead

theorem tags_ne_api (id : RescanId) : id.text ++ ".tags" ≠ id.text ++ ".api" := by
  intro h
  have hlist := congrArg String.toList h
  rw [String.toList_append, String.toList_append] at hlist
  exact absurd (List.append_cancel_left hlist) (by decide)

theorem slash_not_mem_tags : '/' ∉ ".tags".toList := by decide

theorem slash_not_mem_api : '/' ∉ ".api".toList := by decide

end RescanId

/-! ### The module of a copy -/

/-- The module of a document scanned by itself. The copy of a file directly in the root stands in a
directory named after the scan. -/
def rescanModule (root q : Path) (id : RescanId) : String :=
  if q.fileStem? = some "init" ∧ q.steps.length = root.steps.length + 1 then id.text
  else moduleNameOf q

/-- A copy is named like the document unless the directory counts and is not copied. -/
theorem moduleNameOf_copy {root q scratch : Path} {tail base : List (List Char)} {id : RescanId}
    {text : String} (h : root.Below q tail) (ht : tail ≠ []) (hs : scratch.isAbsolute = true)
    (hbase : scratch.steps = base ++ [id.text.toList]) (hl : Path.Leads text tail) :
    moduleNameOf (scratch.join text) = rescanModule root q id := by
  obtain ⟨habs, hsteps⟩ := Path.steps_join hs hl
  obtain ⟨init, last, rfl⟩ : ∃ init last, tail = init ++ [last] :=
    ⟨tail.dropLast, tail.getLast ht, (List.dropLast_append_getLast ht).symm⟩
  have hinit := fileStem?_eq_init_iff h.absolute (h.steps.trans (List.append_assoc ..).symm)
  rw [rescanModule, moduleNameOf_eq habs, moduleNameOf_eq h.absolute, hsteps, h.steps,
    ← List.append_assoc, ← List.append_assoc, stepsModule_concat, stepsModule_concat]
  by_cases hstem : stepStem last = "init"
  · rw [if_pos hstem, if_pos hstem]
    obtain rfl | ⟨front, dir, rfl⟩ := List.eq_nil_or_concat init
    · rw [if_pos ⟨hinit.2 hstem, by simp⟩, List.append_nil, hbase, List.getLast?_concat, Option.bind_some,
        Path.stepName?_of_isPlain id.isPlain_text, Option.getD_some]
    · rw [if_neg (by simp), List.concat_eq_append, ← List.append_assoc, ← List.append_assoc,
        List.getLast?_concat, List.getLast?_concat]
  · rw [if_neg hstem, if_neg (fun hc => hstem (hinit.1 hc.1)), if_neg hstem]

namespace Index

variable {x : Index} {fs : FileSystem} {root p q : Path} {text : String} {tail : List (List Char)}

/-! ### Overrides -/

/-- The labels of overrides increase, so that none stands there twice. -/
def Ordered (overrides : List (String × Rescan)) : Prop := overrides.Pairwise fun a b => a.1 < b.1

theorem mem_insertOverride {overrides : List (String × Rescan)} (h : Ordered overrides)
    {label : String} {r : Rescan} {o : String × Rescan} :
    o ∈ insertOverride label r overrides ↔ o = (label, r) ∨ o ∈ overrides ∧ o.1 ≠ label := by
  induction overrides with
  | nil => simp [insertOverride]
  | cons a rest ih =>
    obtain ⟨ha, hrest⟩ := List.pairwise_cons.1 h
    rw [insertOverride]
    by_cases hsame : a.1 = label
    · rw [if_pos (by simpa using hsame), List.mem_cons, List.mem_cons]
      constructor
      · rintro (rfl | ho)
        · exact .inl rfl
        · exact .inr ⟨.inr ho, fun hl => (ha o ho).ne (hsame.trans hl.symm)⟩
      · rintro (rfl | ⟨rfl | ho, hne⟩)
        · exact .inl rfl
        · exact absurd hsame hne
        · exact .inr ho
    · rw [if_neg (by simpa using hsame)]
      by_cases hlt : label < a.1
      · rw [if_pos hlt, List.mem_cons]
        refine or_congr_right (iff_self_and.2 fun ho => ?_)
        obtain rfl | ho := List.mem_cons.1 ho
        · exact hsame
        · exact (hlt.trans (ha o ho)).ne'
      · rw [if_neg hlt, List.mem_cons, ih hrest, List.mem_cons]
        constructor
        · rintro (rfl | rfl | ⟨ho, hne⟩)
          · exact .inr ⟨.inl rfl, hsame⟩
          · exact .inl rfl
          · exact .inr ⟨.inr ho, hne⟩
        · rintro (rfl | ⟨rfl | ho, hne⟩)
          · exact .inr (.inl rfl)
          · exact .inl rfl
          · exact .inr (.inr ⟨ho, hne⟩)

theorem ordered_insertOverride {overrides : List (String × Rescan)} (h : Ordered overrides)
    (label : String) (r : Rescan) : Ordered (insertOverride label r overrides) := by
  induction overrides with
  | nil => exact List.pairwise_singleton _ _
  | cons a rest ih =>
    obtain ⟨ha, hrest⟩ := List.pairwise_cons.1 h
    rw [insertOverride]
    by_cases hsame : a.1 = label
    · rw [if_pos (by simpa using hsame)]
      exact List.pairwise_cons.2 ⟨fun o ho => hsame ▸ ha o ho, hrest⟩
    · rw [if_neg (by simpa using hsame)]
      by_cases hlt : label < a.1
      · rw [if_pos hlt]
        refine List.pairwise_cons.2 ⟨fun o ho => ?_, h⟩
        obtain rfl | ho := List.mem_cons.1 ho
        · exact hlt
        · exact hlt.trans (ha o ho)
      · rw [if_neg hlt]
        refine List.pairwise_cons.2 ⟨fun o ho => ?_, ih hrest⟩
        obtain rfl | ⟨ho, -⟩ := (mem_insertOverride hrest).1 ho
        · exact lt_of_le_of_ne (not_lt.1 hlt) hsame
        · exact ha o ho

/-- The entries of a label come from its override, if no other has entries of that label. -/
theorem entriesOf_of_mem {label : String} {r : Rescan} (h : Ordered x.overrides)
    (hr : (label, r) ∈ x.overrides) (hown : ∀ e ∈ r.corpus, e.tag.file = label)
    (hother : ∀ o ∈ x.overrides, o.1 ≠ label → ∀ e ∈ o.2.corpus, e.tag.file ≠ label) :
    x.entriesOf label = r.corpus := by
  obtain ⟨before, after, hsplit⟩ := List.append_of_mem hr
  have hover : x.isOverridden label = true := by
    rw [isOverridden, List.any_eq_true]
    exact ⟨_, hr, by simp⟩
  have hkept : (x.project.filter fun e => !x.isOverridden e.tag.file).filter
      (fun e => e.tag.file == label) = [] := by
    rw [List.filter_filter, List.filter_eq_nil_iff]
    rintro e - he
    rw [Bool.and_eq_true, beq_iff_eq] at he
    rw [he.1, hover] at he
    exact absurd he.2 (by decide)
  have hnone (os : List (String × Rescan)) (hos : ∀ o ∈ os, o ∈ x.overrides ∧ o.1 ≠ label) :
      os.flatMap (fun o => o.2.corpus.filter fun e => e.tag.file == label) = [] := by
    rw [List.flatMap_eq_nil_iff]
    intro o ho
    rw [List.filter_eq_nil_iff]
    intro e he
    simpa using hother o (hos o ho).1 (hos o ho).2 e he
  rw [Ordered, hsplit, List.pairwise_append, List.pairwise_cons] at h
  obtain ⟨-, ⟨hafter, -⟩, hbefore⟩ := h
  rw [entriesOf_eq, List.filter_append, hkept, List.nil_append, List.filter_flatMap, hsplit,
    List.flatMap_append, List.flatMap_cons, hnone before, hnone after, List.nil_append,
    List.append_nil, List.filter_eq_self]
  · intro e he
    simpa using hown e he
  · exact fun o ho => ⟨by simp [hsplit, ho], (hafter o ho).ne'⟩
  · exact fun o ho => ⟨by simp [hsplit, ho], (hbefore o ho (label, r) List.mem_cons_self).ne⟩

/-- The entries of a label without override are those of the full scan. -/
theorem entriesOf_of_forall {label : String}
    (h : ∀ o ∈ x.overrides, o.1 ≠ label ∧ ∀ e ∈ o.2.corpus, e.tag.file ≠ label) :
    x.entriesOf label = x.project.filter fun e => e.tag.file == label := by
  have hnone : (x.overrides.flatMap (·.2.corpus)).filter (fun e => e.tag.file == label) = [] := by
    rw [List.filter_eq_nil_iff]
    intro e he
    obtain ⟨o, ho, heo⟩ := List.mem_flatMap.1 he
    simpa using (h o ho).2 e heo
  have hover : x.isOverridden label = false := by
    rw [isOverridden, List.any_eq_false]
    intro o ho
    simpa using (h o ho).1
  rw [entriesOf_eq, List.filter_append, hnone, List.append_nil, List.filter_filter]
  refine List.filter_congr fun e _ => ?_
  by_cases he : e.tag.file = label
  · simp [he, hover]
  · simp [he]

/-- Forgetting drops the override of a label, if there is one. -/
theorem forget_eq (x : Index) (fs : FileSystem) (p : Path) :
    (x.forget fs p).1 = { x with overrides := x.overrides.filter (·.1 != x.labelOf fs p) } := by
  rw [forget]
  split
  · rfl
  · rename_i hnone
    have hall : x.overrides.filter (·.1 != x.labelOf fs p) = x.overrides := by
      rw [List.filter_eq_self]
      intro o ho
      simpa using List.find?_eq_none.1 hnone o ho
    rw [hall]

/-! ### Scanning one document -/

/-- The symbols of a single file that can be read. -/
theorem extractFiles_singleton (scratch : Path) (h : fs.readText p = .ok text) :
    extractFiles fs scratch [p] =
      [(Label.ofPath scratch p, extractSymbols text (moduleNameOf p))] := by
  have hread : ∀ q ∈ [p], ∃ text, fs.readText q = .ok text := by
    intro q hq
    rw [List.mem_singleton.1 hq]
    exact ⟨text, h⟩
  rw [extractFiles_eq hread (List.Perm.refl _) (List.pairwise_singleton _ _)]
  simp only [List.map_singleton, fileSymbols, h]

/-- The name of the next scan of a single document. -/
def nextId (x : Index) : RescanId := ⟨x.issued⟩

def nextTags (x : Index) : Path := Corpus.tagsPath x.cache x.nextId.text

def nextApi (x : Index) : Path := Corpus.apiPath x.cache x.nextId.text

theorem write_ne_error {c : Corpus} {tags api : Path} {e : IndexError}
    (h : c.write fs tags api = .error e) : ∃ path fault, e = .io path fault := by
  rw [Corpus.write] at h
  cases ht : fs.writeText tags c.tagText with
  | error fault => exact ⟨tags, fault, by simpa [ht, Except.mapError, bind, Except.bind] using h.symm⟩
  | ok mid =>
    cases ha : mid.writeText api c.apiText with
    | error fault =>
      exact ⟨api, fault, by simpa [ht, ha, Except.mapError, bind, Except.bind] using h.symm⟩
    | ok fs' => simp [ht, ha, Except.mapError, bind, Except.bind] at h

theorem mapError_eq_error {ε ε' α : Type} {f : ε → ε'} {r : Except ε α} {e : ε'}
    (h : r.mapError f = .error e) : ∃ fault, e = f fault := by
  cases r with
  | error fault => exact ⟨fault, (Except.error.inj h).symm⟩
  | ok a => cases h

theorem mapError_eq_ok {ε ε' α : Type} {f : ε → ε'} {r : Except ε α} {a : α}
    (h : r.mapError f = .ok a) : r = .ok a := by
  cases r with
  | error fault => cases h
  | ok b => rw [Except.ok.inj h]

/-- The way to the copy of a document, from the directory of its scan. -/
def belowOf (root q : Path) : String :=
  match Path.relativeTo? root q with
  | some rest => rest.text
  | none => q.fileName?.getD q.text

/-- The copy that the next scan of a single document makes. -/
def copyOf (x : Index) (root q : Path) : Path := (x.cache.join x.nextId.text).join (belowOf root q)

/-- What a rescan comes to: something cannot be written, or the entries of the copy are, and what is
loaded takes the place of the former entries. -/
theorem rescan_cases (hroot : x.root = some root) (fs : FileSystem) (p : Path) (text : String) :
    ((∃ path fault, (x.rescan fs p text).2.2 = .error (.io path fault)) ∧
        (x.rescan fs p text).1 = { x with issued := x.issued + 1 }) ∨
      ∃ mid written,
        Corpus.write (Corpus.ofSymbols (Label.ofPath root (fs.canonical p))
          (extractSymbols text (moduleNameOf (x.copyOf root (fs.canonical p))))) mid x.nextTags
            x.nextApi = .ok written ∧
        ((∃ e, Corpus.load written x.nextTags x.nextApi = .error e ∧
            (x.rescan fs p text).2.2 = .error e ∧
            (x.rescan fs p text).1 = { x with issued := x.issued + 1 }) ∨
          ∃ c, Corpus.load written x.nextTags x.nextApi = .ok c ∧
            (x.rescan fs p text).2.2 = .ok c.length ∧
            (x.rescan fs p text).1 = { x with
              issued := x.issued + 1
              overrides := insertOverride (Label.ofPath root (fs.canonical p))
                { id := x.nextId, corpus := c } x.overrides }) := by
  generalize hr : x.rescan fs p text = r
  rw [rescan, hroot] at hr
  simp only at hr
  split at hr
  · rename_i e hmade
    obtain ⟨path, fault, rfl⟩ : ∃ path fault, e = .io path fault := by
      split at hmade
      · obtain ⟨fault, rfl⟩ := mapError_eq_error hmade
        exact ⟨_, fault, rfl⟩
      · cases hmade
    subst hr
    exact .inl ⟨⟨path, fault, rfl⟩, by rw [hroot]⟩
  · split at hr
    · rename_i e hcopied
      obtain ⟨fault, rfl⟩ := mapError_eq_error hcopied
      subst hr
      exact .inl ⟨⟨_, fault, rfl⟩, by rw [hroot]⟩
    · rename_i mid hcopied
      have hread := FileSystem.readText_writeText (mapError_eq_ok hcopied)
      rw [extractFiles_singleton _ hread] at hr
      simp only [List.flatMap_singleton] at hr
      split at hr
      · rename_i e hwrite
        obtain ⟨path, fault, rfl⟩ := write_ne_error hwrite
        subst hr
        exact .inl ⟨⟨path, fault, rfl⟩, by rw [hroot]⟩
      · rename_i written hwrite
        refine .inr ⟨_, written, hwrite, ?_⟩
        split at hr
        · rename_i e hload
          subst hr
          exact .inl ⟨e, hload, rfl, by rw [hroot]⟩
        · rename_i c hload
          subst hr
          exact .inr ⟨c, hload, rfl, by rw [hroot]; rfl⟩

/-- The symbols of a module without white space and slashes in its name. -/
theorem storable_of_mem {module : String} {s : Symbol}
    (hm : ∀ c ∈ module.toList, isBlank c = false) (hs : s ∈ extractSymbols text module) :
    s.Storable := by
  have hmade := made_of_mem_extractSymbols (Q := fun c => isBlank c = false)
    (fun c hc => isBlank_of_isTarget hc) hm hs
  have hnot {name : String} (h : ∀ c ∈ name.toList, isBlank c = false) {c : Char}
      (hc : isBlank c = true) : c ∉ name.toList := by
    intro hmem
    rw [h c hmem] at hc
    cases hc
  refine ⟨⟨hnot hmade.name (by decide), hnot hmade.name (by decide), hnot hmade.name (by decide)⟩,
    ⟨hnot hmade.owner (by decide), hnot hmade.owner (by decide)⟩, fun hlast => ?_⟩
  exact hnot hmade.owner (c := '\r') (by decide) (List.mem_of_getLast? hlast)

/-- The entries of such a module are loaded as they were written. -/
theorem load_ofSymbols {module label t a : String} {dir : Path} {fs' : FileSystem}
    (hm : ∀ c ∈ module.toList, isBlank c = false) (hslash : '/' ∉ module.toList)
    (ht : Path.IsPlain t) (ha : Path.IsPlain a) (hne : t ≠ a)
    (hw : Corpus.write (Corpus.ofSymbols label (extractSymbols text module)) fs (dir.join t)
      (dir.join a) = .ok fs') :
    Corpus.load fs' (dir.join t) (dir.join a) =
      .ok (Corpus.ofSymbols label (extractSymbols text module)) := by
  refine load_of_storable (fun e he => ?_) ht ha hne hw
  obtain ⟨s, hs, rfl⟩ := List.mem_map.1 he
  exact ⟨label, s, rfl, made_of_slash_not_mem hslash hs, storable_of_mem hm hs⟩

theorem spelt_of_mem_belowOf {c : Char} (h : c ∈ (belowOf root q).toList) :
    Path.Spelt q.pieces c := by
  rw [belowOf] at h
  split at h
  · rename_i rest hrest
    exact Path.spelt_of_mem_relativeTo hrest h
  · cases hn : q.fileName? with
    | none =>
      rw [hn] at h
      exact Path.spelt_of_mem_text h
    | some name =>
      rw [hn] at h
      exact Path.spelt_of_mem_fileName hn h

/-- The module of a copy has no white space in its name if the way to it has none. -/
theorem isBlank_of_leads (hcache : x.cache.isAbsolute = true) {way : String} (hl : Path.Leads way tail)
    (hu : ∀ piece ∈ tail, ∀ c ∈ piece, isBlank c = false) {c : Char}
    (h : c ∈ (moduleNameOf ((x.cache.join x.nextId.text).join way)).toList) : isBlank c = false := by
  obtain ⟨hscratch, hsteps⟩ := Path.steps_join hcache (Path.leads_plain x.nextId.isPlain_text)
  obtain ⟨habs, hway⟩ := Path.steps_join hscratch hl
  rw [moduleNameOf_eq habs, hway, hsteps, List.append_assoc, List.singleton_append] at h
  obtain h | ⟨piece, hp, h⟩ := mem_of_mem_stepsModule x.nextId.stepStem_text h
  · exact RescanId.isBlank_of_mem_text h
  · exact hu piece hp c h

/-- The module of a copy has no more white space in its name than the path of the document. -/
theorem isBlank_of_mem_copyOf (hcache : x.cache.isAbsolute = true) (hu : Unspaced q.pieces) {c : Char}
    (h : c ∈ (moduleNameOf (x.copyOf root q)).toList) : isBlank c = false := by
  by_cases hhead : (belowOf root q).toList.head? = some '/'
  · have hcopy : x.copyOf root q = ⟨belowOf root q⟩ := by
      rw [copyOf, Path.join, hhead]
      rfl
    rw [hcopy] at h
    exact hu.isBlank_of_spelt ((spelt_of_mem_moduleNameOf h).trans fun _ => spelt_of_mem_belowOf)
  · refine isBlank_of_leads hcache ⟨rfl, hhead⟩ (fun piece hp c hc => ?_) h
    have hpiece := (mem_splitAll (Path.mem_counted.1 hp).1).2
    exact hu.isBlank_of_spelt (spelt_of_mem_belowOf (hpiece c hc))

/-- The copy of a file of the project has the same way below its directory. -/
theorem copyOf_below (x : Index) (hb : root.Below q tail) :
    ∃ way, x.copyOf root q = (x.cache.join x.nextId.text).join way ∧ Path.Leads way tail := by
  obtain ⟨way, hrel, hleads⟩ := Path.relativeTo?_of_steps hb.rooted hb.absolute hb.steps
  exact ⟨way, by rw [copyOf, belowOf, hrel], hleads⟩

theorem moduleNameOf_copyOf (hcache : x.cache.isAbsolute = true) (hb : root.Below q tail)
    (ht : tail ≠ []) : moduleNameOf (x.copyOf root q) = rescanModule root q x.nextId := by
  obtain ⟨way, hcopy, hleads⟩ := x.copyOf_below hb
  obtain ⟨hscratch, hsteps⟩ := Path.steps_join hcache (Path.leads_plain x.nextId.isPlain_text)
  rw [hcopy]
  exact moduleNameOf_copy hb ht hscratch hsteps hleads

/-- The entries that the next rescan of a document finds. -/
def rescanned (x : Index) (root q : Path) (text : String) : Corpus :=
  Corpus.ofSymbols (Label.ofPath root q) (extractSymbols text (moduleNameOf (x.copyOf root q)))

/-- A rescan fails and leaves the entries as they are, or puts those it finds under the label of the
document. -/
theorem rescan_unspaced (hroot : x.root = some root) (hcache : x.cache.isAbsolute = true)
    (hu : Unspaced (fs.canonical p).pieces) (text : String) :
    (∃ e, (x.rescan fs p text).2.2 = .error e ∧
        (x.rescan fs p text).1 = { x with issued := x.issued + 1 }) ∨
      (x.rescan fs p text).2.2 = .ok (x.rescanned root (fs.canonical p) text).length ∧
        (x.rescan fs p text).1 = { x with
          issued := x.issued + 1
          overrides := insertOverride (Label.ofPath root (fs.canonical p))
            { id := x.nextId, corpus := x.rescanned root (fs.canonical p) text } x.overrides } := by
  obtain ⟨⟨path, fault, hbad⟩, hx⟩ | ⟨mid, written, hwrite, hcases⟩ := rescan_cases hroot fs p text
  · exact .inl ⟨_, hbad, hx⟩
  have hload := load_ofSymbols (fun c => isBlank_of_mem_copyOf hcache hu)
    (slash_not_mem_moduleNameOf _) (x.nextId.isPlain_text_append _ RescanId.slash_not_mem_tags)
    (x.nextId.isPlain_text_append _ RescanId.slash_not_mem_api) x.nextId.tags_ne_api hwrite
  obtain ⟨e, he, -, -⟩ | ⟨c, hc, hresult, hx⟩ := hcases
  · cases he.symm.trans hload
  · obtain rfl := Except.ok.inj (hc.symm.trans hload)
    exact .inr ⟨hresult, hx⟩

/-- A rescan of a file of the project puts exactly the entries of its symbols under its label. -/
theorem rescan_below (hroot : x.root = some root) (hcache : x.cache.isAbsolute = true)
    (hb : root.Below (fs.canonical p) tail) (hu : Unspaced tail)
    (hio : ∀ path fault, (x.rescan fs p text).2.2 ≠ .error (.io path fault)) :
    ∃ module, (tail ≠ [] → module = rescanModule root (fs.canonical p) x.nextId) ∧
      (x.rescan fs p text).1 = { x with
        issued := x.issued + 1
        overrides := insertOverride (Label.ofPath root (fs.canonical p))
          { id := x.nextId
            corpus := Corpus.ofSymbols (Label.ofPath root (fs.canonical p))
              (extractSymbols text module) } x.overrides } := by
  obtain ⟨⟨path, fault, hbad⟩, -⟩ | ⟨mid, written, hwrite, hcases⟩ := rescan_cases hroot fs p text
  · exact absurd hbad (hio path fault)
  refine ⟨_, moduleNameOf_copyOf hcache hb, ?_⟩
  have hblank : ∀ c ∈ (moduleNameOf (x.copyOf root (fs.canonical p))).toList, isBlank c = false := by
    obtain ⟨way, hcopy, hleads⟩ := x.copyOf_below hb
    rw [hcopy]
    exact fun c => isBlank_of_leads hcache hleads fun piece hp c hc => (hu piece hp c hc).1
  have hload := load_ofSymbols hblank (slash_not_mem_moduleNameOf _)
    (x.nextId.isPlain_text_append _ RescanId.slash_not_mem_tags)
    (x.nextId.isPlain_text_append _ RescanId.slash_not_mem_api) x.nextId.tags_ne_api hwrite
  obtain ⟨e, he, -, -⟩ | ⟨c, hc, -, hx⟩ := hcases
  · cases he.symm.trans hload
  · obtain rfl := Except.ok.inj (hc.symm.trans hload)
    exact hx

/-- A rescan of any other file puts entries under its label that no file of the project has. -/
theorem rescan_outside (hroot : x.root = some root) (hr : root.isAbsolute = true)
    (hq : (fs.canonical p).isAbsolute = true) (hout : ¬ root.steps <+: (fs.canonical p).steps)
    (hio : ∀ path fault, (x.rescan fs p text).2.2 ≠ .error (.io path fault)) :
    (x.rescan fs p text).1 = { x with issued := x.issued + 1 } ∨
      ∃ r : Rescan, (∀ e ∈ r.corpus, Label.Outlying e.tag.file.toList) ∧
        (x.rescan fs p text).1 = { x with
          issued := x.issued + 1
          overrides := insertOverride (Label.ofPath root (fs.canonical p)) r x.overrides } := by
  obtain ⟨⟨path, fault, hbad⟩, -⟩ | ⟨mid, written, hwrite, hcases⟩ := rescan_cases hroot fs p text
  · exact absurd hbad (hio path fault)
  have hentries : ∀ e ∈ Corpus.ofSymbols (Label.ofPath root (fs.canonical p))
      (extractSymbols text (moduleNameOf (x.copyOf root (fs.canonical p)))), Corpus.OfOutside e := by
    intro e he
    obtain ⟨s, hs, rfl⟩ := List.mem_map.1 he
    have hmade := made_of_slash_not_mem (slash_not_mem_moduleNameOf _) hs
    refine ⟨fun h => hmade.name '/' h rfl, fun h => hmade.owner '/' h rfl, ?_, hmade.locator⟩
    rw [Entry.ofSymbol, Label.ofPath_outside hr hq hout]
    simpa [Path.isAbsolute] using hq
  obtain ⟨e, -, -, hx⟩ | ⟨c, hc, -, hx⟩ := hcases
  · exact .inl hx
  · refine .inr ⟨_, fun e he => ?_, hx⟩
    exact Corpus.outlying_of_mem_load hentries
      (x.nextId.isPlain_text_append _ RescanId.slash_not_mem_tags)
      (x.nextId.isPlain_text_append _ RescanId.slash_not_mem_api) x.nextId.tags_ne_api hwrite hc he

end Index

end LuaLens
