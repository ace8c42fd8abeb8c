import LuaLens.Proofs.Index.Cache
import LuaLens.Proofs.Index.Calls

/-!
Runs of calls that succeed, and the files that are in the private directory after them: none before the
first scan; then the two files of the last scan and a pair for each document that is overridden, by the
name of its last rescan; and the copies of documents that came to stand among them.
-/

namespace LuaLens.Index

variable {x : Index} {p : Path} {fs fs' : FileSystem} {name label : String}

/-! ### Copies -/

/-- The name of the copy that a rescan makes, if it stands directly in the private directory. -/
def copyName? (x : Index) (fs : FileSystem) (p : Path) : Option String :=
  x.root.bind fun root =>
    let place := (x.copyOf root (fs.canonical p)).place
    if place.dropLast = x.cache.place then place.getLast? else none

theorem copyName?_eq_some {root : Path} (hroot : x.root = some root) :
    x.copyName? fs p = some name ↔
      (x.copyOf root (fs.canonical p)).place = x.cache.place ++ [name] := by
  rw [copyName?, hroot, Option.bind_some]
  generalize (x.copyOf root (fs.canonical p)).place = place
  constructor
  · intro h
    simp only at h
    split_ifs at h with hdir
    obtain ⟨init, rfl⟩ := List.getLast?_eq_some_iff.1 h
    rw [← hdir, List.dropLast_concat]
  · rintro rfl
    simp

/-- A name that is none of those that an index gives to files and directories of scans. -/
def IsForeign (name : String) : Prop :=
  name ≠ "tags" ∧ name ≠ "api" ∧ ∀ id : RescanId, name ≠ id.text ∧ ¬ id.Names name

/-! ### What was done -/

inductive Deed
  | scanned
  | rescanned (label : String) (id : RescanId) (copy : Option String)
  | forgotten (label : String)
deriving DecidableEq, Repr

/-- The last rescan of a label that was neither forgotten since nor followed by a scan. The last deed
comes first. -/
def latest (label : String) : List Deed → Option RescanId
  | [] => none
  | .scanned :: _ => none
  | .rescanned l id _ :: before => if l = label then some id else latest label before
  | .forgotten l :: before => if l = label then none else latest label before

/-- The copies that have come to stand in the private directory since the last scan. -/
def strays : List Deed → List String
  | [] => []
  | .scanned :: _ => []
  | .rescanned _ _ copy :: before => copy.elim (strays before) fun name => (strays before).insert name
  | .forgotten _ :: before => strays before

theorem mem_strays_rescanned {id : RescanId} {copy : Option String} {deeds : List Deed} :
    name ∈ strays (.rescanned label id copy :: deeds) ↔ copy = some name ∨ name ∈ strays deeds := by
  rw [strays]
  cases copy with
  | none => simp
  | some n => simp [eq_comm]

theorem nodup_strays (deeds : List Deed) : (strays deeds).Nodup := by
  induction deeds with
  | nil => exact .nil
  | cons deed deeds ih =>
    cases deed with
    | scanned => exact .nil
    | rescanned label id copy =>
      cases copy with
      | none => exact ih
      | some name => exact ih.insert
    | forgotten label => exact ih

/-- Calls that succeed, from a new index with an empty directory on. Between calls all may change but
the files in that directory, and a copy that comes to stand there does not take the name of one. -/
inductive Session : Index → FileSystem → List Deed → Prop
  | start {cache : Path} {fs : FileSystem} : Home cache fs → (∀ name, held cache fs name = none) →
      Session (create fs cache).1 (create fs cache).2 []
  | meanwhile {x : Index} {fs fs' : FileSystem} {deeds : List Deed} : Session x fs deeds →
      Home x.cache fs' → held x.cache fs' = held x.cache fs → Session x fs' deeds
  | scan {x : Index} {fs : FileSystem} {deeds : List Deed} {root : Path} {summary : ScanSummary} :
      Session x fs deeds → (x.scan fs root).2.2 = .ok summary →
      Session (x.scan fs root).1 (x.scan fs root).2.1 (.scanned :: deeds)
  | rescan {x : Index} {fs : FileSystem} {deeds : List Deed} {p : Path} {text : String} {count : Nat} :
      Session x fs deeds → (x.rescan fs p text).2.2 = .ok count →
      (∀ name ∈ x.copyName? fs p, IsForeign name) →
      Session (x.rescan fs p text).1 (x.rescan fs p text).2.1
        (.rescanned (x.labelOf fs p) x.nextId (x.copyName? fs p) :: deeds)
  | forget {x : Index} {fs : FileSystem} {deeds : List Deed} {p : Path} : Session x fs deeds →
      Session (x.forget fs p).1 (x.forget fs p).2 (.forgotten (x.labelOf fs p) :: deeds)

/-! ### The files there are -/

/-- The private directory holds what it is to hold. -/
structure Tidy (x : Index) (fs : FileSystem) (deeds : List Deed) : Prop where
  home : Home x.cache fs
  scanned : x.root.isSome → .scanned ∈ deeds
  files : ∀ name, (held x.cache fs name).isSome ↔
    .scanned ∈ deeds ∧ (name ∈ x.corpusNames ∨ name ∈ strays deeds)
  foreign : ∀ name ∈ strays deeds, IsForeign name
  ordered : Ordered x.overrides
  issued : ∀ o ∈ x.overrides, o.2.id.number < x.issued
  distinct : ∀ o ∈ x.overrides, ∀ o' ∈ x.overrides, o.2.id = o'.2.id → o = o'
  pairs : ∀ o ∈ x.overrides, Corpus.load fs (Corpus.tagsPath x.cache o.2.id.text)
    (Corpus.apiPath x.cache o.2.id.text) = .ok o.2.corpus
  latest : ∀ label id, (∃ r, (label, r) ∈ x.overrides ∧ r.id = id) ↔ latest label deeds = some id

variable {deeds : List Deed}

theorem Tidy.create {cache : Path} (h : Home cache fs) (hempty : ∀ name, held cache fs name = none) :
    Tidy (create fs cache).1 (create fs cache).2 [] := by
  obtain ⟨hhome, hheld⟩ := h.create
  rw [create_index]
  refine ⟨hhome, nofun, fun name => ?_, nofun, .nil, nofun, nofun, nofun, fun label id => ?_⟩
  · rw [hheld, hempty]
    simp
  · simp [Index.latest]

theorem Tidy.meanwhile (h : Tidy x fs deeds) (hhome : Home x.cache fs')
    (hheld : held x.cache fs' = held x.cache fs) : Tidy x fs' deeds where
  home := hhome
  scanned := h.scanned
  files name := by rw [hheld, h.files]
  foreign := h.foreign
  ordered := h.ordered
  issued := h.issued
  distinct := h.distinct
  pairs o ho := h.home.load_pair hhome (fun name _ => congrFun hheld name) (h.pairs o ho)
  latest := h.latest

theorem Tidy.scan {root : Path} {summary : ScanSummary} (h : Tidy x fs deeds)
    (hok : (x.scan fs root).2.2 = .ok summary) :
    Tidy (x.scan fs root).1 (x.scan fs root).2.1 (.scanned :: deeds) := by
  obtain ⟨config, ⟨e, -, hscan⟩ | ⟨base, files, truncated, -, ⟨e, he, -⟩ |
    ⟨written, loaded, hwrite, -, hscan⟩⟩⟩ := scan_cases x fs root
  · rw [hscan] at hok
    cases hok
  · rw [he] at hok
    cases hok
  · rw [hscan]
    obtain ⟨hclear, hnone⟩ := h.home.clear
    obtain ⟨hhome, hheld⟩ := hclear.write_corpus isName_tags.1 isName_api.1 hwrite
    refine ⟨hhome, fun _ => List.mem_cons_self, fun name => ?_, nofun, .nil, nofun, nofun, nofun,
      fun label id => by simp [Index.latest]⟩
    rw [show held _ written = _ from hheld, Function.update_apply, Function.update_apply, hnone,
      mem_corpusNames]
    by_cases hapi : name = "api"
    · simp [hapi]
    · by_cases htags : name = "tags"
      · simp [htags]
      · simp [hapi, htags, strays]

/-- The names that are of use without the override of a label. -/
def Remains (x : Index) (label name : String) : Prop :=
  name = "tags" ∨ name = "api" ∨ ∃ o ∈ x.overrides, o.1 ≠ label ∧ o.2.id.Names name

theorem IsForeign.not_mem_corpusNames (h : IsForeign name) : name ∉ x.corpusNames := by
  rw [mem_corpusNames]
  rintro (rfl | rfl | ⟨o, -, hn⟩)
  · exact h.1 rfl
  · exact h.2.1 rfl
  · exact (h.2.2 o.2.id).2 hn

theorem text_not_mem_corpusNames (id : RescanId) : id.text ∉ x.corpusNames := by
  rw [mem_corpusNames]
  rintro (hid | hid | ⟨o, -, hn⟩)
  · exact RescanId.text_ne (by decide) hid
  · exact RescanId.text_ne (by decide) hid
  · exact id.dot_not_mem_text hn.dot

/-- No other file has a name that was that of the override of a label. -/
theorem Tidy.remains_iff (h : Tidy x fs deeds) :
    x.Remains label name ∨ name ∈ strays deeds ↔
      (¬ ∃ o ∈ x.overrides, o.1 = label ∧ o.2.id.Names name) ∧
        (name ∈ x.corpusNames ∨ name ∈ strays deeds) := by
  rw [mem_corpusNames, Remains]
  constructor
  · rintro ((rfl | rfl | ⟨o, ho, hlabel, hn⟩) | hname)
    · exact ⟨fun ⟨o, _, _, hn⟩ => o.2.id.not_names_of_dot (by decide) hn, .inl (.inl rfl)⟩
    · exact ⟨fun ⟨o, _, _, hn⟩ => o.2.id.not_names_of_dot (by decide) hn, .inl (.inr (.inl rfl))⟩
    · refine ⟨?_, .inl (.inr (.inr ⟨o, ho, hn⟩))⟩
      rintro ⟨o', ho', hsame, hn'⟩
      rw [h.distinct o ho o' ho' (hn.unique hn')] at hlabel
      exact hlabel hsame
    · exact ⟨fun ⟨o, _, _, hn⟩ => ((h.foreign name hname).2.2 o.2.id).2 hn, .inr hname⟩
  · rintro ⟨hnot, (htags | hapi | ⟨o, ho, hn⟩) | hname⟩
    · exact .inl (.inl htags)
    · exact .inl (.inr (.inl hapi))
    · exact .inl (.inr (.inr ⟨o, ho, fun hlabel => hnot ⟨o, ho, hlabel, hn⟩, hn⟩))
    · exact .inr hname

/-- The pair of an override stays when that of another label is removed. -/
theorem Tidy.not_superseded (h : Tidy x fs deeds) {o : String × Rescan} (ho : o ∈ x.overrides)
    (hlabel : o.1 ≠ label) (hn : o.2.id.Names name) :
    ¬ ∃ o' ∈ x.overrides, o'.1 = label ∧ o'.2.id.Names name :=
  (h.remains_iff.1 (.inl (.inr (.inr ⟨o, ho, hlabel, hn⟩)))).1

theorem mem_corpusNames_filter {y : Index} (hy : y.overrides = x.overrides.filter (·.1 != label)) :
    name ∈ y.corpusNames ↔ x.Remains label name := by
  rw [mem_corpusNames, hy, Remains]
  simp only [List.mem_filter, bne_iff_ne, and_assoc]

theorem mem_corpusNames_insert {y : Index} {r : Rescan} (hordered : Ordered x.overrides)
    (hy : y.overrides = insertOverride label r x.overrides) :
    name ∈ y.corpusNames ↔ r.id.Names name ∨ x.Remains label name := by
  rw [mem_corpusNames, hy, Remains]
  simp only [mem_insertOverride hordered]
  constructor
  · rintro (hname | hname | ⟨o, rfl | ⟨ho, hlabel⟩, hn⟩)
    · exact .inr (.inl hname)
    · exact .inr (.inr (.inl hname))
    · exact .inl hn
    · exact .inr (.inr (.inr ⟨o, ho, hlabel, hn⟩))
  · rintro (hn | hname | hname | ⟨o, ho, hlabel, hn⟩)
    · exact .inr (.inr ⟨_, .inl rfl, hn⟩)
    · exact .inl hname
    · exact .inr (.inl hname)
    · exact .inr (.inr ⟨o, .inr ⟨ho, hlabel⟩, hn⟩)

theorem Tidy.forget (h : Tidy x fs deeds) (p : Path) :
    Tidy (x.forget fs p).1 (x.forget fs p).2 (.forgotten (x.labelOf fs p) :: deeds) := by
  obtain ⟨hhome, hheld⟩ := h.home.supersede h.ordered (x.labelOf fs p)
  have hkept {o : String × Rescan} (ho : o ∈ x.overrides.filter (·.1 != x.labelOf fs p)) :
      o ∈ x.overrides ∧ o.1 ≠ x.labelOf fs p := by simpa using ho
  rw [forget_eq, forget_tree]
  refine ⟨hhome, fun hroot => List.mem_cons_of_mem _ (h.scanned hroot), fun name => ?_, h.foreign,
    h.ordered.filter _, fun o ho => h.issued o (hkept ho).1,
    fun o ho o' ho' => h.distinct o (hkept ho).1 o' (hkept ho').1, fun o ho => ?_, fun label id => ?_⟩
  · rw [hheld, mem_corpusNames_filter rfl, strays, h.remains_iff]
    split
    · rename_i hgone
      simp [hgone]
    · rename_i hgone
      rw [h.files]
      simp [hgone]
  · obtain ⟨ho, hlabel⟩ := hkept ho
    refine h.home.load_pair hhome (fun name hn => ?_) (h.pairs o ho)
    rw [hheld, if_neg (h.not_superseded ho hlabel hn)]
  · rw [Index.latest]
    simp only [List.mem_filter]
    by_cases hl : x.labelOf fs p = label
    · simp [hl]
    · rw [if_neg hl, ← h.latest]
      simp [Ne.symm hl]

/-- What a rescan that succeeds leaves in the private directory, but for the pair it supersedes. -/
theorem Tidy.rescan_held {text : String} {count : Nat} (h : Tidy x fs deeds)
    (hok : (x.rescan fs p text).2.2 = .ok count) : ∃ written c,
      (x.rescan fs p text).1 = { x with
        issued := x.issued + 1
        overrides := insertOverride (x.labelOf fs p) { id := x.nextId, corpus := c } x.overrides } ∧
      (x.rescan fs p text).2.1 = x.supersede written (x.labelOf fs p) ∧
      Home x.cache written ∧ .scanned ∈ deeds ∧
      Corpus.load written (Corpus.tagsPath x.cache x.nextId.text)
        (Corpus.apiPath x.cache x.nextId.text) = .ok c ∧
      (∀ name, x.nextId.Names name → (held x.cache written name).isSome) ∧
      ∀ name, ¬ x.nextId.Names name → held x.cache written name =
        if name = x.nextId.text then none
        else if x.copyName? fs p = some name then some (.text text)
        else held x.cache fs name := by
  obtain ⟨root, made, copied, written, d, c, hroot, hmade, hcopy, hwrite, hload, hx, htree⟩ :=
    rescan_ok hok
  have hlabel : x.labelOf fs p = Label.ofPath root (fs.canonical p) := by rw [labelOf, hroot]
  rw [← hlabel] at hx htree
  obtain ⟨hmade, hheld⟩ : Home x.cache made ∧ held x.cache made = held x.cache fs := by
    obtain rfl | ⟨dir, hmade⟩ := hmade
    · exact ⟨h.home, rfl⟩
    · exact h.home.makeDirectories hmade
  have hcopyOf : (x.copyOf root (fs.canonical p)).isAbsolute = true :=
    Path.isAbsolute_join (Path.isAbsolute_join h.home.absolute _) _
  obtain ⟨hcopied, hheld₁⟩ := hmade.write hcopyOf hcopy
  obtain ⟨hremoved, hheld₂⟩ := hcopied.removeAt x.nextId.isPlain_text
  obtain ⟨hwritten, hnew, hold⟩ := hremoved.write_pair hwrite
  refine ⟨written, c, hx, htree, hwritten, h.scanned (by rw [hroot]; rfl), hload, hnew, fun name hn => ?_⟩
  rw [hold name hn, hheld₂, Function.update_apply, hheld₁, hheld]
  exact if_congr Iff.rfl rfl (if_congr (copyName?_eq_some hroot).symm rfl rfl)

/-- The files after a rescan, but for its own pair. -/
theorem Tidy.isSome_held (h : Tidy x fs deeds) (hscanned : .scanned ∈ deeds) {copy : Option String}
    (hforeign : ∀ name ∈ copy, IsForeign name) (content : Content) :
    (if ∃ o ∈ x.overrides, o.1 = label ∧ o.2.id.Names name then none
      else if name = x.nextId.text then none
      else if copy = some name then some content
      else held x.cache fs name).isSome ↔
    x.Remains label name ∨ copy = some name ∨ name ∈ strays deeds := by
  rw [or_left_comm, h.remains_iff]
  by_cases hcopy : copy = some name
  · have hname := (hforeign name hcopy).2.2
    rw [if_neg fun ⟨o, _, _, hn⟩ => (hname o.2.id).2 hn, if_neg (hname x.nextId).1, if_pos hcopy]
    simp [hcopy]
  · by_cases hid : name = x.nextId.text
    · have hnames : name ∉ x.corpusNames := by
        rw [hid]
        exact text_not_mem_corpusNames _
      have hstrays : name ∉ strays deeds := fun hs => ((h.foreign name hs).2.2 x.nextId).1 hid
      simp only [hcopy, hnames, hstrays, or_self, and_false, iff_false]
      rw [if_pos hid, ite_self]
      simp
    · rw [if_neg hid, if_neg hcopy]
      split
      · rename_i hgone
        simp [hcopy, hgone]
      · rename_i hgone
        simp [hcopy, hgone, h.files, hscanned]

theorem Tidy.rescan {text : String} {count : Nat} (h : Tidy x fs deeds)
    (hok : (x.rescan fs p text).2.2 = .ok count)
    (hforeign : ∀ name ∈ x.copyName? fs p, IsForeign name) :
    Tidy (x.rescan fs p text).1 (x.rescan fs p text).2.1
      (.rescanned (x.labelOf fs p) x.nextId (x.copyName? fs p) :: deeds) := by
  obtain ⟨written, c, hx, htree, hwritten, hscanned, hload, hnew, hold⟩ := h.rescan_held hok
  obtain ⟨hhome, hheld⟩ := hwritten.supersede h.ordered (x.labelOf fs p)
  rw [hx, htree]
  -- The name of this scan is none of an earlier one.
  have hfresh {o : String × Rescan} (ho : o ∈ x.overrides) : o.2.id ≠ x.nextId := by
    intro hid
    have := h.issued o ho
    rw [hid] at this
    exact Nat.lt_irrefl _ this
  have hfreshName {name : String} (hn : x.nextId.Names name) :
      ¬ ∃ o ∈ x.overrides, o.1 = x.labelOf fs p ∧ o.2.id.Names name := by
    rintro ⟨o, ho, -, hn'⟩
    exact hfresh ho (hn'.unique hn)
  refine ⟨hhome, fun _ => List.mem_cons_of_mem _ hscanned, fun name => ?_, fun name hname => ?_,
    ordered_insertOverride h.ordered _ _, fun o ho => ?_, fun o ho o' ho' hid => ?_, fun o ho => ?_,
    fun label id => ?_⟩
  · rw [hheld, mem_corpusNames_insert h.ordered rfl, mem_strays_rescanned, List.mem_cons,
      or_iff_right (by simp), and_iff_right hscanned]
    by_cases hn : x.nextId.Names name
    · rw [if_neg (hfreshName hn)]
      exact iff_of_true (hnew name hn) (.inl (.inl hn))
    · rw [hold name hn, h.isSome_held hscanned hforeign, or_iff_right hn]
  · rw [mem_strays_rescanned] at hname
    exact hname.elim (hforeign name) (h.foreign name)
  · obtain rfl | ⟨ho, -⟩ := (mem_insertOverride h.ordered).1 ho
    · exact Nat.lt_succ_self _
    · exact Nat.lt_succ_of_lt (h.issued o ho)
  · obtain rfl | ⟨ho, -⟩ := (mem_insertOverride h.ordered).1 ho
    · obtain rfl | ⟨ho', -⟩ := (mem_insertOverride h.ordered).1 ho'
      · rfl
      · exact absurd hid.symm (hfresh ho')
    · obtain rfl | ⟨ho', -⟩ := (mem_insertOverride h.ordered).1 ho'
      · exact absurd hid (hfresh ho)
      · exact h.distinct o ho o' ho' hid
  · obtain rfl | ⟨ho, hlabel⟩ := (mem_insertOverride h.ordered).1 ho
    · refine hwritten.load_pair hhome (fun name hn => ?_) hload
      rw [hheld, if_neg (hfreshName hn)]
    · refine h.home.load_pair hhome (fun name hn => ?_) (h.pairs o ho)
      have hid : name ≠ x.nextId.text := by
        rintro rfl
        exact x.nextId.dot_not_mem_text hn.dot
      have hcopy : x.copyName? fs p ≠ some name := fun hc => ((hforeign name hc).2.2 o.2.id).2 hn
      rw [hheld, if_neg (h.not_superseded ho hlabel hn), hold name fun hn' => hfresh ho (hn.unique hn'),
        if_neg hid, if_neg hcopy]
  · rw [Index.latest]
    simp only [mem_insertOverride h.ordered]
    by_cases hl : x.labelOf fs p = label
    · subst hl
      simp [eq_comm]
    · rw [if_neg hl, ← h.latest]
      simp [Ne.symm hl]

/-! ### Ways without steps upward -/

/-- The way to a copy has no more steps upward than the path of the document. -/
theorem leads_belowOf {root q : Path} (hr : root.isAbsolute = true) (hup : ['.', '.'] ∉ q.steps) :
    belowOf root q = q.text ∧ q.isAbsolute = true ∧ q.steps = [] ∨
      ∃ tail, Path.Leads (belowOf root q) tail ∧ ['.', '.'] ∉ tail := by
  rw [belowOf]
  cases hrel : Path.relativeTo? root q with
  | some rest =>
    have hq := Path.isAbsolute_of_relativeTo? hr hrel
    have hbelow : root.steps <+: q.steps := by
      by_contra hbelow
      rw [Path.relativeTo?_eq_none hr hq hbelow] at hrel
      cases hrel
    obtain ⟨tail, htail⟩ := hbelow
    obtain ⟨text, htext, hleads⟩ := Path.relativeTo?_of_steps hr hq htail.symm
    obtain rfl := Option.some.inj (hrel.symm.trans htext)
    refine .inr ⟨tail, hleads, fun hm => hup ?_⟩
    rw [← htail]
    exact List.mem_append_right _ hm
  | none =>
    cases hname : q.fileName? with
    | some name =>
      have hplain := Path.isPlain_of_fileName? hname
      exact .inr ⟨_, Path.leads_plain hplain, by simpa using hplain.2.1.symm⟩
    | none =>
      cases hq : q.isAbsolute with
      | true =>
        refine .inl ⟨rfl, rfl, ?_⟩
        obtain hnil | ⟨init, last, hlast⟩ := List.eq_nil_or_concat q.steps
        · exact hnil
        · rw [Path.fileName?_of_isAbsolute hq, hlast, List.concat_eq_append, List.getLast?_concat,
            Option.bind_some, Path.stepName?, Path.component, if_neg] at hname
          · cases hname
          · intro hbad
            rw [hlast, ← beq_iff_eq.1 hbad] at hup
            simp at hup
      | false =>
        have hhead : q.text.toList.head? ≠ some '/' := by
          rw [Path.isAbsolute] at hq
          simpa using hq
        refine .inr ⟨q.steps, ⟨?_, hhead⟩, hup⟩
        rw [Path.steps, Path.pieces_eq, Path.unrooted_of_head? hhead]
        rfl

/-- A way without steps upward leads a copy away from the files of the private directory. -/
theorem copyName?_eq_none {root : Path} {text : String} {count : Nat} (h : Home x.cache fs)
    (hok : (x.rescan fs p text).2.2 = .ok count) (hroot : x.root = some root)
    (hr : root.isAbsolute = true) (hup : ['.', '.'] ∉ (fs.canonical p).steps) :
    x.copyName? fs p = none := by
  obtain ⟨root', made, copied, -, -, -, hroot', -, hcopy, -⟩ := rescan_ok hok
  obtain rfl := Option.some.inj (hroot.symm.trans hroot')
  have hscratch := Path.isAbsolute_join h.absolute x.nextId.text
  cases hname : x.copyName? fs p with
  | none => rfl
  | some name =>
    rw [copyName?_eq_some hroot] at hname
    exfalso
    obtain ⟨htext, hq, hsteps⟩ | ⟨tail, hleads, htail⟩ := leads_belowOf hr hup
    · have hsame : x.copyOf root (fs.canonical p) = fs.canonical p := by
        rw [Path.isAbsolute] at hq
        rw [copyOf, htext, Path.join, hq]
        rfl
      rw [hsame, Path.place, hsteps] at hname
      exact absurd hname (by simp [FileSystem.walk])
    · rw [copyOf, FileSystem.place_join hscratch hleads,
        FileSystem.place_join_plain h.absolute x.nextId.isPlain_text, FileSystem.walk_down htail,
        List.append_assoc, List.append_cancel_left_eq] at hname
      obtain ⟨-, rfl⟩ : x.nextId.text = name ∧ tail = [] := by simpa using hname
      -- All that follows the directory of the scan says nothing, and no file is written there.
      obtain ⟨init, hpieces, -⟩ := Path.pieces_join (Path.isEmpty_of_isAbsolute hscratch) hleads.head
      obtain ⟨front, last, hlast⟩ := List.eq_nil_or_concat _ |>.resolve_left
        (Text.splitAll_ne_nil '/' (belowOf root (fs.canonical p)).toList)
      have hend : (x.copyOf root (fs.canonical p)).pieces = init ++ front ++ [last] := by
        rw [copyOf, hpieces, hlast, List.concat_eq_append, List.append_assoc]
      have hidle := FileSystem.not_isIdle_of_write hcopy hend
      have hcounted : last ∈ Path.counted (Text.splitAll '/' (belowOf root (fs.canonical p)).toList) :=
        Path.mem_counted.2 ⟨by simp [hlast], hidle⟩
      rw [hleads.steps] at hcounted
      cases hcounted

/-! ### All calls -/

theorem Session.tidy (h : Session x fs deeds) : Tidy x fs deeds := by
  induction h with
  | start hhome hempty => exact .create hhome hempty
  | meanwhile _ hhome hheld ih => exact ih.meanwhile hhome hheld
  | scan _ hok ih => exact ih.scan hok
  | rescan _ hok hforeign ih => exact ih.rescan hok hforeign
  | forget _ ih => exact ih.forget _

theorem Tidy.nodup_corpusNames (h : Tidy x fs deeds) : x.corpusNames.Nodup := by
  have hpair (o : String × Rescan) {name : String} :
      name ∈ [o.2.id.tagsName, o.2.id.apiName] ↔ o.2.id.Names name := by simp [RescanId.Names]
  have hpairs : (x.overrides.flatMap fun o => [o.2.id.tagsName, o.2.id.apiName]).Nodup := by
    refine List.nodup_flatMap.2 ⟨fun o _ => ?_, h.ordered.imp_of_mem fun {o o'} ho ho' hlt => ?_⟩
    · simp [o.2.id.tagsName_ne_apiName o.2.id]
    · intro name hn hn'
      rw [h.distinct o ho o' ho' (((hpair o).1 hn).unique ((hpair o').1 hn'))] at hlt
      exact lt_irrefl _ hlt
  have hplain {name : String} (hdot : '.' ∉ name.toList) :
      name ∉ x.overrides.flatMap fun o => [o.2.id.tagsName, o.2.id.apiName] := by
    intro hname
    obtain ⟨o, -, hn⟩ := List.mem_flatMap.1 hname
    exact hdot ((hpair o).1 hn).dot
  refine List.nodup_cons.2 ⟨fun htags => ?_, List.nodup_cons.2 ⟨hplain (by decide), hpairs⟩⟩
  obtain htags | htags := List.mem_cons.1 htags
  · exact absurd htags (by decide)
  · exact hplain (by decide) htags

/-- After whatever calls have succeeded, the files in the private directory are: none if there was no
scan; else those of the last scan, a pair for each label that is overridden, by the name of its last
rescan, and the copies that came to stand there since the scan. Each pair loads to the entries that are
held for its label. A rescan leaves no copy there unless there is a step upward in its path. -/
theorem corpusFiles_exact (h : Session x fs deeds) :
    (.scanned ∉ deeds → x.corpusFiles fs = []) ∧
    (.scanned ∈ deeds → (x.corpusFiles fs).Perm (x.corpusNames ++ strays deeds)) ∧
    (∀ label id, (∃ r, (label, r) ∈ x.overrides ∧ r.id = id) ↔ latest label deeds = some id) ∧
    (∀ o ∈ x.overrides, Corpus.load fs (Corpus.tagsPath x.cache o.2.id.text)
      (Corpus.apiPath x.cache o.2.id.text) = .ok o.2.corpus) ∧
    ∀ p text count root, (x.rescan fs p text).2.2 = .ok count → x.root = some root →
      root.isAbsolute = true → ['.', '.'] ∉ (fs.canonical p).steps → x.copyName? fs p = none := by
  have ht := h.tidy
  refine ⟨fun hnone => ?_, fun hscanned => ?_, ht.latest, ht.pairs,
    fun p text count root hok hroot hr hup => copyName?_eq_none ht.home hok hroot hr hup⟩
  · rw [List.eq_nil_iff_forall_not_mem]
    intro name hname
    rw [ht.home.mem_corpusFiles, ht.files] at hname
    exact hnone hname.1
  · have hnodup : (x.corpusNames ++ strays deeds).Nodup := by
      rw [List.nodup_append']
      refine ⟨ht.nodup_corpusNames, nodup_strays deeds, fun name hname hs => ?_⟩
      exact (ht.foreign name hs).not_mem_corpusNames hname
    rw [List.perm_ext_iff_of_nodup ht.home.nodup_corpusFiles hnodup]
    intro name
    rw [ht.home.mem_corpusFiles, ht.files, and_iff_right hscanned, List.mem_append]

/-- A new index and the scan of a project without files, then a rescan of a document that is no file
yet. -/
def emptyScan : Index × FileSystem × Except IndexError ScanSummary :=
  let (x, fs) := create { nodes := [(["c"], .directory), (["w"], .directory)] } ⟨"/c"⟩
  x.scan fs ⟨"/w"⟩

def emptyRescan : Index × FileSystem × Except IndexError Nat :=
  emptyScan.1.rescan emptyScan.2.1 ⟨"/w/x.lua"⟩ "function g() end\n"

theorem corpusFiles_exact_empty :
    (emptyRescan.1.corpusFiles emptyRescan.2.1).Perm
      ["tags", "api", RescanId.tagsName ⟨0⟩, RescanId.apiName ⟨0⟩] := by
  have hhome : Home ⟨"/c"⟩ { nodes := [(["c"], .directory), (["w"], .directory)] } :=
    ⟨by decide, by decide, ⟨by decide, by decide, by decide⟩, by decide⟩
  have hnone (name : String) :
      held ⟨"/c"⟩ { nodes := [(["c"], .directory), (["w"], .directory)] } name = none := by
    rw [held, show Path.place ⟨"/c"⟩ = ["c"] by decide]
    simp [FileSystem.node?]
  have hscan : emptyScan.2.2 = .ok { files := 0, symbols := 0, truncated := false } := by
    decide +kernel
  have hrescan : emptyRescan.2.2 = .ok 1 := by decide +kernel
  obtain ⟨hoverrides, hissued⟩ : emptyScan.1.overrides = [] ∧ emptyScan.1.issued = 0 := by
    decide +kernel
  have hcopy : emptyScan.1.copyName? emptyScan.2.1 ⟨"/w/x.lua"⟩ = none := by decide +kernel
  have hscanned : Session emptyScan.1 emptyScan.2.1 [.scanned] := (Session.start hhome hnone).scan hscan
  have hrescanned := hscanned.rescan hrescan (by simp [hcopy])
  obtain ⟨-, hfiles, -⟩ := corpusFiles_exact hrescanned
  obtain ⟨root, -, -, -, -, c, -, -, -, -, -, hx, -⟩ := rescan_ok hrescan
  have hnames : emptyRescan.1.corpusNames =
      ["tags", "api", RescanId.tagsName ⟨0⟩, RescanId.apiName ⟨0⟩] := by
    rw [emptyRescan, hx, corpusNames, hoverrides, nextId, hissued]
    rfl
  rw [← hnames, emptyRescan]
  simpa [hcopy, strays] using hfiles (by simp)

end LuaLens.Index
