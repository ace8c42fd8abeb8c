import LuaLens.Proofs.Sorting
import LuaLens.Proofs.Symbol.Headers
import LuaLens.Proofs.Text.Search

/-!
Whether symbols are reached by their own names. Looking up compares the last segment of a name with
whole names of entries, and then all of it with their headers, so that a symbol is found, and found
confirmed, just when its name is a single segment. Of all symbols only modules have names of several.
-/

namespace LuaLens

open Text Scan Declaration

namespace Query

variable {name a b : List Char}

/-! ### Segments -/

/-- Whether a name has neither a dot nor a colon in it. -/
def IsSegment (name : List Char) : Prop := ∀ c ∈ name, isSeparator c = false

/-- Whether a name has nothing but dots and colons in it. -/
def IsSeparators (name : List Char) : Prop := ∀ c ∈ name, isSeparator c = true

theorem isSegment_lastSegment (name : List Char) : IsSegment (lastSegment name) := by
  intro c hc
  unfold lastSegment takeEndWhile at hc
  have hkept := List.mem_takeWhile_imp (List.mem_reverse.1 hc)
  simpa using hkept

theorem lastSegment_of_isSegment (h : IsSegment name) : lastSegment name = name :=
  takeEndWhile_of_all fun c hc => by simp [h c hc]

theorem lastSegment_append (owner name : List Char) :
    lastSegment (owner ++ '.' :: name) = lastSegment name :=
  takeEndWhile_append_cons (by decide) owner name

theorem lastSegment_qualified {name : String} (h : IsSegment name.toList) (owner : String) :
    lastSegment (qualified owner name).toList = name.toList := by
  unfold qualified
  split
  · exact lastSegment_of_isSegment h
  · rw [String.toList_append, String.toList_append, List.append_assoc]
    exact (lastSegment_append _ _).trans (lastSegment_of_isSegment h)

theorem dotted_of_isSegment (h : IsSegment name) : dotted name = name := by
  unfold dotted
  conv_rhs => rw [← List.map_id name]
  apply List.map_congr_left
  intro c hc
  have hsep := h c hc
  simp only [isSeparator, Bool.or_eq_false_iff] at hsep
  simp [hsep.2]

/-- Dots in place of colons leave the segments as they are. -/
theorem lastSegment_dotted (name : List Char) : lastSegment (dotted name) = lastSegment name := by
  have hsame : ((!isSeparator ·) ∘ fun c : Char => if c == ':' then '.' else c) =
      (!isSeparator ·) := by
    funext c
    by_cases hc : c = ':' <;> simp [hc, isSeparator]
  have hlast := dotted_of_isSegment (isSegment_lastSegment name)
  unfold dotted lastSegment takeEndWhile at *
  rw [← List.map_reverse, List.takeWhile_map, hsame, ← List.map_reverse, hlast]

theorem lastSegment_congr (h : dotted a = dotted b) : lastSegment a = lastSegment b := by
  rw [← lastSegment_dotted a, h, lastSegment_dotted]

/-! ### Looking up -/

variable {entries : Corpus} {label : String} {m : Match}

theorem mem_lookup_iff : m ∈ lookup entries label name ↔
    m.entry ∈ entries ∧ m.entry.api.name = String.ofList (lastSegment name) ∧
      isVisible label m.entry = true ∧
      m.confirmed = (dotted m.entry.api.qualifiedName.toList == dotted name) := by
  unfold lookup
  rw [List.mem_mergeSort, List.mem_map]
  constructor
  · rintro ⟨e, he, rfl⟩
    simpa [and_assoc] using he
  · rintro ⟨he, hname, hvisible, hconfirmed⟩
    refine ⟨m.entry, by simp [he, hname, hvisible], ?_⟩
    rw [← hconfirmed]

/-- A confirmed match comes before all that are not. -/
theorem head?_lookup (hm : m ∈ lookup entries label name) (hc : m.confirmed = true) :
    ∃ found ∈ lookup entries label name,
      (lookup entries label name).head? = some found ∧ found.confirmed = true := by
  obtain ⟨all, hsplit⟩ : ∃ all : List Match, lookup entries label name =
      all.filter (·.confirmed) ++ all.filter (!·.confirmed) := ⟨_, mergeSort_flag _ _⟩
  rw [hsplit] at hm ⊢
  have hmem : m ∈ all.filter (·.confirmed) := by simpa [hc] using hm
  obtain ⟨found, rest, hall⟩ := List.exists_cons_of_ne_nil (List.ne_nil_of_mem hmem)
  have hfound : found ∈ all.filter (·.confirmed) := by simp [hall]
  refine ⟨found, List.mem_append_left _ hfound, ?_, (List.mem_filter.1 hfound).2⟩
  rw [hall]
  rfl

end Query

/-! ### The names of symbols -/

open Query (isSeparator IsSegment IsSeparators)

theorem isSeparator_of {p : Char → Bool} (hdot : p '.' = false) (hcolon : p ':' = false) {c : Char}
    (h : p c = true) : isSeparator c = false := by
  rw [Bool.eq_false_iff]
  intro hsep
  rw [isSeparator, Bool.or_eq_true, beq_iff_eq, beq_iff_eq] at hsep
  obtain rfl | rfl := hsep
  · exact absurd h (by simp [hdot])
  · exact absurd h (by simp [hcolon])

theorem isSeparator_of_isWord {c : Char} (h : isWord c = true) : isSeparator c = false :=
  isSeparator_of (by decide) (by decide) h

theorem isSeparator_of_isNameStart {c : Char} (h : isNameStart c = true) : isSeparator c = false :=
  isSeparator_of (by decide) (by decide) h

theorem isSegment_of_isIdentifier {name : List Char} (h : QualifiedName.isIdentifier name = true) :
    IsSegment name := by
  cases name with
  | nil =>
    intro c hc
    cases hc
  | cons d name =>
    rw [QualifiedName.isIdentifier, Bool.and_eq_true, List.all_eq_true] at h
    intro c hc
    obtain rfl | hc := List.mem_cons.1 hc
    · exact isSeparator_of_isNameStart h.1
    · have hn := toNat_of_isAlphanum (h.2 c hc)
      exact isSeparator_of_isWord (by rw [isWord, if_pos (by omega), h.2 c hc])

theorem yields_name_isSegment : Scan.name.Yields IsSegment :=
  yields_name_forall (fun _ => isSeparator_of_isNameStart) fun _ => isSeparator_of_isWord

/-- A character is a separator or in a piece. -/
theorem mem_piece_of_mem_splitOnP {p : Char → Bool} {s : List Char} {c : Char} (hc : c ∈ s)
    (hp : p c = false) : ∃ piece ∈ s.splitOnP p, c ∈ piece := by
  induction s with
  | nil => cases hc
  | cons d s ih =>
    obtain ⟨first, rest, hs⟩ := List.exists_cons_of_ne_nil (List.splitOnP_ne_nil p s)
    rw [List.splitOnP_cons_eq_if_modifyHead]
    split_ifs with hd
    · obtain rfl | hc := List.mem_cons.1 hc
      · rw [hp] at hd
        cases hd
      · obtain ⟨piece, hpiece, hmem⟩ := ih hc
        exact ⟨piece, List.mem_cons_of_mem _ hpiece, hmem⟩
    · rw [hs, List.modifyHead_cons]
      obtain rfl | hc := List.mem_cons.1 hc
      · exact ⟨_, List.mem_cons_self, List.mem_cons_self⟩
      · obtain ⟨piece, hpiece, hmem⟩ := ih hc
        rw [hs] at hpiece
        obtain rfl | hpiece := List.mem_cons.1 hpiece
        · exact ⟨_, List.mem_cons_self, List.mem_cons_of_mem _ hmem⟩
        · exact ⟨piece, List.mem_cons_of_mem _ hpiece, hmem⟩

/-- The last part of a malformed name, or all of it when it has none. -/
theorem lastPart_cases (raw : List Char) :
    IsSegment (QualifiedName.lastPart raw) ∨ IsSeparators (QualifiedName.lastPart raw) := by
  unfold QualifiedName.lastPart
  cases hfound : (raw.splitOnP fun c => c == '.' || c == ':').reverse.find? (!·.isEmpty) with
  | some part =>
    have hmem := List.mem_reverse.1 (List.mem_of_find?_eq_some hfound)
    exact .inl fun c hc => (mem_of_mem_splitOnP hmem c hc).1
  | none =>
    refine .inr fun c hc => ?_
    by_contra hsep
    obtain ⟨piece, hpiece, hin⟩ := mem_piece_of_mem_splitOnP hc (Bool.eq_false_iff.2 hsep)
    have hempty := List.find?_eq_none.1 hfound piece (List.mem_reverse.2 hpiece)
    rw [Bool.not_eq_true, Bool.not_eq_false', List.isEmpty_iff] at hempty
    rw [hempty] at hin
    cases hin

namespace Extraction

variable {x : Extraction} {k : Naming}

theorem qualify_cases (x : Extraction) (raw : List Char) :
    IsSegment (x.qualify raw).name.toList ∨ IsSeparators (x.qualify raw).name.toList := by
  unfold qualify
  split
  · rename_i q hq
    left
    simp only [QualifiedName.parse?] at hq
    split_ifs at hq with hall
    obtain rfl := Option.some.inj hq
    rw [List.all_eq_true] at hall
    simp only [String.toList_ofList, List.getLastD_eq_getLast?]
    generalize hlast : List.getLast? _ = last
    cases last with
    | none =>
      intro c hc
      cases hc
    | some segment => exact isSegment_of_isIdentifier (hall segment (List.mem_of_getLast? hlast))
  · rw [String.toList_ofList]
    exact lastPart_cases raw

/-- The names that symbols have: single segments, separators alone, and whatever modules are called. -/
def Naming.Usual (k : Naming) : Prop :=
  IsSegment k.name.toList ∨ IsSeparators k.name.toList ∨ k.kind = .module ∧ k.owner = ""

theorem Naming.usual_of_cases (h : IsSegment k.name.toList ∨ IsSeparators k.name.toList) : k.Usual :=
  h.imp_right .inl

theorem Naming.usual_ofModule (name : String) : (ofModule name).Usual := .inr (.inr ⟨rfl, rfl⟩)

theorem usual_of_declarationNaming {d : Declaration} {line : List Char}
    (hd : Declaration.parse? line = some d) (hk : x.declarationNaming d = some k) : k.Usual := by
  have hlocal {target : List Char} (ht : IsSegment target) :
      IsSegment (String.ofList target).toList := by rwa [String.toList_ofList]
  have htable {target : List Char} {isLocal : Bool} (ht : isLocal = true → IsSegment target)
      (hk : x.declarationNaming (.table target isLocal) = some k) : k.Usual := by
    rw [declarationNaming] at hk
    split_ifs at hk with _ _ hl <;> obtain rfl := Option.some.inj hk
    · exact Naming.usual_ofModule x.module
    · exact .inl (hlocal (ht hl))
    · exact Naming.usual_of_cases (x.qualify_cases target)
  obtain ⟨r, hr, rfl⟩ | ⟨r, hr, rfl⟩ | ⟨t, ht, rfl⟩ | ⟨t, ht, rfl⟩ | ⟨t, ht, rfl⟩ := parse?_cases hd
  · obtain rfl := Option.some.inj hk
    exact .inl (hlocal (read?_or (yields_localFunction yields_name_isSegment)
      (yields_localFunctionValue yields_name_isSegment) hr))
  · obtain rfl := Option.some.inj hk
    exact Naming.usual_of_cases (x.qualify_cases r.1)
  · exact htable (fun _ => (yields_localTable yields_name_isSegment).read? ht) hk
  · exact htable (fun h => absurd h Bool.false_ne_true) hk
  · obtain rfl := Option.some.inj hk
    exact Naming.usual_of_cases (x.qualify_cases t)

theorem usual_selfNaming (x : Extraction) (d : SelfDoc) (params : List (List Char)) :
    (x.selfNaming d params).Usual := by
  unfold selfNaming
  split
  · exact Naming.usual_ofModule _
  · exact Naming.usual_of_cases (x.qualify_cases d.name)
  · exact Naming.usual_of_cases (x.qualify_cases d.name)
  · split_ifs with hsep
    · exact Naming.usual_of_cases (x.qualify_cases d.name)
    · left
      show IsSegment (String.ofList d.name).toList
      rw [String.toList_ofList]
      intro c hc
      rw [Bool.eq_false_iff]
      intro h
      exact hsep (List.any_eq_true.2 ⟨c, hc, h⟩)

theorem usual_of_naming {a : Act} (ha : a.Sound) (hk : x.naming a = some k) : k.Usual := by
  cases a with
  | declare d description line => exact usual_of_declarationNaming ha hk
  | declareSelf d description line => exact Option.some.inj hk ▸ usual_selfNaming x d _

theorem naming_of_mem_origins {as : List Act} {p : Act × Symbol} (h : p ∈ origins x as) :
    ∃ y k, naming y p.1 = some k ∧ p.2 = k.symbol p.1.description p.1.line := by
  induction as generalizing x with
  | nil => cases h
  | cons a as ih =>
    rw [origins, List.mem_append] at h
    obtain h | h := h
    · rw [Option.mem_toList, added, Option.map_map, Option.map_eq_some_iff] at h
      obtain ⟨k, hk, rfl⟩ := h
      exact ⟨x, k, hk, rfl⟩
    · exact ih h

end Extraction

theorem usual_of_mem_extractSymbols {text fileModule : String} {s : Symbol}
    (hs : s ∈ extractSymbols text fileModule) :
    IsSegment s.name.toList ∨ IsSeparators s.name.toList ∨ s.kind = .module ∧ s.owner = "" := by
  rw [extractSymbols_eq_origins, List.mem_map] at hs
  obtain ⟨p, hp, rfl⟩ := hs
  obtain ⟨y, k, hk, hsymbol⟩ := Extraction.naming_of_mem_origins hp
  have hact : p.1 ∈ textActs text := (Extraction.origins_sublist _ _).mem (List.mem_map_of_mem hp)
  rw [hsymbol]
  exact Extraction.usual_of_naming (Extraction.sound_of_mem_acts hact) hk

/-! ### Symbols by their own names -/

namespace Query

variable {text fileModule label : String} {s : Symbol} {entries : Corpus} {name : List Char}

theorem dotted_qualifiedName (hm : ∀ c ∈ fileModule.toList, isTarget c = true)
    (hs : s ∈ extractSymbols text fileModule) (file : String) :
    dotted (Entry.ofSymbol file s).api.qualifiedName.toList = dotted s.qualifiedName.toList := by
  obtain ⟨k, title, tail, description, line, h, rfl⟩ := headed_of_mem_extractSymbols hm hs
  have hheader : (Entry.ofSymbol file (k.symbol description line)).api.header = k.header :=
    h.header_symbol description line
  rw [Api.qualifiedName, hheader, String.toList_ofList, h.takeWhile_header, h.trim_title]
  exact h.same

/-- A symbol is found by its own name, however the segments are joined, just when what it is called
by itself is a single segment. -/
theorem mem_lookup_self_iff (hm : ∀ c ∈ fileModule.toList, isTarget c = true)
    (hs : s ∈ extractSymbols text fileModule) (he : Entry.ofSymbol label s ∈ entries)
    (hname : dotted name = dotted s.qualifiedName.toList) :
    { entry := Entry.ofSymbol label s, confirmed := true } ∈ lookup entries label name ↔
      IsSegment s.name.toList := by
  rw [mem_lookup_iff]
  constructor
  · rintro ⟨-, hlast, -, -⟩
    have hlist : s.name.toList = lastSegment name := by
      rw [← String.toList_ofList (l := lastSegment name), ← hlast]
      rfl
    rw [hlist]
    exact isSegment_lastSegment name
  · intro hsegment
    refine ⟨he, ?_, ?_, ?_⟩
    · show s.name = _
      rw [lastSegment_congr hname, Symbol.qualifiedName, lastSegment_qualified hsegment,
        String.ofList_toList]
    · simp [isVisible, Entry.ofSymbol]
    · rw [dotted_qualifiedName hm hs, hname, beq_self_eq_true]

/-- What a name that has a confirmed match shows is the documentation of a confirmed match. -/
theorem hover_of_confirmed {e : Entry} {document : String} {p : Position}
    (h : { entry := e, confirmed := true } ∈ lookup entries label name)
    (hp : symbolAt? document.toList p = some name) :
    ∃ found ∈ lookup entries label name, found.confirmed = true ∧
      hover entries label document p = some found.entry.api.doc := by
  obtain ⟨found, hmem, hhead, hconfirmed⟩ := head?_lookup h rfl
  refine ⟨found, hmem, hconfirmed, ?_⟩
  unfold hover
  simp only [hp, Option.bind_eq_bind, Option.bind_some, hhead]
  rfl

/-- A symbol is reached by its own name from its file just when its name is a single segment, and then
what is shown for that name anywhere in the file is of a confirmed entry. The symbols that are out of
reach are modules with several segments, and those whose names have separators alone. -/
theorem reached_by_own_name_iff (hm : ∀ c ∈ fileModule.toList, isDotted c = true)
    (hs : s ∈ extractSymbols text fileModule) (he : Entry.ofSymbol label s ∈ entries)
    (hname : dotted name = dotted s.qualifiedName.toList) :
    ({ entry := Entry.ofSymbol label s, confirmed := true } ∈ lookup entries label name ↔
      IsSegment s.name.toList) ∧
    (IsSegment s.name.toList → ∀ document p, symbolAt? (String.toList document) p = some name →
      ∃ found ∈ lookup entries label name, found.confirmed = true ∧
        hover entries label document p = some found.entry.api.doc) ∧
    (¬ IsSegment s.name.toList →
      IsSeparators s.name.toList ∨ s.kind = .module ∧ s.owner = "") := by
  have hiff := mem_lookup_self_iff (fun c hc => isTarget_of_isDotted (hm c hc)) hs he hname
  refine ⟨hiff, fun hsegment document p hp => ?_, fun hno => ?_⟩
  · exact hover_of_confirmed (hiff.2 hsegment) hp
  · exact (usual_of_mem_extractSymbols hs).resolve_left hno

/-- A module of two segments with a function in it. -/
def dottedText : String := "--- @module lib.util\nlocal M = \x7b\x7d\nfunction M.get() end\nreturn M\n"

def dottedModule : Symbol where
  name := "lib.util"
  owner := ""
  kind := .module
  locator := "local M = \x7b\x7d"
  line := 1
  doc := "lib.util"

def dottedFunction : Symbol where
  name := "get"
  owner := "lib.util"
  kind := .function
  locator := "function M.get() end"
  line := 2
  doc := "lib.util.get()"

/-- The module is out of reach, and its function is not. -/
theorem reached_by_own_name_dotted :
    (∀ c ∈ "m".toList, isDotted c = true) ∧
    dottedModule ∈ extractSymbols dottedText "m" ∧ dottedFunction ∈ extractSymbols dottedText "m" ∧
    { entry := Entry.ofSymbol "$ROOT/m.lua" dottedModule, confirmed := true } ∉
      lookup (Corpus.ofSymbols "$ROOT/m.lua" (extractSymbols dottedText "m")) "$ROOT/m.lua"
        "lib.util".toList ∧
    { entry := Entry.ofSymbol "$ROOT/m.lua" dottedFunction, confirmed := true } ∈
      lookup (Corpus.ofSymbols "$ROOT/m.lua" (extractSymbols dottedText "m")) "$ROOT/m.lua"
        "lib.util:get".toList := by
  have hm : ∀ c ∈ "m".toList, isDotted c = true := List.all_eq_true.1 (by decide)
  have hmodule : dottedModule ∈ extractSymbols dottedText "m" := by decide +kernel
  have hfunction : dottedFunction ∈ extractSymbols dottedText "m" := by decide +kernel
  refine ⟨hm, hmodule, hfunction, fun hfound => ?_, ?_⟩
  · have hsegment := (reached_by_own_name_iff hm hmodule (List.mem_map_of_mem hmodule)
      (by decide)).1.1 hfound
    have hdot := hsegment '.' (by decide)
    revert hdot
    decide
  · have hall : dottedFunction.name.toList.all (!isSeparator ·) = true := by decide
    have hsegment : IsSegment dottedFunction.name.toList := by
      intro c hc
      simpa using List.all_eq_true.1 hall c hc
    exact (reached_by_own_name_iff hm hfunction (List.mem_map_of_mem hfunction) (by decide)).1.2
      hsegment

end Query

end LuaLens
