import LuaLens.Proofs.Corpus.Line
import LuaLens.Proofs.FileSystem

/-!
Corpora that are written and loaded again. Entries without separators where they are written as they
are come back pairwise; whatever is loaded has none of these separators.
-/

namespace LuaLens

open Text

/-! ### Entries -/

/-- An entry whose two lines can be told apart from others and cut into their fields. -/
structure Entry.Legible (e : Entry) : Prop where
  tagName : '\t' ∉ e.tag.name.toList ∧ '\n' ∉ e.tag.name.toList
  owner : '\t' ∉ e.tag.owner.toList ∧ '\n' ∉ e.tag.owner.toList
  ownerEnd : ¬ Tag.locatorEnd <:+: e.tag.owner.toList
  locator : '\n' ∉ e.tag.locator.toList
  apiName : ' ' ∉ e.api.name.toList ∧ '\n' ∉ e.api.name.toList
  doc : e.api.doc.toList.getLast? ≠ some '\r'

/-- The entry that is read back: its owner has lost a carriage return at its end. -/
def Entry.stored (e : Entry) : Entry :=
  { e with tag.owner := String.ofList (dropReturn e.tag.owner.toList) }

theorem Entry.stored_of_getLast?_ne {e : Entry} (h : e.tag.owner.toList.getLast? ≠ some '\r') :
    e.stored = e := by
  rw [stored, dropReturn_of_getLast?_ne h, String.ofList_toList]

theorem length_dropReturn_lt {s : List Char} (h : s.getLast? = some '\r') :
    (dropReturn s).length < s.length := by
  obtain ⟨init, rfl⟩ := List.getLast?_eq_some_iff.1 h
  simp [dropReturn]

theorem Entry.getLast?_ne_of_stored {e : Entry} (h : e.stored = e) :
    e.tag.owner.toList.getLast? ≠ some '\r' := by
  intro hlast
  have howner := congrArg (fun d : Entry => d.tag.owner.toList) h
  simp only [stored, String.toList_ofList] at howner
  have hlt := length_dropReturn_lt hlast
  rw [howner] at hlt
  exact Nat.lt_irrefl _ hlt

namespace Corpus

variable {c : Corpus}

/-! ### Texts -/

/-- The pair of lines of a legible entry is read back as the entry that is stored. -/
theorem ofLines_map (h : ∀ e ∈ c, e.Legible) :
    ofLines (c.map fun e => dropReturn e.tag.line) (c.map fun e => dropReturn e.api.line) =
      c.map Entry.stored := by
  rw [ofLines, List.zip_map', List.filterMap_map]
  induction c with
  | nil => rfl
  | cons e c ih =>
    have he := h e (by simp)
    have htag := Tag.parseLine?_dropReturn e.tag he.tagName.1 he.owner.1 fun hin =>
      he.ownerEnd (hin.trans (dropReturn_isPrefix _).isInfix)
    have hapi := Api.parseLine?_line he.apiName.1
    rw [List.filterMap_cons, Function.comp_apply]
    simp only [htag, Api.dropReturn_line he.doc, hapi]
    rw [ih fun d hd => h d (by simp [hd]), List.map_cons]
    rfl

theorem lines_unlines {ls : List (List Char)} (h : ∀ l ∈ ls, '\n' ∉ l) :
    lines (unlines ls).toList = ls.map dropReturn := by
  rw [unlines, String.toList_ofList, lines_flatMap h]

theorem lines_tagText (h : ∀ e ∈ c, e.Legible) :
    lines c.tagText.toList = c.map fun e => dropReturn e.tag.line := by
  have hfeed : ∀ l ∈ c.map (·.tag.line), '\n' ∉ l := by
    intro l hl
    obtain ⟨e, he, rfl⟩ := List.mem_map.1 hl
    have he := h e he
    exact Tag.feed_not_mem_line he.tagName.2 he.locator he.owner.2
  rw [tagText, lines_unlines hfeed, List.map_map]
  rfl

theorem lines_apiText (h : ∀ e ∈ c, e.Legible) :
    lines c.apiText.toList = c.map fun e => dropReturn e.api.line := by
  have hfeed : ∀ l ∈ c.map (·.api.line), '\n' ∉ l := by
    intro l hl
    obtain ⟨e, he, rfl⟩ := List.mem_map.1 hl
    exact Api.feed_not_mem_line (h e he).apiName.2
  rw [apiText, lines_unlines hfeed, List.map_map]
  rfl

/-- Whatever is read has no separators. -/
theorem of_mem_ofLines {tags api : List Char} {e : Entry} (h : e ∈ ofLines (lines tags) (lines api)) :
    ('\t' ∉ e.tag.name.toList ∧ '\n' ∉ e.tag.name.toList) ∧
      ('\t' ∉ e.tag.owner.toList ∧ '\n' ∉ e.tag.owner.toList) ∧
      ' ' ∉ e.api.name.toList ∧ '\n' ∉ e.api.name.toList := by
  rw [ofLines, List.mem_filterMap] at h
  obtain ⟨⟨t, a⟩, hzip, he⟩ := h
  obtain ⟨ht, ha⟩ := List.of_mem_zip hzip
  dsimp only at he
  split at he
  · rename_i tag api htag hapi
    obtain rfl := Option.some.inj he
    obtain ⟨hn, ho, hsub, hsub'⟩ := Tag.of_parseLine? htag
    obtain ⟨hs, hsub''⟩ := Api.of_parseLine? hapi
    have htfeed := (mem_lines ht).1
    have hafeed := (mem_lines ha).1
    exact ⟨⟨hn, fun hc => htfeed (hsub _ hc)⟩, ⟨ho, fun hc => htfeed (hsub' _ hc)⟩, hs,
      fun hc => hafeed (hsub'' _ hc)⟩
  · cases he

/-! ### Files -/

section

variable {fs fs' : FileSystem} {dir : Path} {t a : String}

/-- Both texts are there after they were written, unless the two paths lead to one file. -/
theorem readText_write_of_ne {tags api : Path}
    (hne : ∀ r, fs'.locate tags = .ok r → fs'.locate api ≠ .ok r)
    (h : c.write fs tags api = .ok fs') :
    fs'.readText tags = .ok c.tagText ∧ fs'.readText api = .ok c.apiText := by
  rw [write] at h
  cases hw : fs.writeText tags c.tagText with
  | error e => simp [hw, Except.mapError, bind, Except.bind] at h
  | ok mid =>
    cases hw' : mid.writeText api c.apiText with
    | error e => simp [hw, hw', Except.mapError, bind, Except.bind] at h
    | ok fs'' =>
      obtain rfl : fs'' = fs' := by simpa [hw, hw', Except.mapError, bind, Except.bind] using h
      refine ⟨FileSystem.readText_of_writeText hw' (FileSystem.readText_writeText hw) ?_,
        FileSystem.readText_writeText hw'⟩
      intro r hr hr'
      exact hne r (FileSystem.locate_of_writeText hw' hr' hr) hr'

/-- Files of different names in a directory are two. -/
theorem locate_join_ne (ht : Path.IsPlain t) (ha : Path.IsPlain a) (hne : t ≠ a) (r : FileSystem.Location)
    (hr : fs.locate (dir.join t) = .ok r) : fs.locate (dir.join a) ≠ .ok r := by
  intro hr'
  have hlast := FileSystem.getLast?_of_locate_join ht hr
  rw [FileSystem.getLast?_of_locate_join ha hr'] at hlast
  exact hne (Option.some.inj hlast).symm

/-- Both texts are there after they were written to files of different names. -/
theorem readText_write (ht : Path.IsPlain t) (ha : Path.IsPlain a) (hne : t ≠ a)
    (h : c.write fs (dir.join t) (dir.join a) = .ok fs') :
    fs'.readText (dir.join t) = .ok c.tagText ∧ fs'.readText (dir.join a) = .ok c.apiText :=
  readText_write_of_ne (locate_join_ne ht ha hne) h

theorem load_eq {tags api : Path} {tagText apiText : String} (ht : fs.readText tags = .ok tagText)
    (ha : fs.readText api = .ok apiText) :
    load fs tags api =
      if (lines tagText.toList).length = (lines apiText.toList).length then
        .ok (ofLines (lines tagText.toList) (lines apiText.toList))
      else .error (.corpus tags (lines tagText.toList).length api (lines apiText.toList).length) := by
  simp only [load, ht, ha, Except.mapError, bind, Except.bind, beq_iff_eq]
  rfl

/-- Legible entries are loaded as they are stored. -/
theorem load_write (hc : ∀ e ∈ c, e.Legible) (ht : Path.IsPlain t) (ha : Path.IsPlain a)
    (hne : t ≠ a) (h : c.write fs (dir.join t) (dir.join a) = .ok fs') :
    load fs' (dir.join t) (dir.join a) = .ok (c.map Entry.stored) := by
  obtain ⟨htags, hapi⟩ := readText_write ht ha hne h
  rw [load_eq htags hapi, lines_tagText hc, lines_apiText hc, if_pos (by simp), ofLines_map hc]

theorem of_mem_load {tags api : Path} (h : load fs tags api = .ok c) {e : Entry} (he : e ∈ c) :
    ('\t' ∉ e.tag.name.toList ∧ '\n' ∉ e.tag.name.toList) ∧
      ('\t' ∉ e.tag.owner.toList ∧ '\n' ∉ e.tag.owner.toList) ∧
      ' ' ∉ e.api.name.toList ∧ '\n' ∉ e.api.name.toList := by
  cases ht : fs.readText tags with
  | error f => simp [load, ht, Except.mapError, bind, Except.bind] at h
  | ok tagText =>
    cases ha : fs.readText api with
    | error f => simp [load, ht, ha, Except.mapError, bind, Except.bind] at h
    | ok apiText =>
      rw [load_eq ht ha] at h
      split_ifs at h
      obtain rfl := Except.ok.inj h
      exact of_mem_ofLines he

end

end Corpus

end LuaLens
