import LuaLens.Proofs.Corpus.Load
import LuaLens.Proofs.Label

/-!
The fields of a corpus file, which stand between tabs and line feeds. Names may have such separators in
them and then make fields of their own, but no field that reads as the label of a file of the project.
-/

namespace LuaLens.Corpus

open Text

/-! ### Fields -/

/-- The fields of all lines. -/
def fields (s : List Char) : List (List Char) := s.splitOnP fun c => c == '\t' || c == '\n'

theorem fields_append_tab (s t : List Char) : fields (s ++ '\t' :: t) = fields s ++ fields t :=
  List.splitOnP_append_cons s t (by decide)

theorem fields_append_feed (s t : List Char) : fields (s ++ '\n' :: t) = fields s ++ fields t :=
  List.splitOnP_append_cons s t (by decide)

theorem fields_of_not_mem {s : List Char} (htab : '\t' ∉ s) (hfeed : '\n' ∉ s) :
    fields s = [s] := by
  refine List.splitOnP_eq_singleton fun c hc => ?_
  rw [Bool.or_eq_false_iff, beq_eq_false_iff_ne, beq_eq_false_iff_ne]
  exact ⟨fun h => htab (h ▸ hc), fun h => hfeed (h ▸ hc)⟩

/-- The fields of a line are fields of the text. -/
theorem mem_fields_of_mem_splitAll {s line field : List Char} (hl : line ∈ splitAll '\n' s)
    (hf : field ∈ fields line) : field ∈ fields s := by
  induction s using pieces_induct '\n' with
  | last s hs =>
    rw [splitAll_of_not_mem hs, List.mem_singleton] at hl
    rwa [← hl]
  | piece q t hq ih =>
    rw [fields_append_feed, List.mem_append]
    rw [splitAll_append hq, List.mem_cons] at hl
    obtain rfl | hl := hl
    · exact .inl hf
    · exact .inr (ih hl)

/-- What stands between two tabs of a line is a field. -/
theorem mem_fields_of_mem_lines {s before field after : List Char}
    (hl : before ++ '\t' :: (field ++ '\t' :: after) ∈ lines s) (htab : '\t' ∉ field) :
    field ∈ fields s := by
  have hfeed : '\n' ∉ field := by
    intro h
    exact (mem_lines hl).1 (by simp [h])
  obtain ⟨piece, hpiece, t, rfl⟩ := exists_piece_of_mem_lines hl
  refine mem_fields_of_mem_splitAll hpiece ?_
  rw [List.append_assoc, List.cons_append, fields_append_tab, List.append_assoc, List.cons_append,
    fields_append_tab, fields_of_not_mem htab hfeed]
  simp

/-! ### Labels that are read -/

theorem mem_of_mem_undo {s : List Char} (h : '/' ∈ Escape.undo s) : '/' ∈ s := by
  fun_induction Escape.undo s with
  | case1 => exact h
  | case2 s ih => simpa using ih (by simpa using h)
  | case3 s ih => simpa using ih (by simpa using h)
  | case4 s ih => simpa using ih (by simpa using h)
  | case5 s ih => simp
  | case6 c s _ _ _ _ ih =>
    rw [List.mem_cons] at h ⊢
    exact h.imp_right ih

theorem outlying_undo {s : List Char} (h : Label.Outlying s) : Label.Outlying (Escape.undo s) := by
  obtain hhead | hslash := h
  · obtain ⟨t, rfl⟩ := List.head?_eq_some_iff.1 hhead
    rw [Escape.undo_cons (by decide)]
    exact .inl rfl
  · exact .inr fun hc => hslash (mem_of_mem_undo hc)

theorem outlying_fields {s field : List Char} (h : '/' ∉ s) (hf : field ∈ fields s) :
    Label.Outlying field :=
  .inr fun hc => h (mem_of_mem_splitOnP hf _ hc).2

theorem fields_file (t : Tag) :
    fields (Escape.file t.file.toList) = [Escape.file t.file.toList] :=
  fields_of_not_mem (Escape.not_mem_file _).1 (Escape.not_mem_file _).2

theorem tab_not_mem_locator (s : List Char) : '\t' ∉ Escape.locator s := by
  fun_induction Escape.locator s with
  | case1 => simp
  | case2 s ih => simpa using ih
  | case3 s ih => simpa using ih
  | case4 s ih => simpa using ih
  | case5 c s _ _ ht ih =>
    rw [List.mem_cons, not_or]
    exact ⟨fun h => ht h.symm, ih⟩

/-- The locator makes one field, which starts with a slash. -/
theorem fields_locator {t : Tag} (hl : '\n' ∉ t.locator.toList) :
    fields ("/^".toList ++ (Escape.locator t.locator.toList ++ Tag.locatorEnd)) =
      ["/^".toList ++ (Escape.locator t.locator.toList ++ Tag.locatorEnd)] := by
  have hstart : '\t' ∉ "/^".toList ∧ '\n' ∉ "/^".toList := by decide
  have hend : '\t' ∉ Tag.locatorEnd ∧ '\n' ∉ Tag.locatorEnd := by decide
  refine fields_of_not_mem ?_ ?_
  · simp only [List.mem_append, not_or]
    exact ⟨hstart.1, tab_not_mem_locator _, hend.1⟩
  · simp only [List.mem_append, not_or]
    exact ⟨hstart.2, fun h => hl (Escape.mem_of_feed_mem_locator h), hend.2⟩

theorem head?_file {s : List Char} (h : s.head? = some '/') : (Escape.file s).head? = some '/' := by
  obtain ⟨t, rfl⟩ := List.head?_eq_some_iff.1 h
  rfl

/-- No field of the tag of an outlying file reads as the label of a file of the project. -/
theorem outlying_line {t : Tag} (hn : '/' ∉ t.name.toList) (ho : '/' ∉ t.owner.toList)
    (hf : t.file.toList.head? = some '/') (hl : '\n' ∉ t.locator.toList) {field : List Char}
    (h : field ∈ fields t.line) : Label.Outlying field := by
  have hkind : '/' ∉ t.kind.code :: Tag.ownerField t.writtenOwner := by
    have hmark : '/' ∉ "class:".toList := by decide
    have hcode : '/' ≠ t.kind.code := by cases t.kind <;> decide
    rw [List.mem_cons, not_or]
    refine ⟨hcode, ?_⟩
    rw [Tag.writtenOwner]
    split
    · simp [Tag.ownerField]
    · simp only [Tag.ownerField, List.mem_cons, List.mem_append, not_or]
      exact ⟨by decide, hmark, ho⟩
  have hline : t.line = t.name.toList ++ '\t' :: (Escape.file t.file.toList ++ '\t' ::
      ("/^".toList ++ (Escape.locator t.locator.toList ++ Tag.locatorEnd) ++ '\t' ::
        (t.kind.code :: Tag.ownerField t.writtenOwner))) := by
    rw [Tag.line_eq, Tag.lineWith]
    simp only [List.append_assoc]
  rw [hline, fields_append_tab, fields_append_tab, fields_append_tab, fields_file,
    fields_locator hl] at h
  simp only [List.mem_append, List.mem_singleton] at h
  obtain h | rfl | rfl | h := h
  · exact outlying_fields hn h
  · exact .inl (head?_file hf)
  · exact .inl rfl
  · exact outlying_fields hkind h

/-- An entry of a file outside the project. -/
structure OfOutside (e : Entry) : Prop where
  name : '/' ∉ e.tag.name.toList
  owner : '/' ∉ e.tag.owner.toList
  file : e.tag.file.toList.head? = some '/'
  locator : '\n' ∉ e.tag.locator.toList

theorem outlying_tagText {c : Corpus} (hc : ∀ e ∈ c, OfOutside e) {field : List Char}
    (h : field ∈ fields c.tagText.toList) : Label.Outlying field := by
  rw [tagText, unlines, String.toList_ofList] at h
  induction c with
  | nil =>
    obtain rfl : field = [] := by simpa [fields] using h
    exact .inr (by simp)
  | cons e c ih =>
    rw [List.map_cons, List.flatMap_cons, List.append_assoc, List.singleton_append,
      fields_append_feed, List.mem_append] at h
    obtain h | h := h
    · have he := hc e (by simp)
      exact outlying_line he.name he.owner he.file he.locator h
    · exact ih (fun d hd => hc d (by simp [hd])) h

theorem file_of_parseLine? {s line : List Char} {t : Tag} (hl : line ∈ lines s)
    (h : Tag.parseLine? line = some t) :
    ∃ field ∈ fields s, t.file.toList = Escape.undo field := by
  simp only [Tag.parseLine?, Option.bind_eq_bind, Option.bind_eq_some_iff] at h
  obtain ⟨⟨name, rest⟩, hname, ⟨file, rest'⟩, hfile, _, _, _, _, _, _, h⟩ := h
  obtain ⟨-, rfl⟩ := splitOnce_eq_some hname
  obtain ⟨htab, rfl⟩ := splitOnce_eq_some hfile
  simp only [pure, Option.some.injEq] at h
  subst h
  exact ⟨file, mem_fields_of_mem_lines hl htab, String.toList_ofList⟩

/-- Entries of a file outside are read back with labels outside the project, if at all. -/
theorem outlying_of_mem_load {c c' : Corpus} {fs fs' : FileSystem} {dir : Path} {t a : String}
    (hc : ∀ e ∈ c, OfOutside e) (ht : Path.IsPlain t) (ha : Path.IsPlain a) (hne : t ≠ a)
    (hw : c.write fs (dir.join t) (dir.join a) = .ok fs')
    (hload : load fs' (dir.join t) (dir.join a) = .ok c') {e : Entry} (he : e ∈ c') :
    Label.Outlying e.tag.file.toList := by
  obtain ⟨htags, hapi⟩ := readText_write ht ha hne hw
  rw [load_eq htags hapi] at hload
  split_ifs at hload
  obtain rfl := Except.ok.inj hload
  rw [ofLines, List.mem_filterMap] at he
  obtain ⟨⟨line, apiLine⟩, hzip, hentry⟩ := he
  have hline := (List.of_mem_zip hzip).1
  dsimp only at hentry
  split at hentry
  · rename_i tag api htag _
    obtain rfl := Option.some.inj hentry
    obtain ⟨field, hfield, hfile⟩ := file_of_parseLine? hline htag
    rw [hfile]
    exact outlying_undo (outlying_tagText hc hfield)
  · cases hentry

end LuaLens.Corpus
