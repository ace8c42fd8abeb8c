import LuaLens.Proofs.Corpus.Load

/-!
Whatever is read back of a corpus. Names may have line feeds and tabs in them, and then their entries are
lost; but when the two files have as many lines, each entry is read by itself and keeps its label.
-/

namespace LuaLens

open Text

/-- An entry of a file of the project, whose name has no slashes. -/
structure Entry.Fenced (e : Entry) : Prop where
  name : '/' ∉ e.tag.name.toList
  file : e.tag.file.toList.head? ≠ some '/'
  locator : '\n' ∉ e.tag.locator.toList
  same : e.api.name = e.tag.name

/-! ### Lines of an entry -/

theorem Tag.count_line {t : Tag} (h : '\n' ∉ t.locator.toList) :
    t.line.count '\n' = t.name.toList.count '\n' + t.owner.toList.count '\n' := by
  have hfile := List.count_eq_zero.2 (Escape.not_mem_file t.file.toList).2
  have hlocator : (Escape.locator t.locator.toList).count '\n' = 0 :=
    List.count_eq_zero.2 fun hc => h (Escape.mem_of_feed_mem_locator hc)
  have hlead : "\t/^".toList.count '\n' = 0 := by decide
  have hend : locatorEnd.count '\n' = 0 := by decide
  have hmark : "\tclass:".toList.count '\n' = 0 := by decide
  have hkind : [t.kind.code].count '\n' = 0 := by cases t.kind <;> decide
  have howner : (if t.owner.isEmpty then [] else "\tclass:".toList ++ t.owner.toList).count '\n' =
      t.owner.toList.count '\n' := by
    split
    · rename_i hempty
      rw [String.isEmpty_iff.1 hempty]
      rfl
    · rw [List.count_append, hmark, Nat.zero_add]
  simp only [line, List.count_append, List.count_cons_of_ne (show '\t' ≠ '\n' by decide), hfile,
    hlocator, hlead, hend, hkind, howner]
  omega

theorem Api.count_line (a : Api) : a.line.count '\n' = a.name.toList.count '\n' := by
  rw [line, List.count_append, List.count_cons_of_ne (by decide),
    List.count_eq_zero.2 (Escape.feed_not_mem_doc _), Nat.add_zero]

/-! ### The label of a line -/

theorem head?_of_slash_isPrefix {s t u : List Char} (h : '/' :: u <+: s ++ '\t' :: t) :
    s.head? = some '/' := by
  cases s with
  | nil => exact absurd (List.cons_prefix_cons.1 h).1 (by decide)
  | cons d s =>
    obtain ⟨rfl, -⟩ := List.cons_prefix_cons.1 h
    rfl

namespace Tag

theorem head?_file_eq_slash {s : List Char} :
    (Escape.file s).head? = some '/' ↔ s.head? = some '/' := by
  fun_cases Escape.file s with
  | case1 => rfl
  | case2 s => simp
  | case3 s => simp
  | case4 s => simp
  | case5 c s _ _ _ => simp

/-- The fields of a line that is a tag. -/
theorem fields_of_parseLine? {line : List Char} {t : Tag} (h : parseLine? line = some t) :
    ∃ name file rest, '\t' ∉ name ∧ '\t' ∉ file ∧ t.file = String.ofList (Escape.undo file) ∧
      line = name ++ '\t' :: (file ++ '\t' :: '/' :: rest) := by
  simp only [parseLine?, Option.bind_eq_bind, Option.bind_eq_some_iff] at h
  obtain ⟨⟨name, rest⟩, hname, ⟨file, rest'⟩, hfile, tail, htail, _, _, _, _, h⟩ := h
  obtain ⟨hn, rfl⟩ := splitOnce_eq_some hname
  obtain ⟨hf, rfl⟩ := splitOnce_eq_some hfile
  obtain rfl := List.isPrefixOf?_eq_some_iff_append_eq.1 htail
  simp only [pure, Option.some.injEq] at h
  subst h
  exact ⟨name, file, '^' :: tail, hn, hf, rfl, rfl⟩

/-- A line that begins with a name without slashes and a label is no tag of any other label: a tab in
the name would put another field in the place of the locator. -/
theorem file_of_isPrefix {name file rest line : List Char} {t : Tag} (hn : '/' ∉ name)
    (hf : '\t' ∉ file) (hhead : file.head? ≠ some '/')
    (hl : line <+: name ++ '\t' :: (file ++ '\t' :: rest)) (h : parseLine? line = some t) :
    t.file = String.ofList (Escape.undo file) := by
  obtain ⟨n, f, r, hnt, hft, hfile, rfl⟩ := fields_of_parseLine? h
  by_cases htab : '\t' ∈ name
  · obtain ⟨a, b, rfl, ha⟩ := List.eq_append_cons_of_mem htab
    rw [List.append_assoc, List.cons_append] at hl
    obtain ⟨-, hl⟩ := prefix_cut hnt ha hl
    by_cases htab : '\t' ∈ b
    · obtain ⟨b₁, b₂, rfl, hb⟩ := List.eq_append_cons_of_mem htab
      rw [List.append_assoc, List.cons_append] at hl
      have hslash := head?_of_slash_isPrefix (prefix_cut hft hb hl).2
      exact absurd (by simp [List.mem_of_mem_head? hslash]) hn
    · exact absurd (head?_of_slash_isPrefix (prefix_cut hft htab hl).2) hhead
  · obtain ⟨-, hl⟩ := prefix_cut hnt htab hl
    rw [hfile, (prefix_cut hft hf hl).1]

/-- The pieces between line feeds after a name: parts of the name, and its last part with the rest. -/
theorem mem_splitAll_named {name rest piece : List Char} (hn : '/' ∉ name) (hr : '\n' ∉ rest)
    (h : piece ∈ splitAll '\n' (name ++ (rest ++ ['\n']))) :
    '/' ∉ piece ∨ ∃ part, '/' ∉ part ∧ piece = part ++ rest := by
  -- Each line feed of the name ends a piece, and the rest of the name is shorter.
  induction hlen : name.length using Nat.strong_induction_on generalizing name with
  | _ n ih =>
    obtain ⟨hs, -⟩ | ⟨q, u, hq, rfl, -⟩ := splitAll_cases '\n' name
    · have hline : '\n' ∉ name ++ rest := by simp [hs, hr]
      rw [← List.append_assoc, splitAll_append hline, List.mem_cons] at h
      obtain rfl | h := h
      · exact .inr ⟨name, hn, rfl⟩
      · obtain rfl := List.mem_singleton.1 h
        exact .inl (by simp)
    · rw [List.mem_append, List.mem_cons, not_or, not_or] at hn
      rw [List.append_assoc, List.cons_append, splitAll_append hq, List.mem_cons] at h
      obtain rfl | h := h
      · exact .inl hn.1
      · have hlt : u.length < n := by
          rw [← hlen, List.length_append, List.length_cons]
          omega
        exact ih u.length hlt hn.2.2 h rfl

/-- Every line of a tag that is read as a tag has its label. -/
theorem file_of_mem_lines {t d : Tag} {line : List Char} (hn : '/' ∉ t.name.toList)
    (hf : t.file.toList.head? ≠ some '/') (hl : '\n' ∉ t.locator.toList) (ho : '\n' ∉ t.owner.toList)
    (hmem : line ∈ lines (t.line ++ ['\n'])) (h : parseLine? line = some d) : d.file = t.file := by
  obtain ⟨rest, hline⟩ : ∃ rest, t.line =
      t.name.toList ++ ('\t' :: (Escape.file t.file.toList ++ '\t' :: rest)) := by
    rw [line_eq, lineWith]
    exact ⟨_, rfl⟩
  have hrest : '\n' ∉ '\t' :: (Escape.file t.file.toList ++ '\t' :: rest) := by
    have hcount := count_line hl
    rw [hline, List.count_append, List.count_eq_zero.2 ho] at hcount
    exact List.count_eq_zero.1 (Nat.add_left_cancel hcount)
  obtain ⟨piece, hpiece, hpre⟩ := exists_piece_of_mem_lines hmem
  rw [hline, List.append_assoc] at hpiece
  obtain hslash | ⟨part, hpart, rfl⟩ := mem_splitAll_named hn hrest hpiece
  · obtain ⟨_, _, _, -, -, -, rfl⟩ := fields_of_parseLine? h
    exact absurd (hpre.subset (by simp)) hslash
  · have hhead : (Escape.file t.file.toList).head? ≠ some '/' := by
      rwa [ne_eq, head?_file_eq_slash]
    rw [file_of_isPrefix hpart (Escape.not_mem_file _).1 hhead hpre h, Escape.undo_file,
      String.ofList_toList]

end Tag

namespace Corpus

variable {c : Corpus} {e : Entry}

/-- What is read back of a corpus that is written. -/
def reread (c : Corpus) : Corpus := ofLines (lines c.tagText.toList) (lines c.apiText.toList)

/-- The two files have as many lines. -/
def Paired (c : Corpus) : Prop :=
  (lines c.tagText.toList).length = (lines c.apiText.toList).length

theorem lines_unlines_cons (l : List Char) (ls : List (List Char)) :
    lines (unlines (l :: ls)).toList = lines (l ++ ['\n']) ++ lines (unlines ls).toList := by
  rw [unlines, List.flatMap_cons, String.toList_ofList, List.append_assoc, List.singleton_append,
    lines_append_feed, unlines, String.toList_ofList]

theorem lines_tagText_cons (e : Entry) (c : Corpus) :
    lines (tagText (e :: c)).toList = lines (e.tag.line ++ ['\n']) ++ lines c.tagText.toList :=
  lines_unlines_cons _ _

theorem lines_apiText_cons (e : Entry) (c : Corpus) :
    lines (apiText (e :: c)).toList = lines (e.api.line ++ ['\n']) ++ lines c.apiText.toList :=
  lines_unlines_cons _ _

theorem lines_tagText_singleton (e : Entry) :
    lines (tagText [e]).toList = lines (e.tag.line ++ ['\n']) :=
  (lines_tagText_cons e []).trans (List.append_nil _)

theorem lines_apiText_singleton (e : Entry) :
    lines (apiText [e]).toList = lines (e.api.line ++ ['\n']) :=
  (lines_apiText_cons e []).trans (List.append_nil _)

theorem length_le_of_fenced (h : e.Fenced) :
    (lines (e.api.line ++ ['\n'])).length ≤ (lines (e.tag.line ++ ['\n'])).length := by
  rw [length_lines_feed, length_lines_feed, Api.count_line, Tag.count_line h.locator, h.same]
  omega

theorem length_le_of_forall_fenced (h : ∀ e ∈ c, e.Fenced) :
    (lines c.apiText.toList).length ≤ (lines c.tagText.toList).length := by
  induction c with
  | nil => exact Nat.le_refl _
  | cons e c ih =>
    have he := length_le_of_fenced (h e (by simp))
    have hc := ih fun d hd => h d (by simp [hd])
    rw [lines_tagText_cons, lines_apiText_cons, List.length_append, List.length_append]
    exact Nat.add_le_add he hc

/-- No entry has fewer lines in the file of tags, so that none has more when all are as many. -/
theorem paired_cons (h : ∀ d ∈ e :: c, d.Fenced) : Paired (e :: c) ↔ Paired [e] ∧ Paired c := by
  have he := length_le_of_fenced (h e (by simp))
  have hc := length_le_of_forall_fenced (c := c) fun d hd => h d (by simp [hd])
  simp only [Paired, lines_tagText_singleton, lines_apiText_singleton]
  rw [lines_tagText_cons, lines_apiText_cons, List.length_append, List.length_append]
  omega

theorem reread_cons (he : Paired [e]) : reread (e :: c) = reread [e] ++ reread c := by
  rw [Paired, lines_tagText_singleton, lines_apiText_singleton] at he
  simp only [reread, lines_tagText_singleton, lines_apiText_singleton]
  rw [lines_tagText_cons, lines_apiText_cons, ofLines, List.zip_append he, List.filterMap_append]
  rfl

theorem Paired.singleton (h : ∀ e ∈ c, e.Fenced) (hp : c.Paired) (he : e ∈ c) : Paired [e] := by
  induction c with
  | nil => cases he
  | cons d c ih =>
    obtain ⟨hd, hc⟩ := (paired_cons h).1 hp
    obtain rfl | he := List.mem_cons.1 he
    · exact hd
    · exact ih (fun f hf => h f (by simp [hf])) hc he

/-- When the files have as many lines, each entry is read by itself. -/
theorem reread_eq_flatMap (h : ∀ e ∈ c, e.Fenced) (hp : c.Paired) :
    reread c = c.flatMap fun e => reread [e] := by
  induction c with
  | nil => rfl
  | cons e c ih =>
    obtain ⟨he, hc⟩ := (paired_cons h).1 hp
    rw [reread_cons he, ih (fun d hd => h d (by simp [hd])) hc, List.flatMap_cons]

theorem paired_of_forall (h : ∀ e ∈ c, e.Fenced) (hp : ∀ e ∈ c, Paired [e]) : c.Paired := by
  induction c with
  | nil => rfl
  | cons e c ih =>
    exact (paired_cons h).2 ⟨hp e (by simp), ih (fun d hd => h d (by simp [hd])) fun d hd =>
      hp d (by simp [hd])⟩

/-- What is read back of an entry has its label. -/
theorem file_of_mem_reread (h : e.Fenced) (hp : Paired [e]) {d : Entry} (hd : d ∈ reread [e]) :
    d.tag.file = e.tag.file := by
  have howner : '\n' ∉ e.tag.owner.toList := by
    rw [Paired, lines_tagText_singleton, lines_apiText_singleton, length_lines_feed,
      length_lines_feed, Api.count_line, Tag.count_line h.locator, h.same] at hp
    exact List.count_eq_zero.1 (by omega)
  rw [reread, lines_tagText_singleton, ofLines, List.mem_filterMap] at hd
  obtain ⟨⟨line, apiLine⟩, hzip, hd⟩ := hd
  have hline := (List.of_mem_zip hzip).1
  dsimp only at hd
  split at hd
  · rename_i tag api htag _
    obtain rfl := Option.some.inj hd
    exact Tag.file_of_mem_lines h.name h.file h.locator howner hline htag
  · cases hd

/-- Reading back and picking out a label may change places. -/
theorem filter_reread (h : ∀ e ∈ c, e.Fenced) (hp : c.Paired) (label : String) :
    (reread c).filter (fun e => e.tag.file == label) =
      reread (c.filter fun e => e.tag.file == label) := by
  have hpaired : ∀ e ∈ c, Paired [e] := fun e he => hp.singleton h he
  have hkept : ∀ e ∈ c.filter fun e => e.tag.file == label, e ∈ c := fun e he => (List.mem_filter.1 he).1
  rw [reread_eq_flatMap h hp, reread_eq_flatMap (fun e he => h e (hkept e he))
    (paired_of_forall (fun e he => h e (hkept e he)) fun e he => hpaired e (hkept e he)),
    List.filter_flatMap]
  clear hkept hp
  induction c with
  | nil => rw [List.flatMap_nil, List.filter_nil, List.flatMap_nil]
  | cons e c ih =>
    have hfile : ∀ d ∈ reread [e], d.tag.file = e.tag.file :=
      fun d hd => file_of_mem_reread (h e (by simp)) (hpaired e (by simp)) hd
    have hrest := ih (fun d hd => h d (by simp [hd])) fun d hd => hpaired d (by simp [hd])
    rw [List.flatMap_cons, hrest]
    by_cases he : e.tag.file = label
    · rw [List.filter_cons_of_pos (by simpa using he), List.flatMap_cons, List.filter_eq_self.2]
      intro d hd
      simpa [hfile d hd] using he
    · rw [List.filter_cons_of_neg (by simpa using he), List.filter_eq_nil_iff.2, List.nil_append]
      intro d hd
      simpa [hfile d hd] using he

/-- All that is loaded is what is read back. -/
theorem load_eq_reread {c' : Corpus} {fs fs' : FileSystem} {dir : Path} {t a : String}
    (ht : Path.IsPlain t) (ha : Path.IsPlain a) (hne : t ≠ a)
    (hw : c.write fs (dir.join t) (dir.join a) = .ok fs')
    (hl : load fs' (dir.join t) (dir.join a) = .ok c') : c.Paired ∧ c' = c.reread := by
  obtain ⟨htags, hapi⟩ := readText_write ht ha hne hw
  rw [load_eq htags hapi] at hl
  split_ifs at hl with hp
  exact ⟨hp, (Except.ok.inj hl).symm⟩

end Corpus

end LuaLens
