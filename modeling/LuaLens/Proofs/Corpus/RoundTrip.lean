import LuaLens.Proofs.Corpus.Reread

/-!
The corpora that survive their two files. A tag is read back from its line if and only if no field that is
written as it is ends early or makes the locator longer. Whatever two files a corpus is written to, it is
loaded as it is if and only if no entry has a separator in a field that is written as it is: the lines then
pair up, each of them is cut where it was put together, and no line loses a carriage return at its end.
-/

namespace LuaLens

open Text

/-! ### Lines of a text -/

theorem eq_some_of_filterMap_eq_self {α : Type} {f : α → Option α} {l : List α}
    (h : l.filterMap f = l) : ∀ a ∈ l, f a = some a := by
  induction l with
  | nil => simp
  | cons a l ih =>
    rw [List.filterMap_cons] at h
    cases ha : f a with
    | none =>
      -- One element less cannot be made up for by the others.
      simp only [ha] at h
      have hlen := List.length_filterMap_le f l
      rw [h, List.length_cons] at hlen
      omega
    | some b =>
      simp only [ha, List.cons.injEq] at h
      obtain ⟨rfl, h⟩ := h
      exact List.forall_mem_cons.2 ⟨ha, ih h⟩

/-- A pattern that occurs has a last occurrence. -/
theorem exists_last_infix {p s : List Char} (hp : p ≠ []) (h : p <:+: s) :
    ∃ a b, s = a ++ p ++ b ∧ ¬ p <:+: b := by
  induction hn : s.length using Nat.strong_induction_on generalizing s with
  | _ n ih =>
    obtain ⟨a, b, rfl⟩ := h
    by_cases hb : p <:+: b
    · have hlt : b.length < n := by
        have := List.length_pos_iff.2 hp
        simp only [List.length_append] at hn
        omega
      obtain ⟨a', b', rfl, hb'⟩ := ih b.length hlt hb rfl
      exact ⟨a ++ p ++ a', b', by simp only [List.append_assoc], hb'⟩
    · exact ⟨a, b, rfl, hb⟩

namespace Corpus

theorem length_le_lines_unlines (ls : List (List Char)) :
    ls.length ≤ (lines (unlines ls).toList).length := by
  induction ls with
  | nil => exact Nat.zero_le _
  | cons l ls ih =>
    rw [lines_unlines_cons, List.length_append, length_lines_feed, List.length_cons]
    omega

/-- Texts that are read as so many lines as were written have no line feeds in them. -/
theorem feed_not_mem_of_length {ls : List (List Char)}
    (h : (lines (unlines ls).toList).length = ls.length) : ∀ l ∈ ls, '\n' ∉ l := by
  induction ls with
  | nil => simp
  | cons l ls ih =>
    have hle := length_le_lines_unlines ls
    rw [lines_unlines_cons, List.length_append, length_lines_feed, List.length_cons] at h
    refine List.forall_mem_cons.2 ⟨List.count_eq_zero.1 (by omega), ih (by omega)⟩

end Corpus

/-! ### Tags -/

namespace Escape

theorem feed_mem_locator {s : List Char} (h : '\n' ∈ s) : '\n' ∈ locator s := by
  fun_induction locator s with
  | case1 => exact h
  | case2 s ih => simpa using ih (by simpa using h)
  | case3 s ih => simpa using ih (by simpa using h)
  | case4 s ih => simpa using ih (by simpa using h)
  | case5 c s _ _ _ ih =>
    rw [List.mem_cons] at h ⊢
    exact h.imp_right ih

theorem undo_locator_append (s t : List Char) : undo (locator s ++ t) = s ++ undo t := by
  fun_induction locator s with
  | case1 => rfl
  | case2 s ih => rw [List.cons_append, List.cons_append, undo, ih, List.cons_append]
  | case3 s ih => rw [List.cons_append, List.cons_append, undo, ih, List.cons_append]
  | case4 s ih => rw [List.cons_append, List.cons_append, undo, ih, List.cons_append]
  | case5 c s hc _ _ ih =>
    rw [List.cons_append, undo_cons (fun h => hc h), ih, List.cons_append]

end Escape

namespace Tag

variable {t d : Tag} {owner : Option (List Char)}

/-- The locator that is read from a tag line ends at the last end of a locator. -/
theorem locator_of_parseLine? (hn : '\t' ∉ t.name.toList)
    (h : parseLine? (t.lineWith owner) = some d) : ∃ before after,
      cutLast locatorEnd (Escape.locator t.locator.toList ++ locatorEnd ++
        '\t' :: t.kind.code :: ownerField owner) = some (before, after) ∧
      d.locator = String.ofList (Escape.undo before) := by
  have hlead (s : List Char) : "/^".toList.isPrefixOf? ("/^".toList ++ s) = some s := by
    rw [List.isPrefixOf?_eq_some_iff_append_eq]
  rw [parseLine?, lineWith, splitOnce_append hn] at h
  simp only [Option.bind_eq_bind, Option.bind_some] at h
  rw [splitOnce_append (Escape.not_mem_file _).1] at h
  simp only [Option.bind_some, hlead, Option.bind_eq_some_iff] at h
  obtain ⟨⟨before, after⟩, hcut, kind, -, hd⟩ := h
  simp only [pure, Option.some.injEq] at hd
  subst hd
  exact ⟨before, after, hcut, rfl⟩

/-- An end of a locator in the owner makes the locator longer. -/
theorem not_infix_of_parseLine? (hn : '\t' ∉ t.name.toList)
    (h : parseLine? (t.lineWith owner) = some d) (hl : d.locator = t.locator) :
    ¬ locatorEnd <:+: ownerField owner := by
  intro hin
  obtain ⟨before, after, hcut, hread⟩ := locator_of_parseLine? hn h
  obtain ⟨a, b, hab, hb⟩ := exists_last_infix (by decide) hin
  have hline : Escape.locator t.locator.toList ++ locatorEnd ++
      '\t' :: t.kind.code :: ownerField owner =
      (Escape.locator t.locator.toList ++ (locatorEnd ++ '\t' :: t.kind.code :: a)) ++ locatorEnd ++
        b := by
    rw [hab]
    simp only [List.append_assoc, List.cons_append]
  rw [hline, cutLast_locatorEnd hb, Option.some.injEq, Prod.mk.injEq] at hcut
  rw [← hcut.1, Escape.undo_locator_append, hl] at hread
  -- The end of the locator itself is read as a part of it.
  have hlen := congrArg (fun s : String => s.toList.length) hread
  simp only [String.toList_ofList, List.length_append] at hlen
  have hrest : Escape.undo (locatorEnd ++ '\t' :: t.kind.code :: a) ≠ [] := by
    rw [locatorEnd_eq, List.cons_append, Escape.undo_cons (by decide)]
    exact List.cons_ne_nil _ _
  exact hrest (List.length_eq_zero_iff.1 (by omega))

/-- What is written of an owner stands in its line. -/
theorem infix_ownerField (t : Tag) (f : List Char → List Char) (hf : f [] = []) :
    f t.owner.toList <:+: ownerField (t.writtenOwner.map f) := by
  rw [writtenOwner]
  split
  · rename_i hempty
    rw [String.isEmpty_iff.1 hempty, String.toList_empty, hf]
    exact List.nil_infix
  · exact (List.suffix_append ('\t' :: "class:".toList) _).isInfix

/-- A tag is read back from its line just when there is no tab in its name or owner and no end of a locator
in its owner. -/
theorem parseLine?_line_iff (t : Tag) : parseLine? t.line = some t ↔
    '\t' ∉ t.name.toList ∧ '\t' ∉ t.owner.toList ∧ ¬ locatorEnd <:+: t.owner.toList := by
  have hline : t.line = t.lineWith (t.writtenOwner.map id) := by rw [line_eq, Option.map_id, id]
  rw [hline]
  constructor
  · intro h
    obtain ⟨hn, ho, -⟩ := of_parseLine? h
    have howner : t.owner.toList <:+: ownerField (t.writtenOwner.map id) := infix_ownerField t id rfl
    exact ⟨hn, ho, fun hin => not_infix_of_parseLine? hn h rfl (hin.trans howner)⟩
  · rintro ⟨hn, ho, hl⟩
    have hread := parseLine?_written t id rfl hn ho hl
    rwa [id, String.ofList_toList] at hread

/-- A tag line that has lost a carriage return at its end is read as its tag only if the owner does not
end in one, and has no end of a locator in it. -/
theorem owner_of_parseLine? (hn : '\t' ∉ t.name.toList) (ho : '\t' ∉ t.owner.toList)
    (h : parseLine? (dropReturn t.line) = some t) :
    ¬ locatorEnd <:+: t.owner.toList ∧ t.owner.toList.getLast? ≠ some '\r' := by
  have hdrop : ¬ locatorEnd <:+: dropReturn t.owner.toList := by
    intro hin
    have hread := h
    rw [dropReturn_line] at hread
    exact not_infix_of_parseLine? hn hread rfl (hin.trans (infix_ownerField t dropReturn rfl))
  rw [parseLine?_dropReturn t hn ho hdrop, Option.some.injEq] at h
  have howner : dropReturn t.owner.toList = t.owner.toList := by
    have hsame := congrArg (fun d : Tag => d.owner.toList) h
    simpa using hsame
  rw [howner] at hdrop
  refine ⟨hdrop, fun hlast => ?_⟩
  have hlt := length_dropReturn_lt hlast
  rw [howner] at hlt
  exact Nat.lt_irrefl _ hlt

end Tag

/-! ### API entries -/

theorem Api.doc_of_parseLine? {a : Api} (hn : ' ' ∉ a.name.toList)
    (h : parseLine? (dropReturn a.line) = some a) : a.doc.toList.getLast? ≠ some '\r' := by
  intro hlast
  obtain ⟨init, hinit⟩ := List.getLast?_eq_some_iff.1 hlast
  have hreturn : Escape.doc ['\r'] = ['\r'] := Escape.doc_cons (by decide) (by decide) []
  have hline : dropReturn a.line = a.name.toList ++ ' ' :: Escape.doc init := by
    rw [line, hinit, Escape.doc_append, hreturn, ← List.cons_append, ← List.append_assoc,
      dropReturn_append (List.cons_ne_nil _ _)]
    exact List.append_nil _
  rw [hline, parseLine?, splitOnce_append hn, Option.map_some, Option.some.injEq] at h
  have hdoc := congrArg (fun a : Api => a.doc.toList) h
  simp only [Escape.undoDoc_doc, String.toList_ofList, hinit] at hdoc
  have hlen := congrArg List.length hdoc
  rw [List.length_append, List.length_singleton] at hlen
  omega

/-! ### Corpora -/

/-- An entry that comes back as it is: its lines can be told apart and cut into their fields, and its
owner does not lose a carriage return. -/
structure Entry.Lasting (e : Entry) : Prop extends e.Legible where
  ownerLast : e.tag.owner.toList.getLast? ≠ some '\r'

namespace Corpus

variable {c : Corpus} {fs fs' : FileSystem} {tags api : Path}

theorem reread_of_lasting (h : ∀ e ∈ c, e.Lasting) : c.Paired ∧ c.reread = c := by
  have hlegible : ∀ e ∈ c, e.Legible := fun e he => (h e he).toLegible
  rw [Paired, reread, lines_tagText hlegible, lines_apiText hlegible, ofLines_map hlegible]
  refine ⟨by simp, ?_⟩
  rw [List.map_congr_left (g := id), List.map_id]
  exact fun e he => Entry.stored_of_getLast?_ne (h e he).ownerLast

/-- If the two texts have as many lines and are read back as the corpus, then no line feed stands in a
line: each entry has one line in either text. -/
theorem feed_not_mem_of_reread (hp : c.Paired) (h : c.reread = c) :
    (∀ e ∈ c, '\n' ∉ e.tag.line) ∧ ∀ e ∈ c, '\n' ∉ e.api.line := by
  have hapi : ∀ l ∈ c.map (·.api.line), '\n' ∉ l := by
    refine List.forall_mem_map.2 fun e he => ?_
    rw [← h] at he
    obtain ⟨-, -, -, hname⟩ := of_mem_ofLines he
    exact Api.feed_not_mem_line hname
  rw [Paired, apiText, lines_unlines hapi, List.length_map, List.length_map] at hp
  have htags : ∀ l ∈ c.map (·.tag.line), '\n' ∉ l :=
    feed_not_mem_of_length (hp.trans (List.length_map _).symm)
  exact ⟨fun e he => htags _ (List.mem_map_of_mem he), fun e he => hapi _ (List.mem_map_of_mem he)⟩

/-- Each entry is then read from its own pair of lines. -/
theorem parseLine?_of_reread (hp : c.Paired) (h : c.reread = c) : ∀ e ∈ c,
    Tag.parseLine? (dropReturn e.tag.line) = some e.tag ∧
      Api.parseLine? (dropReturn e.api.line) = some e.api := by
  obtain ⟨htags, hapi⟩ := feed_not_mem_of_reread hp h
  rw [reread, tagText, apiText, lines_unlines (List.forall_mem_map.2 htags),
    lines_unlines (List.forall_mem_map.2 hapi), List.map_map, List.map_map, ofLines, List.zip_map',
    List.filterMap_map] at h
  intro e he
  have hread := eq_some_of_filterMap_eq_self h e he
  simp only [Function.comp_apply] at hread
  split at hread
  · rename_i tag api htag hapi
    obtain rfl := Option.some.inj hread
    exact ⟨htag, hapi⟩
  · cases hread

theorem lasting_of_reread (hp : c.Paired) (h : c.reread = c) : ∀ e ∈ c, e.Lasting := by
  intro e he
  obtain ⟨htag, hapi⟩ := parseLine?_of_reread hp h e he
  have hfeed := (feed_not_mem_of_reread hp h).1 e he
  obtain ⟨hname, howner, hapiName⟩ := of_mem_ofLines (h.symm ▸ he : e ∈ c.reread)
  obtain ⟨hend, hlast⟩ := Tag.owner_of_parseLine? hname.1 howner.1 htag
  have hlocator : '\n' ∉ e.tag.locator.toList := by
    intro hc
    refine hfeed ?_
    rw [Tag.line_eq, Tag.lineWith]
    simp [Escape.feed_mem_locator hc]
  exact { tagName := hname, owner := howner, ownerEnd := hend, locator := hlocator
          apiName := hapiName, doc := Api.doc_of_parseLine? hapiName.1 hapi, ownerLast := hlast }

/-- A corpus that was written to two files is loaded as it is if and only if every tag name is without
tabs and line feeds, every owner is without them and without the end of a locator and does not end in a
carriage return, no locator has a line feed, no API name has a space or a line feed, and no documentation
ends in a carriage return. Labels are arbitrary, and so is all else of locators and documentation. -/
theorem load_written_iff (hne : ∀ r, fs'.locate tags = .ok r → fs'.locate api ≠ .ok r)
    (hw : c.write fs tags api = .ok fs') :
    load fs' tags api = .ok c ↔ ∀ e ∈ c, e.Lasting := by
  obtain ⟨htags, hapi⟩ := readText_write_of_ne hne hw
  rw [load_eq htags hapi]
  constructor
  · intro h
    split_ifs at h with hp
    exact lasting_of_reread hp (Except.ok.inj h)
  · intro h
    obtain ⟨hp, hsame⟩ := reread_of_lasting h
    rw [Paired] at hp
    rw [if_pos hp]
    exact congrArg Except.ok hsame

/-- An entry with separators and escapes wherever they may stand. -/
def awkward : Entry where
  tag := { name := "add one", file := "$ROOT/a\tb\\n\n.lua", locator := "x = \"/^$/;\\\"\\t\t$"
           kind := .function, owner := "M $/;" }
  api := { name := "M:\tadd", doc := "add one(a)\r\n\\n stays\\" }

theorem lasting_awkward : awkward.Lasting where
  tagName := by decide
  owner := by decide
  ownerEnd := by decide
  locator := by decide
  apiName := by decide
  doc := by decide
  ownerLast := by decide

/-- A tree of one directory. -/
def shelf : FileSystem where
  nodes := [(["c"], .directory)]

/-- The entry is loaded as it was written. -/
theorem load_written_iff_awkward : ∃ fs',
    write [awkward] shelf ⟨"/c/x.tags"⟩ ⟨"/c/x.api"⟩ = .ok fs' ∧
      load fs' ⟨"/c/x.tags"⟩ ⟨"/c/x.api"⟩ = .ok [awkward] := by
  have hok : (write [awkward] shelf ⟨"/c/x.tags"⟩ ⟨"/c/x.api"⟩).isOk = true := by decide +kernel
  rcases hw : write [awkward] shelf ⟨"/c/x.tags"⟩ ⟨"/c/x.api"⟩ with e | fs'
  · rw [hw] at hok
    cases hok
  · have hne (r : FileSystem.Location) (hr : fs'.locate (Path.join ⟨"/c"⟩ "x.tags") = .ok r) :
        fs'.locate (Path.join ⟨"/c"⟩ "x.api") ≠ .ok r :=
      locate_join_ne (by decide) (by decide) (by decide) r hr
    refine ⟨fs', rfl, (load_written_iff hne hw).2 ?_⟩
    exact List.forall_mem_singleton.2 lasting_awkward

end Corpus

end LuaLens
