import LuaLens.Proofs.Query.Locals
import LuaLens.Proofs.Symbol.Places
import LuaLens.Proofs.Text.Search
import Mathlib.Order.Bounds.Basic

/-!
Finding declarations again by their locators. The search gives the first occurrence in the text, on
one line and in exact columns, and lines put above move the range down. The locator of a symbol is
always found, on the first line that has it in it: the line of the symbol, or one further up.
-/

namespace LuaLens

open Text

/-- The range some lines further down. -/
def Range.down (r : Range) (n : Nat) : Range :=
  ⟨⟨r.start.line + n, r.start.character⟩, ⟨r.stop.line + n, r.stop.character⟩⟩

namespace Query

variable {text locator above before after : List Char}

/-! ### The range of a locator -/

/-- The range of a locator that stands after the given text. -/
def rangeAfter (before locator : List Char) : Range :=
  let start := unitLength (takeEndWhile (· != '\n') before)
  Range.onLine (before.count '\n') start (start + unitLength locator)

theorem findLocator?_eq (hne : locator ≠ []) (text : List Char) :
    findLocator? text locator = (cut locator text).map fun found => rangeAfter found.1 locator := by
  rw [findLocator?, if_neg (by simpa using hne)]
  refine Option.map_congr fun found hfound => ?_
  have htext := cut_eq_some hfound
  rw [List.append_assoc] at htext
  -- The line of the locator begins with what stands on it before the locator.
  have hline := drop_sub_takeEndWhile (· != '\n') found.1 (locator ++ found.2)
  rw [← htext] at hline
  simp only [rangeAfter, hline, unitsOfBytes_append]

theorem isSome_findLocator?_iff (hne : locator ≠ []) :
    (findLocator? text locator).isSome = true ↔ locator <:+: text := by
  rw [findLocator?_eq hne, Option.isSome_map, ← not_iff_not, Bool.not_eq_true,
    Option.isSome_eq_false_iff, Option.isNone_iff_eq_none, cut_eq_none_iff]

theorem rangeAfter_append (h : above.getLast? = some '\n') (before locator : List Char) :
    rangeAfter (above ++ before) locator = (rangeAfter before locator).down (above.count '\n') := by
  obtain ⟨front, rfl⟩ := List.getLast?_eq_some_iff.1 h
  unfold rangeAfter Range.down
  rw [List.append_assoc, List.singleton_append, takeEndWhile_append_cons (by decide)]
  simp only [Range.onLine, List.count_append, List.count_cons_self, List.count_nil]
  congr 2 <;> omega

theorem findLocator?_append (hne : locator ≠ []) (hfeed : '\n' ∉ locator)
    (habove : above = [] ∨ above.getLast? = some '\n') (hno : ¬ locator <:+: above)
    (text : List Char) :
    findLocator? (above ++ text) locator =
      (findLocator? text locator).map (·.down (above.count '\n')) := by
  obtain rfl | hlast := habove
  · simp [Range.down]
  · rw [findLocator?_eq hne, findLocator?_eq hne, cut_append_feed hfeed hlast hno, Option.map_map,
      Option.map_map]
    congr 1
    funext found
    exact rangeAfter_append hlast found.1 locator

/-- Between the columns of the range, the line has the units of the locator. -/
theorem line_rangeAfter (hfeed : '\n' ∉ locator) (before after : List Char) :
    ∃ line, (splitAll '\n' (before ++ locator ++ after))[(rangeAfter before locator).start.line]? =
        some line ∧
      (rangeAfter before locator).stop.character ≤ (utf16 line).length ∧
      (utf16 line).extract (rangeAfter before locator).start.character
        (rangeAfter before locator).stop.character = utf16 locator := by
  refine ⟨_, getElem?_splitAll_occurrence hfeed before after, ?_, extract_utf16 _ locator _⟩
  rw [length_utf16, unitLength_append, unitLength_append]
  exact Nat.le_add_right _ _

/-- A locator of one line is found just when it occurs in the text. Its range is that of the first
occurrence, on one line, in UTF-16 columns; and lines above that do not hold it move it down. -/
theorem findLocator?_exact (hne : locator ≠ []) (hfeed : '\n' ∉ locator) (text : List Char) :
    ((findLocator? text locator).isSome = true ↔ locator <:+: text) ∧
    (∀ r, findLocator? text locator = some r → ∃ before after line,
      text = before ++ locator ++ after ∧
      (∀ b a, text = b ++ locator ++ a → before.length ≤ b.length) ∧
      r.start.line = before.count '\n' ∧ r.stop.line = r.start.line ∧
      (splitAll '\n' text)[r.start.line]? = some line ∧
      r.stop.character ≤ (utf16 line).length ∧
      (utf16 line).extract r.start.character r.stop.character = utf16 locator) ∧
    ∀ above, (above = [] ∨ above.getLast? = some '\n') → ¬ locator <:+: above →
      findLocator? (above ++ text) locator =
        (findLocator? text locator).map (·.down (above.count '\n')) := by
  refine ⟨isSome_findLocator?_iff hne, fun r hr => ?_,
    fun above habove hno => findLocator?_append hne hfeed habove hno text⟩
  rw [findLocator?_eq hne, Option.map_eq_some_iff] at hr
  obtain ⟨⟨before, after⟩, hcut, rfl⟩ := hr
  obtain rfl := cut_eq_some hcut
  obtain ⟨line, hline, hstop, hunits⟩ := line_rangeAfter hfeed before after
  exact ⟨before, after, line, rfl, fun b a => length_le_of_cut hcut, rfl, rfl, hline, hstop, hunits⟩

/-- The locator has a character of two units in front of it and one in it, and the line above the text
ends where the text begins. -/
theorem findLocator?_exact_astral :
    "x𝄞".toList ≠ [] ∧ '\n' ∉ "x𝄞".toList ∧
    findLocator? "a\n😀x𝄞!\nx𝄞".toList "x𝄞".toList = some (Range.onLine 1 2 5) ∧
    findLocator? ("𝄞\nx\n" ++ "a\n😀x𝄞!\nx𝄞").toList "x𝄞".toList = some (Range.onLine 3 2 5) := by
  have hne : "x𝄞".toList ≠ [] := by decide
  have hfeed : '\n' ∉ "x𝄞".toList := by decide
  have hfound : findLocator? "a\n😀x𝄞!\nx𝄞".toList "x𝄞".toList = some (Range.onLine 1 2 5) := by
    decide
  have habove : ¬ "x𝄞".toList <:+: "𝄞\nx\n".toList := by decide
  obtain ⟨-, -, hdown⟩ := findLocator?_exact hne hfeed "a\n😀x𝄞!\nx𝄞".toList
  refine ⟨hne, hfeed, hfound, ?_⟩
  rw [String.toList_append, hdown "𝄞\nx\n".toList (.inr (by decide)) habove, hfound]
  rfl

/-! ### Lines that show a locator -/

theorem infix_lineAt_iff_piece (hne : locator ≠ []) (hlast : locator.getLast? ≠ some '\r') {n : Nat} :
    locator <:+: lineAt text n ↔
      ∃ piece, (splitAll '\n' text)[n]? = some piece ∧ locator <:+: piece := by
  induction n generalizing text with
  | zero =>
    obtain ⟨hfeed, hs⟩ | ⟨p, t, hp, rfl, hs⟩ := splitAll_cases '\n' text
    · rw [lineAt, lines_of_not_mem hfeed, hs]
      cases text <;> simp
    · rw [lineAt, lines_append hp, hs]
      simpa using infix_dropReturn_iff hne hlast
  | succ n ih =>
    obtain ⟨hfeed, hs⟩ | ⟨p, t, hp, rfl, hs⟩ := splitAll_cases '\n' text
    · rw [lineAt, lines_of_not_mem hfeed, hs]
      cases text <;> simp [hne]
    · rw [lineAt, lines_append hp, hs, List.getD_cons_succ, List.getElem?_cons_succ]
      exact ih

/-- The lines that show a locator are those that its occurrences begin on. -/
theorem infix_lineAt_iff (hne : locator ≠ []) (hlast : locator.getLast? ≠ some '\r')
    (hfeed : '\n' ∉ locator) {n : Nat} : locator <:+: lineAt text n ↔
      ∃ before after, text = before ++ locator ++ after ∧ before.count '\n' = n := by
  rw [infix_lineAt_iff_piece hne hlast]
  constructor
  · rintro ⟨piece, hpiece, x, y, rfl⟩
    obtain ⟨b, a, rfl, hb⟩ := exists_of_getElem?_splitAll hpiece
    have hx : '\n' ∉ x := fun hx => (mem_splitAll (List.mem_of_getElem? hpiece)).1 (by simp [hx])
    refine ⟨b ++ x, y ++ a, by simp, ?_⟩
    rw [List.count_append, hb, List.count_eq_zero.2 hx, Nat.add_zero]
  · rintro ⟨before, after, rfl, rfl⟩
    exact ⟨_, getElem?_splitAll_occurrence hfeed before after, List.infix_append _ locator _⟩

theorem isLeast_count_of_cut (hne : locator ≠ []) (hlast : locator.getLast? ≠ some '\r')
    (hfeed : '\n' ∉ locator) (h : cut locator text = some (before, after)) :
    IsLeast {n | locator <:+: lineAt text n} (before.count '\n') := by
  constructor
  · exact (infix_lineAt_iff hne hlast hfeed).2 ⟨before, after, cut_eq_some h, rfl⟩
  · intro n hn
    obtain ⟨b, a, hs, rfl⟩ := (infix_lineAt_iff hne hlast hfeed).1 hn
    have hbefore : before <+: text := by
      rw [cut_eq_some h, List.append_assoc]
      exact List.prefix_append _ _
    have hb : b <+: text := by
      rw [hs, List.append_assoc]
      exact List.prefix_append _ _
    exact (List.prefix_of_prefix_length_le hbefore hb (length_le_of_cut h hs)).sublist.count_le _

/-! ### The locators of symbols -/

variable {source fileModule : String} {s : Symbol}

theorem locator_of_mem_extractSymbols (hs : s ∈ extractSymbols source fileModule) :
    s.locator.toList ≠ [] ∧ s.locator.toList.getLast? ≠ some '\r' ∧ '\n' ∉ s.locator.toList ∧
      s.locator.toList <:+: lineAt source.toList s.line := by
  obtain ⟨line, hline, hlocator, hshown⟩ := line_of_mem_extractSymbols hs
  have hat : lineAt source.toList s.line = line := by
    rw [lineAt, List.getD_eq_getElem?_getD, hline, Option.getD_some]
  rw [hlocator, String.toList_ofList, hat]
  refine ⟨hshown, fun hreturn => ?_, fun hfeed => ?_, ?_⟩
  · have hblank := isBlank_of_getLast?_trimEnd hreturn
    revert hblank
    decide
  · exact (mem_lines (List.mem_of_getElem? hline)).1 (mem_of_mem_trim hfeed)
  · obtain ⟨b, hcut⟩ := cut_trim hshown
    exact ⟨_, b, (cut_eq_some hcut).symm⟩

theorem mem_distinct {seen all : List Location} {l : Location} :
    l ∈ distinct seen all ↔ l ∈ all ∧ l ∉ seen := by
  induction all generalizing seen with
  | nil => simp [distinct]
  | cons first all ih =>
    rw [distinct, List.mem_cons]
    split_ifs with hseen
    · rw [List.contains_iff_mem] at hseen
      rw [ih]
      constructor
      · exact fun h => ⟨.inr h.1, h.2⟩
      · rintro ⟨rfl | hin, hnew⟩
        · exact absurd hseen hnew
        · exact ⟨hin, hnew⟩
    · rw [List.contains_iff_mem] at hseen
      rw [List.mem_cons, ih, List.mem_cons, not_or]
      by_cases hl : l = first
      · simp [hl, hseen]
      · simp [hl]

section Located

variable {x : Index} {docs : Documents} {fs : FileSystem} {e : Entry} {r : Range} {uri : Uri}
  (htext : docs.source? fs (x.resolve e.tag.file) = some source)
  (huri : Uri.ofPath? (x.resolve e.tag.file) = some uri)
  (hr : findLocator? source.toList e.tag.locator.toList = some r)
include htext huri hr

/-- A declaration is located where the search finds its locator. -/
theorem locate?_of_source? : locate? x docs fs e.tag = some { uri, range := r } := by
  unfold locate?
  simp only [htext, Option.bind_eq_bind, Option.bind_some, hr, huri]
  rfl

theorem mem_definition {label document : String} {p : Position}
    (he : e ∈ sought x.entries label document p) :
    { uri, range := r } ∈ definition x docs fs label document p := by
  rw [definition_eq, mem_distinct, List.mem_filterMap]
  exact ⟨⟨e, he, locate?_of_source? htext huri hr⟩, List.not_mem_nil⟩

theorem mem_workspaceSymbols {query : String} (he : e ∈ x.projectEntries)
    (hname : contains (lowercase query.toList) (lowercase e.tag.name.toList) = true) :
    { name := e.tag.name, kind := e.tag.kind, owner := e.tag.owner, location := { uri, range := r } } ∈
      workspaceSymbols x docs fs query := by
  unfold workspaceSymbols
  rw [List.mem_filterMap]
  refine ⟨e, he, ?_⟩
  rw [if_pos hname, locate?_of_source? htext huri hr]
  rfl

end Located

/-- The locator of a symbol is found in its text on the first line that shows it. This is the line of
the symbol, on which the document's own list has it, just when no line above shows the locator too;
and going to the definition and the project's list lead where the search finds it. -/
theorem locator_found_first (hs : s ∈ extractSymbols source fileModule) :
    ∃ r, findLocator? source.toList s.locator.toList = some r ∧
      IsLeast {n | s.locator.toList <:+: lineAt source.toList n} r.start.line ∧
      r.start.line ≤ s.line ∧
      (r.start.line = s.line ↔ ∀ n < s.line, ¬ s.locator.toList <:+: lineAt source.toList n) ∧
      (symbolRange source.toList s).start.line = s.line ∧
      ∀ (x : Index) (docs : Documents) (fs : FileSystem) (file : String) (uri : Uri),
        docs.source? fs (x.resolve file) = some source → Uri.ofPath? (x.resolve file) = some uri →
        (∀ label document p, Entry.ofSymbol file s ∈ sought x.entries label document p →
          { uri, range := r } ∈ definition x docs fs label document p) ∧
        ∀ query, Entry.ofSymbol file s ∈ x.projectEntries →
          contains (lowercase (String.toList query)) (lowercase s.name.toList) = true →
          { name := s.name, kind := s.kind, owner := s.owner, location := { uri, range := r } } ∈
            workspaceSymbols x docs fs query := by
  obtain ⟨hne, hlast, hfeed, hown⟩ := locator_of_mem_extractSymbols hs
  have hfound : s.locator.toList <:+: source.toList := by
    obtain ⟨b, a, hba, -⟩ := (infix_lineAt_iff hne hlast hfeed).1 hown
    exact ⟨b, a, hba.symm⟩
  obtain ⟨⟨before, after⟩, hcut⟩ := Option.ne_none_iff_exists'.1
    fun hnone => cut_eq_none_iff.1 hnone hfound
  have hr : findLocator? source.toList s.locator.toList =
      some (rangeAfter before s.locator.toList) := by
    rw [findLocator?_eq hne, hcut]
    rfl
  have hleast : IsLeast {n | s.locator.toList <:+: lineAt source.toList n}
      (rangeAfter before s.locator.toList).start.line := isLeast_count_of_cut hne hlast hfeed hcut
  have hle : (rangeAfter before s.locator.toList).start.line ≤ s.line := hleast.2 hown
  refine ⟨_, hr, hleast, hle, ?_, ?_, fun x docs fs file uri htext huri => ⟨?_, ?_⟩⟩
  · constructor
    · intro heq n hn hshows
      have hlower := hleast.2 hshows
      omega
    · intro hnone
      by_contra hlt
      exact hnone _ (by omega) hleast.1
  · rw [symbolRange_eq hs]
    rfl
  · intro label document p he
    exact mem_definition (e := Entry.ofSymbol file s) htext huri hr he
  · intro query he hname
    exact mem_workspaceSymbols (e := Entry.ofSymbol file s) htext huri hr he hname

/-- A function of which the line above has a copy in a comment. -/
def commentedText : String := "-- function f() end\nfunction f() end\n"

def commentedSymbol : Symbol where
  name := "f"
  owner := ""
  kind := .function
  locator := "function f() end"
  line := 1
  doc := "f()"

/-- The copy is found in place of the declaration. -/
theorem commented_found_above : ¬ ∀ (source fileModule : String),
    ∀ s ∈ extractSymbols source fileModule, ∃ r,
      findLocator? source.toList s.locator.toList = some r ∧ r.start.line = s.line := by
  intro h
  have hs : commentedSymbol ∈ extractSymbols commentedText "m" := by decide +kernel
  obtain ⟨r, hr, hline⟩ := h _ _ _ hs
  have hfound : findLocator? commentedText.toList commentedSymbol.locator.toList =
      some (Range.onLine 0 3 19) := by decide
  obtain rfl := Option.some.inj (hfound.symm.trans hr)
  revert hline
  decide

/-- A line above with a part of the declaration is of no matter. -/
theorem locator_found_first_called :
    commentedSymbol ∈ extractSymbols "print(f, 'function f()')\nfunction f() end\n" "m" ∧
    ∃ r, findLocator? "print(f, 'function f()')\nfunction f() end\n".toList
      commentedSymbol.locator.toList = some r ∧ r.start.line = commentedSymbol.line := by
  have hs : commentedSymbol ∈ extractSymbols "print(f, 'function f()')\nfunction f() end\n" "m" := by
    decide +kernel
  obtain ⟨r, hr, -, -, hown, -⟩ := locator_found_first hs
  exact ⟨hs, r, hr, hown.2 (by decide)⟩

end Query

end LuaLens
