import LuaLens.Host.Editor
import LuaLens.Proofs.Host.Caret
import LuaLens.Proofs.Text.Search
import LuaLens.Proofs.Text.Word

/-!
Typing at the caret. The caret is a line and a column, while a text is changed at an index. In a text
whose lines end in line feeds alone, a caret inside the text stands behind exactly one beginning of it,
and what is typed is put behind that beginning, with the caret after it.
-/

namespace LuaLens

open Text

/-! ### Texts of lines that end in line feeds -/

/-- Whether only line feeds break the lines of a text. -/
def FeedOnly (s : List Char) : Prop := ∀ c ∈ s, isLineBreak c = true → c = '\n'

instance (s : List Char) : Decidable (FeedOnly s) :=
  List.decidableBAll (fun c => isLineBreak c = true → c = '\n') s

section

variable {s t p before after : List Char}

theorem feedOnly_append : FeedOnly (s ++ t) ↔ FeedOnly s ∧ FeedOnly t := List.forall_mem_append

theorem FeedOnly.unbroken (h : FeedOnly s) (hs : '\n' ∉ s) : Unbroken s := by
  intro c hc
  rw [Bool.eq_false_iff]
  intro hb
  exact hs (h c hc hb ▸ hc)

theorem FeedOnly.of_feed (h : FeedOnly (s ++ '\n' :: t)) : FeedOnly s ∧ FeedOnly t := by
  obtain ⟨hleft, hright⟩ := feedOnly_append.1 h
  exact ⟨hleft, fun c hc => hright c (List.mem_cons_of_mem _ hc)⟩

/-- Such a text is one line, or a line that ends in a line feed and the lines after it. -/
theorem FeedOnly.cases (h : FeedOnly s) :
    Unbroken s ∨ ∃ p t, Unbroken p ∧ FeedOnly t ∧ s = p ++ '\n' :: t := by
  by_cases hs : '\n' ∈ s
  · obtain ⟨p, t, rfl, hp⟩ := List.eq_append_cons_of_mem hs
    obtain ⟨hleft, hright⟩ := h.of_feed
    exact .inr ⟨p, t, hleft.unbroken hp, hright, rfl⟩
  · exact .inl (h.unbroken hs)

theorem fullLines_feed (hp : Unbroken p) (t : List Char) :
    fullLines [] (p ++ '\n' :: t) = (p ++ ['\n']) :: fullLines [] t := by
  have h := fullLines_ended (.inl rfl : IsEnding ['\n']) (p.reverse ++ []) t
  rw [List.singleton_append, List.append_nil, List.reverse_reverse] at h
  rw [fullLines_append hp, List.append_nil, h]

theorem caretLines_feed (hp : Unbroken p) (t : List Char) :
    caretLines (p ++ '\n' :: t) = p :: caretLines t := caretLines_ended hp (.inl rfl) t

/-- The lines between which the caret moves are the pieces between line feeds. -/
theorem FeedOnly.caretLines_eq (h : FeedOnly s) : caretLines s = splitAll '\n' s := by
  induction s using pieces_induct '\n' with
  | last s hs => rw [caretLines_last (h.unbroken hs), splitAll_of_not_mem hs]
  | piece p t hp ih =>
    obtain ⟨hleft, hright⟩ := h.of_feed
    rw [caretLines_feed (hleft.unbroken hp), splitAll_append hp, ih hright]

/-! ### Places behind a text -/

/-- The part of a text behind its last line feed. -/
def lastLine (s : List Char) : List Char := takeEndWhile (· != '\n') s

/-- The place behind a text. -/
def Cursor.behind (s : List Char) : Cursor := { line := s.count '\n', column := (lastLine s).length }

theorem lastLine_of_unbroken (hp : Unbroken p) : lastLine p = p :=
  takeEndWhile_of_all (bne_of_not_mem hp.feed_not_mem)

theorem lastLine_feed (s t : List Char) : lastLine (s ++ '\n' :: t) = lastLine t :=
  takeEndWhile_append_cons (by decide) s t

/-- A text without line feeds goes on with the last line. -/
theorem lastLine_append (s : List Char) (ht : '\n' ∉ t) : lastLine (s ++ t) = lastLine s ++ t := by
  have hall : ∀ c ∈ t.reverse, (c != '\n') = true := fun c hc =>
    bne_of_not_mem ht c (List.mem_reverse.1 hc)
  rw [lastLine, lastLine, takeEndWhile, takeEndWhile, List.reverse_append,
    List.takeWhile_append_of_pos hall, List.reverse_append, List.reverse_reverse]

theorem Cursor.behind_unbroken (hp : Unbroken p) : behind p = { line := 0, column := p.length } := by
  rw [behind, lastLine_of_unbroken hp, List.count_eq_zero.2 hp.feed_not_mem]

theorem Cursor.behind_feed (hp : '\n' ∉ p) (s : List Char) :
    behind (p ++ '\n' :: s) = { line := (behind s).line + 1, column := (behind s).column } := by
  rw [behind, lastLine_feed, List.count_append, List.count_eq_zero.2 hp, List.count_cons_self,
    Nat.zero_add, behind]

theorem length_splitAll (c : Char) (s : List Char) : (splitAll c s).length = s.count c + 1 := by
  induction s using pieces_induct c with
  | last s hs =>
    rw [splitAll_of_not_mem hs, List.count_eq_zero.2 hs]
    rfl
  | piece p t hp ih =>
    rw [splitAll_append hp, List.length_cons, ih, List.count_append, List.count_eq_zero.2 hp,
      List.count_cons_self]
    omega

theorem getLastD_splitAll (s : List Char) : (splitAll '\n' s).getLastD [] = lastLine s := by
  have h := getElem?_splitAll '\n' s []
  rw [List.append_nil, List.takeWhile_nil, List.append_nil] at h
  rw [List.getLastD_eq_getLast?, List.getLast?_eq_getElem?, length_splitAll, Nat.add_sub_cancel, h]
  rfl

/-- The caret moves behind what is inserted at it. -/
theorem Editor.advance_behind (s t : List Char) :
    advance (Cursor.behind s) t = Cursor.behind (s ++ t) := by
  rw [advance, length_splitAll, getLastD_splitAll]
  by_cases ht : '\n' ∈ t
  · have hpos : 0 < t.count '\n' := List.count_pos_iff.2 ht
    obtain ⟨p, u, rfl, -⟩ := List.eq_append_cons_of_mem ht
    simp only [show ¬List.count '\n' (p ++ '\n' :: u) + 1 ≤ 1 by omega, ↓reduceIte, Cursor.behind]
    have hlast : lastLine (s ++ (p ++ '\n' :: u)) = lastLine (p ++ '\n' :: u) := by
      rw [← List.append_assoc, lastLine_feed, lastLine_feed]
    rw [hlast, Nat.add_sub_cancel, ← List.count_append]
  · simp only [List.count_eq_zero.2 ht, Nat.zero_add, le_refl, ↓reduceIte, Cursor.behind]
    rw [lastLine_append s ht, List.count_append, List.count_eq_zero.2 ht, List.length_append,
      Nat.add_zero]

/-! ### The text before the caret -/

/-- The text before a place: the lines above it, and its own line up to its column. -/
def textBefore (s : List Char) (c : Cursor) : List Char :=
  ((fullLines [] s).take c.line).flatten ++ ((caretLines s).getD c.line []).take c.column

/-- Whether a place is on a line of a text, and not behind the end of that line. -/
def Cursor.Inside (c : Cursor) (s : List Char) : Prop :=
  c.line < (caretLines s).length ∧ c.column ≤ ((caretLines s).getD c.line []).length

/-- The lines above the place behind a beginning of a text are those of the beginning. -/
theorem flatten_linesAbove (h : FeedOnly (before ++ after)) :
    ((fullLines [] (before ++ after)).take (before.count '\n')).flatten ++ lastLine before =
      before := by
  induction before using pieces_induct '\n' with
  | last s hs =>
    rw [List.count_eq_zero.2 hs, List.take_zero, List.flatten_nil, List.nil_append,
      lastLine_of_unbroken ((feedOnly_append.1 h).1.unbroken hs)]
  | piece p t hp ih =>
    rw [List.append_assoc, List.cons_append] at h
    obtain ⟨hleft, hright⟩ := h.of_feed
    have hcount : (p ++ '\n' :: t).count '\n' = t.count '\n' + 1 := by
      rw [List.count_append, List.count_eq_zero.2 hp, List.count_cons_self, Nat.zero_add]
    rw [hcount, List.append_assoc, List.cons_append, fullLines_feed (hleft.unbroken hp),
      List.take_succ_cons, List.flatten_cons, lastLine_feed, List.append_assoc, ih hright]
    simp

/-- The line of the place behind a beginning of a text. -/
theorem caretLine_behind (h : FeedOnly (before ++ after)) :
    (caretLines (before ++ after))[(Cursor.behind before).line]? =
      some (lastLine before ++ after.takeWhile (· != '\n')) := by
  rw [h.caretLines_eq]
  exact getElem?_splitAll '\n' before after

theorem textBefore_behind (h : FeedOnly (before ++ after)) :
    textBefore (before ++ after) (.behind before) = before := by
  rw [textBefore, List.getD_eq_getElem?_getD, caretLine_behind h, Option.getD_some, Cursor.behind,
    List.take_left]
  exact flatten_linesAbove h

theorem Cursor.inside_behind (h : FeedOnly (before ++ after)) :
    (behind before).Inside (before ++ after) := by
  have hline := caretLine_behind h
  refine ⟨(List.getElem?_eq_some_iff.1 hline).1, ?_⟩
  rw [List.getD_eq_getElem?_getD, hline, Option.getD_some, List.length_append, behind]
  exact Nat.le_add_right _ _

/-- A place inside a text stands behind the text before it. -/
theorem Cursor.Inside.behind_textBefore {c : Cursor} (hc : c.Inside s) (h : FeedOnly s) :
    behind (textBefore s c) = c ∧ textBefore s c <+: s := by
  obtain ⟨line, column⟩ := c
  induction line generalizing s with
  | zero =>
    obtain ⟨-, hcolumn⟩ := hc
    have hone {p : List Char} (hp : Unbroken p) (hcol : column ≤ p.length) :
        behind (p.take column) = ⟨0, column⟩ := by
      rw [behind_unbroken fun c hm => hp c (List.mem_of_mem_take hm), List.length_take_of_le hcol]
    obtain hp | ⟨p, t, hp, ht, rfl⟩ := h.cases
    · rw [caretLines_last hp] at hcolumn
      rw [textBefore, caretLines_last hp]
      exact ⟨hone hp hcolumn, List.take_prefix _ _⟩
    · rw [caretLines_feed hp] at hcolumn
      rw [textBefore, caretLines_feed hp]
      exact ⟨hone hp hcolumn, (List.take_prefix _ _).trans (List.prefix_append _ _)⟩
  | succ line ih =>
    obtain hp | ⟨p, t, hp, ht, rfl⟩ := h.cases
    · rw [Inside, caretLines_last hp] at hc
      exact absurd hc.1 (by simp)
    · have hrest : (⟨line, column⟩ : Cursor).Inside t := by
        rw [Inside, caretLines_feed hp] at hc
        exact ⟨Nat.lt_of_succ_lt_succ hc.1, hc.2⟩
      have hbefore : textBefore (p ++ '\n' :: t) ⟨line + 1, column⟩ =
          p ++ '\n' :: textBefore t ⟨line, column⟩ := by
        rw [textBefore, caretLines_feed hp, fullLines_feed hp, textBefore]
        simp
      obtain ⟨hbehind, hprefix⟩ := ih ht hrest
      rw [hbefore, behind_feed hp.feed_not_mem, hbehind]
      exact ⟨rfl, (List.prefix_append_right_inj p).2 (List.prefix_cons_inj '\n' |>.2 hprefix)⟩

end

/-! ### Typing -/

namespace Buffer

theorem inside_iff (b : Buffer) (c : Cursor) :
    c.Inside b.chars ↔ c.line < b.lineCount ∧ c.column ≤ b.lineLength c.line := by
  rw [Cursor.Inside, lineLength, line?_getD, lineCount, lines, caretLines, List.length_map]

/-- The place behind a beginning of the text is its index. -/
theorem lineStart_behind {b : Buffer} {before after : List Char} (hb : b.chars = before ++ after)
    (h : FeedOnly (before ++ after)) :
    ∃ start, b.lineStart (Cursor.behind before).line = .ok start ∧
      start + (Cursor.behind before).column = before.length := by
  obtain ⟨hline, -⟩ := (b.inside_iff _).1 (hb ▸ Cursor.inside_behind h)
  refine ⟨_, by rw [lineStart, if_neg (Nat.not_lt.2 hline.le)], ?_⟩
  have hflat := congrArg List.length (flatten_linesAbove h)
  rwa [List.length_append, ← hb] at hflat

theorem insert_behind {b : Buffer} {before after : List Char} (hb : b.chars = before ++ after)
    (h : FeedOnly (before ++ after)) (text : String) :
    b.insert text (Cursor.behind before).line (Cursor.behind before).column =
      .ok (b.edit (before ++ text.toList ++ after)) := by
  obtain ⟨start, hstart, hindex⟩ := lineStart_behind hb h
  have hle : ¬b.chars.length < before.length := by
    rw [hb, List.length_append]
    omega
  simp only [insert, hstart, bind, Except.bind, hindex, hle, ↓reduceIte, pure, Except.pure]
  rw [hb, List.take_left, List.drop_left]

theorem delete_end {b : Buffer} {before word after : List Char}
    (hb : b.chars = before ++ word ++ after) :
    b.delete ((before ++ word).length - word.length) (before ++ word).length =
      .ok (b.edit (before ++ after)) := by
  have hstart : (before ++ word).length - word.length = before.length := by
    rw [List.length_append, Nat.add_sub_cancel]
  have hle : ¬b.chars.length < max before.length (before ++ word).length := by
    rw [hb]
    simp only [List.length_append]
    omega
  have hback : ¬(before ++ word).length < before.length := by
    rw [List.length_append]
    omega
  rw [delete, hstart, if_neg hle, if_neg hback, hb, List.drop_left, List.append_assoc, List.take_left]

end Buffer

theorem isNamePart_feed : isNamePart '\n' = false := by decide

section

variable {s w : List Char}

/-- The word before the caret is on the line of the caret. -/
theorem takeEndWhile_lastLine (hw : ∀ c ∈ w, isNamePart c = true)
    (hs : ∀ c, s.getLast? = some c → isNamePart c = false) :
    takeEndWhile isNamePart (lastLine (s ++ w)) = w := by
  have hfeed : '\n' ∉ w := fun hc => absurd (hw _ hc) (by rw [isNamePart_feed]; decide)
  rw [lastLine_append s hfeed]
  refine takeEndWhile_append hw fun c hc => hs c ?_
  have hsuffix : lastLine s <:+ s := by
    rw [lastLine, takeEndWhile, ← List.reverse_prefix, List.reverse_reverse]
    exact List.takeWhile_prefix _
  obtain ⟨front, hfront⟩ := hsuffix
  rw [← hfront, List.getLast?_append_of_ne_nil _ (by rintro hnil; simp [hnil] at hc), hc]

end

namespace Editor

variable {π : Type} {e : Editor π} {before word after : List Char} {text : String}

/-- Whether the caret is in the text, between two parts of it. -/
structure Between (e : Editor π) (before after : List Char) : Prop where
  text : e.buffer.chars = before ++ after
  before : textBefore e.buffer.chars e.cursor = before
  line : e.cursor.line < e.buffer.lineCount
  column : e.cursor.column ≤ e.buffer.lineLength e.cursor.line
  plain : FeedOnly e.buffer.chars

theorem Between.of_behind (ht : e.buffer.chars = before ++ after) (hc : e.cursor = .behind before)
    (h : FeedOnly (before ++ after)) : e.Between before after := by
  obtain ⟨hline, hcolumn⟩ := (e.buffer.inside_iff _).1 (ht ▸ Cursor.inside_behind h)
  refine ⟨ht, ?_, hc ▸ hline, hc ▸ hcolumn, ht ▸ h⟩
  rw [ht, hc, textBefore_behind h]

theorem Between.behind (h : e.Between before after) : e.cursor = .behind before := by
  have hinside := (e.buffer.inside_iff e.cursor).2 ⟨h.line, h.column⟩
  rw [← h.before]
  exact (hinside.behind_textBefore h.plain).1.symm

theorem Between.feedOnly (h : e.Between before after) : FeedOnly (before ++ after) := h.text ▸ h.plain

/-- A caret inside the text is between two parts of it. -/
theorem exists_between (hline : e.cursor.line < e.buffer.lineCount)
    (hcolumn : e.cursor.column ≤ e.buffer.lineLength e.cursor.line) (h : FeedOnly e.buffer.chars) :
    ∃ after, e.Between (textBefore e.buffer.chars e.cursor) after := by
  have hinside := (e.buffer.inside_iff e.cursor).2 ⟨hline, hcolumn⟩
  obtain ⟨after, hafter⟩ := (hinside.behind_textBefore h).2
  exact ⟨after, hafter.symm, rfl, hline, hcolumn, h⟩

/-- What is inserted is put between the parts, before the caret. -/
theorem Between.insertText (h : e.Between before after) (ht : FeedOnly text.toList) :
    ∃ e', e.insertText text = .ok e' ∧ e'.Between (before ++ text.toList) after ∧
      e'.choices = e.choices := by
  have hplain : FeedOnly (before ++ text.toList ++ after) := by
    obtain ⟨hbefore, hafter⟩ := feedOnly_append.1 h.feedOnly
    exact feedOnly_append.2 ⟨feedOnly_append.2 ⟨hbefore, ht⟩, hafter⟩
  have hinsert := Buffer.insert_behind h.text h.feedOnly text
  refine ⟨{ e with buffer := e.buffer.edit (before ++ text.toList ++ after)
                   cursor := .behind (before ++ text.toList) }, ?_, .of_behind rfl rfl hplain, rfl⟩
  rw [Editor.insertText, h.behind, hinsert, advance_behind]
  rfl

/-- The selected completion takes the place of the word before the caret. -/
theorem Between.acceptChoice (h : e.Between (before ++ word) after)
    (hword : ∀ c ∈ word, isNamePart c = true)
    (hlongest : ∀ c, before.getLast? = some c → isNamePart c = false)
    (hselected : e.choices.accepted? = some text) (ht : FeedOnly text.toList) :
    ∃ e', e.acceptChoice = .ok (e', true) ∧ e'.Between (before ++ text.toList) after ∧
      e'.choices = {} := by
  have hfeed : '\n' ∉ word := fun hc => absurd (hword _ hc) (by rw [isNamePart_feed]; decide)
  have hline : ((e.buffer.line? e.cursor.line).getD []).take e.cursor.column =
      lastLine (before ++ word) := by
    rw [Buffer.line?_getD, h.text, List.getD_eq_getElem?_getD, h.behind, caretLine_behind h.feedOnly,
      Option.getD_some, Cursor.behind, List.take_left]
  obtain ⟨start, hstart, hindex⟩ := Buffer.lineStart_behind h.text h.feedOnly
  have hcursor : { Cursor.behind (before ++ word) with
      column := (Cursor.behind (before ++ word)).column - word.length } = Cursor.behind before := by
    rw [Cursor.behind, Cursor.behind, lastLine_append before hfeed, List.count_append,
      List.count_eq_zero.2 hfeed, List.length_append, Nat.add_sub_cancel, Nat.add_zero]
  have hbefore : FeedOnly (before ++ after) := by
    obtain ⟨hboth, hafter⟩ := feedOnly_append.1 h.feedOnly
    exact feedOnly_append.2 ⟨(feedOnly_append.1 hboth).1, hafter⟩
  -- The editor between the two edits.
  have hmid : Between { e with buffer := e.buffer.edit (before ++ after), cursor := .behind before }
      before after := .of_behind rfl rfl hbefore
  obtain ⟨e', hinsert, hdone, -⟩ := hmid.insertText ht
  refine ⟨{ e' with choices := {} }, ?_, ⟨hdone.text, hdone.before, hdone.line, hdone.column,
    hdone.plain⟩, rfl⟩
  simp only [Editor.acceptChoice, hselected, hline, takeEndWhile_lastLine hword hlongest]
  rw [h.behind, hstart]
  simp only [bind, Except.bind, hindex, Buffer.delete_end h.text, hcursor, hinsert]
  rfl

/-! ### Runs -/

/-- What changes the text at the caret, and what changes the completions on offer. -/
inductive Typing
  | insert (text : String)
  | accept
  | offer (choices : Choices)

def Typing.run (e : Editor π) : Typing → Except Buffer.Fault (Editor π)
  | .insert text => e.insertText text
  | .accept => e.acceptChoice.map (·.1)
  | .offer choices => .ok { e with choices }

/-- The text before the caret and the completions on offer, after one more step. -/
def Typing.write (s : List Char × Choices) : Typing → List Char × Choices
  | .insert text => (s.1 ++ text.toList, s.2)
  | .accept =>
    match s.2.accepted? with
    | some text => (dropEndWhile isNamePart s.1 ++ text.toList, {})
    | none => s
  | .offer choices => (s.1, choices)

def PlainChoices (choices : Choices) : Prop := ∀ item ∈ choices.items, FeedOnly item.insertion.toList

def Typing.IsPlain : Typing → Prop
  | .insert text => FeedOnly text.toList
  | .accept => True
  | .offer choices => PlainChoices choices

theorem PlainChoices.accepted {choices : Choices} (h : PlainChoices choices)
    (ht : choices.accepted? = some text) : FeedOnly text.toList := by
  obtain ⟨item, hitem, rfl⟩ := Option.map_eq_some_iff.1 ht
  exact h item (List.mem_of_getElem? hitem)

/-- One step of typing does to the text before the caret what it says. -/
theorem Between.run (h : e.Between before after) (hc : PlainChoices e.choices) {t : Typing}
    (ht : t.IsPlain) :
    ∃ e', t.run e = .ok e' ∧ e'.Between (t.write (before, e.choices)).1 after ∧
      e'.choices = (t.write (before, e.choices)).2 ∧ PlainChoices e'.choices := by
  cases t with
  | insert text =>
    obtain ⟨e', he, hdone, hchoices⟩ := h.insertText ht
    exact ⟨e', he, hdone, hchoices, hchoices ▸ hc⟩
  | offer choices => exact ⟨_, rfl, ⟨h.text, h.before, h.line, h.column, h.plain⟩, rfl, ht⟩
  | accept =>
    cases hs : e.choices.accepted? with
    | none =>
      have hrun : Typing.accept.run e = .ok e := by simp [Typing.run, Editor.acceptChoice, hs, Except.map]
      simp only [Typing.write, hs]
      exact ⟨e, hrun, h, rfl, hc⟩
    | some text =>
      rw [← dropEndWhile_append_takeEndWhile isNamePart before] at h
      have hword : ∀ c ∈ takeEndWhile isNamePart before, isNamePart c = true := fun c hm =>
        List.mem_takeWhile_imp (List.mem_reverse.1 hm)
      obtain ⟨e', he, hdone, hchoices⟩ :=
        h.acceptChoice hword (fun c => of_getLast?_dropEndWhile) hs (hc.accepted hs)
      have hrun : Typing.accept.run e = .ok e' := by rw [Typing.run, he]; rfl
      simp only [Typing.write, hs]
      exact ⟨e', hrun, hdone, hchoices, hchoices ▸ by simp [PlainChoices]⟩

theorem Between.runs (h : e.Between before after) (hc : PlainChoices e.choices)
    {typings : List Typing} (ht : ∀ t ∈ typings, t.IsPlain) :
    ∃ e', typings.foldlM Typing.run e = .ok e' ∧
      e'.Between (typings.foldl Typing.write (before, e.choices)).1 after := by
  induction typings generalizing e before with
  | nil => exact ⟨e, rfl, h⟩
  | cons t typings ih =>
    obtain ⟨hplain, hrest⟩ := List.forall_mem_cons.1 ht
    obtain ⟨e', he, hdone, hchoices, hc'⟩ := h.run hc hplain
    obtain ⟨e'', he', hdone'⟩ := ih hdone hc' hrest
    refine ⟨e'', ?_, ?_⟩
    · rw [List.foldlM_cons, he]
      exact he'
    · rw [List.foldl_cons]
      rwa [hchoices] at hdone'

/-- From a caret inside a text of which only line feeds break the lines, what is inserted is put behind
the text before the caret, the selected completion takes the place of the word there, and the caret is
behind it; and so it goes on, whatever is typed. -/
theorem typing_at_caret (e : Editor π) (hline : e.cursor.line < e.buffer.lineCount)
    (hcolumn : e.cursor.column ≤ e.buffer.lineLength e.cursor.line)
    (hplain : FeedOnly e.buffer.chars) :
    ∃ before after, e.Between before after ∧
      (∀ text : String, FeedOnly text.toList →
        ∃ e', e.insertText text = .ok e' ∧ e'.Between (before ++ text.toList) after) ∧
      (∀ (text : String) (lead word : List Char), e.choices.accepted? = some text →
        FeedOnly text.toList → before = lead ++ word → (∀ c ∈ word, isNamePart c = true) →
        (∀ c, lead.getLast? = some c → isNamePart c = false) →
        ∃ e', e.acceptChoice = .ok (e', true) ∧ e'.Between (lead ++ text.toList) after ∧
          e'.choices.items = []) ∧
      ∀ typings : List Typing, PlainChoices e.choices → (∀ t ∈ typings, t.IsPlain) →
        ∃ e', typings.foldlM Typing.run e = .ok e' ∧
          e'.Between (typings.foldl Typing.write (before, e.choices)).1 after := by
  obtain ⟨after, h⟩ := exists_between hline hcolumn hplain
  refine ⟨_, after, h, fun text ht => ?_, fun text lead word hs ht hbefore hword hlongest => ?_,
    fun typings hc ht => h.runs hc ht⟩
  · obtain ⟨e', he, hdone, -⟩ := h.insertText ht
    exact ⟨e', he, hdone⟩
  · rw [hbefore] at h
    obtain ⟨e', he, hdone, hchoices⟩ := h.acceptChoice hword hlongest hs ht
    exact ⟨e', he, hdone, by rw [hchoices]⟩

/-- An editor with the caret behind a word, and a completion of two lines selected. -/
def wordAtCaret : Editor Unit where
  launch _ _ _ := .error ""
  buffer := .ofText "x = é_1\n"
  cursor := { line := 0, column := 7 }
  choices := { items := [{ label := "été", kind := none, insertion := "été(\n)" }] }

theorem typing_at_caret_word :
    wordAtCaret.cursor.column ≤ wordAtCaret.buffer.lineLength wordAtCaret.cursor.line ∧
      ∃ e', wordAtCaret.acceptChoice = .ok (e', true) ∧ e'.buffer.text = "x = été(\n)\n" ∧
        textBefore e'.buffer.chars e'.cursor = "x = été(\n)".toList := by
  have hcolumn : wordAtCaret.cursor.column ≤
      wordAtCaret.buffer.lineLength wordAtCaret.cursor.line := by decide
  obtain ⟨before, after, hbetween, -, haccept, -⟩ :=
    typing_at_caret wordAtCaret (by decide) hcolumn (by decide)
  have hbefore : before = "x = é_1".toList := by
    rw [← hbetween.before]
    decide
  have hafter : after = ['\n'] := by
    have htext : wordAtCaret.buffer.chars = "x = é_1".toList ++ after := hbefore ▸ hbetween.text
    have hchars : wordAtCaret.buffer.chars = "x = é_1".toList ++ ['\n'] := by decide
    exact (List.append_cancel_left (hchars.symm.trans htext)).symm
  have hword : ∀ c ∈ "é_1".toList, isNamePart c = true := List.all_eq_true.1 (by decide +kernel)
  have hlead : ∀ c, "x = ".toList.getLast? = some c → isNamePart c = false := by
    intro c hc
    obtain rfl : ' ' = c := by simpa using hc
    decide
  obtain ⟨e', he, hdone, -⟩ := haccept "été(\n)" "x = ".toList "é_1".toList (by decide) (by decide)
    (by rw [hbefore]; decide) hword hlead
  refine ⟨hcolumn, e', he, ?_, hdone.before⟩
  rw [Buffer.text, hdone.text, hafter]
  decide

end Editor

end LuaLens
