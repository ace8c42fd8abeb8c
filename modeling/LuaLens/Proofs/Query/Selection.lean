import LuaLens.Proofs.Query.Names
import LuaLens.Proofs.Text.Trim
import LuaLens.Proofs.Text.Units
import LuaLens.Query.Symbols

/-!
The ranges that a selection grows through. Around every place they stand one within the next and end with
the whole document, whatever lines and columns are asked for; on a line they begin with the longest word
that the column touches, unless there is none or it is all of the line.
-/

namespace LuaLens

open Text

/-! ### Places and ranges -/

/-- A place is the other one or comes before it. -/
def Position.AtMost (a b : Position) : Prop :=
  a.line < b.line ∨ a.line = b.line ∧ a.character ≤ b.character

theorem Position.atMost_onLine {n a b : Nat} : Position.AtMost ⟨n, a⟩ ⟨n, b⟩ ↔ a ≤ b := by
  simp [AtMost]

/-- The place is in the range or at one of its ends. -/
structure Range.Holds (r : Range) (p : Position) : Prop where
  start : r.start.AtMost p
  stop : p.AtMost r.stop

/-- The range does not go beyond the other one. -/
structure Range.Inside (r s : Range) : Prop where
  start : s.start.AtMost r.start
  stop : r.stop.AtMost s.stop

theorem Range.onLine_holds {n a b c : Nat} (ha : a ≤ b) (hc : b ≤ c) :
    (Range.onLine n a c).Holds ⟨n, b⟩ :=
  ⟨Position.atMost_onLine.2 ha, Position.atMost_onLine.2 hc⟩

theorem Range.onLine_inside {n a b c d : Nat} (ha : a ≤ b) (hc : c ≤ d) :
    (Range.onLine n b c).Inside (Range.onLine n a d) :=
  ⟨Position.atMost_onLine.2 ha, Position.atMost_onLine.2 hc⟩

namespace Query

variable {text line before after front word back : List Char} {p : Position} {document : Range}

/-- The text has the line, and the column up to its end. A line feed at the end of the text begins no
further line. -/
def HasPlace (text : List Char) (p : Position) : Prop :=
  ∃ line, (lines text)[p.line]? = some line ∧ p.character ≤ unitLength line

/-- The least range from the start that holds every place of the text, on its lines as `HasPlace` counts
them: behind a line feed at the end of the text there is none. -/
structure IsWhole (text : List Char) (r : Range) : Prop where
  start : r.start = ⟨0, 0⟩
  holds : ∀ p, HasPlace text p → r.Holds p
  least : ∀ s : Range, s.start = ⟨0, 0⟩ → (∀ p, HasPlace text p → s.Holds p) → r.Inside s

/-- The range from the start to the end of the last line. -/
def documentRange (text : List Char) : Range :=
  ⟨⟨0, 0⟩, ⟨(lines text).length - 1, unitLength ((lines text).getLastD [])⟩⟩

theorem isWhole_documentRange (text : List Char) : IsWhole text (documentRange text) := by
  refine ⟨rfl, fun p hp => ?_, fun s hs hall => ?_⟩
  · obtain ⟨line, hline, hcolumn⟩ := hp
    have hlt : p.line < (lines text).length := (List.getElem?_eq_some_iff.1 hline).1
    refine ⟨?_, ?_⟩
    · obtain h | h := Nat.eq_zero_or_pos p.line
      · exact .inr ⟨h.symm, Nat.zero_le _⟩
      · exact .inl h
    · obtain h | h := Nat.lt_or_eq_of_le (Nat.le_sub_one_of_lt hlt)
      · exact .inl h
      · refine .inr ⟨h, ?_⟩
        rw [h, ← List.getLast?_eq_getElem?] at hline
        rwa [documentRange, List.getLastD_eq_getLast?, hline]
  · refine ⟨?_, ?_⟩
    · rw [hs]
      exact Position.atMost_onLine.2 (Nat.le_refl 0)
    · cases hlast : (lines text).getLast? with
      | none =>
        -- There is no place in a text without lines, and its range is empty.
        have hnil := List.getLast?_eq_none_iff.1 hlast
        have hzero : (documentRange text).stop = ⟨0, 0⟩ := by simp [documentRange, hnil, unitLength]
        rw [hzero]
        obtain h | h := Nat.eq_zero_or_pos s.stop.line
        · exact .inr ⟨h.symm, Nat.zero_le _⟩
        · exact .inl h
      | some line =>
        refine (hall _ ⟨line, ?_, ?_⟩).stop
        · rw [List.getLast?_eq_getElem?] at hlast
          exact hlast
        · rw [documentRange, List.getLastD_eq_getLast?, hlast]
          exact Nat.le_refl _

/-- The range between two columns of a line of the text stands within the document. -/
theorem IsWhole.onLine_inside (h : IsWhole text document) {n a b : Nat}
    (hline : (lines text)[n]? = some line) (ha : a ≤ unitLength line) (hb : b ≤ unitLength line) :
    (Range.onLine n a b).Inside document :=
  ⟨(h.holds ⟨n, a⟩ ⟨line, hline, ha⟩).start, (h.holds ⟨n, b⟩ ⟨line, hline, hb⟩).stop⟩

/-! ### Columns and words -/

theorem eq_nil_of_unitLength_eq_zero {s : List Char} (h : unitLength s = 0) : s = [] := by
  cases s with
  | nil => rfl
  | cons c s =>
    have hpos := unitSize_pos c
    rw [unitLength] at h
    omega

/-- A line is cut at a column: behind the fewest characters that reach it, or at the end. -/
structure CutAt (line : List Char) (units : Nat) (before after : List Char) : Prop where
  eq : line = before ++ after
  reached : after = [] ∨ units ≤ unitLength before
  fewest : ∀ n < before.length, unitLength (before.take n) < units

theorem cutAt_charsOfUnits (line : List Char) (units : Nat) :
    CutAt line units (line.take (charsOfUnits line units)) (line.drop (charsOfUnits line units)) := by
  refine ⟨(List.take_append_drop _ _).symm, ?_, fun n hn => ?_⟩
  · rw [List.drop_eq_nil_iff]
    exact charsOfUnits_le_iff.1 (Nat.le_refl _)
  · rw [List.length_take, Nat.lt_min] at hn
    have hnot := mt charsOfUnits_le_iff.2 (Nat.not_le.2 hn.1)
    rw [List.take_take, Nat.min_eq_left (Nat.le_of_lt hn.1)]
    omega

/-- The longest run of word characters that touches the place where a line is cut. -/
structure Touching (before after front word back : List Char) : Prop where
  eq : before ++ after = front ++ word ++ back
  front_isPrefix : front <+: before
  back_isSuffix : back <:+ after
  all : ∀ c ∈ word, isNamePart c = true
  front_stop : ∀ c ∈ front.getLast?, isNamePart c = false
  back_stop : ∀ c ∈ back.head?, isNamePart c = false

theorem touching (before after : List Char) :
    Touching before after (dropEndWhile isNamePart before)
      (takeEndWhile isNamePart before ++ after.takeWhile isNamePart) (after.dropWhile isNamePart) := by
  have hleft : EndsIn isNamePart before _ _ := endsIn_iff.2 ⟨rfl, rfl⟩
  refine ⟨?_, ⟨_, hleft.eq.symm⟩, List.dropWhile_suffix _, fun c hc => ?_, hleft.stop,
    fun c hc => of_head?_dropWhile hc⟩
  · rw [← List.append_assoc, ← hleft.eq, List.append_assoc, List.takeWhile_append_dropWhile]
  · exact (List.mem_append.1 hc).elim (hleft.all c) List.mem_takeWhile_imp

/-- The columns in bytes of the word that is touched, counted in units. -/
theorem Touching.columns (h : Touching before after front word back) (hline : line = before ++ after)
    {stop : Nat} (hstop : stop = byteLength (front ++ word)) :
    (if byteLength front < stop then
        some (unitsOfBytes line (byteLength front), unitsOfBytes line stop) else none) =
      if word = [] then none else some (unitLength front, unitLength (front ++ word)) := by
  have hfront := unitsOfBytes_append front (word ++ back)
  rw [← List.append_assoc, ← h.eq, ← hline] at hfront
  have hword := unitsOfBytes_append (front ++ word) back
  rw [← h.eq, ← hline] at hword
  rw [hstop, hfront, hword]
  by_cases hnil : word = []
  · rw [if_pos hnil, hnil, List.append_nil, if_neg (Nat.lt_irrefl _)]
  · have hpos := mt eq_nil_of_byteLength_eq_zero hnil
    rw [if_neg hnil, if_pos (by rw [byteLength_append]; omega)]

theorem wordColumns?_eq (line : List Char) (units : Nat) :
    ∃ before after front word back, CutAt line units before after ∧
      Touching before after front word back ∧
      wordColumns? line units =
        if word = [] then none else some (unitLength front, unitLength (front ++ word)) := by
  have hcut := cutAt_charsOfUnits line units
  refine ⟨_, _, _, _, _, hcut, touching _ _, ?_⟩
  have hlength := List.length_take_of_le (charsOfUnits_le_length line units)
  rw [wordColumns?, beforeByte_bytesOfUnits, takeUnits, hlength]
  refine (touching _ _).columns hcut.eq ?_
  rw [← List.append_assoc, dropEndWhile_append_takeEndWhile, byteLength_append]

/-! ### Chains -/

/-- The ranges around a place: each stands within the next, and the document comes last. On a line of the
text the word comes first that the column touches, unless it is all of the line, and then the line; the
first range holds the column that is reached. Elsewhere there is the document alone. -/
structure Selected (text : List Char) (document : Range) (p : Position) (chain : List Range) : Prop where
  nested : chain.IsChain Range.Inside
  last : chain.getLast? = some document
  inside : ∀ line, (lines text)[p.line]? = some line → ∃ before after front word back,
    CutAt line p.character before after ∧ Touching before after front word back ∧
      chain = (if word = [] ∨ word = line then []
          else [Range.onLine p.line (unitLength front) (unitLength (front ++ word))]) ++
        [Range.onLine p.line 0 (unitLength line), document] ∧
      ∃ inner, chain.head? = some inner ∧ inner.Holds ⟨p.line, unitLength before⟩
  outside : (lines text)[p.line]? = none → chain = [document]

/-- A word has the columns of its line just when it is all of the line. -/
theorem Touching.eq_line_iff (h : Touching before after front word back) :
    (unitLength front, unitLength (front ++ word)) = (0, unitLength (before ++ after)) ↔
      word = before ++ after := by
  rw [h.eq]
  constructor
  · intro hcolumns
    obtain ⟨hfront, hword⟩ := Prod.mk.inj hcolumns
    rw [unitLength_append _ back] at hword
    have hback : back = [] := eq_nil_of_unitLength_eq_zero (by omega)
    rw [eq_nil_of_unitLength_eq_zero hfront, hback, List.nil_append, List.append_nil]
  · intro hword
    have hlength := congrArg List.length hword
    rw [List.length_append, List.length_append] at hlength
    have hfront : front = [] := List.eq_nil_of_length_eq_zero (by omega)
    have hback : back = [] := List.eq_nil_of_length_eq_zero (by omega)
    rw [hfront, hback, List.nil_append, List.append_nil, unitLength]

/-- The word that is touched reaches over the place where the line is cut. -/
theorem Touching.before_isPrefix (h : Touching before after front word back) :
    before <+: front ++ word := by
  obtain ⟨rest, rfl⟩ := h.back_isSuffix
  have heq := h.eq
  rw [← List.append_assoc] at heq
  exact ⟨rest, List.append_cancel_right heq⟩

theorem selectionChain_outside (h : (lines text)[p.line]? = none) :
    selectionChain text p = [documentRange text] := by
  simp only [selectionChain, h]
  rfl

theorem selectionChain_inside (h : (lines text)[p.line]? = some line) :
    ∃ before after front word back, CutAt line p.character before after ∧
      Touching before after front word back ∧
      selectionChain text p = (if word = [] ∨ word = line then []
          else [Range.onLine p.line (unitLength front) (unitLength (front ++ word))]) ++
        [Range.onLine p.line 0 (unitLength line), documentRange text] := by
  obtain ⟨before, after, front, word, back, hcut, htouch, hword⟩ := wordColumns?_eq line p.character
  refine ⟨before, after, front, word, back, hcut, htouch, ?_⟩
  have hwhole := htouch.eq_line_iff
  rw [← hcut.eq] at hwhole
  simp only [selectionChain, h, hword]
  by_cases hnil : word = []
  · rw [if_pos hnil, if_pos (.inl hnil)]
    rfl
  · by_cases hall : word = line
    · simp only [if_neg hnil, if_pos (Or.inr hall), hwhole.2 hall, beq_self_eq_true, if_true]
      rfl
    · have hcolumns : ((unitLength front, unitLength (front ++ word)) == (0, unitLength line)) = false :=
        beq_eq_false_iff_ne.2 (mt hwhole.1 hall)
      simp only [if_neg hnil, if_neg (not_or.2 ⟨hnil, hall⟩), hcolumns, Bool.false_eq_true, if_false]
      rfl

theorem selected_selectionChain (text : List Char) (p : Position) :
    Selected text (documentRange text) p (selectionChain text p) := by
  cases hline : (lines text)[p.line]? with
  | none =>
    rw [selectionChain_outside hline]
    refine ⟨.singleton _, rfl, fun line h => ?_, fun _ => rfl⟩
    rw [hline] at h
    cases h
  | some line =>
    obtain ⟨before, after, front, word, back, hcut, htouch, hchain⟩ := selectionChain_inside hline
    have hbefore : unitLength before ≤ unitLength line :=
      unitLength_mono (hcut.eq ▸ List.prefix_append before after)
    have hword : unitLength (front ++ word) ≤ unitLength line := by
      rw [hcut.eq, htouch.eq]
      exact unitLength_mono (List.prefix_append _ back)
    have hdocument : (Range.onLine p.line 0 (unitLength line)).Inside (documentRange text) :=
      (isWhole_documentRange text).onLine_inside hline (Nat.zero_le _) (Nat.le_refl _)
    refine ⟨?_, ?_, fun other hother => ?_, fun h => ?_⟩
    · rw [hchain]
      split_ifs
      · exact .cons_cons hdocument (.singleton _)
      · exact .cons_cons (Range.onLine_inside (Nat.zero_le _) hword)
          (.cons_cons hdocument (.singleton _))
    · rw [hchain, List.getLast?_append_of_ne_nil _ (List.cons_ne_nil _ _)]
      rfl
    · obtain rfl : line = other := Option.some.inj (hline.symm.trans hother)
      refine ⟨before, after, front, word, back, hcut, htouch, hchain, ?_⟩
      rw [hchain]
      split_ifs
      · exact ⟨_, rfl, Range.onLine_holds (Nat.zero_le _) hbefore⟩
      · exact ⟨_, rfl, Range.onLine_holds (unitLength_mono htouch.front_isPrefix)
          (unitLength_mono htouch.before_isPrefix)⟩
    · rw [hline] at h
      cases h

/-- Whatever places are asked for, there is a chain for each of them, and every chain ends with the whole
document. -/
theorem selection_chains (text : List Char) (ps : List Position) :
    ∃ document, IsWhole text document ∧
      List.Forall₂ (Selected text document) ps (ps.map (selectionChain text)) := by
  refine ⟨documentRange text, isWhole_documentRange text, ?_⟩
  induction ps with
  | nil => exact .nil
  | cons p ps ih => exact .cons (selected_selectionChain text p) ih

end Query

end LuaLens
