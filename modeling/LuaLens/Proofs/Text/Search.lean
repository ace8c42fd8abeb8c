import LuaLens.Proofs.Text.Cut

/-!
Where a pattern first occurs in a text, and which piece of the text it stands in. Nothing is found
earlier, a part of the text in which no occurrence begins is passed over, and a pattern on one line
never begins on one line and ends on another.
-/

namespace LuaLens.Text

variable {pattern s t before after : List Char} {c : Char}

/-! ### First occurrences -/

theorem cut_eq_none_iff : cut pattern s = none ↔ ¬ pattern <:+: s := by
  induction s with
  | nil =>
    rw [cut, List.infix_nil]
    split <;> simp_all
  | cons c s ih =>
    rw [cut, List.infix_cons_iff, not_or, ← ih]
    cases hbegins : pattern.isPrefixOf? (c :: s) with
    | some rest =>
      have happend := List.isPrefixOf?_eq_some_iff_append_eq.1 hbegins
      simp [← happend]
    | none =>
      have hnot : ¬ pattern <+: c :: s := by
        rintro ⟨rest, hrest⟩
        rw [List.isPrefixOf?_eq_some_iff_append_eq.2 hrest] at hbegins
        cases hbegins
      simp [hnot]

/-- Nothing is found before the place where a text is cut. -/
theorem length_le_of_cut {b a : List Char} (h : cut pattern s = some (before, after))
    (hs : s = b ++ pattern ++ a) : before.length ≤ b.length := by
  induction s generalizing before b with
  | nil =>
    rw [cut] at h
    split_ifs at h
    obtain ⟨rfl, -⟩ : [] = before ∧ [] = after := by simpa using h
    exact Nat.zero_le _
  | cons c s ih =>
    rw [cut] at h
    cases hbegins : pattern.isPrefixOf? (c :: s) with
    | some rest =>
      rw [hbegins] at h
      obtain ⟨rfl, -⟩ : [] = before ∧ rest = after := by simpa using h
      exact Nat.zero_le _
    | none =>
      rw [hbegins] at h
      obtain ⟨⟨front, rest⟩, hcut, hfront⟩ := Option.map_eq_some_iff.1 h
      obtain ⟨rfl, rfl⟩ : c :: front = before ∧ rest = after := by simpa using hfront
      cases b with
      | nil =>
        rw [List.nil_append] at hs
        rw [List.isPrefixOf?_eq_some_iff_append_eq.2 hs.symm] at hbegins
        cases hbegins
      | cons d b =>
        have hrest : s = b ++ pattern ++ a := by simpa using (List.cons.inj hs).2
        exact Nat.succ_le_succ (ih hcut hrest)

/-- A beginning in which no occurrence begins is passed over. -/
theorem cut_append_left (h : ∀ u, u <:+ s → u ≠ [] → ¬ pattern <+: u ++ t) :
    cut pattern (s ++ t) = (cut pattern t).map fun found => (s ++ found.1, found.2) := by
  induction s with
  | nil => simp
  | cons c s ih =>
    have hno : pattern.isPrefixOf? (c :: (s ++ t)) = none := by
      rw [Option.eq_none_iff_forall_ne_some]
      intro rest hrest
      exact h (c :: s) List.suffix_rfl (by simp)
        ⟨rest, List.isPrefixOf?_eq_some_iff_append_eq.1 hrest⟩
    rw [List.cons_append, cut, hno, ih fun u hu => h u (hu.trans (List.suffix_cons c s))]
    simp only [Option.map_map]
    rfl

/-- Lines above that do not hold a pattern of one line are passed over. -/
theorem cut_append_feed (hp : c ∉ pattern) (hs : s.getLast? = some c) (hno : ¬ pattern <:+: s)
    (t : List Char) :
    cut pattern (s ++ t) = (cut pattern t).map fun found => (s ++ found.1, found.2) := by
  apply cut_append_left
  intro u hu hne h
  obtain hbegins | hbegins := List.prefix_or_prefix_of_prefix h (List.prefix_append u t)
  · exact hno (hbegins.isInfix.trans hu.isInfix)
  -- An occurrence that goes on after the last line above has the end of that line in it.
  · obtain ⟨front, rfl⟩ := hu
    rw [List.getLast?_append_of_ne_nil _ hne] at hs
    exact hp (hbegins.subset (List.mem_of_getLast? hs))

/-! ### Pieces -/

theorem bne_of_not_mem (h : c ∉ s) : ∀ d ∈ s, (d != c) = true := by
  intro d hd
  rw [bne_iff_ne]
  rintro rfl
  exact h hd

theorem takeEndWhile_of_all {p : Char → Bool} (h : ∀ d ∈ s, p d = true) : takeEndWhile p s = s := by
  unfold takeEndWhile
  rw [List.takeWhile_eq_self_iff.2 fun d hd => h d (List.mem_reverse.1 hd), List.reverse_reverse]

theorem takeEndWhile_append_cons {p : Char → Bool} (hc : p c = false) (s t : List Char) :
    takeEndWhile p (s ++ c :: t) = takeEndWhile p t := by
  have hstop : (c :: s.reverse).takeWhile p = [] := List.takeWhile_cons_of_neg (by simp [hc])
  unfold takeEndWhile
  rw [List.reverse_append, List.reverse_cons, List.append_assoc, List.singleton_append,
    List.takeWhile_append, hstop, List.append_nil]
  split_ifs with hall
  · rw [(List.takeWhile_prefix p (l := t.reverse)).eq_of_length hall]
  · rfl

/-- A run that cannot be made longer is the longest. -/
theorem takeEndWhile_append {p : Char → Bool} {w : List Char} (hw : ∀ c ∈ w, p c = true)
    (hs : ∀ c, s.getLast? = some c → p c = false) : takeEndWhile p (s ++ w) = w := by
  have hstop : s.reverse.takeWhile p = [] := by
    cases hr : s.reverse with
    | nil => rfl
    | cons c r =>
      have hlast : s.getLast? = some c := by rw [← List.head?_reverse, hr, List.head?_cons]
      exact List.takeWhile_cons_of_neg (by simp [hs c hlast])
  rw [takeEndWhile, List.reverse_append,
    List.takeWhile_append_of_pos fun c hc => hw c (List.mem_reverse.1 hc), hstop, List.append_nil,
    List.reverse_reverse]

theorem dropEndWhile_append_takeEndWhile (p : Char → Bool) (s : List Char) :
    dropEndWhile p s ++ takeEndWhile p s = s := by
  rw [dropEndWhile, takeEndWhile, ← List.reverse_append, List.takeWhile_append_dropWhile,
    List.reverse_reverse]

/-- What is left of a text behind the front of its first part. -/
theorem drop_sub_takeEndWhile (p : Char → Bool) (s t : List Char) :
    (s ++ t).drop (s.length - (takeEndWhile p s).length) = takeEndWhile p s ++ t := by
  have happend := dropEndWhile_append_takeEndWhile p s
  have hlength : s.length - (takeEndWhile p s).length = (dropEndWhile p s).length := by
    rw [← congrArg List.length happend, List.length_append, Nat.add_sub_cancel_right]
  rw [hlength]
  nth_rewrite 2 [← happend]
  rw [List.append_assoc, List.drop_left]

theorem getElem?_splitAll_zero (c : Char) (s : List Char) :
    (splitAll c s)[0]? = some (s.takeWhile (· != c)) := by
  obtain ⟨hc, hs⟩ | ⟨p, t, hp, rfl, hs⟩ := splitAll_cases c s
  · rw [hs, List.takeWhile_eq_self_iff.2 (bne_of_not_mem hc)]
    rfl
  · rw [hs, List.takeWhile_append_of_pos (bne_of_not_mem hp), List.takeWhile_cons_of_neg (by simp),
      List.append_nil]
    rfl

/-- The piece around a place reaches from the last separator before the place to the next one. -/
theorem getElem?_splitAll (c : Char) (before rest : List Char) :
    (splitAll c (before ++ rest))[before.count c]? =
      some (takeEndWhile (· != c) before ++ rest.takeWhile (· != c)) := by
  induction hn : before.count c generalizing before with
  | zero =>
    have hall := bne_of_not_mem (List.count_eq_zero.1 hn)
    rw [getElem?_splitAll_zero, takeEndWhile_of_all hall, List.takeWhile_append_of_pos hall]
  | succ n ih =>
    obtain ⟨hc, -⟩ | ⟨p, t, hp, rfl, -⟩ := splitAll_cases c before
    · rw [List.count_eq_zero.2 hc] at hn
      cases hn
    · rw [List.count_append, List.count_cons_self, List.count_eq_zero.2 hp] at hn
      rw [List.append_assoc, List.cons_append, splitAll_append hp, List.getElem?_cons_succ,
        ih t (by omega), takeEndWhile_append_cons (by simp)]

/-- The piece that an occurrence stands in, when there is no separator in the pattern. -/
theorem getElem?_splitAll_occurrence (hp : c ∉ pattern) (before after : List Char) :
    (splitAll c (before ++ pattern ++ after))[before.count c]? =
      some (takeEndWhile (· != c) before ++ pattern ++ after.takeWhile (· != c)) := by
  rw [List.append_assoc, getElem?_splitAll, List.takeWhile_append_of_pos (bne_of_not_mem hp),
    List.append_assoc]

theorem exists_of_getElem?_splitAll {n : Nat} {piece : List Char}
    (h : (splitAll c s)[n]? = some piece) : ∃ b a, s = b ++ piece ++ a ∧ b.count c = n := by
  induction n generalizing s with
  | zero =>
    obtain ⟨-, hs⟩ | ⟨p, t, hp, rfl, hs⟩ := splitAll_cases c s
    · rw [hs] at h
      exact ⟨[], [], by simpa using h, rfl⟩
    · rw [hs] at h
      obtain rfl : p = piece := by simpa using h
      exact ⟨[], c :: t, rfl, rfl⟩
  | succ n ih =>
    obtain ⟨-, hs⟩ | ⟨p, t, hp, rfl, hs⟩ := splitAll_cases c s
    · rw [hs] at h
      cases h
    · rw [hs, List.getElem?_cons_succ] at h
      obtain ⟨b, a, rfl, hb⟩ := ih h
      refine ⟨p ++ c :: b, a, by simp, ?_⟩
      rw [List.count_append, List.count_cons_self, hb, List.count_eq_zero.2 hp]
      omega

/-- A carriage return at the end of a line is of no matter to what does not end in one. -/
theorem infix_dropReturn_iff (hne : pattern ≠ []) (hlast : pattern.getLast? ≠ some '\r') :
    pattern <:+: dropReturn s ↔ pattern <:+: s := by
  constructor
  · intro h
    exact h.trans (dropReturn_isPrefix s).isInfix
  · rintro ⟨x, y, rfl⟩
    by_cases hy : y = []
    · rw [hy, List.append_nil, dropReturn_of_getLast?_ne]
      · exact (List.suffix_append x pattern).isInfix
      · rwa [List.getLast?_append_of_ne_nil _ hne]
    · rw [dropReturn_append hy]
      exact List.infix_append x pattern _

end LuaLens.Text
