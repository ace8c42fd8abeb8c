import LuaLens.Text.Basic
import Mathlib.Data.List.Infix
import Mathlib.Data.List.TakeWhile

/-!
Texts cut at separators and trimmed: what the pieces of a text that was put together are.
-/

namespace LuaLens.Text

/-! ### Trimming -/

theorem dropWhile_append_of_all {p : Char → Bool} {a s : List Char} (ha : ∀ c ∈ a, p c = true) :
    (a ++ s).dropWhile p = s.dropWhile p := by
  induction a with
  | nil => rfl
  | cons c a ih =>
    rw [List.cons_append, List.dropWhile_cons_of_pos (ha c (by simp)),
      ih fun d hd => ha d (by simp [hd])]

theorem dropEndWhile_append_of_all {p : Char → Bool} {s b : List Char} (hb : ∀ c ∈ b, p c = true) :
    dropEndWhile p (s ++ b) = dropEndWhile p s := by
  rw [dropEndWhile, List.reverse_append, dropWhile_append_of_all (by simpa using hb), dropEndWhile]

theorem dropWhile_of_none {p : Char → Bool} {s : List Char} (hs : ∀ c ∈ s, p c = false) :
    s.dropWhile p = s := by
  cases s with
  | nil => rfl
  | cons c s => rw [List.dropWhile_cons_of_neg (by simp [hs c])]

theorem of_head?_dropWhile {α : Type} {p : α → Bool} {s : List α} {c : α}
    (h : (s.dropWhile p).head? = some c) : p c = false := by
  have hhead := List.head?_dropWhile_not p s
  rw [h] at hhead
  simpa using hhead

theorem of_getLast?_dropEndWhile {p : Char → Bool} {s : List Char} {c : Char}
    (h : (dropEndWhile p s).getLast? = some c) : p c = false := by
  rw [dropEndWhile, List.getLast?_reverse] at h
  exact of_head?_dropWhile h

/-- Blanks around a text without blanks are trimmed off. -/
theorem trim_append {a s b : List Char} (ha : ∀ c ∈ a, isBlank c = true)
    (hb : ∀ c ∈ b, isBlank c = true) (hs : ∀ c ∈ s, isBlank c = false) :
    trim (a ++ s ++ b) = s := by
  rw [trim, trimStart, List.append_assoc, dropWhile_append_of_all ha]
  cases s with
  | nil =>
    rw [List.nil_append, ← List.append_nil b, dropWhile_append_of_all hb]
    rfl
  | cons c s =>
    have hr : ∀ d ∈ (c :: s).reverse, isBlank d = false := fun d hd => hs d (List.mem_reverse.1 hd)
    rw [List.cons_append, List.dropWhile_cons_of_neg (by simp [hs c]), ← List.cons_append, trimEnd,
      dropEndWhile_append_of_all hb, dropEndWhile, dropWhile_of_none hr, List.reverse_reverse]

theorem mem_of_mem_trimEnd {c : Char} {s : List Char} (h : c ∈ trimEnd s) : c ∈ s := by
  rw [trimEnd, dropEndWhile, List.mem_reverse] at h
  exact List.mem_reverse.1 ((List.dropWhile_sublist isBlank).mem h)

theorem mem_of_mem_trim {c : Char} {s : List Char} (h : c ∈ trim s) : c ∈ s :=
  (List.dropWhile_sublist isBlank).mem (mem_of_mem_trimEnd h)

/-- A trimmed text does not end in white space. -/
theorem isBlank_of_getLast?_trimEnd {c : Char} {s : List Char} (h : (trimEnd s).getLast? = some c) :
    isBlank c = false :=
  of_getLast?_dropEndWhile h

/-! ### Cutting once -/

theorem splitOnce_append {c : Char} {before : List Char} (h : c ∉ before) (after : List Char) :
    splitOnce c (before ++ c :: after) = some (before, after) := by
  have hall : ∀ d ∈ before, (d != c) = true := by
    intro d hd
    rw [bne_iff_ne]
    rintro rfl
    exact h hd
  have htake : (before ++ c :: after).takeWhile (· != c) = before := by
    rw [List.takeWhile_append_of_pos hall, List.takeWhile_cons_of_neg (by simp), List.append_nil]
  have hdrop : (before ++ c :: after).dropWhile (· != c) = c :: after := by
    rw [dropWhile_append_of_all hall, List.dropWhile_cons_of_neg (by simp)]
  rw [splitOnce, List.span_eq_takeWhile_dropWhile, htake, hdrop]

theorem splitOnce_eq_some {c : Char} {s before after : List Char}
    (h : splitOnce c s = some (before, after)) : c ∉ before ∧ s = before ++ c :: after := by
  rw [splitOnce, List.span_eq_takeWhile_dropWhile] at h
  have happ := List.takeWhile_append_dropWhile (p := (· != c)) (l := s)
  rcases hd : s.dropWhile (· != c) with _ | ⟨d, rest⟩
  · simp [hd] at h
  · have hdc : d = c := by
      have hhead : (s.dropWhile (· != c)).head? = some d := by rw [hd, List.head?_cons]
      simpa using of_head?_dropWhile hhead
    simp only [hd, Option.some.injEq, Prod.mk.injEq] at h
    obtain ⟨rfl, rfl⟩ := h
    refine ⟨fun hc => ?_, ?_⟩
    · simpa using List.mem_takeWhile_imp hc
    · rw [hdc] at hd
      rw [← hd, happ]

theorem splitOnce_of_not_mem {c : Char} {s : List Char} (h : c ∉ s) : splitOnce c s = none := by
  cases hs : splitOnce c s with
  | none => rfl
  | some r =>
    obtain ⟨-, rfl⟩ := splitOnce_eq_some hs
    exact absurd (by simp) h

theorem cut_eq_some {pattern s before after : List Char} (h : cut pattern s = some (before, after)) :
    s = before ++ pattern ++ after := by
  induction s generalizing before with
  | nil =>
    rw [cut] at h
    split at h
    · simp_all
    · cases h
  | cons c s ih =>
    rw [cut] at h
    split at h
    · rename_i rest hrest
      rw [List.isPrefixOf?_eq_some_iff_append_eq] at hrest
      simp only [Option.some.injEq, Prod.mk.injEq] at h
      obtain ⟨rfl, rfl⟩ := h
      rw [← hrest, List.nil_append]
    · rw [Option.map_eq_some_iff] at h
      obtain ⟨⟨b, a⟩, hcut, hba⟩ := h
      simp only [Prod.mk.injEq] at hba
      obtain ⟨rfl, rfl⟩ := hba
      rw [ih hcut, List.cons_append, List.cons_append]

/-! ### Pieces -/

theorem splitAll_of_not_mem {c : Char} {s : List Char} (h : c ∉ s) : splitAll c s = [s] := by
  refine List.splitOnP_eq_singleton fun d hd => ?_
  rw [beq_eq_false_iff_ne]
  rintro rfl
  exact h hd

theorem splitAll_append_cons (c : Char) (s t : List Char) :
    splitAll c (s ++ c :: t) = splitAll c s ++ splitAll c t :=
  List.splitOnP_append_cons s t (by simp)

theorem splitAll_append {c : Char} {s : List Char} (h : c ∉ s) (t : List Char) :
    splitAll c (s ++ c :: t) = s :: splitAll c t := by
  rw [splitAll_append_cons, splitAll_of_not_mem h, List.singleton_append]

theorem splitAll_ne_nil (c : Char) (s : List Char) : splitAll c s ≠ [] := List.splitOnP_ne_nil _ s

/-- A text is its first piece, or its first piece and the rest after a separator. -/
theorem splitAll_cases (c : Char) (s : List Char) :
    c ∉ s ∧ splitAll c s = [s] ∨
      ∃ p t, c ∉ p ∧ s = p ++ c :: t ∧ splitAll c s = p :: splitAll c t := by
  by_cases h : c ∈ s
  · obtain ⟨p, t, rfl, hp⟩ := List.eq_append_cons_of_mem h
    exact .inr ⟨p, t, hp, rfl, splitAll_append hp t⟩
  · exact .inl ⟨h, splitAll_of_not_mem h⟩

/-- Induction over the pieces of a text: it is one piece, or a piece, the separator and a text. -/
@[elab_as_elim]
theorem pieces_induct (c : Char) {motive : List Char → Prop} (last : ∀ s, c ∉ s → motive s)
    (piece : ∀ p t, c ∉ p → motive t → motive (p ++ c :: t)) (s : List Char) : motive s := by
  induction hn : s.length using Nat.strong_induction_on generalizing s with
  | _ n ih =>
    obtain ⟨hs, -⟩ | ⟨p, t, hp, rfl, -⟩ := splitAll_cases c s
    · exact last s hs
    · have hlt : t.length < n := by
        rw [← hn, List.length_append, List.length_cons]
        omega
      exact piece p t hp (ih t.length hlt t rfl)

theorem mem_of_mem_splitOnP {p : Char → Bool} {s piece : List Char} (h : piece ∈ s.splitOnP p) :
    ∀ c ∈ piece, p c = false ∧ c ∈ s := by
  induction s generalizing piece with
  | nil => simp_all
  | cons d s ih =>
    have hlater {q : List Char} (hq : q ∈ s.splitOnP p) (c : Char) (hc : c ∈ q) :
        p c = false ∧ c ∈ d :: s := (ih hq c hc).imp_right (List.mem_cons_of_mem _)
    rw [List.splitOnP_cons_eq_if_modifyHead] at h
    intro c hc
    split at h
    · obtain rfl | h := List.mem_cons.1 h
      · cases hc
      · exact hlater h c hc
    · rename_i hd
      obtain ⟨first, rest, hs⟩ := List.exists_cons_of_ne_nil (List.splitOnP_ne_nil p s)
      rw [hs, List.modifyHead_cons, List.mem_cons] at h
      obtain rfl | h := h
      · obtain rfl | hc := List.mem_cons.1 hc
        · exact ⟨Bool.eq_false_iff.2 hd, List.mem_cons_self⟩
        · exact hlater (by simp [hs]) c hc
      · exact hlater (by simp [hs, h]) c hc

theorem mem_splitAll {c : Char} {s p : List Char} (hp : p ∈ splitAll c s) :
    c ∉ p ∧ ∀ d ∈ p, d ∈ s := by
  have h := mem_of_mem_splitOnP hp
  refine ⟨fun hc => ?_, fun d hd => (h d hd).2⟩
  simpa using (h c hc).1

theorem mem_of_mem_join {sep : List Char} {ps : List (List Char)} {c : Char} (h : c ∈ join sep ps) :
    c ∈ sep ∨ ∃ p ∈ ps, c ∈ p := by
  fun_induction join sep ps with
  | case1 => cases h
  | case2 p => exact .inr ⟨p, by simp, h⟩
  | case3 p q ps ih =>
    rw [List.mem_append, List.mem_append] at h
    obtain (h | h) | h := h
    · exact .inr ⟨p, by simp, h⟩
    · exact .inl h
    · exact (ih h).imp_right fun ⟨r, hr, hc⟩ => ⟨r, List.mem_cons_of_mem _ hr, hc⟩

/-! ### Lines -/

theorem dropReturn_isPrefix (s : List Char) : dropReturn s <+: s := by
  rw [dropReturn]
  split
  · rename_i rest hr
    have hs : s = rest.reverse ++ ['\r'] := by rw [← List.reverse_reverse s, hr, List.reverse_cons]
    rw [hs]
    exact List.prefix_append _ _
  · exact List.prefix_rfl

theorem dropReturn_of_getLast?_ne {s : List Char} (h : s.getLast? ≠ some '\r') :
    dropReturn s = s := by
  rw [dropReturn]
  split
  · rename_i rest hr
    rw [← List.head?_reverse, hr] at h
    exact absurd rfl h
  · rfl

theorem dropReturn_append {s t : List Char} (ht : t ≠ []) :
    dropReturn (s ++ t) = s ++ dropReturn t := by
  obtain ⟨init, c, rfl⟩ := List.eq_nil_or_concat t |>.resolve_left ht
  by_cases hc : c = '\r'
  · simp [dropReturn, hc]
  · have hlast (u : List Char) : (u ++ [c]).getLast? ≠ some '\r' := by simpa using hc
    rw [List.concat_eq_append, ← List.append_assoc, dropReturn_of_getLast?_ne (hlast _),
      dropReturn_of_getLast?_ne (hlast _), List.append_assoc]

theorem exists_piece_of_mem_lines {s l : List Char} (hl : l ∈ lines s) :
    ∃ piece ∈ splitAll '\n' s, l <+: piece := by
  rw [lines, List.mem_append] at hl
  obtain hl | hl := hl
  · obtain ⟨p, hp, rfl⟩ := List.mem_map.1 hl
    exact ⟨p, List.dropLast_subset _ hp, dropReturn_isPrefix p⟩
  · split at hl
    · cases hl
    · rw [List.mem_singleton, List.getLastD_eq_getLast?] at hl
      have hlast := List.getLast?_eq_some_getLast (splitAll_ne_nil '\n' s)
      rw [hlast, Option.getD_some] at hl
      exact ⟨l, hl ▸ List.getLast_mem _, List.prefix_rfl⟩

theorem mem_lines {s l : List Char} (hl : l ∈ lines s) : '\n' ∉ l ∧ ∀ c ∈ l, c ∈ s := by
  obtain ⟨piece, hpiece, hpre⟩ := exists_piece_of_mem_lines hl
  obtain ⟨hn, hs⟩ := mem_splitAll hpiece
  exact ⟨fun h => hn (hpre.subset h), fun c hc => hs c (hpre.subset hc)⟩

theorem lines_of_not_mem {s : List Char} (h : '\n' ∉ s) :
    lines s = if s.isEmpty then [] else [s] := by
  rw [lines, splitAll_of_not_mem h]
  rfl

/-- A line that ends, and the lines after it. -/
theorem lines_append {s : List Char} (h : '\n' ∉ s) (t : List Char) :
    lines (s ++ '\n' :: t) = dropReturn s :: lines t := by
  obtain ⟨p, ps, hp⟩ := List.exists_cons_of_ne_nil (splitAll_ne_nil '\n' t)
  rw [lines, lines, splitAll_append h, hp]
  rfl

/-- The lines of two texts of which the first is ended. -/
theorem lines_append_feed (s t : List Char) :
    lines (s ++ '\n' :: t) = lines (s ++ ['\n']) ++ lines t := by
  induction s using pieces_induct '\n' with
  | last s hs =>
    rw [lines_append hs, lines_append hs]
    rfl
  | piece q u hq ih =>
    rw [List.append_assoc, List.append_assoc, List.cons_append, List.cons_append, lines_append hq,
      lines_append hq, ih, List.cons_append]

theorem length_lines_feed (s : List Char) : (lines (s ++ ['\n'])).length = s.count '\n' + 1 := by
  induction s using pieces_induct '\n' with
  | last s hs =>
    rw [lines_append hs, List.count_eq_zero.2 hs]
    rfl
  | piece q u hq ih =>
    rw [List.append_assoc, List.cons_append, lines_append hq, List.length_cons, ih, List.count_append,
      List.count_cons_self, List.count_eq_zero.2 hq]
    omega

/-- Lines that are put together are read back, up to carriage returns at their ends. -/
theorem lines_flatMap {ls : List (List Char)} (h : ∀ l ∈ ls, '\n' ∉ l) :
    lines (ls.flatMap (· ++ ['\n'])) = ls.map dropReturn := by
  induction ls with
  | nil => rfl
  | cons l ls ih =>
    rw [List.flatMap_cons, List.append_assoc, List.singleton_append, lines_append (h l (by simp)),
      ih fun m hm => h m (by simp [hm]), List.map_cons]

/-! ### Beginnings -/

section

variable {p s : List Char} {c : Char}

theorem prefix_trimEnd (hc : isBlank c = false) (h : p ++ [c] <+: s) : p ++ [c] <+: trimEnd s := by
  obtain ⟨t, rfl⟩ := h
  rw [trimEnd, dropEndWhile, List.reverse_append, List.dropWhile_append, List.reverse_concat,
    List.dropWhile_cons_of_neg (by simp [hc])]
  split
  · rw [List.reverse_cons, List.reverse_reverse]
  · rw [List.reverse_append, List.reverse_cons, List.reverse_reverse]
    exact List.prefix_append _ _

theorem prefix_dropReturn (hc : c ≠ '\r') (h : p ++ [c] <+: s) : p ++ [c] <+: dropReturn s := by
  obtain ⟨t, rfl⟩ := h
  by_cases ht : t = []
  · rw [ht, List.append_nil, dropReturn_of_getLast?_ne (by simpa using hc)]
  · rw [dropReturn_append ht]
    exact List.prefix_append _ _

/-- Texts that begin alike are cut alike. -/
theorem prefix_cut {a b t : List Char} (ha : c ∉ a) (hb : c ∉ b) (h : a ++ c :: s <+: b ++ c :: t) :
    a = b ∧ s <+: t := by
  induction a generalizing b with
  | nil =>
    cases b with
    | nil => exact ⟨rfl, (List.cons_prefix_cons.1 h).2⟩
    | cons d b =>
      obtain rfl := (List.cons_prefix_cons.1 h).1
      exact absurd List.mem_cons_self hb
  | cons e a ih =>
    cases b with
    | nil =>
      obtain rfl := (List.cons_prefix_cons.1 h).1
      exact absurd List.mem_cons_self ha
    | cons d b =>
      obtain ⟨rfl, hrest⟩ := List.cons_prefix_cons.1 h
      obtain ⟨rfl, hst⟩ := ih (fun hc => ha (List.mem_cons_of_mem _ hc))
        (fun hc => hb (List.mem_cons_of_mem _ hc)) hrest
      exact ⟨rfl, hst⟩

/-- The first line begins as the text does. -/
theorem prefix_headD_lines (hp : '\n' ∉ p ++ [c]) (hc : c ≠ '\r') (h : p ++ [c] <+: s) :
    p ++ [c] <+: (lines s).headD [] := by
  obtain ⟨hs, -⟩ | ⟨q, t, hq, rfl, -⟩ := splitAll_cases '\n' s
  · have hne : s ≠ [] := by
      rintro rfl
      simp at h
    rw [lines_of_not_mem hs, if_neg (by simpa using hne)]
    exact h
  · rw [lines_append hq]
    refine prefix_dropReturn hc ?_
    obtain hpre | ⟨u, hu⟩ := List.prefix_or_prefix_of_prefix h (List.prefix_append q ('\n' :: t))
    · exact hpre
    -- The line feed would be in the beginning if that went on after the line.
    · rw [← hu] at h hp
      rw [List.prefix_append_right_inj] at h
      cases u with
      | nil =>
        rw [← hu, List.append_nil]
      | cons d u =>
        obtain ⟨rfl, -⟩ := List.cons_prefix_cons.1 h
        simp at hp

end

end LuaLens.Text
