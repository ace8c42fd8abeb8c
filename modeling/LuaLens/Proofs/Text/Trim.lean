import LuaLens.Proofs.Text.Cut
import LuaLens.Proofs.Text.Units

/-!
Trimmed texts: what is taken off, and where the rest stands in the text.
-/

namespace LuaLens.Text

variable {s t lead pattern rest : List Char} {c : Char}

/-! ### Ends -/

theorem exists_trimEnd (s : List Char) : ∃ b, (∀ c ∈ b, isBlank c = true) ∧ s = trimEnd s ++ b := by
  refine ⟨(s.reverse.takeWhile isBlank).reverse, fun c hc => ?_, ?_⟩
  · exact List.mem_takeWhile_imp (List.mem_reverse.1 hc)
  · rw [trimEnd, dropEndWhile, ← List.reverse_append, List.takeWhile_append_dropWhile,
      List.reverse_reverse]

theorem trimEnd_eq_nil_iff : trimEnd s = [] ↔ ∀ c ∈ s, isBlank c = true := by
  rw [trimEnd, dropEndWhile, List.reverse_eq_nil_iff, List.dropWhile_eq_nil_iff]
  simp only [List.mem_reverse]

theorem trimEnd_append (s : List Char) (h : trimEnd t ≠ []) : trimEnd (s ++ t) = s ++ trimEnd t := by
  have hdrop : t.reverse.dropWhile isBlank ≠ [] := by
    intro hnil
    apply h
    rw [trimEnd, dropEndWhile, hnil, List.reverse_nil]
  rw [trimEnd, trimEnd, dropEndWhile, dropEndWhile, List.reverse_append, List.dropWhile_append,
    if_neg (by simpa using hdrop), List.reverse_append, List.reverse_reverse]

theorem trimEnd_concat (s : List Char) (hc : isBlank c = false) : trimEnd (s ++ [c]) = s ++ [c] := by
  have hlast : trimEnd [c] = [c] := by simp [trimEnd, dropEndWhile, hc]
  rw [trimEnd_append s (by simp [hlast]), hlast]

/-! ### Both ends -/

theorem isBlank_of_head?_trim (h : (trim s).head? = some c) : isBlank c = false := by
  obtain ⟨b, -, hb⟩ := exists_trimEnd (trimStart s)
  have hhead : (trimStart s).head? = some c := by
    rw [hb, List.head?_append_of_ne_nil]
    · exact h
    · intro hnil
      rw [show trim s = [] from hnil] at h
      cases h
  exact of_head?_dropWhile hhead

theorem trim_eq_nil_iff : trim s = [] ↔ ∀ c ∈ s, isBlank c = true := by
  rw [trim, trimEnd_eq_nil_iff]
  constructor
  · intro h c hc
    rw [← List.takeWhile_append_dropWhile (p := isBlank) (l := s), List.mem_append] at hc
    exact hc.elim List.mem_takeWhile_imp (h c)
  · intro h c hc
    exact h c ((List.dropWhile_sublist isBlank).mem hc)

theorem trimEnd_eq_append_trim (h : trim s ≠ []) : trimEnd s = s.takeWhile isBlank ++ trim s := by
  have hs := trimEnd_append (s.takeWhile isBlank) h
  rwa [trimStart, List.takeWhile_append_dropWhile] at hs

/-- What cannot begin before the pattern does is cut off in front of it. -/
theorem cut_append (hp : pattern ≠ []) (h : ∀ c ∈ lead, pattern.head? ≠ some c) (rest : List Char) :
    cut pattern (lead ++ (pattern ++ rest)) = some (lead, rest) := by
  induction lead with
  | nil =>
    obtain ⟨c, p, rfl⟩ := List.exists_cons_of_ne_nil hp
    have hprefix : (c :: p).isPrefixOf? (c :: p ++ rest) = some rest := by
      rw [List.isPrefixOf?_eq_some_iff_append_eq]
    rw [List.nil_append, List.cons_append, cut, ← List.cons_append, hprefix]
  | cons a lead ih =>
    have hno : pattern.isPrefixOf? (a :: (lead ++ (pattern ++ rest))) = none := by
      rw [Option.eq_none_iff_forall_ne_some]
      intro r hr
      rw [List.isPrefixOf?_eq_some_iff_append_eq] at hr
      apply h a List.mem_cons_self
      rw [← List.head?_append_of_ne_nil pattern hp, hr, List.head?_cons]
    rw [List.cons_append, cut, hno, ih fun c hc => h c (List.mem_cons_of_mem _ hc)]
    rfl

/-- A line is found by its trimmed text right after its indentation. -/
theorem cut_trim (h : trim s ≠ []) : ∃ b, cut (trim s) s = some (s.takeWhile isBlank, b) := by
  obtain ⟨b, -, hb⟩ := exists_trimEnd s
  refine ⟨b, ?_⟩
  rw [trimEnd_eq_append_trim h, List.append_assoc] at hb
  have hblank : ∀ c ∈ s.takeWhile isBlank, (trim s).head? ≠ some c := by
    intro c hc hhead
    have hblank : isBlank c = true := List.mem_takeWhile_imp hc
    rw [isBlank_of_head?_trim hhead] at hblank
    cases hblank
  have hcut := cut_append h hblank b
  rwa [← hb] at hcut

/-! ### First lines -/

/-- What comes after the end of the first line is of no matter to it. -/
theorem headD_lines_feed (s t : List Char) :
    (lines (s ++ '\n' :: t)).headD [] = (lines (s ++ ['\n'])).headD [] := by
  have hne : lines (s ++ ['\n']) ≠ [] := by
    intro hnil
    have hlength := length_lines_feed s
    rw [hnil, List.length_nil] at hlength
    omega
  obtain ⟨l, ls, hl⟩ := List.exists_cons_of_ne_nil hne
  rw [lines_append_feed, hl, List.cons_append, List.headD_cons, List.headD_cons]

/-- Whether the first line of a text is the same when it is trimmed as when lines come after it. -/
def Settled (s : List Char) : Prop := (lines (s ++ ['\n'])).headD [] = (lines (trimEnd s)).headD []

theorem headD_lines_trimEnd (h : Settled s) (ls : List (List Char)) :
    (lines (trimEnd (s ++ ls.flatMap ('\n' :: ·)))).headD [] = (lines (trimEnd s)).headD [] := by
  by_cases hblank : trimEnd (ls.flatMap ('\n' :: ·)) = []
  · have hend : trimEnd (s ++ ls.flatMap ('\n' :: ·)) = trimEnd s :=
      dropEndWhile_append_of_all (trimEnd_eq_nil_iff.1 hblank)
    rw [hend]
  · cases ls with
    | nil => exact absurd rfl hblank
    | cons l ls =>
      have hrest : trimEnd (l ++ ls.flatMap ('\n' :: ·)) ≠ [] := by
        intro hnil
        apply hblank
        rw [trimEnd_eq_nil_iff] at hnil ⊢
        intro c hc
        obtain rfl | hc := List.mem_cons.1 hc
        · decide
        · exact hnil c hc
      have hfeed : trimEnd ((l :: ls).flatMap ('\n' :: ·)) =
          '\n' :: trimEnd (l ++ ls.flatMap ('\n' :: ·)) := trimEnd_append ['\n'] hrest
      rw [trimEnd_append s hblank, hfeed, headD_lines_feed]
      exact h

theorem settled_nil : Settled [] := rfl

theorem settled_concat (s : List Char) (hc : isBlank c = false) : Settled (s ++ [c]) := by
  have hreturn : (s ++ [c]).getLast? ≠ some '\r' := by
    rw [List.getLast?_concat]
    rintro ⟨rfl⟩
    revert hc
    decide
  rw [Settled, trimEnd_concat s hc]
  obtain ⟨hfeed, -⟩ | ⟨q, t, hq, ht, -⟩ := splitAll_cases '\n' (s ++ [c])
  · rw [lines_append hfeed, lines_of_not_mem hfeed, dropReturn_of_getLast?_ne hreturn]
    simp
  · rw [ht, List.append_assoc, List.cons_append, lines_append hq, lines_append hq, List.headD_cons,
      List.headD_cons]

/-- A line that does not end in white space. -/
theorem headD_lines_concat (hc : isBlank c = false) (h : '\n' ∉ s ++ [c]) :
    (lines (trimEnd (s ++ [c]))).headD [] = s ++ [c] := by
  rw [trimEnd_concat s hc, lines_of_not_mem h, if_neg (by simp), List.headD_cons]

end LuaLens.Text
