import LuaLens.Host.Buffer
import LuaLens.Query.Context
import LuaLens.Proofs.Text.Cut
import LuaLens.Proofs.Text.Units

/-!
Where the caret is, for the buffer and for a reader of its text. The buffer breaks lines at more
characters than the reader, who knows the line feed and the carriage return before it. A place is
counted in the lines of the buffer and looked up in the lines of the reader, so the two agree on every
place of a text exactly when only line ends follow each break that the reader does not know.
-/

namespace LuaLens

open Text

/-! ### First lines -/

/-- A break of the buffer that ends no line for a reader of line feeds. -/
structure IsStray (c : Char) (after : List Char) : Prop where
  isBreak : isLineBreak c = true
  notFeed : c ≠ '\n'
  notReturnFeed : ¬(c = '\r' ∧ after.head? = some '\n')

/-- What ends a line on both sides. -/
def IsEnding (e : List Char) : Prop := e = ['\n'] ∨ e = ['\r', '\n']

def Unbroken (s : List Char) : Prop := ∀ c ∈ s, isLineBreak c = false

/-- A text, cut at each break of the buffer. -/
inductive Lined : List Char → Prop
  | last {p : List Char} : Unbroken p → Lined p
  | ended {p e t : List Char} : Unbroken p → IsEnding e → Lined t → Lined (p ++ (e ++ t))
  | stray {p t : List Char} {c : Char} : Unbroken p → IsStray c t → Lined t → Lined (p ++ c :: t)

theorem Unbroken.cons {c : Char} {p : List Char} (hc : isLineBreak c = false) (hp : Unbroken p) :
    Unbroken (c :: p) := by
  intro d hd
  obtain rfl | hd := List.mem_cons.1 hd
  · exact hc
  · exact hp d hd

theorem Lined.cons {c : Char} {s : List Char} (hc : isLineBreak c = false) (h : Lined s) :
    Lined (c :: s) := by
  cases h with
  | last hp => exact .last (hp.cons hc)
  | ended hp he ht => exact .ended (hp.cons hc) he ht
  | stray hp hd ht => exact .stray (hp.cons hc) hd ht

theorem unbroken_nil : Unbroken [] := fun _ hc => nomatch hc

theorem lined (s : List Char) : Lined s := by
  induction hn : s.length using Nat.strong_induction_on generalizing s with
  | _ n ih =>
    cases s with
    | nil => exact .last unbroken_nil
    | cons c s =>
      have hs : Lined s := ih s.length (by simp [← hn]) s rfl
      by_cases hc : isLineBreak c = true
      · by_cases hfeed : c = '\n'
        · exact .ended unbroken_nil (.inl (congrArg (fun d => [d]) hfeed)) hs
        · by_cases hreturn : c = '\r' ∧ s.head? = some '\n'
          · obtain ⟨rfl, hhead⟩ := hreturn
            obtain ⟨t, rfl⟩ := List.head?_eq_some_iff.1 hhead
            have ht : Lined t := ih t.length (by simp only [← hn, List.length_cons]; omega) t rfl
            exact .ended unbroken_nil (.inr rfl) ht
          · exact .stray unbroken_nil ⟨hc, hfeed, hreturn⟩ hs
      · exact hs.cons (Bool.eq_false_iff.2 hc)

section

variable {p e t : List Char} {c : Char}

theorem Unbroken.ne_of_mem (hp : Unbroken p) (hc : c ∈ p) : c ≠ '\r' ∧ c ≠ '\n' := by
  have hbreak := hp c hc
  constructor
  · rintro rfl
    exact absurd hbreak (by decide)
  · rintro rfl
    exact absurd hbreak (by decide)

theorem Unbroken.feed_not_mem (hp : Unbroken p) : '\n' ∉ p := fun h => (hp.ne_of_mem h).2 rfl

theorem Unbroken.dropReturn (hp : Unbroken p) : Text.dropReturn p = p :=
  dropReturn_of_getLast?_ne fun h => (hp.ne_of_mem (List.mem_of_getLast? h)).1 rfl

theorem IsEnding.mem (he : IsEnding e) (hc : c ∈ e) : c = '\r' ∨ c = '\n' := by
  obtain rfl | rfl := he
  · exact .inr (List.mem_singleton.1 hc)
  · simpa using hc

/-! ### The lines of the buffer -/

/-- The lines between which the caret moves. -/
def caretLines (s : List Char) : List (List Char) :=
  (fullLines [] s).map (dropEndWhile fun c => c == '\n' || c == '\r')

theorem fullLines_cons {s : List Char} (h : ¬(c = '\r' ∧ s.head? = some '\n')) (line : List Char) :
    fullLines line (c :: s) =
      if isLineBreak c then (c :: line).reverse :: fullLines [] s else fullLines (c :: line) s := by
  refine fullLines.eq_3 line c s ?_
  rintro t rfl rfl
  exact h ⟨rfl, rfl⟩

theorem fullLines_append (hp : Unbroken p) (line s : List Char) :
    fullLines line (p ++ s) = fullLines (p.reverse ++ line) s := by
  induction p generalizing line with
  | nil => rfl
  | cons c p ih =>
    have hreturn : c ≠ '\r' := (hp.ne_of_mem List.mem_cons_self).1
    have hc : isLineBreak c = false := hp c List.mem_cons_self
    have hrest : Unbroken p := fun d hd => hp d (List.mem_cons_of_mem c hd)
    rw [List.cons_append, fullLines_cons (fun h => hreturn h.1), if_neg (by simp [hc]), ih hrest,
      List.reverse_cons, List.append_assoc, List.singleton_append]

theorem fullLines_ended (he : IsEnding e) (line t : List Char) :
    fullLines line (e ++ t) = (line.reverse ++ e) :: fullLines [] t := by
  obtain rfl | rfl := he
  · rw [List.singleton_append, fullLines_cons (fun h => absurd h.1 (by decide)), if_pos (by decide),
      List.reverse_cons]
  · have h : fullLines line ('\r' :: '\n' :: t) =
        ('\n' :: '\r' :: line).reverse :: fullLines [] t := rfl
    rw [List.cons_append, List.singleton_append, h]
    simp

theorem fullLines_stray (hc : IsStray c t) (line : List Char) :
    fullLines line (c :: t) = (line.reverse ++ [c]) :: fullLines [] t := by
  rw [fullLines_cons hc.notReturnFeed, if_pos hc.isBreak, List.reverse_cons]

theorem Unbroken.dropEndWhile (hp : Unbroken p) :
    Text.dropEndWhile (fun c => c == '\n' || c == '\r') p = p := by
  have hnone : ∀ d ∈ p.reverse, (d == '\n' || d == '\r') = false := by
    intro d hd
    simp [hp.ne_of_mem (List.mem_reverse.1 hd)]
  rw [Text.dropEndWhile, dropWhile_of_none hnone, List.reverse_reverse]

theorem caretLines_last (hp : Unbroken p) : caretLines p = [p] := by
  have h := fullLines_append hp [] []
  rw [List.append_nil] at h
  simp [caretLines, h, fullLines, hp.dropEndWhile]

theorem caretLines_ended (hp : Unbroken p) (he : IsEnding e) (t : List Char) :
    caretLines (p ++ (e ++ t)) = p :: caretLines t := by
  have hall : ∀ d ∈ e, (d == '\n' || d == '\r') = true := by
    intro d hd
    simpa using (he.mem hd).symm
  rw [caretLines, fullLines_append hp, fullLines_ended he, List.map_cons, List.append_nil,
    List.reverse_reverse, dropEndWhile_append_of_all hall, hp.dropEndWhile, caretLines]

theorem caretLines_stray (hp : Unbroken p) (hc : IsStray c t) :
    caretLines (p ++ c :: t) = (if c = '\r' then p else p ++ [c]) :: caretLines t := by
  rw [caretLines, fullLines_append hp, fullLines_stray hc, List.map_cons, List.append_nil,
    List.reverse_reverse, caretLines]
  congr 1
  split
  · rename_i hreturn
    rw [dropEndWhile_append_of_all (by simp [hreturn]), hp.dropEndWhile]
  · rename_i hreturn
    rw [dropEndWhile, List.reverse_concat, List.dropWhile_cons_of_neg (by simp [hc.notFeed, hreturn]),
      List.reverse_cons, List.reverse_reverse]

/-! ### The lines of the reader -/

theorem lines_ended (hp : Unbroken p) (he : IsEnding e) (t : List Char) :
    lines (p ++ (e ++ t)) = p :: lines t := by
  obtain rfl | rfl := he
  · rw [List.singleton_append, lines_append hp.feed_not_mem, hp.dropReturn]
  · have hfeed : '\n' ∉ p ++ ['\r'] := by simpa using hp.feed_not_mem
    have happ : p ++ (['\r', '\n'] ++ t) = p ++ ['\r'] ++ '\n' :: t := by simp
    rw [happ, lines_append hfeed, dropReturn_append (by simp)]
    simp [Text.dropReturn]

/-- What is written before the first line feed changes the first line only. -/
theorem tail_lines_append {q : List Char} (hq : '\n' ∉ q) (t : List Char) :
    (lines (q ++ t)).tail = (lines t).tail := by
  obtain ⟨ht, -⟩ | ⟨r, u, hr, rfl, -⟩ := splitAll_cases '\n' t
  · have hqt : '\n' ∉ q ++ t := by simp [hq, ht]
    rw [lines_of_not_mem ht, lines_of_not_mem hqt]
    split <;> split <;> rfl
  · have hqr : '\n' ∉ q ++ r := by simp [hq, hr]
    rw [← List.append_assoc, lines_append hqr, lines_append hr]
    rfl

theorem Query.lineAt_append {q : List Char} (hq : '\n' ∉ q) (t : List Char) (l : Nat) :
    lineAt (q ++ t) (l + 1) = lineAt t (l + 1) := by
  have h (s : List Char) : lineAt s (l + 1) = (lines s).tail.getD l [] := by
    rw [lineAt]
    cases lines s <;> rfl
  rw [h, h, tail_lines_append hq]

theorem Query.lineAt_ended (hp : Unbroken p) (he : IsEnding e) (t : List Char) (l : Nat) :
    lineAt (p ++ (e ++ t)) (l + 1) = lineAt t l := by
  rw [lineAt, lines_ended hp he]
  rfl

theorem IsStray.feed_not_mem (hc : IsStray c t) (hp : Unbroken p) : '\n' ∉ p ++ [c] := by
  simpa [hp.feed_not_mem] using hc.notFeed.symm

theorem Query.lineAt_stray (hp : Unbroken p) (hc : IsStray c t) (l : Nat) :
    lineAt (p ++ c :: t) (l + 1) = lineAt t (l + 1) := by
  rw [← List.singleton_append, ← List.append_assoc, lineAt_append (hc.feed_not_mem hp)]

/-! ### Texts of line ends -/

/-- Nothing is written but line ends. -/
def Bare (s : List Char) : Prop := ∀ c ∈ s, c = '\r' ∨ c = '\n'

theorem bare_append {s : List Char} : Bare (s ++ t) ↔ Bare s ∧ Bare t := List.forall_mem_append

theorem Unbroken.eq_nil_of_bare (hp : Unbroken p) (h : Bare p) : p = [] := by
  refine List.eq_nil_iff_forall_not_mem.2 fun c hc => ?_
  obtain rfl | rfl := h c hc
  · exact (hp.ne_of_mem hc).1 rfl
  · exact (hp.ne_of_mem hc).2 rfl

theorem Bare.eq_nil_of_mem_caretLines {s r : List Char} (h : Bare s) (hr : r ∈ caretLines s) :
    r = [] := by
  induction lined s with
  | last hp =>
    rw [caretLines_last hp, List.mem_singleton] at hr
    rw [hr, hp.eq_nil_of_bare h]
  | ended hp he ht ih =>
    obtain ⟨hpb, hrest⟩ := bare_append.1 h
    rw [caretLines_ended hp he, List.mem_cons] at hr
    obtain rfl | hr := hr
    · exact hp.eq_nil_of_bare hpb
    · exact ih (bare_append.1 hrest).2 hr
  | @stray p t c hp hc ht ih =>
    obtain ⟨hpb, hrest⟩ := bare_append.1 h
    obtain ⟨hcb, htb⟩ := List.forall_mem_cons.1 hrest
    have hreturn : c = '\r' := hcb.resolve_right hc.notFeed
    rw [caretLines_stray hp hc, if_pos hreturn, List.mem_cons] at hr
    obtain rfl | hr := hr
    · exact hp.eq_nil_of_bare hpb
    · exact ih htb hr

theorem Bare.eq_of_mem_lineAt {s : List Char} (h : Bare s) {l : Nat} (hc : c ∈ Query.lineAt s l) :
    c = '\r' := by
  rw [Query.lineAt, List.getD_eq_getElem?_getD] at hc
  cases hl : (lines s)[l]? with
  | none => simp [hl] at hc
  | some line =>
    rw [hl, Option.getD_some] at hc
    obtain ⟨hfeed, hsub⟩ := mem_lines (List.mem_of_getElem? hl)
    refine (h c (hsub c hc)).resolve_right ?_
    rintro rfl
    exact hfeed hc

theorem exists_mem_of_not_bare {s : List Char} (h : ¬Bare s) : ∃ c ∈ s, c ≠ '\r' := by
  simp only [Bare, not_forall, not_or] at h
  obtain ⟨c, hc, hreturn, -⟩ := h
  exact ⟨c, hc, hreturn⟩

/-- The last line of the buffer with anything in it. The reader has no more lines up to there, and
finds nothing in later ones. -/
theorem exists_last_written {s : List Char} (h : ¬Bare s) :
    ∃ l, (∃ c ∈ (caretLines s).getD l [], c ≠ '\r') ∧
      ∀ m, l ≤ m → ∀ c ∈ Query.lineAt s (m + 1), c = '\r' := by
  induction lined s with
  | @last p hp =>
    refine ⟨0, ?_, fun m _ c hc => ?_⟩
    · rw [caretLines_last hp]
      exact exists_mem_of_not_bare h
    · have hempty : Query.lineAt (p ++ []) (m + 1) = [] := Query.lineAt_append hp.feed_not_mem [] m
      rw [List.append_nil] at hempty
      rw [hempty] at hc
      cases hc
  | @ended p e t hp he ht ih =>
    rw [caretLines_ended hp he]
    simp only [Query.lineAt_ended hp he]
    by_cases hbare : Bare t
    · have hpb : ¬Bare p := fun hpb => h (bare_append.2 ⟨hpb, bare_append.2 ⟨fun _ => he.mem, hbare⟩⟩)
      exact ⟨0, exists_mem_of_not_bare hpb, fun m _ c => hbare.eq_of_mem_lineAt⟩
    · obtain ⟨l, hwritten, hafter⟩ := ih hbare
      refine ⟨l + 1, hwritten, fun m hm => ?_⟩
      obtain ⟨k, rfl⟩ := Nat.exists_eq_add_of_le' hm
      exact hafter (k + l) (by omega)
  | @stray p t c hp hc ht ih =>
    rw [caretLines_stray hp hc]
    simp only [Query.lineAt_stray hp hc]
    by_cases hbare : Bare t
    · refine ⟨0, ?_, fun m _ c => hbare.eq_of_mem_lineAt⟩
      by_cases hreturn : c = '\r'
      · have hpb : ¬Bare p := fun hpb =>
          h (bare_append.2 ⟨hpb, List.forall_mem_cons.2 ⟨.inl hreturn, hbare⟩⟩)
        rw [if_pos hreturn]
        exact exists_mem_of_not_bare hpb
      · rw [if_neg hreturn]
        exact ⟨c, by simp, hreturn⟩
    · -- The break moves the lines of the buffer on by one and those of the reader not at all.
      obtain ⟨l, hwritten, hafter⟩ := ih hbare
      exact ⟨l + 1, hwritten, fun m hm => hafter m (by omega)⟩

/-! ### Agreement -/

/-- Each line of the buffer is the beginning of the reader's line of the same number. -/
def Aligned (s : List Char) : Prop := ∀ l, (caretLines s).getD l [] <+: Query.lineAt s l

/-- Only line ends follow a stray break. -/
def StrayLast (s : List Char) : Prop :=
  ∀ before c after, s = before ++ c :: after → IsStray c after → Bare after

theorem aligned_last (hp : Unbroken p) : Aligned p := by
  intro l
  rw [caretLines_last hp]
  cases l with
  | zero =>
    rw [Query.lineAt, lines_of_not_mem hp.feed_not_mem]
    cases p with
    | nil => exact List.nil_prefix
    | cons c p => exact List.prefix_rfl
  | succ l => exact List.nil_prefix

theorem aligned_ended (hp : Unbroken p) (he : IsEnding e) : Aligned (p ++ (e ++ t)) ↔ Aligned t := by
  have hsucc (l : Nat) :
      (caretLines (p ++ (e ++ t))).getD (l + 1) [] <+: Query.lineAt (p ++ (e ++ t)) (l + 1) ↔
        (caretLines t).getD l [] <+: Query.lineAt t l := by
    rw [caretLines_ended hp he, Query.lineAt_ended hp he]
    rfl
  refine ⟨fun h l => (hsucc l).1 (h (l + 1)), fun h l => ?_⟩
  cases l with
  | zero =>
    rw [caretLines_ended hp he, Query.lineAt, lines_ended hp he]
    exact List.prefix_rfl
  | succ l => exact (hsucc l).2 (h l)

/-- The first line goes on for the reader. -/
theorem prefix_lineAt_stray (hp : Unbroken p) (hc : IsStray c t) :
    (if c = '\r' then p else p ++ [c]) <+: Query.lineAt (p ++ c :: t) 0 := by
  have hzero (s : List Char) : Query.lineAt s 0 = (lines s).headD [] := by
    rw [Query.lineAt]
    cases lines s <;> rfl
  have happ : p ++ c :: t = p ++ [c] ++ t := by simp
  rw [hzero]
  split
  · obtain rfl | ⟨q, d, rfl⟩ := List.eq_nil_or_concat p
    · exact List.nil_prefix
    · rw [List.concat_eq_append] at hp ⊢
      exact prefix_headD_lines hp.feed_not_mem (hp.ne_of_mem (by simp)).1 (List.prefix_append _ _)
  · rename_i hreturn
    rw [happ]
    exact prefix_headD_lines (hc.feed_not_mem hp) hreturn (List.prefix_append _ _)

theorem aligned_stray (hp : Unbroken p) (hc : IsStray c t) : Aligned (p ++ c :: t) ↔ Bare t := by
  constructor
  · intro h
    by_contra hbare
    -- In `t` alone the two may agree; here the line has the next number, where the reader has nothing.
    obtain ⟨l, ⟨d, hd, hreturn⟩, hafter⟩ := exists_last_written hbare
    have hpre := h (l + 1)
    rw [caretLines_stray hp hc, Query.lineAt_stray hp hc, List.getD_cons_succ] at hpre
    exact hreturn (hafter l le_rfl d (hpre.subset hd))
  · intro hbare l
    rw [caretLines_stray hp hc]
    cases l with
    | zero => exact prefix_lineAt_stray hp hc
    | succ l =>
      have hnil : (caretLines t).getD l [] = [] := by
        rw [List.getD_eq_getElem?_getD]
        cases hl : (caretLines t)[l]? with
        | none => rfl
        | some r => exact hbare.eq_nil_of_mem_caretLines (List.mem_of_getElem? hl)
      rw [List.getD_cons_succ, hnil]
      exact List.nil_prefix

theorem IsStray.not_mem (hc : IsStray c t) (hp : Unbroken p) : c ∉ p := by
  intro h
  exact absurd hc.isBreak (by simp [hp c h])

/-- A stray break stands after the first line when that is without one. -/
theorem strayLast_append {q : List Char} (hq : ∀ a c b, q = a ++ c :: b → ¬IsStray c (b ++ t)) :
    StrayLast (q ++ t) ↔ StrayLast t := by
  constructor
  · intro h before c after ht hc
    exact h (q ++ before) c after (by rw [ht, List.append_assoc]) hc
  · intro h before c after hs hc
    obtain ⟨a, hbefore, ht⟩ | ⟨a, hqa, hrest⟩ := List.append_eq_append_iff.1 hs
    · exact h a c after ht hc
    · cases a with
      | nil => exact h [] c after hrest.symm hc
      | cons d b =>
        obtain ⟨rfl, rfl⟩ := List.cons_eq_cons.1 hrest
        exact absurd hc (hq _ _ _ hqa)

theorem strayLast_unbroken_append (hp : Unbroken p) : StrayLast (p ++ t) ↔ StrayLast t := by
  refine strayLast_append fun a c b hs hc => ?_
  exact hc.not_mem hp (by simp [hs])

theorem strayLast_last (hp : Unbroken p) : StrayLast p := by
  intro before c after hs hc
  exact absurd (by simp [hs]) (hc.not_mem hp)

theorem strayLast_ended (hp : Unbroken p) (he : IsEnding e) :
    StrayLast (p ++ (e ++ t)) ↔ StrayLast t := by
  rw [strayLast_unbroken_append hp]
  refine strayLast_append fun a c b hs hc => ?_
  obtain rfl | rfl := he
  · obtain ⟨-, rfl, -⟩ : a = [] ∧ c = '\n' ∧ b = [] := by
      simpa [eq_comm, List.append_eq_singleton_iff] using hs
    exact hc.notFeed rfl
  · cases a with
    | nil =>
      obtain ⟨rfl, rfl⟩ := List.cons_eq_cons.1 hs
      exact hc.notReturnFeed ⟨rfl, rfl⟩
    | cons d a =>
      have hfeed : '\n' = c := by
        have h := (List.cons_eq_cons.1 hs).2
        cases a with
        | nil => exact (List.cons_eq_cons.1 h).1
        | cons f a => simpa using congrArg List.length h
      exact hc.notFeed hfeed.symm

theorem strayLast_stray (hp : Unbroken p) (hc : IsStray c t) : StrayLast (p ++ c :: t) ↔ Bare t := by
  rw [strayLast_unbroken_append hp]
  constructor
  · intro h
    exact h [] c t rfl hc
  · intro hbare before d after hs _
    cases before with
    | nil =>
      obtain ⟨-, rfl⟩ := List.cons_eq_cons.1 hs
      exact hbare
    | cons f before =>
      obtain ⟨-, rfl⟩ := List.cons_eq_cons.1 hs
      exact fun x hx => hbare x (by simp [hx])

theorem aligned_iff (s : List Char) : Aligned s ↔ StrayLast s := by
  induction lined s with
  | last hp => exact iff_of_true (aligned_last hp) (strayLast_last hp)
  | ended hp he ht ih => rw [aligned_ended hp he, strayLast_ended hp he, ih]
  | stray hp hc ht ih => rw [aligned_stray hp hc, strayLast_stray hp hc]

end

/-! ### Places -/

namespace Buffer

theorem line?_getD (b : Buffer) (l : Nat) : (b.line? l).getD [] = (caretLines b.chars).getD l [] := by
  rw [line?, lines, List.getD_eq_getElem?_getD, caretLines, List.getElem?_map]

theorem positionOf_of_lt {b : Buffer} {l : Nat} (h : l < b.lineCount) (column : Nat) :
    b.positionOf l column =
      { line := l, character := unitLength (((b.line? l).getD []).take column) } := by
  rw [positionOf, Nat.min_eq_left (by omega)]

/-- The reader finds what stands before the caret on a line if its line begins as that of the
buffer. -/
theorem lineBefore_positionOf_iff {b : Buffer} {l : Nat} (h : l < b.lineCount) (column : Nat) :
    Query.lineBefore b.chars (b.positionOf l column) = ((b.line? l).getD []).take column ↔
      ((b.line? l).getD []).take column <+: Query.lineAt b.chars l := by
  rw [positionOf_of_lt h, Query.lineBefore, beforeByte_bytesOfUnits, takeUnits_unitLength_iff]

theorem aligned_iff_places (b : Buffer) :
    (∀ l column, l < b.lineCount → column ≤ b.lineLength l →
      Query.lineBefore b.chars (b.positionOf l column) = ((b.line? l).getD []).take column) ↔
        Aligned b.chars := by
  constructor
  · intro h l
    rw [← line?_getD]
    by_cases hl : l < b.lineCount
    · have hall := (lineBefore_positionOf_iff hl _).1 (h l (b.lineLength l) hl le_rfl)
      rwa [lineLength, List.take_length] at hall
    · have hnone : b.lines[l]? = none := List.getElem?_eq_none (Nat.le_of_not_lt hl)
      rw [line?, hnone]
      exact List.nil_prefix
  · intro h l column hl _
    refine (lineBefore_positionOf_iff hl column).2 ?_
    refine (List.take_prefix _ _).trans ?_
    rw [line?_getD]
    exact h l

/-- For every place of a text the reader finds before it what the buffer shows before it, exactly when
only line ends follow each break that the reader does not know. -/
theorem places_agree_iff (text : String) :
    (∀ l column, l < (ofText text).lineCount → column ≤ (ofText text).lineLength l →
      Query.lineBefore text.toList ((ofText text).positionOf l column) =
        (((ofText text).line? l).getD []).take column) ↔
      ∀ before c after, text.toList = before ++ c :: after → IsStray c after →
        ∀ d ∈ after, d = '\r' ∨ d = '\n' :=
  (aligned_iff_places (ofText text)).trans (aligned_iff text.toList)

/-- A vertical tab ends the first line for the buffer, and the reader has no second one. -/
example : let b := ofText "a\x0bb"
    b.positionOf 1 1 = ⟨1, 1⟩ ∧ b.line? 1 = some ['b'] ∧ Query.lineBefore b.chars ⟨1, 1⟩ = [] := by
  decide +kernel

end Buffer

end LuaLens
