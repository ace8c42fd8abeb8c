import LuaLens.Host.Snippet
import Mathlib

/-!
Stripping snippets. A snippet is a row of literals, tabstops and placeholders, and the default of a
placeholder is a snippet again. The first of two replacements ends a default at the first closing brace, so
that one with braces comes out right only if what is left of it closes again. The second one takes all digits
after a tabstop, those of a default that has just been filled in too. `strip_render_iff` says which snippets
come out as their plain text.
-/

namespace LuaLens

open Text

/-! ### Snippets -/

namespace Snippet

/-- A character that stands for itself. -/
abbrev Literal : Type := { c : Char // c ≠ '$' ∧ c ≠ '\x7d' ∧ c ≠ '\\' }

/-- The digits of a number. -/
abbrev Number : Type := { digits : List Char // digits ≠ [] ∧ ∀ d ∈ digits, isDecimal d = true }

end Snippet

/-- Literal text, tabstops such as `$1` and `${1}`, and placeholders such as `${1:default}`, in a row. -/
inductive Snippet
  | nil
  | literal (c : Snippet.Literal) (rest : Snippet)
  | bare (n : Snippet.Number) (rest : Snippet)
  | braced (n : Snippet.Number) (rest : Snippet)
  | placeholder (n : Snippet.Number) (default rest : Snippet)

namespace Snippet

/-- The text that a snippet is written as. -/
def render : Snippet → List Char
  | nil => []
  | literal c rest => c.1 :: rest.render
  | bare n rest => '$' :: (n.1 ++ rest.render)
  | braced n rest => '$' :: '\x7b' :: (n.1 ++ '\x7d' :: rest.render)
  | placeholder n default rest =>
    '$' :: '\x7b' :: (n.1 ++ ':' :: (default.render ++ '\x7d' :: rest.render))

/-- The text that a snippet stands for: the literals, with the defaults filled in. -/
def plain : Snippet → List Char
  | nil => []
  | literal c rest => c.1 :: rest.plain
  | bare _ rest => rest.plain
  | braced _ rest => rest.plain
  | placeholder _ default rest => default.plain ++ rest.plain

def append : Snippet → Snippet → Snippet
  | nil, t => t
  | literal c rest, t => literal c (rest.append t)
  | bare n rest, t => bare n (rest.append t)
  | braced n rest, t => braced n (rest.append t)
  | placeholder n default rest, t => placeholder n default (rest.append t)

def StartsWithDigit : Snippet → Prop
  | literal c _ => isDecimal c.1 = true
  | _ => False

/-- No tabstop without braces is written right before a digit, which would count as one of its own. -/
def Separated : Snippet → Prop
  | nil => True
  | literal _ rest => rest.Separated
  | bare _ rest => ¬ rest.StartsWithDigit ∧ rest.Separated
  | braced _ rest => rest.Separated
  | placeholder _ default rest => default.Separated ∧ rest.Separated

/-! ### Shallow snippets -/

/-- The defaults of the placeholders that are not in another one. -/
def defaults : Snippet → List Snippet
  | nil => []
  | literal _ rest => rest.defaults
  | bare _ rest => rest.defaults
  | braced _ rest => rest.defaults
  | placeholder _ default rest => default :: rest.defaults

/-- The snippet with these placeholders replaced by their defaults. -/
def unwrapped : Snippet → Snippet
  | nil => nil
  | literal c rest => literal c rest.unwrapped
  | bare n rest => bare n rest.unwrapped
  | braced n rest => braced n rest.unwrapped
  | placeholder _ default rest => default.append rest.unwrapped

/-- Nothing but placeholders with empty defaults. -/
def Hollow : Snippet → Prop
  | nil => True
  | placeholder _ nil rest => rest.Hollow
  | _ => False

/-- There are no braces, or one tabstop has them and there is nothing to be seen after it. -/
def Shallow : Snippet → Prop
  | nil => True
  | literal _ rest => rest.Shallow
  | bare _ rest => rest.Shallow
  | braced _ rest => rest.Hollow
  | placeholder _ _ _ => False

/-! ### The two replacements -/

def withDefaults (s : List Char) : List Char := replace placeholder? 0 s

def withoutTabstops (s : List Char) : List Char := replace tabstop? 0 s

section

variable {find? : List Char → Option (List Char × Nat)} {c : Char} {text : List Char}

theorem replace_skip (a s : List Char) : replace find? a.length (a ++ s) = replace find? 0 s := by
  induction a with
  | nil => rfl
  | cons c a ih =>
    rw [List.length_cons, List.cons_append, replace, if_pos (Nat.succ_pos _), Nat.add_sub_cancel, ih]

theorem replace_of_some {a s : List Char} (h : find? (c :: (a ++ s)) = some (text, a.length + 1)) :
    replace find? 0 (c :: (a ++ s)) = text ++ replace find? 0 s := by
  rw [replace, if_neg (lt_irrefl 0), h]
  simp only [Nat.add_sub_cancel, replace_skip]

theorem replace_of_none {s : List Char} (h : find? (c :: s) = none) :
    replace find? 0 (c :: s) = c :: replace find? 0 s := by
  rw [replace, if_neg (lt_irrefl 0), h]

end

variable {c : Char} {s t : List Char}

/-! ### Filling in defaults -/

theorem takeWhile_number (n : Number) (h : isDecimal c = false) :
    (n.1 ++ c :: s).takeWhile isDecimal = n.1 := by
  rw [List.takeWhile_append_of_pos n.2.2, List.takeWhile_cons_of_neg (by simp [h]), List.append_nil]

theorem dropWhile_number (n : Number) (s : List Char) :
    (n.1 ++ s).dropWhile isDecimal = s.dropWhile isDecimal :=
  List.dropWhile_append_of_pos n.2.2

theorem exists_number (n : Number) : ∃ d ds, n.1 = d :: ds ∧ isDecimal d = true := by
  obtain ⟨d, ds, h⟩ := List.exists_cons_of_ne_nil n.2.1
  exact ⟨d, ds, h, n.2.2 d (by simp [h])⟩

theorem withDefaults_of_ne (h : c ≠ '$') : withDefaults (c :: s) = c :: withDefaults s := by
  refine replace_of_none ?_
  rw [placeholder?]
  exact fun _ heq => h (List.cons.inj heq).1

/-- What copies digits one by one copies them all. -/
theorem append_digits {f : List Char → List Char}
    (hf : ∀ d s, isDecimal d = true → f (d :: s) = d :: f s) {ds : List Char}
    (h : ∀ d ∈ ds, isDecimal d = true) (s : List Char) : f (ds ++ s) = ds ++ f s := by
  induction ds with
  | nil => rfl
  | cons d ds ih =>
    obtain ⟨hd, hds⟩ := List.forall_mem_cons.1 h
    rw [List.cons_append, hf d _ hd, ih hds, List.cons_append]

theorem withDefaults_number (n : Number) (s : List Char) :
    withDefaults (n.1 ++ s) = n.1 ++ withDefaults s :=
  append_digits (fun _ _ h => withDefaults_of_ne (by rintro rfl; cases h)) n.2.2 s

theorem withDefaults_bare (n : Number) :
    withDefaults ('$' :: (n.1 ++ s)) = '$' :: (n.1 ++ withDefaults s) := by
  obtain ⟨d, ds, hn, hd⟩ := exists_number n
  rw [← withDefaults_number n]
  refine replace_of_none ?_
  rw [hn, List.cons_append, placeholder?]
  rintro s heq
  obtain rfl := (List.cons.inj (List.cons.inj heq).2).1
  cases hd

theorem withDefaults_braced (n : Number) : withDefaults ('$' :: '\x7b' :: (n.1 ++ '\x7d' :: s)) =
    '$' :: '\x7b' :: (n.1 ++ '\x7d' :: withDefaults s) := by
  rw [← withDefaults_of_ne (by decide : '\x7d' ≠ '$'), ← withDefaults_number n,
    ← withDefaults_of_ne (by decide : '\x7b' ≠ '$')]
  refine replace_of_none ?_
  rw [placeholder?, dropWhile_number, List.dropWhile_cons_of_neg (by decide)]
  rfl

/-- What is made of the text after the colon of a placeholder: it is copied up to the first closing brace. -/
def filling : List Char → List Char
  | [] => []
  | '\x7d' :: s => withDefaults s
  | c :: s => c :: filling s

theorem filling_cons (h : c ≠ '\x7d') : filling (c :: s) = c :: filling s := by
  rw [filling]
  exact h

theorem filling_close (h : '\x7d' ∉ s) : filling (s ++ '\x7d' :: t) = s ++ withDefaults t := by
  induction s with
  | nil => rfl
  | cons c s ih =>
    obtain ⟨hc, hs⟩ := List.ne_and_not_mem_of_not_mem_cons h
    rw [List.cons_append, filling_cons hc.symm, ih hs, List.cons_append]

theorem withDefaults_placeholder (n : Number) (h : '\x7d' ∈ s) :
    withDefaults ('$' :: '\x7b' :: (n.1 ++ ':' :: s)) = filling s := by
  obtain ⟨inner, rest, rfl, hinner⟩ := List.eq_append_cons_of_mem h
  have hstop : ∀ c ∈ inner, (c != '\x7d') = true := fun c hc => by
    rw [bne_iff_ne]
    exact fun heq => hinner (heq ▸ hc)
  have hfind : placeholder? ('$' :: '\x7b' :: (n.1 ++ ':' :: (inner ++ '\x7d' :: rest))) =
      some (inner, n.1.length + inner.length + 4) := by
    rw [placeholder?, dropWhile_number, List.dropWhile_cons_of_neg (by decide)]
    simp only [takeWhile_number n (by decide : isDecimal ':' = false),
      List.takeWhile_append_of_pos hstop]
    simp [n.2.1]
  rw [filling_close hinner]
  have hlist : '$' :: '\x7b' :: (n.1 ++ ':' :: (inner ++ '\x7d' :: rest)) =
      '$' :: (('\x7b' :: (n.1 ++ ':' :: (inner ++ ['\x7d']))) ++ rest) := by simp
  rw [hlist] at hfind ⊢
  refine replace_of_some (hfind.trans ?_)
  simp only [List.length_cons, List.length_append, List.length_nil]
  congr 2

/-! ### What is left of a snippet -/

/-- There are no braces. -/
def flat : Snippet → Bool
  | nil => true
  | literal _ rest => rest.flat
  | bare _ rest => rest.flat
  | braced _ _ => false
  | placeholder _ _ _ => false

/-- The closing brace of a placeholder is left over when a brace of the default has ended it before. -/
def leftOver (default : Snippet) : List Char := if default.flat then [] else ['\x7d']

@[simp]
theorem leftOver_literal (c : Literal) (rest : Snippet) : (literal c rest).leftOver = rest.leftOver := rfl

@[simp]
theorem leftOver_bare (n : Number) (rest : Snippet) : (bare n rest).leftOver = rest.leftOver := rfl

/-- What the first replacement leaves of a snippet, inside of a default that has had no closing brace yet or
outside of one. -/
def half : Bool → Snippet → List Char
  | _, nil => []
  | inside, literal c rest => c.1 :: half inside rest
  | inside, bare n rest => '$' :: (n.1 ++ half inside rest)
  | false, braced n rest => '$' :: '\x7b' :: (n.1 ++ '\x7d' :: half false rest)
  | true, braced n rest => '$' :: '\x7b' :: (n.1 ++ half false rest)
  | false, placeholder _ default rest => half true default ++ (default.leftOver ++ half false rest)
  | true, placeholder n default rest =>
    '$' :: '\x7b' :: (n.1 ++ ':' :: (half true default ++ (default.leftOver ++ half false rest)))

theorem withDefaults_close (default : Snippet) :
    (if default.flat then filling ('\x7d' :: s) else withDefaults ('\x7d' :: s)) =
      default.leftOver ++ withDefaults s := by
  rw [leftOver]
  split_ifs
  · rfl
  · rw [withDefaults_of_ne (by decide)]
    rfl

theorem filling_number (n : Number) (s : List Char) : filling (n.1 ++ s) = n.1 ++ filling s :=
  append_digits (fun _ _ h => filling_cons (by rintro rfl; cases h)) n.2.2 s

/-- The first replacement goes through a snippet piece by piece, whatever comes after it. -/
theorem withDefaults_render (p : Snippet) (s : List Char) :
    withDefaults (p.render ++ s) = half false p ++ withDefaults s ∧
      filling (p.render ++ s) = half true p ++ if p.flat then filling s else withDefaults s := by
  induction p generalizing s with
  | nil => exact ⟨rfl, rfl⟩
  | literal c rest ih =>
    obtain ⟨hout, hin⟩ := ih s
    rw [render, List.cons_append]
    exact ⟨by rw [withDefaults_of_ne c.2.1, hout]; rfl, by rw [filling_cons c.2.2.1, hin]; rfl⟩
  | bare n rest ih =>
    obtain ⟨hout, hin⟩ := ih s
    rw [render, List.cons_append, List.append_assoc]
    refine ⟨?_, ?_⟩
    · rw [withDefaults_bare, hout, half, List.cons_append, List.append_assoc]
    · rw [filling_cons (by decide), filling_number, hin, half, List.cons_append, List.append_assoc]
      rfl
  | braced n rest ih =>
    obtain ⟨hout, -⟩ := ih s
    have hlist : (braced n rest).render ++ s = '$' :: '\x7b' :: (n.1 ++ '\x7d' :: (rest.render ++ s)) := by
      simp [render]
    rw [hlist]
    refine ⟨?_, ?_⟩
    · rw [withDefaults_braced, hout]
      simp [half]
    · rw [filling_cons (by decide), filling_cons (by decide), filling_number, filling, hout]
      simp [half, flat]
  | placeholder n default rest ihdefault ihrest =>
    obtain ⟨hout, -⟩ := ihrest s
    have hinner : filling (default.render ++ '\x7d' :: (rest.render ++ s)) =
        half true default ++ (default.leftOver ++ (half false rest ++ withDefaults s)) := by
      rw [(ihdefault _).2, withDefaults_close, hout]
    have hlist : (placeholder n default rest).render ++ s =
        '$' :: '\x7b' :: (n.1 ++ ':' :: (default.render ++ '\x7d' :: (rest.render ++ s))) := by
      simp [render]
    rw [hlist]
    refine ⟨?_, ?_⟩
    · rw [withDefaults_placeholder n (by simp), hinner]
      simp [half]
    · rw [filling_cons (by decide), filling_cons (by decide), filling_number,
        filling_cons (by decide), hinner]
      simp [half, flat]

theorem strip_render (p : Snippet) : strip p.render = withoutTabstops (half false p) := by
  have h := (withDefaults_render p []).1
  rw [List.append_nil, show withDefaults [] = [] from rfl, List.append_nil] at h
  exact congrArg withoutTabstops h

/-! ### Leaving out tabstops -/

theorem withoutTabstops_of_ne (h : c ≠ '$') : withoutTabstops (c :: s) = c :: withoutTabstops s := by
  refine replace_of_none ?_
  rw [tabstop?]
  · exact fun _ heq => h (List.cons.inj heq).1
  · exact fun _ heq => h (List.cons.inj heq).1

/-- A tabstop without braces takes all digits that come after it. -/
theorem withoutTabstops_bare (n : Number) (s : List Char) :
    withoutTabstops ('$' :: (n.1 ++ s)) = withoutTabstops (s.dropWhile isDecimal) := by
  obtain ⟨d, ds, hn, hd⟩ := exists_number n
  have hfind : tabstop? ('$' :: (n.1 ++ s)) = some ([], (n.1 ++ s.takeWhile isDecimal).length + 1) := by
    rw [tabstop?, List.takeWhile_append_of_pos n.2.2]
    · simp [n.2.1]
    · intro t heq
      rw [hn] at heq
      obtain rfl := (List.cons.inj heq).1
      cases hd
  nth_rewrite 1 [← List.takeWhile_append_dropWhile (p := isDecimal) (l := s)] at hfind ⊢
  rw [← List.append_assoc] at hfind ⊢
  exact replace_of_some hfind

theorem withoutTabstops_closed (n : Number) {ds : List Char} (h : ∀ d ∈ ds, isDecimal d = true) :
    withoutTabstops ('$' :: '\x7b' :: (n.1 ++ (ds ++ '\x7d' :: s))) = withoutTabstops s := by
  have hlist : '$' :: '\x7b' :: (n.1 ++ (ds ++ '\x7d' :: s)) =
      '$' :: (('\x7b' :: (n.1 ++ (ds ++ ['\x7d']))) ++ s) := by simp
  have hfind : tabstop? ('$' :: '\x7b' :: (n.1 ++ (ds ++ '\x7d' :: s))) =
      some ([], n.1.length + ds.length + 3) := by
    have hstop : isDecimal '\x7d' = false := by decide
    rw [tabstop?, dropWhile_number, List.dropWhile_append_of_pos h,
      List.dropWhile_cons_of_neg (by simp [hstop]), List.takeWhile_append_of_pos n.2.2,
      List.takeWhile_append_of_pos h, List.takeWhile_cons_of_neg (by simp [hstop])]
    simp [n.2.1]
  rw [hlist] at hfind ⊢
  refine (replace_of_some (hfind.trans ?_)).trans (List.nil_append _)
  simp only [List.length_cons, List.length_append, List.length_nil]
  congr 2

theorem withoutTabstops_braced (n : Number) (s : List Char) :
    withoutTabstops ('$' :: '\x7b' :: (n.1 ++ '\x7d' :: s)) = withoutTabstops s :=
  withoutTabstops_closed n (List.forall_mem_nil _)

/-- A brace that has lost its partner leaves a dollar sign, unless it finds another one after some digits. -/
theorem mem_withoutTabstops_or (n : Number) (s : List Char) :
    '$' ∈ withoutTabstops ('$' :: '\x7b' :: (n.1 ++ s)) ∨
      ∃ ds t, (∀ d ∈ ds, isDecimal d = true) ∧ s = ds ++ '\x7d' :: t := by
  by_cases h : ∃ t, s.dropWhile isDecimal = '\x7d' :: t
  · obtain ⟨t, ht⟩ := h
    refine .inr ⟨s.takeWhile isDecimal, t, fun d hd => List.mem_takeWhile_imp hd, ?_⟩
    rw [← ht, List.takeWhile_append_dropWhile]
  · refine .inl ?_
    rw [withoutTabstops, replace_of_none]
    · exact List.mem_cons_self
    · rw [tabstop?, dropWhile_number]
      split
      · next t ht => exact absurd ⟨t, ht⟩ h
      · rfl

theorem withoutTabstops_digits {ds : List Char} (h : ∀ d ∈ ds, isDecimal d = true) (s : List Char) :
    withoutTabstops (ds ++ s) = ds ++ withoutTabstops s :=
  append_digits (fun _ _ hd => withoutTabstops_of_ne (by rintro rfl; cases hd)) h s

/-! ### What is lost -/

/-- How many characters the second replacement leaves. Closing braces do not count, for one that is left over
adds nothing that was lost elsewhere. -/
def weight (s : List Char) : ℕ := (withoutTabstops s).countP (· != '\x7d')

theorem weight_digits {ds : List Char} (h : ∀ d ∈ ds, isDecimal d = true) (s : List Char) :
    weight (ds ++ s) = ds.length + weight s := by
  have hall : ∀ d ∈ ds, (d != '\x7d') = true := fun d hd => by
    rw [bne_iff_ne]
    rintro rfl
    cases h _ hd
  rw [weight, withoutTabstops_digits h, List.countP_append, List.countP_eq_length.2 hall, weight]

theorem weight_dropWhile (s : List Char) :
    weight s = (s.takeWhile isDecimal).length + weight (s.dropWhile isDecimal) := by
  rw [← weight_digits fun d hd => List.mem_takeWhile_imp hd, List.takeWhile_append_dropWhile]

theorem weight_close (s : List Char) : weight ('\x7d' :: s) = weight s := by
  rw [weight, withoutTabstops_of_ne (by decide), List.countP_cons_of_neg (by decide), weight]

theorem weight_leftOver (p : Snippet) (s : List Char) : weight (p.leftOver ++ s) = weight s := by
  rw [leftOver]
  split_ifs
  · rfl
  · exact weight_close s

theorem weight_literal (c : Literal) (s : List Char) : weight (c.1 :: s) = weight s + 1 := by
  rw [weight, withoutTabstops_of_ne c.2.1, List.countP_cons_of_pos (by simpa using c.2.2.1), weight]

/-- The second replacement leaves no dollar sign. -/
def Cleared (s : List Char) : Prop := '$' ∉ withoutTabstops s

theorem cleared_append_digits {ds : List Char} (h : ∀ d ∈ ds, isDecimal d = true) :
    Cleared (ds ++ s) ↔ Cleared s := by
  have hds : '$' ∉ ds := fun hd => by cases h _ hd
  rw [Cleared, withoutTabstops_digits h, List.mem_append, or_iff_right hds, Cleared]

theorem cleared_cons (h : c ≠ '$') : Cleared (c :: s) ↔ Cleared s := by
  rw [Cleared, withoutTabstops_of_ne h, List.mem_cons, or_iff_right h.symm, Cleared]

theorem cleared_leftOver (p : Snippet) : Cleared (p.leftOver ++ s) ↔ Cleared s := by
  rw [leftOver]
  split_ifs
  · rfl
  · exact cleared_cons (by decide)

theorem cleared_dropWhile : Cleared (s.dropWhile isDecimal) ↔ Cleared s := by
  rw [← cleared_append_digits fun d hd => List.mem_takeWhile_imp hd, List.takeWhile_append_dropWhile]

theorem cleared_bare (n : Number) : Cleared ('$' :: (n.1 ++ s)) ↔ Cleared s := by
  rw [Cleared, withoutTabstops_bare, ← Cleared, cleared_dropWhile]

theorem weight_bare (n : Number) (s : List Char) :
    weight s = (s.takeWhile isDecimal).length + weight ('$' :: (n.1 ++ s)) := by
  rw [weight_dropWhile, weight, weight, withoutTabstops_bare]

/-- A brace that has lost its partner has found another one, and lost the digits before it. -/
theorem exists_of_cleared {n : Number} (h : Cleared ('$' :: '\x7b' :: (n.1 ++ s))) :
    ∃ ds t, s = ds ++ '\x7d' :: t ∧ Cleared s ∧
      weight s = ds.length + weight ('$' :: '\x7b' :: (n.1 ++ s)) := by
  obtain hmem | ⟨ds, t, hds, rfl⟩ := mem_withoutTabstops_or n s
  · exact absurd hmem h
  · refine ⟨ds, t, rfl, ?_, ?_⟩
    · rw [cleared_append_digits hds, cleared_cons (by decide)]
      rwa [Cleared, withoutTabstops_closed n hds] at h
    · rw [weight_digits hds, weight_close, weight, weight, withoutTabstops_closed n hds]

theorem cleared_braced (n : Number) : Cleared ('$' :: '\x7b' :: (n.1 ++ '\x7d' :: s)) ↔ Cleared s := by
  rw [Cleared, withoutTabstops_braced, Cleared]

theorem weight_braced (n : Number) (s : List Char) :
    weight ('$' :: '\x7b' :: (n.1 ++ '\x7d' :: s)) = weight s := by
  rw [weight, withoutTabstops_braced, weight]

/-- The dollar sign of a placeholder within a default stays. -/
theorem not_cleared_placeholder (n : Number) (default rest : Snippet) (s : List Char) :
    ¬ Cleared (half true (placeholder n default rest) ++ s) := by
  rw [half, List.cons_append, List.cons_append, List.append_assoc, List.cons_append]
  intro h
  obtain hmem | ⟨ds, t, hds, heq⟩ := mem_withoutTabstops_or n _
  · exact h hmem
  · cases ds with
    | nil => cases (List.cons.inj heq).1
    | cons d ds =>
      obtain rfl := (List.cons.inj heq).1
      cases hds ':' List.mem_cons_self

/-- Where no dollar sign is left, there is no more left of a snippet than its plain text. -/
theorem weight_half_le {inside : Bool} {p : Snippet} {s : List Char} (h : Cleared (half inside p ++ s)) :
    Cleared s ∧ weight (half inside p ++ s) ≤ p.plain.length + weight s := by
  induction p generalizing inside s with
  | nil => exact ⟨h, by simp [half, plain]⟩
  | literal c rest ih =>
    rw [half, List.cons_append, cleared_cons c.2.1] at h
    obtain ⟨hcleared, hle⟩ := ih h
    refine ⟨hcleared, ?_⟩
    rw [half, List.cons_append, weight_literal, plain, List.length_cons]
    omega
  | bare n rest ih =>
    rw [half, List.cons_append, List.append_assoc, cleared_bare] at h
    obtain ⟨hcleared, hle⟩ := ih h
    refine ⟨hcleared, ?_⟩
    rw [half, List.cons_append, List.append_assoc, plain]
    -- Digits that the tabstop takes are lost.
    have := weight_bare n (half inside rest ++ s)
    omega
  | braced n rest ih =>
    cases inside with
    | false =>
      have hlist : half false (braced n rest) ++ s =
          '$' :: '\x7b' :: (n.1 ++ '\x7d' :: (half false rest ++ s)) := by simp [half]
      rw [hlist, cleared_braced] at h
      rw [hlist, weight_braced]
      exact ih h
    | true =>
      rw [half, List.cons_append, List.cons_append, List.append_assoc] at h ⊢
      obtain ⟨ds, -, -, hrest, hweight⟩ := exists_of_cleared h
      obtain ⟨hcleared, hle⟩ := ih hrest
      rw [plain]
      exact ⟨hcleared, by omega⟩
  | placeholder n default rest ihdefault ihrest =>
    cases inside with
    | false =>
      rw [half, List.append_assoc, List.append_assoc] at h
      obtain ⟨hleft, hle⟩ := ihdefault h
      rw [cleared_leftOver] at hleft
      obtain ⟨hcleared, hle'⟩ := ihrest hleft
      rw [weight_leftOver] at hle
      refine ⟨hcleared, ?_⟩
      rw [half, List.append_assoc, List.append_assoc, plain, List.length_append]
      omega
    | true => exact absurd h (not_cleared_placeholder n default rest s)

/-! ### Shallow defaults -/

variable {p default rest : Snippet}

theorem separated_of_append (h : (default.append rest).Separated) : rest.Separated := by
  induction default with
  | nil => exact h
  | literal c default ih => exact ih h
  | bare n default ih => exact ih h.2
  | braced n default ih => exact ih h
  | placeholder n inner default _ ih => exact ih h.2

theorem separated_append_of_hollow (hdefault : default.Hollow) (h : rest.Separated) :
    (default.append rest).Separated := by
  induction default with
  | nil => exact h
  | placeholder n inner default _ ih =>
    cases inner with
    | nil => exact ⟨trivial, ih hdefault⟩
    | _ => cases hdefault
  | _ => cases hdefault

theorem half_eq_nil_of_hollow (h : p.Hollow) : half false p = [] ∧ p.plain = [] := by
  induction p with
  | nil => exact ⟨rfl, rfl⟩
  | placeholder n default rest _ ih =>
    cases default with
    | nil => exact ih h
    | _ => cases h
  | _ => cases h

theorem hollow_of_half (h : half false p ++ '\x7d' :: s = '\x7d' :: t) : p.Hollow := by
  induction p with
  | nil => trivial
  | literal c rest => exact absurd (List.cons.inj h).1 c.2.2.1
  | placeholder n default rest _ ih =>
    cases default with
    | nil => exact ih h
    | literal c default => exact absurd (List.cons.inj h).1 c.2.2.1
    | _ => exact absurd (List.cons.inj h).1 (by decide)
  | _ => exact absurd (List.cons.inj h).1 (by decide)

/-- The text after a tabstop begins with a digit just when the snippet does without the placeholders. -/
theorem takeWhile_half_append
    (hrest : (half false rest).takeWhile isDecimal = [] ↔ ¬ rest.unwrapped.StartsWithDigit) :
    (half true default ++ (default.leftOver ++ half false rest)).takeWhile isDecimal = [] ↔
      ¬ (default.append rest.unwrapped).StartsWithDigit := by
  cases default with
  | nil => exact hrest
  | literal c default => simp [half, append, StartsWithDigit, List.takeWhile_cons]
  | _ => exact iff_of_true (List.takeWhile_cons_of_neg (by decide)) id

theorem takeWhile_half (p : Snippet) :
    (half false p).takeWhile isDecimal = [] ↔ ¬ p.unwrapped.StartsWithDigit := by
  induction p with
  | nil => exact iff_of_true rfl id
  | literal c rest => simp [half, unwrapped, StartsWithDigit, List.takeWhile_cons]
  | placeholder n default rest _ ih => exact takeWhile_half_append ih
  | _ => exact iff_of_true (List.takeWhile_cons_of_neg (by decide)) id

/-- If nothing of a default is lost, it is shallow and no digit goes to a tabstop before it. -/
theorem shallow_of_weight (hcleared : Cleared (half true default ++ (default.leftOver ++ half false rest)))
    (hle : default.plain.length + weight (half false rest) ≤
      weight (half true default ++ (default.leftOver ++ half false rest)))
    (hrest : rest.unwrapped.Separated) :
    default.Shallow ∧ (default.append rest.unwrapped).Separated := by
  induction default with
  | nil => exact ⟨trivial, hrest⟩
  | literal c default ih =>
    rw [leftOver_literal, half, List.cons_append] at hcleared hle
    rw [cleared_cons c.2.1] at hcleared
    rw [weight_literal, plain, List.length_cons] at hle
    exact ih hcleared (by omega)
  | bare n default ih =>
    rw [leftOver_bare, half, List.cons_append, List.append_assoc] at hcleared hle
    rw [cleared_bare] at hcleared
    have hbare := weight_bare n (half true default ++ (default.leftOver ++ half false rest))
    obtain ⟨-, hmost⟩ := weight_half_le hcleared
    rw [weight_leftOver] at hmost
    rw [plain] at hle
    obtain ⟨hshallow, hseparated⟩ := ih hcleared (by omega)
    have hdigits := List.length_eq_zero_iff.1 (by omega :
      ((half true default ++ (default.leftOver ++ half false rest)).takeWhile isDecimal).length = 0)
    exact ⟨hshallow, (takeWhile_half_append (takeWhile_half rest)).1 hdigits, hseparated⟩
  | braced n default _ =>
    rw [half, List.cons_append, List.cons_append, List.append_assoc] at hcleared hle
    obtain ⟨ds, t, heq, hinner, hweight⟩ := exists_of_cleared hcleared
    obtain ⟨-, hmost⟩ := weight_half_le hinner
    rw [weight_leftOver] at hmost
    rw [plain] at hle
    -- The partner is the closing brace of the whole placeholder, and there is nothing in front of it.
    obtain rfl := List.length_eq_zero_iff.1 (by omega : ds.length = 0)
    have hhollow : default.Hollow := hollow_of_half heq
    have hseparated : (default.append rest.unwrapped).Separated := separated_append_of_hollow hhollow hrest
    exact ⟨hhollow, hseparated⟩
  | placeholder n inner default => exact absurd hcleared (not_cleared_placeholder n inner default _)

theorem weight_half_le_plain (h : Cleared (half false p)) : weight (half false p) ≤ p.plain.length := by
  have hle := weight_half_le (s := []) (by rwa [List.append_nil])
  rw [List.append_nil] at hle
  exact hle.2

theorem shallow_defaults_of_weight (hcleared : Cleared (half false p))
    (hle : p.plain.length ≤ weight (half false p)) :
    (∀ d ∈ p.defaults, d.Shallow) ∧ p.unwrapped.Separated := by
  induction p with
  | nil => exact ⟨List.forall_mem_nil _, trivial⟩
  | literal c rest ih =>
    rw [half, cleared_cons c.2.1] at hcleared
    rw [half, weight_literal, plain, List.length_cons] at hle
    exact ih hcleared (by omega)
  | bare n rest ih =>
    rw [half, cleared_bare] at hcleared
    rw [half, plain] at hle
    have hbare := weight_bare n (half false rest)
    have hmost := weight_half_le_plain hcleared
    obtain ⟨hshallow, hseparated⟩ := ih hcleared (by omega)
    have hdigits := List.length_eq_zero_iff.1 (by omega :
      ((half false rest).takeWhile isDecimal).length = 0)
    exact ⟨hshallow, (takeWhile_half rest).1 hdigits, hseparated⟩
  | braced n rest ih =>
    rw [half, cleared_braced] at hcleared
    rw [half, weight_braced] at hle
    exact ih hcleared hle
  | placeholder n default rest _ ih =>
    rw [half] at hcleared hle
    obtain ⟨hleft, hmost⟩ := weight_half_le hcleared
    rw [cleared_leftOver] at hleft
    rw [weight_leftOver] at hmost
    rw [plain, List.length_append] at hle
    have hmost' := weight_half_le_plain hleft
    obtain ⟨hshallow, hseparated⟩ := ih hleft (by omega)
    obtain ⟨hdefault, happend⟩ := shallow_of_weight hcleared (by omega) hseparated
    exact ⟨List.forall_mem_cons.2 ⟨hdefault, hshallow⟩, happend⟩

theorem dropWhile_eq_self (h : s.takeWhile isDecimal = []) : s.dropWhile isDecimal = s := by
  conv_rhs => rw [← List.takeWhile_append_dropWhile (p := isDecimal) (l := s), h, List.nil_append]

theorem withoutTabstops_default (hdefault : default.Shallow)
    (h : (default.append rest.unwrapped).Separated) :
    withoutTabstops (half true default ++ (default.leftOver ++ half false rest)) =
      default.plain ++ withoutTabstops (half false rest) := by
  induction default with
  | nil => rfl
  | literal c default ih =>
    rw [leftOver_literal, half, List.cons_append, withoutTabstops_of_ne c.2.1, ih hdefault h, plain,
      List.cons_append]
  | bare n default ih =>
    have hdigits := (takeWhile_half_append (takeWhile_half rest)).2 h.1
    rw [leftOver_bare, half, List.cons_append, List.append_assoc, withoutTabstops_bare,
      dropWhile_eq_self hdigits, ih hdefault h.2, plain]
  | braced n default =>
    obtain ⟨hhalf, hplain⟩ := half_eq_nil_of_hollow hdefault
    rw [half, List.cons_append, List.cons_append, List.append_assoc, hhalf, plain, hplain]
    exact withoutTabstops_braced n _
  | placeholder n inner default => cases hdefault

theorem withoutTabstops_half (hdefaults : ∀ d ∈ p.defaults, d.Shallow) (h : p.unwrapped.Separated) :
    withoutTabstops (half false p) = p.plain := by
  induction p with
  | nil => rfl
  | literal c rest ih => rw [half, withoutTabstops_of_ne c.2.1, ih hdefaults h, plain]
  | bare n rest ih =>
    rw [half, withoutTabstops_bare, dropWhile_eq_self ((takeWhile_half rest).2 h.1), ih hdefaults h.2, plain]
  | braced n rest ih => rw [half, withoutTabstops_braced, ih hdefaults h, plain]
  | placeholder n default rest _ ih =>
    obtain ⟨hdefault, hrest⟩ := List.forall_mem_cons.1 hdefaults
    rw [half, withoutTabstops_default hdefault h, ih hrest (separated_of_append h), plain]

theorem plain_literal (p : Snippet) : ∀ c ∈ p.plain, c ≠ '$' ∧ c ≠ '\x7d' := by
  induction p with
  | nil => exact List.forall_mem_nil _
  | literal c rest ih => exact List.forall_mem_cons.2 ⟨⟨c.2.1, c.2.2.1⟩, ih⟩
  | placeholder n default rest ihdefault ihrest => exact List.forall_mem_append.2 ⟨ihdefault, ihrest⟩
  | _ => assumption

/-- A snippet is stripped down to its plain text just when every default of a placeholder that is not in
another one is shallow, and no tabstop stands right before a digit once the defaults are filled in. -/
theorem strip_render_iff (p : Snippet) :
    strip p.render = p.plain ↔ (∀ d ∈ p.defaults, d.Shallow) ∧ p.unwrapped.Separated := by
  rw [strip_render]
  refine ⟨fun h => ?_, fun h => withoutTabstops_half h.1 h.2⟩
  have hplain := plain_literal p
  refine shallow_defaults_of_weight ?_ ?_
  · rw [Cleared, h]
    exact fun hmem => (hplain _ hmem).1 rfl
  · rw [weight, h, List.countP_eq_length.2 fun c hc => bne_iff_ne.2 (hplain c hc).2]

/-- A placeholder within a placeholder. -/
example : strip "$\x7b1:a$\x7b2:b\x7d\x7d".toList = "a$\x7b2:b\x7d".toList := by rfl

end Snippet

end LuaLens
