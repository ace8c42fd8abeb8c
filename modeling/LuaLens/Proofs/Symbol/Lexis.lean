import LuaLens.Proofs.Text.Cut
import LuaLens.Symbol.Extract

/-!
Strings and comments of Lua, character by character. The reader of a source looks for brackets on each
line by itself and knows no quotes. What it finds to be left open on a line is what the rules of the
language leave open on the line without its quotes.
-/

namespace LuaLens

open Text

/-- What a scan by the rules of the language is in the middle of. -/
inductive Lexis
  | code
  /-- In code, after a dash. -/
  | dash
  /-- After the two dashes of a comment. -/
  | dashes
  /-- After an opening bracket and some equals signs, at the start of a comment or in code. -/
  | bracket (inComment : Bool) (level : Nat)
  /-- In a comment that ends with its line. -/
  | comment
  | quoted (quote : Char)
  /-- In a quoted string, after a backslash. -/
  | escaped (quote : Char)
  /-- In a quoted string, after `\z`, which skips white space and the ends of lines. -/
  | skipped (quote : Char)
  /-- In a long string or a block comment. -/
  | long (level : Nat)
  /-- In a long string or a block comment, after a closing bracket and some equals signs. -/
  | closing (level count : Nat)
deriving DecidableEq, Repr

namespace Lexis

/-- What begins with a character of code. -/
def enter (c : Char) : Lexis :=
  if c = '-' then .dash else if c = '[' then .bracket false 0
  else if c = '"' ∨ c = '\'' then .quoted c else .code

/-- The end of a line ends a comment and a quoted string, unless a backslash is before it. -/
def endLine : Lexis → Lexis
  | .escaped q => .quoted q
  | .skipped q => .skipped q
  | .long n | .closing n _ => .long n
  | _ => .code

def inQuotes (q c : Char) : Lexis :=
  if c = '\\' then .escaped q else if c = q then .code else .quoted q

def next : Lexis → Char → Lexis
  | .code, c => enter c
  | .dash, c => if c = '-' then .dashes else enter c
  | .dashes, c => if c = '[' then .bracket true 0 else .comment
  | .bracket inComment n, c =>
    if c = '=' then .bracket inComment (n + 1) else if c = '[' then .long n
    else if inComment then .comment else enter c
  | .comment, _ => .comment
  | .quoted q, c => inQuotes q c
  | .escaped q, c => if c = 'z' then .skipped q else .quoted q
  | .skipped q, c =>
    if c = ' ' ∨ c = '\t' ∨ c = '\x0b' ∨ c = '\x0c' then .skipped q else inQuotes q c
  | .long n, c => if c = ']' then .closing n 0 else .long n
  | .closing n k, c =>
    if c = '=' ∧ k < n then .closing n (k + 1)
    else if c = ']' then (if k = n then .code else .closing n 0) else .long n

/-- A carriage return ends a line wherever it stands. -/
def step (z : Lexis) (c : Char) : Lexis := if c = '\r' then z.endLine else z.next c

/-- What the next line begins in. -/
def after (z : Lexis) (line : List Char) : Lexis := (line.foldl step z).endLine

/-- The level of the long string or block comment that it is in. -/
def level? : Lexis → Option Nat
  | .long n | .closing n _ => some n
  | _ => none

variable {z : Lexis} {s rest : List Char} {c : Char} {n k : Nat}

theorem after_cons (z : Lexis) (c : Char) (s : List Char) : z.after (c :: s) = (z.step c).after s := rfl

/-! ### Closing brackets -/

/-- The bracket that closes a long string or block comment of a level. -/
def closer (n : Nat) : List Char := closingBracket (List.replicate n '=')

/-- What comes after the first closing bracket of a level. -/
def afterCloser (n : Nat) (s : List Char) : Option (List Char) := (cut (closer n) s).map (·.2)

theorem afterCloser_cons_of_ne (hc : c ≠ ']') (n : Nat) (s : List Char) :
    afterCloser n (c :: s) = afterCloser n s := by
  have hno : (closer n).isPrefixOf? (c :: s) = none := by
    simp [closer, closingBracket, List.isPrefixOf?, hc.symm]
  rw [afterCloser, cut, hno, Option.map_map]
  rfl

theorem afterCloser_replicate (n k : Nat) (s : List Char) :
    afterCloser n (List.replicate k '=' ++ s) = afterCloser n s := by
  induction k with
  | zero => rfl
  | succ k ih => rw [List.replicate_succ, List.cons_append, afterCloser_cons_of_ne (by decide), ih]

theorem isPrefixOf?_closer (k j : Nat) (s : List Char) :
    (closer (k + j)).isPrefixOf? (']' :: (List.replicate k '=' ++ s)) =
      (List.replicate j '=' ++ [']']).isPrefixOf? s := by
  have hequals : (List.replicate (k + j) '=' ++ [']']).isPrefixOf? (List.replicate k '=' ++ s) =
      (List.replicate j '=' ++ [']']).isPrefixOf? s := by
    induction k with
    | zero => rw [Nat.zero_add, List.replicate_zero, List.nil_append]
    | succ k ih => simpa [Nat.succ_add, List.replicate_succ, List.isPrefixOf?] using ih
  rw [← hequals]
  simp [closer, closingBracket, List.isPrefixOf?]

/-- How the search goes on after a closing bracket and `k` equals signs. -/
theorem afterCloser_closing (hk : k ≤ n) (c : Char) (s : List Char) :
    afterCloser n (']' :: (List.replicate k '=' ++ c :: s)) =
      if c = '=' ∧ k < n then afterCloser n (']' :: (List.replicate (k + 1) '=' ++ s))
      else if c = ']' then (if k = n then some s else afterCloser n (']' :: s))
      else afterCloser n s := by
  obtain ⟨j, rfl⟩ := Nat.exists_eq_add_of_le hk
  -- What is no closing bracket of this level is passed over with its equals signs.
  have hpass (hno : (List.replicate j '=' ++ [']']).isPrefixOf? (c :: s) = none) :
      afterCloser (k + j) (']' :: (List.replicate k '=' ++ c :: s)) =
        afterCloser (k + j) (c :: s) := by
    rw [afterCloser, cut, isPrefixOf?_closer, hno, Option.map_map]
    exact afterCloser_replicate (k + j) k (c :: s)
  by_cases heq : c = '=' ∧ k < k + j
  · rw [if_pos heq, heq.1, List.replicate_succ', List.append_assoc, List.singleton_append]
  rw [if_neg heq]
  by_cases hc : c = ']'
  · subst hc
    rw [if_pos rfl]
    by_cases hj : k = k + j
    · obtain rfl : j = 0 := by omega
      have hyes : (List.replicate 0 '=' ++ [']']).isPrefixOf? (']' :: s) = some s := rfl
      rw [if_pos hj, afterCloser, cut, isPrefixOf?_closer, hyes]
      rfl
    · obtain ⟨i, rfl⟩ := Nat.exists_eq_succ_of_ne_zero (n := j) (by omega)
      rw [if_neg hj, hpass rfl]
  · have hno : (List.replicate j '=' ++ [']']).isPrefixOf? (c :: s) = none := by
      cases j with
      | zero => simp [List.isPrefixOf?, Ne.symm hc]
      | succ j =>
        have hequals : c ≠ '=' := fun h => heq ⟨h, by omega⟩
        simp [List.replicate_succ, List.isPrefixOf?, hequals.symm]
    rw [if_neg hc, hpass hno, afterCloser_cons_of_ne hc]

theorem afterCloser_open (hk : k ≤ n) : afterCloser n (']' :: List.replicate k '=') = none := by
  obtain ⟨j, rfl⟩ := Nat.exists_eq_add_of_le hk
  have hno : (List.replicate j '=' ++ [']']).isPrefixOf? [] = none := by cases j <;> rfl
  have hprefix := isPrefixOf?_closer k j []
  rw [List.append_nil] at hprefix
  have hrest := afterCloser_replicate (k + j) k []
  rw [List.append_nil] at hrest
  rw [afterCloser, cut, hprefix, hno, Option.map_map]
  exact hrest

theorem step_long (n : Nat) (c : Char) : (long n).step c = if c = ']' then .closing n 0 else .long n := by
  by_cases hc : c = '\r'
  · rw [hc]
    rfl
  · rw [step, if_neg hc, next]

theorem step_closing (n k : Nat) (c : Char) : (closing n k).step c =
    if c = '=' ∧ k < n then .closing n (k + 1)
    else if c = ']' then (if k = n then .code else .closing n 0) else .long n := by
  by_cases hc : c = '\r'
  · rw [hc]
    rfl
  · rw [step, if_neg hc, next]

section

variable {f : Char → Char} (hclose : ∀ c, f c = ']' ↔ c = ']') (hequals : ∀ c, f c = '=' ↔ c = '=')
include hclose hequals

/-- The scan of a long string finds what the search for its closing bracket finds. -/
theorem after_map (s : List Char) (n : Nat) :
    (long n).after (s.map f) =
      (afterCloser n s).elim (.long n) (fun rest => code.after (rest.map f)) ∧
    ∀ k ≤ n, (closing n k).after (s.map f) =
      (afterCloser n (']' :: (List.replicate k '=' ++ s))).elim (.long n)
        fun rest => code.after (rest.map f) := by
  induction s with
  | nil =>
    refine ⟨rfl, fun k hk => ?_⟩
    rw [List.append_nil, afterCloser_open hk]
    rfl
  | cons c s ih =>
    obtain ⟨hlong, hclosing⟩ := ih
    have hfresh := hclosing 0 (Nat.zero_le n)
    rw [List.replicate_zero, List.nil_append] at hfresh
    refine ⟨?_, fun k hk => ?_⟩
    · rw [List.map_cons, after_cons, step_long]
      by_cases hc : c = ']'
      · rw [if_pos ((hclose c).2 hc), hfresh, hc]
      · rw [if_neg fun h => hc ((hclose c).1 h), hlong, afterCloser_cons_of_ne hc]
    · rw [List.map_cons, after_cons, step_closing, afterCloser_closing hk]
      simp only [hequals, hclose]
      split_ifs with heq hc hn
      · exact hclosing (k + 1) heq.2
      · rfl
      · exact hfresh
      · exact hlong

end

/-- A long string or block comment goes on up to the first closing bracket of its level. -/
theorem after_long (n : Nat) (s : List Char) :
    (long n).after s = (afterCloser n s).elim (.long n) code.after := by
  have hmap := (after_map (f := id) (fun _ => Iff.rfl) (fun _ => Iff.rfl) s n).1
  simpa using hmap

/-! ### Lines without quotes -/

/-- A quote or a carriage return is a blank like any other. -/
def mute (c : Char) : Char := if c = '"' ∨ c = '\'' ∨ c = '\r' then ' ' else c

/-- A line without its quotes, so that each bracket on it counts. -/
def muted (line : List Char) : List Char := line.map mute

theorem mute_eq_iff {d : Char} (hd : d ≠ ' ') (hm : mute d = d) (c : Char) : mute c = d ↔ c = d := by
  constructor
  · intro h
    rw [mute] at h
    split_ifs at h
    · exact absurd h.symm hd
    · exact h
  · rintro rfl
    exact hm

@[simp] theorem mute_eq_dash (c : Char) : mute c = '-' ↔ c = '-' := mute_eq_iff (by decide) rfl c
@[simp] theorem mute_eq_open (c : Char) : mute c = '[' ↔ c = '[' := mute_eq_iff (by decide) rfl c
@[simp] theorem mute_eq_equals (c : Char) : mute c = '=' ↔ c = '=' := mute_eq_iff (by decide) rfl c
@[simp] theorem mute_eq_close (c : Char) : mute c = ']' ↔ c = ']' := mute_eq_iff (by decide) rfl c

theorem enter_mute (c : Char) :
    enter (mute c) = if c = '-' then .dash else if c = '[' then .bracket false 0 else .code := by
  have hquote : ¬ (mute c = '"' ∨ mute c = '\'') := by
    rw [mute]
    split_ifs with h <;> simp_all
  rw [enter, if_neg hquote]
  simp only [mute_eq_dash, mute_eq_open]

theorem after_muted_cons (z : Lexis) (c : Char) (s : List Char) :
    z.after (muted (c :: s)) = (z.next (mute c)).after (muted s) := by
  have hreturn : mute c ≠ '\r' := by
    rw [mute]
    split_ifs with h <;> simp_all
  rw [muted, List.map_cons, after_cons, step, if_neg hreturn]
  rfl

theorem after_long_muted (n : Nat) (s : List Char) :
    (long n).after (muted s) = (afterCloser n s).elim (.long n) fun rest => code.after (muted rest) :=
  (after_map mute_eq_close mute_eq_equals s n).1

theorem after_comment_muted (s : List Char) : comment.after (muted s) = .code := by
  induction s with
  | nil => rfl
  | cons c s ih => rw [after_muted_cons, next, ih]

/-- A dash that is not followed by another is of no matter. -/
theorem after_dash_muted (h : s.head? ≠ some '-') : dash.after (muted s) = code.after (muted s) := by
  cases s with
  | nil => rfl
  | cons c s =>
    have hc : c ≠ '-' := by simpa using h
    rw [after_muted_cons, after_muted_cons, next, next, if_neg (by simpa using hc)]

/-- A bracket that opens nothing is of no matter. -/
theorem after_bracket_muted (h : (s.dropWhile (· == '=')).head? ≠ some '[') (n : Nat) :
    (bracket false n).after (muted s) = code.after (muted s) := by
  induction s generalizing n with
  | nil => rfl
  | cons c s ih =>
    rw [after_muted_cons, after_muted_cons, next, next]
    by_cases hc : c = '='
    · subst hc
      rw [List.dropWhile_cons_of_pos rfl] at h
      rw [if_pos ((mute_eq_equals _).2 rfl), ih h]
      rfl
    · rw [List.dropWhile_cons_of_neg (by simpa using hc), List.head?_cons] at h
      have hopen : c ≠ '[' := fun hopen => h (by rw [hopen])
      rw [if_neg (by simpa using hc), if_neg (by simpa using hopen)]
      rfl

/-- A comment without a bracket right after its dashes ends with its line. -/
theorem after_bracketComment_muted (h : (s.dropWhile (· == '=')).head? ≠ some '[') (n : Nat) :
    (bracket true n).after (muted s) = .code := by
  induction s generalizing n with
  | nil => rfl
  | cons c s ih =>
    rw [after_muted_cons, next]
    by_cases hc : c = '='
    · subst hc
      rw [List.dropWhile_cons_of_pos rfl] at h
      rw [if_pos ((mute_eq_equals _).2 rfl), ih h]
    · rw [List.dropWhile_cons_of_neg (by simpa using hc), List.head?_cons] at h
      have hopen : c ≠ '[' := fun hopen => h (by rw [hopen])
      rw [if_neg (by simpa using hc), if_neg (by simpa using hopen), if_pos rfl, after_comment_muted]

/-- Equals signs and a second bracket open a long string or block comment. -/
theorem after_opening_muted (inComment : Bool) (n k : Nat) (s : List Char) :
    (bracket inComment n).after (muted (List.replicate k '=' ++ '[' :: s)) =
      (long (n + k)).after (muted s) := by
  induction k generalizing n with
  | zero =>
    rw [List.replicate_zero, List.nil_append, after_muted_cons]
    rfl
  | succ k ih =>
    rw [List.replicate_succ, List.cons_append, after_muted_cons]
    show (bracket inComment (n + 1)).after _ = _
    rw [ih, Nat.add_right_comm, Nat.add_assoc]

/-! ### What is left open -/

theorem longBracket_eq_some {level : List Char} (h : longBracket s = some (level, rest)) :
    level = List.replicate level.length '=' ∧
      (s = '-' :: '-' :: '[' :: (level ++ '[' :: rest) ∨ s = '[' :: (level ++ '[' :: rest)) := by
  rw [longBracket] at h
  split at h
  · cases h
  · rename_i t ht
    split at h
    · rename_i r hr
      obtain ⟨rfl, rfl⟩ : t.takeWhile (· == '=') = level ∧ r = rest := by simpa using h
      have hlevel : ∀ c ∈ t.takeWhile (· == '='), c = '=' := by
        intro c hc
        simpa using List.mem_takeWhile_imp hc
      have htext : t.takeWhile (· == '=') ++ '[' :: r = t := by
        rw [← hr, List.takeWhile_append_dropWhile]
      refine ⟨List.eq_replicate_of_mem hlevel, ?_⟩
      rw [htext]
      rw [Option.orElse_eq_orElse, Option.orElse_eq_or, Option.or_eq_some_iff] at ht
      simp only [List.isPrefixOf?_eq_some_iff_append_eq] at ht
      exact ht.imp Eq.symm fun ht => ht.2.symm
    · cases h

theorem head?_of_longBracket (h : longBracket ('[' :: s) = none) :
    (s.dropWhile (· == '=')).head? ≠ some '[' := by
  intro hhead
  obtain ⟨r, hr⟩ := List.head?_eq_some_iff.1 hhead
  simp [longBracket, List.isPrefixOf?, hr] at h

theorem head?_of_longBracket_comment (h : longBracket ('-' :: '-' :: '[' :: s) = none) :
    (s.dropWhile (· == '=')).head? ≠ some '[' := by
  intro hhead
  obtain ⟨r, hr⟩ := List.head?_eq_some_iff.1 hhead
  simp [longBracket, List.isPrefixOf?, hr] at h

theorem after_longBracket {level : List Char} (h : longBracket s = some (level, rest)) :
    code.after (muted s) = (long level.length).after (muted rest) := by
  obtain ⟨hlevel, rfl | rfl⟩ := longBracket_eq_some h
  · rw [after_muted_cons, after_muted_cons, after_muted_cons, hlevel]
    show (bracket true 0).after _ = _
    rw [after_opening_muted, Nat.zero_add, ← hlevel]
  · rw [after_muted_cons, hlevel]
    show (bracket false 0).after _ = _
    rw [after_opening_muted, Nat.zero_add, ← hlevel]

theorem after_lineComment (h : longBracket ('-' :: '-' :: s) = none) :
    code.after (muted ('-' :: '-' :: s)) = .code := by
  rw [after_muted_cons, after_muted_cons]
  show dashes.after (muted s) = .code
  cases s with
  | nil => rfl
  | cons c s =>
    rw [after_muted_cons, next]
    by_cases hc : c = '['
    · subst hc
      rw [if_pos ((mute_eq_open _).2 rfl)]
      exact after_bracketComment_muted (head?_of_longBracket_comment h) 0
    · rw [if_neg (by simpa using hc)]
      exact after_comment_muted s

/-- What opens neither a long bracket nor a comment is passed over. -/
theorem after_other (h : longBracket (c :: s) = none) (hc : c = '-' → s.head? ≠ some '-') :
    code.after (muted (c :: s)) = code.after (muted s) := by
  rw [after_muted_cons, next, enter_mute]
  split_ifs with hdash hopen
  · exact after_dash_muted (hc hdash)
  · rw [hopen] at h
    exact after_bracket_muted (head?_of_longBracket h) 0
  · rfl

theorem after_firstLongBracket? (s : List Char) : code.after (muted s) =
    (firstLongBracket? s).elim .code fun found => (long found.1.length).after (muted found.2) := by
  induction s with
  | nil => rfl
  | cons c s ih =>
    rw [firstLongBracket?]
    cases hfound : longBracket (c :: s) with
    | some found => exact after_longBracket hfound
    | none =>
      dsimp only
      split_ifs with hcomment
      · obtain ⟨t, ht⟩ := List.isPrefixOf_iff_prefix.1 hcomment
        rw [← ht] at hfound ⊢
        exact after_lineComment hfound
      · rw [← ih]
        refine after_other hfound ?_
        rintro rfl hdash
        obtain ⟨t, rfl⟩ := List.head?_eq_some_iff.1 hdash
        exact hcomment rfl

theorem length_of_firstLongBracket? {level : List Char}
    (h : firstLongBracket? s = some (level, rest)) :
    level = List.replicate level.length '=' ∧ rest.length < s.length := by
  induction s with
  | nil => cases h
  | cons c s ih =>
    rw [firstLongBracket?] at h
    split at h
    · rename_i found hfound
      obtain rfl := Option.some.inj h
      obtain ⟨hlevel, htext⟩ := longBracket_eq_some hfound
      refine ⟨hlevel, ?_⟩
      obtain htext | htext := htext
      · rw [htext]
        simp
        omega
      · rw [htext]
        simp
        omega
    · split_ifs at h
      obtain ⟨hlevel, hlength⟩ := ih h
      exact ⟨hlevel, Nat.lt_succ_of_lt hlength⟩

/-- What the reader finds to be left open is what is left open without quotes. -/
theorem unclosedBracketWithin_eq {fuel : Nat} (h : s.length < fuel) :
    unclosedBracketWithin fuel s = (code.after (muted s)).level?.map closer := by
  rw [after_firstLongBracket?]
  fun_induction unclosedBracketWithin fuel s with
  | case1 => cases h
  | case2 fuel s hfirst =>
    rw [hfirst]
    rfl
  | case3 fuel s level after hfirst before rest hcut ih =>
    obtain ⟨hlevel, hlength⟩ := length_of_firstLongBracket? hfirst
    have hclosed : afterCloser level.length after = some rest := by
      rw [afterCloser, closer, ← hlevel, hcut]
      rfl
    have hrest := congrArg List.length (cut_eq_some hcut)
    simp only [List.length_append] at hrest
    rw [hfirst, Option.elim_some, after_long_muted, hclosed, Option.elim_some,
      after_firstLongBracket? rest]
    exact ih (by omega)
  | case4 fuel s level after hfirst hcut =>
    have hlevel := (length_of_firstLongBracket? hfirst).1
    have hclosed : afterCloser level.length after = none := by
      rw [afterCloser, closer, ← hlevel, hcut]
      rfl
    rw [hfirst, Option.elim_some, after_long_muted, hclosed, Option.elim_none, level?,
      Option.map_some, closer, ← hlevel]

theorem unclosedBracket?_eq (s : List Char) :
    unclosedBracket? s = (code.after (muted s)).level?.map closer :=
  unclosedBracketWithin_eq (Nat.lt_succ_self s.length)

theorem exists_level_of_unclosedBracket? {line closing : List Char}
    (h : unclosedBracket? line = some closing) :
    ∃ n, (code.after (muted line)).level? = some n ∧ closing = closer n := by
  rw [unclosedBracket?_eq, Option.map_eq_some_iff] at h
  obtain ⟨n, hn, rfl⟩ := h
  exact ⟨n, hn, rfl⟩

/-! ### Lines without opening brackets -/

theorem level?_endLine (z : Lexis) : z.endLine.level? = z.level? := by
  cases z <;> rfl

theorem level?_next_of_ne (hz : z.level? = none) (hc : c ≠ '[') : (z.next c).level? = none := by
  have henter : (enter c).level? = none := by
    rw [enter, if_neg hc]
    split_ifs <;> rfl
  have hquotes (q : Char) : (inQuotes q c).level? = none := by
    rw [inQuotes]
    split_ifs <;> rfl
  cases z with
  | code => exact henter
  | dash => rw [next]; split_ifs <;> first | rfl | exact henter
  | dashes => rw [next, if_neg hc]; rfl
  | bracket inComment n => rw [next, if_neg hc]; split_ifs <;> first | rfl | exact henter
  | comment => rfl
  | quoted q => exact hquotes q
  | escaped q => rw [next]; split_ifs <;> rfl
  | skipped q => rw [next]; split_ifs <;> first | rfl | exact hquotes q
  | long n => cases hz
  | closing n k => cases hz

/-- Without an opening bracket no long string and no block comment begins. -/
theorem level?_after_of_not_mem (hz : z.level? = none) (hs : '[' ∉ s) : (z.after s).level? = none := by
  induction s generalizing z with
  | nil => rw [after, List.foldl_nil, level?_endLine, hz]
  | cons c s ih =>
    have hc : c ≠ '[' := fun hc => hs (hc ▸ List.mem_cons_self)
    refine ih ?_ fun hmem => hs (List.mem_cons_of_mem _ hmem)
    rw [step]
    split
    · rw [level?_endLine, hz]
    · exact level?_next_of_ne hz hc

theorem open_not_mem_muted (hs : '[' ∉ s) : '[' ∉ muted s := by
  rw [muted, List.mem_map]
  rintro ⟨c, hc, hopen⟩
  rw [mute_eq_open] at hopen
  exact hs (hopen ▸ hc)

theorem unclosedBracket?_of_not_mem (hs : '[' ∉ s) : unclosedBracket? s = none := by
  rw [unclosedBracket?_eq, level?_after_of_not_mem rfl (open_not_mem_muted hs), Option.map_none]

theorem afterCloser_closer_self (n : Nat) : afterCloser n (closer n) = some [] := by
  show afterCloser n (']' :: (List.replicate n '=' ++ [']'])) = some []
  rw [afterCloser_closing (Nat.le_refl n), if_neg (by simp), if_pos rfl, if_pos rfl]

/-- A closing bracket of another level closes nothing. -/
theorem afterCloser_closer {m : Nat} (h : n ≠ m) : afterCloser n (closer m) = none := by
  have hlast : afterCloser n [']'] = none := afterCloser_open (Nat.zero_le n)
  show afterCloser n (']' :: (List.replicate m '=' ++ [']'])) = none
  obtain hlt | hlt := Nat.lt_or_gt_of_ne h
  · -- There are more equals signs than the level has.
    obtain ⟨j, rfl⟩ := Nat.exists_eq_add_of_lt hlt
    have hsplit : List.replicate (n + j + 1) '=' ++ [']'] =
        List.replicate n '=' ++ '=' :: (List.replicate j '=' ++ [']']) := by
      rw [Nat.add_assoc, List.replicate_add, List.replicate_succ, List.append_assoc, List.cons_append]
    rw [hsplit, afterCloser_closing (Nat.le_refl n), if_neg (by simp), if_neg (by decide),
      afterCloser_replicate, hlast]
  · rw [afterCloser_closing (Nat.le_of_lt hlt), if_neg (by simp), if_pos rfl,
      if_neg (Nat.ne_of_lt hlt), hlast]

theorem contains_closer (n : Nat) (s : List Char) :
    contains (closer n) s = (afterCloser n s).isSome := by
  rw [contains, afterCloser, Option.isSome_map]

theorem level?_after_long_of_not_mem (hs : '[' ∉ s) (h : contains (closer n) s = true) :
    ((long n).after s).level? = none := by
  obtain ⟨⟨before, rest⟩, hcut⟩ := Option.isSome_iff_exists.1 h
  have hrest : '[' ∉ rest := by
    intro hmem
    apply hs
    rw [cut_eq_some hcut]
    exact List.mem_append_right _ hmem
  rw [after_long, afterCloser, hcut]
  exact level?_after_of_not_mem rfl hrest

end Lexis

end LuaLens
