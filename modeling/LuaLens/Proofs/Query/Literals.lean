import LuaLens.Proofs.Query.Brackets

/-!
What stands in quoted strings and in comments is of no matter to signature help. A scan that knows in
which kind of text it is says where masking goes on, so that the contents of a literal are blanks; and
neither the scan for brackets nor the name before one can tell how many blanks there are.
-/

namespace LuaLens.Query

open Text

variable {pre b s u v : List Char} {c q : Char}

/-! ### Where the scan for literals stands -/

def isQuote (c : Char) : Bool := c == '"' || c == '\''

/-- The kind of text that a scan is in. -/
inductive Zone
  | code
  /-- In code, after a dash that begins a comment if another one follows. -/
  | dash
  | comment
  | string (quote : Char)
  /-- In a string, after a backslash. -/
  | escape (quote : Char)
deriving DecidableEq, Repr

namespace Zone

def next : Zone → Char → Zone
  | .code, c => if isQuote c then .string c else if c == '-' then .dash else .code
  | .dash, c => if c == '-' then .comment else if isQuote c then .string c else .code
  | .comment, c => if c == '\n' then .code else .comment
  | .string q, c => if c == '\\' then .escape q else if c == q || c == '\n' then .code else .string q
  | .escape q, _ => .string q

/-- The kind of text after a text. -/
def after (s : List Char) : Zone := s.foldl next .code

/-- Outside strings and comments. -/
def IsCode (z : Zone) : Prop := z = .code ∨ z = .dash

instance (z : Zone) : Decidable z.IsCode := inferInstanceAs (Decidable (_ ∨ _))

/-- How masking goes on. It looks one character back after a dash and after a backslash. -/
def resume : Zone → List Char → List Char
  | .code, s => mask s
  | .dash, s => mask ('-' :: s)
  | .comment, s => maskComment s
  | .string q, s => maskString q s
  | .escape q, s => maskString q ('\\' :: s)

end Zone

/-! ### Masking goes on -/

theorem mask_quote (h : isQuote q = true) (s : List Char) : mask (q :: s) = q :: maskString q s := by
  have hdash : ∀ t, q = '-' → s = '-' :: t → False := by
    rintro t rfl
    cases h
  rw [isQuote] at h
  rw [mask.eq_3 q s hdash, if_pos h]

theorem mask_other (hq : isQuote c = false) (h : c ≠ '-' ∨ s.head? ≠ some '-') :
    mask (c :: s) = c :: mask s := by
  have hdash : ∀ t, c = '-' → s = '-' :: t → False := by
    rintro t rfl rfl
    simp at h
  rw [isQuote] at hq
  rw [mask.eq_3 c s hdash, if_neg (by simp [hq])]

theorem maskString_other (h : c ≠ '\\') (hq : c ≠ q) (hn : c ≠ '\n') (s : List Char) :
    maskString q (c :: s) = ' ' :: maskString q s := by
  rw [maskString.eq_3 q c s (fun _ _ hc => absurd hc h), if_neg (by simp [hq, hn])]

theorem maskString_end (h : c ≠ '\\') (hc : c = q ∨ c = '\n') (s : List Char) :
    maskString q (c :: s) = c :: mask s := by
  rw [maskString.eq_3 q c s (fun _ _ hc => absurd hc h), if_pos (by simpa using hc)]

/-- One more character is masked, and then it goes on in the next kind of text. -/
theorem Zone.resume_cons (z : Zone) (c : Char) :
    ∃ lead, ∀ s, z.resume (c :: s) = lead ++ (z.next c).resume s := by
  cases z with
  | code =>
    cases hq : isQuote c with
    | true => exact ⟨[c], fun s => by simp [resume, next, hq, mask_quote hq]⟩
    | false =>
      by_cases hd : c = '-'
      · exact ⟨[], fun s => by simp [resume, next, hd, isQuote]⟩
      · exact ⟨[c], fun s => by simp [resume, next, hq, hd, mask_other hq (.inl hd)]⟩
  | dash =>
    by_cases hd : c = '-'
    · exact ⟨[' ', ' '], fun s => by simp [resume, next, hd, mask]⟩
    · have hdash (s : List Char) : mask ('-' :: c :: s) = '-' :: mask (c :: s) :=
        mask_other rfl (.inr (by simpa using hd))
      cases hq : isQuote c with
      | true => exact ⟨['-', c], fun s => by simp [resume, next, hq, hd, hdash, mask_quote hq]⟩
      | false =>
        exact ⟨['-', c], fun s => by simp [resume, next, hq, hd, hdash, mask_other hq (.inl hd)]⟩
  | comment =>
    by_cases hn : c = '\n'
    · exact ⟨[c], fun s => by simp [resume, next, hn, maskComment]⟩
    · exact ⟨[' '], fun s => by simp [resume, next, hn, maskComment]⟩
  | string q =>
    by_cases hb : c = '\\'
    · exact ⟨[], fun s => by simp [resume, next, hb]⟩
    · by_cases he : c = q ∨ c = '\n'
      · exact ⟨[c], fun s => by simp [resume, next, hb, he, maskString_end hb he]⟩
      · obtain ⟨hq, hn⟩ := not_or.1 he
        exact ⟨[' '], fun s => by simp [resume, next, hb, hq, hn, maskString_other hb hq hn]⟩
  | escape q => exact ⟨[' ', ' '], fun s => by simp [resume, next, maskString]⟩

/-- After a text masking goes on by the kind of text that the scan is in then. -/
theorem mask_append (u : List Char) : ∃ lead, ∀ v, mask (u ++ v) = lead ++ (Zone.after u).resume v := by
  induction u using List.reverseRecOn with
  | nil => exact ⟨[], fun v => rfl⟩
  | append_singleton u c ih =>
    obtain ⟨lead, hlead⟩ := ih
    obtain ⟨more, hmore⟩ := (Zone.after u).resume_cons c
    have hafter : Zone.after (u ++ [c]) = (Zone.after u).next c := by simp [Zone.after]
    refine ⟨lead ++ more, fun v => ?_⟩
    rw [List.append_assoc, List.singleton_append, hlead, hmore, hafter, List.append_assoc]

/-- After code a text that does not begin with a dash is masked by itself. -/
theorem mask_append_of_isCode (h : (Zone.after u).IsCode) (hv : v.head? ≠ some '-') :
    mask (u ++ v) = mask u ++ mask v := by
  obtain ⟨lead, hlead⟩ := mask_append u
  have hu := hlead []
  rw [List.append_nil] at hu
  obtain h | h := h
  · rw [hlead, hu, h, Zone.resume, Zone.resume, mask, List.append_nil]
  · rw [hlead, hu, h, Zone.resume, Zone.resume, mask_other rfl (.inr hv),
      mask_other rfl (.inr (by simp)), mask, List.append_assoc, List.singleton_append]

/-! ### Literals are blank -/

/-- The characters that can stand in a string without an escape. -/
def IsContent (q : Char) (s : List Char) : Prop := ∀ c ∈ s, c ≠ q ∧ c ≠ '\n' ∧ c ≠ '\\'

instance (q : Char) (s : List Char) : Decidable (IsContent q s) := List.decidableBAll _ s

theorem maskString_append (h : IsContent q u) (s : List Char) :
    maskString q (u ++ s) = List.replicate u.length ' ' ++ maskString q s := by
  induction u with
  | nil => rfl
  | cons c u ih =>
    obtain ⟨hq, hn, hb⟩ := h c List.mem_cons_self
    rw [List.cons_append, maskString_other hb hq hn, ih fun c hc => h c (List.mem_cons_of_mem _ hc)]
    rfl

theorem maskComment_append (h : '\n' ∉ u) (s : List Char) :
    maskComment (u ++ s) = List.replicate u.length ' ' ++ maskComment s := by
  induction u with
  | nil => rfl
  | cons c u ih =>
    obtain ⟨hc, hrest⟩ := not_or.1 (mt List.mem_cons.2 h)
    rw [List.cons_append, maskComment, if_neg (by simpa using Ne.symm hc), ih hrest]
    rfl

/-- Of a string nothing is left but its quotes. -/
theorem mask_string (hq : isQuote q = true) (h : (Zone.after pre).IsCode) (hu : IsContent q u)
    (post : List Char) :
    mask (pre ++ q :: u ++ q :: post) =
      mask pre ++ q :: List.replicate u.length ' ' ++ q :: mask post := by
  have hdash : q ≠ '-' := by
    rintro rfl
    cases hq
  have hback : q ≠ '\\' := by
    rintro rfl
    cases hq
  rw [List.append_assoc, List.cons_append, mask_append_of_isCode h (by simpa using hdash),
    mask_quote hq, maskString_append hu, maskString_end hback (.inl rfl), List.append_assoc,
    List.cons_append]

/-- Of a comment nothing is left but the end of its line. A dash before it belongs to it. -/
theorem mask_comment (h : (Zone.after pre).IsCode) (post : List Char) :
    ∃ lead n, ∀ u, '\n' ∉ u →
      mask (pre ++ '-' :: '-' :: u ++ '\n' :: post) =
        lead ++ List.replicate (u.length + n) ' ' ++ '\n' :: mask post := by
  obtain ⟨lead, hlead⟩ := mask_append pre
  have hend : maskComment ('\n' :: post) = '\n' :: mask post := by rw [maskComment, if_pos (by rfl)]
  obtain h | h := h
  · refine ⟨lead, 2, fun u hu => ?_⟩
    have hmask : mask ('-' :: '-' :: u ++ '\n' :: post) =
        ' ' :: ' ' :: maskComment (u ++ '\n' :: post) := rfl
    rw [List.append_assoc, hlead, h, Zone.resume, hmask, maskComment_append hu, hend]
    simp [List.replicate_succ]
  · refine ⟨lead, 3, fun u hu => ?_⟩
    have hmask : mask ('-' :: ('-' :: '-' :: u ++ '\n' :: post)) =
        ' ' :: ' ' :: ' ' :: maskComment (u ++ '\n' :: post) := rfl
    rw [List.append_assoc, hlead, h, Zone.resume, hmask, maskComment_append hu, hend]
    simp [List.replicate_succ]

/-! ### Blanks are of no matter -/

/-- What the backward scan finds in a text does not depend on what is before it, except for the calls
and the names before. -/
theorem openCall_append_congr (hcallee : ∀ s, calleeBefore (s ++ u) = calleeBefore (s ++ v))
    (hopen : ∀ d k, openCall d k u = openCall d k v) (s : List Char) (d k : Nat) :
    openCall d k (s ++ u) = openCall d k (s ++ v) := by
  induction s generalizing d k with
  | nil => exact hopen d k
  | cons c s ih =>
    rw [List.cons_append, List.cons_append, openCall, openCall]
    simp only [ih, hcallee]

theorem openCall_replicate (n d k : Nat) (b : List Char) :
    openCall d k (List.replicate n ' ' ++ b) = openCall d k b := by
  induction n with
  | zero => rfl
  | succ n ih => rw [List.replicate_succ, List.cons_append, openCall_other rfl rfl, if_neg (by simp), ih]

/-- A character that can be in a called name, qualified or not. -/
def isCalleePart (c : Char) : Bool := isNamePart c || isSeparator c

theorem calleeBefore_congr
    (h : (u.dropWhile isBlank).takeWhile isCalleePart = (v.dropWhile isBlank).takeWhile isCalleePart) :
    calleeBefore u = calleeBefore v := by
  have hname : (u.dropWhile isBlank).takeWhile (fun c => isNamePart c || isSeparator c) =
      (v.dropWhile isBlank).takeWhile fun c => isNamePart c || isSeparator c := h
  simp only [calleeBefore, hname]

theorem takeWhile_append_stop {p : Char → Bool} (h : p c = false) (s t : List Char) :
    (s ++ c :: t).takeWhile p = s.takeWhile p := by
  induction s with
  | nil => simp [h]
  | cons a s ih => simp only [List.cons_append, List.takeWhile_cons, ih]

/-- A name before a bracket reaches back to a character that is no part of it, at most. -/
theorem calleeBefore_stop (hb : isBlank c = false) (hc : isCalleePart c = false)
    (s u v : List Char) : calleeBefore (s ++ c :: u) = calleeBefore (s ++ c :: v) := by
  have hname (t : List Char) : ((s ++ c :: t).dropWhile isBlank).takeWhile isCalleePart =
      (s.dropWhile isBlank).takeWhile isCalleePart := by
    have hdrop : (s ++ c :: t).dropWhile isBlank = s.dropWhile isBlank ++ c :: t := by
      rw [List.dropWhile_append, List.dropWhile_cons_of_neg (by simp [hb])]
      split
      · rename_i hempty
        rw [List.isEmpty_iff.1 hempty, List.nil_append]
      · rfl
    rw [hdrop, takeWhile_append_stop hc]
  exact calleeBefore_congr ((hname u).trans (hname v).symm)

/-- Blanks before a bracket are passed over, and blanks before a name end it. -/
theorem calleeBefore_blanks (s b : List Char) (m n : Nat) :
    calleeBefore (s ++ '\n' :: (List.replicate m ' ' ++ b)) =
      calleeBefore (s ++ '\n' :: (List.replicate n ' ' ++ b)) := by
  have hname (n : Nat) : ((s ++ '\n' :: (List.replicate n ' ' ++ b)).dropWhile isBlank).takeWhile
      isCalleePart =
      if (s.dropWhile isBlank).isEmpty then (b.dropWhile isBlank).takeWhile isCalleePart
      else (s.dropWhile isBlank).takeWhile isCalleePart := by
    have hblank : ('\n' :: (List.replicate n ' ' ++ b)).dropWhile isBlank = b.dropWhile isBlank := by
      rw [List.dropWhile_cons_of_pos (by decide), List.dropWhile_append_of_pos]
      intro c hc
      rw [List.eq_of_mem_replicate hc]
      decide
    rw [List.dropWhile_append, hblank]
    split
    · rfl
    · exact takeWhile_append_stop (by decide) _ _
  exact calleeBefore_congr ((hname m).trans (hname n).symm)

/-! ### Contents -/

theorem callSite?_string (h : (Zone.after pre).IsCode) (hq : isQuote q = true)
    (hu : IsContent q u) (hv : IsContent q v) (post : List Char) :
    callSite? (pre ++ q :: u ++ q :: post) = callSite? (pre ++ q :: v ++ q :: post) := by
  have hplain : isBlank q = false ∧ isCalleePart q = false ∧ isOpening q = false ∧
      isClosing q = false ∧ q ≠ ',' := by
    simp only [isQuote, Bool.or_eq_true, beq_iff_eq] at hq
    obtain rfl | rfl := hq <;> decide
  obtain ⟨hblank, hpart, hopening, hclosing, hcomma⟩ := hplain
  have hpass (d k : Nat) (b : List Char) : openCall d k (q :: b) = openCall d k b := by
    rw [openCall_other hopening hclosing, if_neg fun hd => hcomma hd.2]
  rw [callSite?, callSite?, mask_string hq h hu, mask_string hq h hv]
  simp only [List.reverse_append, List.reverse_cons, List.append_assoc, List.reverse_replicate,
    List.cons_append, List.nil_append]
  refine openCall_append_congr (fun s => calleeBefore_stop hblank hpart s _ _) (fun d k => ?_) _ 0 0
  rw [hpass, hpass, openCall_replicate, openCall_replicate]

theorem callSite?_comment (h : (Zone.after pre).IsCode) (hu : '\n' ∉ u) (hv : '\n' ∉ v)
    (post : List Char) :
    callSite? (pre ++ '-' :: '-' :: u ++ '\n' :: post) =
      callSite? (pre ++ '-' :: '-' :: v ++ '\n' :: post) := by
  obtain ⟨lead, n, hmask⟩ := mask_comment h post
  rw [callSite?, callSite?, hmask u hu, hmask v hv]
  simp only [List.reverse_append, List.reverse_cons, List.append_assoc, List.reverse_replicate,
    List.cons_append, List.nil_append]
  refine openCall_append_congr (fun s => calleeBefore_blanks s _ _ _) (fun d k => ?_) _ 0 0
  rw [openCall_other rfl rfl, openCall_other rfl rfl, openCall_replicate, openCall_replicate]

/-- After code, strings that differ in their contents alone make no difference, and nor do comments. -/
theorem callSite?_eq_of_contents (h : (Zone.after pre).IsCode) (post : List Char) :
    (∀ q, isQuote q = true → ∀ u v, IsContent q u → IsContent q v →
      callSite? (pre ++ q :: u ++ q :: post) = callSite? (pre ++ q :: v ++ q :: post)) ∧
    ∀ u v : List Char, '\n' ∉ u → '\n' ∉ v →
      callSite? (pre ++ '-' :: '-' :: u ++ '\n' :: post) =
        callSite? (pre ++ '-' :: '-' :: v ++ '\n' :: post) :=
  ⟨fun _ hq _ _ hu hv => callSite?_string h hq hu hv post,
    fun _ _ hu hv => callSite?_comment h hu hv post⟩

/-- A bracket, a comma and the other quote in a string, and a call in a comment after a dash. -/
theorem callSite?_eq_of_contents_unbalanced :
    ((Zone.after "print(".toList).IsCode ∧
      callSite? "print('(\"a, ', ".toList = callSite? "print('', ".toList) ∧
    (Zone.after "f(1, -".toList).IsCode ∧
      callSite? "f(1, ---g(\n2, ".toList = callSite? "f(1, ---\n2, ".toList := by
  have hcall : (Zone.after "print(".toList).IsCode := by decide
  have hdash : (Zone.after "f(1, -".toList).IsCode := by decide
  obtain ⟨hstring, -⟩ := callSite?_eq_of_contents hcall ", ".toList
  obtain ⟨-, hcomment⟩ := callSite?_eq_of_contents hdash "2, ".toList
  exact ⟨⟨hcall, hstring '\'' (by decide) "(\"a, ".toList [] (by decide) (by decide)⟩,
    hdash, hcomment "g(".toList [] (by decide) (by decide)⟩

end LuaLens.Query
