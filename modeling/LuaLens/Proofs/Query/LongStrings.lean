import LuaLens.Proofs.Query.Literals

/-!
Strings in long brackets are not masked: their contents are read as code. So the contents are of no
matter just when code in their place would be of none, which is when no string or comment that begins
in them is left open and every bracket has its partner, without a comma outside of the pairs.
-/

namespace LuaLens.Query

open Text

variable {pre post contents r s t u v : List Char} {c q : Char} {n k : Nat}

/-! ### Long brackets -/

def longOpening (n : Nat) : List Char := '[' :: (List.replicate n '=' ++ ['['])

def longClosing (n : Nat) : List Char := ']' :: (List.replicate n '=' ++ [']'])

def longString (n : Nat) (contents : List Char) : List Char :=
  longOpening n ++ contents ++ longClosing n

/-- A text after which long brackets begin a string, and nothing else. -/
def IsPlace (pre : List Char) : Prop :=
  (Zone.after pre).IsCode ∧ pre.getLast? ≠ some '-' ∧ pre.getLast? ≠ some '['

instance (pre : List Char) : Decidable (IsPlace pre) := inferInstanceAs (Decidable (_ ∧ _ ∧ _))

/-- Characters that begin neither a string nor a comment. -/
def IsPlain (s : List Char) : Prop := ∀ c ∈ s, isQuote c = false ∧ c ≠ '-'

theorem forall_mem_longOpening {p : Char → Prop} (hopen : p '[') (hlevel : p '=') :
    ∀ c ∈ longOpening n, p c := by
  intro c hc
  rw [longOpening, List.mem_cons, List.mem_append, List.mem_singleton] at hc
  obtain rfl | hc | rfl := hc
  · exact hopen
  · rw [List.eq_of_mem_replicate hc]
    exact hlevel
  · exact hopen

theorem forall_mem_longClosing {p : Char → Prop} (hclose : p ']') (hlevel : p '=') :
    ∀ c ∈ longClosing n, p c := by
  intro c hc
  rw [longClosing, List.mem_cons, List.mem_append, List.mem_singleton] at hc
  obtain rfl | hc | rfl := hc
  · exact hclose
  · rw [List.eq_of_mem_replicate hc]
    exact hlevel
  · exact hclose

theorem isPlain_longOpening (n : Nat) : IsPlain (longOpening n) :=
  forall_mem_longOpening (by decide) (by decide)

theorem isPlain_longClosing (n : Nat) : IsPlain (longClosing n) :=
  forall_mem_longClosing (by decide) (by decide)

/-! ### The kind of text after long brackets -/

theorem Zone.after_append (u v : List Char) : Zone.after (u ++ v) = v.foldl Zone.next (Zone.after u) :=
  List.foldl_append

theorem Zone.next_of_isCode {z : Zone} (h : z.IsCode) (hq : isQuote c = false) (hc : c ≠ '-') :
    z.next c = .code := by
  obtain rfl | rfl := h <;> simp [Zone.next, hq, hc]

theorem Zone.foldl_plain {z : Zone} (h : z.IsCode) (hs : IsPlain (c :: s)) :
    (c :: s).foldl Zone.next z = .code := by
  induction s generalizing c z with
  | nil =>
    obtain ⟨hq, hc⟩ := hs c List.mem_cons_self
    exact Zone.next_of_isCode h hq hc
  | cons a s ih =>
    obtain ⟨hq, hc⟩ := hs c List.mem_cons_self
    rw [List.foldl_cons, Zone.next_of_isCode h hq hc]
    exact ih (.inl rfl) fun a ha => hs a (List.mem_cons_of_mem _ ha)

theorem after_longOpening (h : (Zone.after pre).IsCode) (n : Nat) :
    Zone.after (pre ++ longOpening n) = .code := by
  rw [Zone.after_append]
  exact Zone.foldl_plain h (isPlain_longOpening n)

theorem after_longString (h : (Zone.after pre).IsCode) (n : Nat) (contents : List Char) :
    Zone.after (pre ++ longString n contents) =
      (longClosing n).foldl Zone.next (Zone.after contents) := by
  rw [longString, ← List.append_assoc, ← List.append_assoc, Zone.after_append, Zone.after_append,
    after_longOpening h]
  rfl

theorem after_longString_code (h : (Zone.after pre).IsCode) (hc : (Zone.after contents).IsCode)
    (n : Nat) : Zone.after (pre ++ longString n contents) = .code := by
  rw [after_longString h]
  exact Zone.foldl_plain hc (isPlain_longClosing n)

theorem Zone.isQuote_of_after (h : Zone.after s = .string q ∨ Zone.after s = .escape q) :
    isQuote q = true := by
  induction s using List.reverseRecOn generalizing q with
  | nil => simp [Zone.after] at h
  | append_singleton s c ih =>
    have hafter : Zone.after (s ++ [c]) = (Zone.after s).next c := by simp [Zone.after]
    rw [hafter] at h
    cases hs : Zone.after s <;> grind [Zone.next]

/-- Long brackets close neither a quoted string nor a comment. -/
theorem foldl_longClosing {z : Zone} (hz : ¬ z.IsCode)
    (hquote : ∀ q, z = .string q ∨ z = .escape q → isQuote q = true) (n : Nat) :
    (longClosing n).foldl Zone.next z = .comment ∨
      ∃ q, isQuote q = true ∧ (longClosing n).foldl Zone.next z = .string q := by
  have hcomment {s : List Char} (h : '\n' ∉ s) : s.foldl Zone.next .comment = .comment := by
    induction s with
    | nil => rfl
    | cons c s ih => grind [Zone.next]
  have hstring {q : Char} {s : List Char} (h : IsContent q s) :
      s.foldl Zone.next (.string q) = .string q := by
    induction s with
    | nil => rfl
    | cons c s ih => grind [Zone.next, IsContent]
  have hclosing {q : Char} (hq : isQuote q = true) : IsContent q (longClosing n) := by
    have hne {c : Char} (hc : isQuote c = false) : c ≠ q := by
      rintro rfl
      simp [hc] at hq
    exact forall_mem_longClosing ⟨hne (by decide), by decide⟩ ⟨hne (by decide), by decide⟩
  cases z with
  | code => exact absurd (.inl rfl) hz
  | dash => exact absurd (.inr rfl) hz
  | comment =>
    refine .inl (hcomment fun hn => ?_)
    exact forall_mem_longClosing (p := (· ≠ '\n')) (by decide) (by decide) _ hn rfl
  | string q =>
    have hq := hquote q (.inl rfl)
    exact .inr ⟨q, hq, hstring (hclosing hq)⟩
  | escape q =>
    have hq := hquote q (.inr rfl)
    refine .inr ⟨q, hq, ?_⟩
    rw [longClosing, List.foldl_cons]
    exact hstring fun c hc => hclosing hq c (List.mem_cons_of_mem _ hc)

/-! ### The masked text -/

theorem mask_append_of_code (h : Zone.after u = .code) (v : List Char) :
    mask (u ++ v) = mask u ++ mask v := by
  obtain ⟨lead, hlead⟩ := mask_append u
  have hu := hlead []
  rw [List.append_nil] at hu
  rw [hlead, hu, h, Zone.resume, Zone.resume, mask, List.append_nil]

theorem mask_plain (h : IsPlain s) : mask s = s := by
  induction s with
  | nil => rfl
  | cons c s ih =>
    obtain ⟨hq, hc⟩ := h c List.mem_cons_self
    rw [mask_other hq (.inl hc), ih fun a ha => h a (List.mem_cons_of_mem _ ha)]

theorem mask_around (h : IsPlace pre) (hc : (Zone.after contents).IsCode) (n : Nat)
    (post : List Char) :
    mask (pre ++ longString n contents ++ post) =
      mask pre ++ mask (longString n contents) ++ mask post := by
  rw [mask_append_of_code (after_longString_code h.1 hc n),
    mask_append_of_isCode h.1 (by simp [longString, longOpening])]

theorem mask_longString (h : (Zone.after contents).IsCode) (n : Nat) :
    mask (longString n contents) = longOpening n ++ mask contents ++ longClosing n := by
  have hopening : Zone.after (longOpening n) = .code :=
    Zone.foldl_plain (.inl rfl) (isPlain_longOpening n)
  have hcontents : (Zone.after (longOpening n ++ contents)).IsCode := by
    rw [Zone.after_append, hopening]
    exact h
  rw [longString, mask_append_of_isCode hcontents (by simp [longClosing]),
    mask_append_of_code hopening, mask_plain (isPlain_longOpening n),
    mask_plain (isPlain_longClosing n)]

/-! ### Balanced texts -/

theorem Balanced.append (hs : Balanced s n) (ht : Balanced t k) : Balanced (s ++ t) (n + k) := by
  induction ht with
  | nil => rwa [List.append_nil]
  | @other t k c _ ho hc ih =>
    have h := ih.other ho hc
    rw [List.append_assoc] at h
    by_cases hcomma : c = ',' <;> simpa [hcomma, Nat.add_assoc] using h
  | @pair t u k j o c _ hu ho hc iht _ =>
    have h := iht.pair hu ho hc
    rwa [List.append_assoc, List.append_assoc, ← List.append_assoc t] at h

theorem balanced_replicate (n : Nat) : Balanced (List.replicate n '=') 0 := by
  induction n with
  | zero => exact .nil
  | succ n ih =>
    rw [List.replicate_succ']
    exact ih.other (by decide) (by decide)

theorem balanced_longString_nil (n : Nat) : Balanced (longString n []) 0 := by
  have hlevel := balanced_replicate n
  have hinner := (hlevel.pair (o := '[') (c := ']') .nil (by decide) (by decide)).append hlevel
  have houter := Balanced.nil.pair (o := '[') (c := ']') hinner (by decide) (by decide)
  simpa [longString, longOpening, longClosing] using houter

theorem Balanced.count_eq (h : Balanced s k) : s.countP isOpening = s.countP isClosing := by
  induction h with
  | nil => rfl
  | other _ ho hc ih => rw [List.countP_append, List.countP_append, List.countP_singleton,
      List.countP_singleton, ho, hc, ih]
  | pair _ _ ho hc ihs iht => grind [isClosing_eq_false]

/-- A text without an open bracket closes one that it did not open, or else it is balanced. -/
theorem balanced_of_opened_eq_nil (h : (brackets t).opened = []) :
    t.countP isOpening ≤ t.countP isClosing ∧
      (t.countP isOpening = t.countP isClosing → ∃ k, Balanced t k) := by
  induction hl : t.length using Nat.strong_induction_on generalizing t with
  | _ l ih =>
    obtain rfl | ⟨t, c, rfl⟩ := List.eq_nil_or_concat t
    · exact ⟨Nat.le_refl _, fun _ => ⟨0, .nil⟩⟩
    rw [List.concat_eq_append] at h hl ⊢
    rw [List.length_append, List.length_singleton] at hl
    rw [brackets_concat] at h
    rw [List.countP_append, List.countP_append, List.countP_singleton, List.countP_singleton]
    cases ho : isOpening c with
    | true =>
      rw [read_opening ho] at h
      cases h
    | false =>
      cases hc : isClosing c with
      | false =>
        rw [read_other ho hc] at h
        obtain ⟨hle, hbalanced⟩ := ih t.length (by omega) h rfl
        refine ⟨hle, fun heq => ?_⟩
        obtain ⟨k, hk⟩ := hbalanced heq
        exact ⟨_, hk.other ho hc⟩
      | true =>
        cases ht : (brackets t).opened with
        | nil =>
          obtain ⟨hle, -⟩ := ih t.length (by omega) ht rfl
          simp only [Bool.false_eq_true, if_false, if_true]
          exact ⟨by omega, fun heq => by omega⟩
        | cons o rest =>
          rw [read_closing hc ht] at h
          obtain rfl : rest = [] := h
          obtain ⟨lead, b, s, j, rfl, hb, hs, hrest, -⟩ := exists_innermost ht
          have hlt : lead.length < l := by
            rw [← hl, List.length_append]
            omega
          obtain ⟨hle, hbalanced⟩ := ih lead.length hlt hrest rfl
          have hcount := hs.count_eq
          simp only [List.countP_append, List.countP_cons, hb, isClosing_eq_false hb,
            Bool.false_eq_true, if_false, if_true]
          refine ⟨by omega, fun heq => ?_⟩
          obtain ⟨k, hk⟩ := hbalanced (by omega)
          exact ⟨k, hk.pair hs hb hc⟩

/-! ### Contents that are of no matter -/

/-- Balanced texts without commas of their own are alike to the scan, if they end in a bracket. -/
theorem openCall_balanced (hu : Balanced (u ++ [']']) 0) (hv : Balanced (v ++ [']']) 0)
    (s b : List Char) :
    openCall 0 0 (s ++ (u ++ [']']).reverse ++ b) = openCall 0 0 (s ++ (v ++ [']']).reverse ++ b) := by
  rw [List.append_assoc, List.append_assoc]
  refine openCall_append_congr (fun s => ?_) (fun d k => ?_) s 0 0
  · simp only [List.reverse_append, List.reverse_singleton, List.cons_append, List.nil_append]
    exact calleeBefore_stop (by decide) (by decide) s _ _
  · rw [hu.openCall, hv.openCall]

theorem mask_longString_concat (h : (Zone.after contents).IsCode) (n : Nat) :
    ∃ u, mask (longString n contents) = u ++ [']'] := by
  refine ⟨longOpening n ++ mask contents ++ ']' :: List.replicate n '=', ?_⟩
  rw [mask_longString h, longClosing]
  simp

theorem mask_longString_nil (n : Nat) : mask (longString n []) = longString n [] := by
  rw [mask_longString (.inl rfl), longString]
  rfl

theorem callSite?_of_balanced (hpre : IsPlace pre) (hcode : (Zone.after contents).IsCode)
    (h : Balanced (mask (longString n contents)) 0) (post : List Char) :
    callSite? (pre ++ longString n contents ++ post) =
      callSite? (pre ++ longString n [] ++ post) := by
  have hnil := balanced_longString_nil n
  rw [← mask_longString_nil] at hnil
  obtain ⟨u, hu⟩ := mask_longString_concat hcode n
  obtain ⟨v, hv⟩ : ∃ v, mask (longString n []) = v ++ [']'] := mask_longString_concat (.inl rfl) n
  rw [callSite?, callSite?, mask_around hpre hcode, mask_around hpre (.inl rfl), List.reverse_append,
    List.reverse_append, List.reverse_append, List.reverse_append, ← List.append_assoc,
    ← List.append_assoc]
  rw [hu] at h ⊢
  rw [hv] at hnil ⊢
  exact openCall_balanced h hnil _ _

/-! ### Contents that show -/

/-- From deep enough the scan passes any text without counting. -/
theorem openCall_deep (r b : List Char) (d k : Nat) :
    openCall (d + r.countP isOpening + 1) k (r ++ b) = openCall (d + r.countP isClosing + 1) k b := by
  induction r generalizing d with
  | nil => rfl
  | cons c r ih =>
    rw [List.cons_append, List.countP_cons, List.countP_cons]
    cases ho : isOpening c with
    | true =>
      rw [isClosing_eq_false ho, if_pos rfl, if_neg (by simp), ← Nat.add_assoc, openCall_opening ho]
      exact ih d
    | false =>
      cases hc : isClosing c with
      | true =>
        rw [if_neg (by simp), if_pos rfl, openCall_closing hc]
        have h := ih (d + 1)
        rw [show d + (r.countP isOpening + 0) + 1 + 1 = d + 1 + r.countP isOpening + 1 by omega, h]
        congr 1
        omega
      | false =>
        rw [openCall_other ho hc, if_neg (by simp), if_neg (by simp)]
        exact ih d

/-- A call of a function with a name of one letter, and brackets that are open in it. The text is
given backwards. -/
def nested (name : Char) (n : Nat) : List Char := List.replicate n '(' ++ ['(', name]

theorem nested_succ (name : Char) (n : Nat) : nested name (n + 1) = '(' :: nested name n := rfl

theorem calledWith_paren (b : List Char) : calledWith '(' b = calleeBefore b := rfl

theorem calleeBefore_nested (name : Char) (n : Nat) : calleeBefore (nested name n) = none := by
  have hparen (b : List Char) : calleeBefore ('(' :: b) = none :=
    (calleeBefore_stop (by decide) (by decide) [] b []).trans (by decide)
  cases n with
  | zero => exact hparen [name]
  | succ n => exact hparen (nested name n)

theorem calleeBefore_letter {name : Char} (h : name ∈ ['f', 'g']) :
    calleeBefore [name] = some [name] := by
  obtain rfl | rfl : name = 'f' ∨ name = 'g' := by simpa using h
  · decide
  · decide

theorem openCall_nested_zero {name : Char} (hname : name ∈ ['f', 'g']) (k : Nat) :
    openCall 0 k (nested name 0) = some { callee := [name], argument := k } := by
  have hcalled : calledWith '(' [name] = some [name] := calleeBefore_letter hname
  rw [nested, List.replicate_zero, List.nil_append, openCall_open rfl, hcalled]

theorem openCall_nested_add (name : Char) (d m n k : Nat) :
    openCall (d + n) k (nested name (m + n)) = openCall d k (nested name m) := by
  induction n with
  | zero => rfl
  | succ n ih => rw [← Nat.add_assoc, ← Nat.add_assoc, nested_succ, openCall_opening rfl, ih]

/-- An inner bracket calls nothing, and the commas after it are not those of the call. -/
theorem openCall_nested_open {name : Char} (hname : name ∈ ['f', 'g']) (n k : Nat) :
    openCall 0 k (nested name (n + 1)) = some { callee := [name], argument := 0 } := by
  induction n generalizing k with
  | zero =>
    rw [nested_succ, openCall_open rfl, calledWith_paren, calleeBefore_nested]
    exact openCall_nested_zero hname 0
  | succ n ih =>
    rw [nested_succ, openCall_open rfl, calledWith_paren, calleeBefore_nested]
    exact ih 0

theorem openCall_open_congr (hc : isOpening c = true)
    (h : openCall 0 0 (r ++ nested 'f' 0) = openCall 0 0 (r ++ nested 'g' 0)) (k : Nat) :
    openCall 0 k (c :: (r ++ nested 'f' 0)) = openCall 0 k (c :: (r ++ nested 'g' 0)) := by
  have hcalled : calledWith c (r ++ nested 'f' 0) = calledWith c (r ++ nested 'g' 0) := by
    rw [calledWith, calledWith]
    congr 1
    exact calleeBefore_stop (by decide) (by decide) r ['f'] ['g']
  rw [openCall_open hc, openCall_open hc, hcalled, h]

/-- The scan does not tell one call from another where more brackets are closed than opened. -/
theorem openCall_closed (h : r.countP isOpening < n + r.countP isClosing) (k : Nat) :
    openCall n k (r ++ nested 'f' 0) = openCall n k (r ++ nested 'g' 0) := by
  induction r generalizing n k with
  | nil =>
    cases n with
    | zero => exact absurd h (Nat.lt_irrefl 0)
    | succ n => rfl
  | cons c r ih =>
    rw [List.countP_cons, List.countP_cons] at h
    rw [List.cons_append, List.cons_append]
    cases ho : isOpening c with
    | true =>
      rw [ho, isClosing_eq_false ho, if_pos rfl, if_neg (by simp)] at h
      cases n with
      | zero => exact openCall_open_congr ho (ih (by omega) 0) k
      | succ n =>
        rw [openCall_opening ho, openCall_opening ho]
        exact ih (by omega) k
    | false =>
      cases hc : isClosing c with
      | true =>
        rw [ho, hc, if_neg (by simp), if_pos rfl] at h
        rw [openCall_closing hc, openCall_closing hc]
        exact ih (by omega) k
      | false =>
        rw [ho, hc, if_neg (by simp)] at h
        rw [openCall_other ho hc, openCall_other ho hc]
        exact ih h _

/-- A text that is nothing to every call around it. -/
def IsHidden (t : List Char) : Prop :=
  ∀ name ∈ ['f', 'g'], ∀ n d k, openCall d k (t.reverse ++ nested name n) = openCall d k (nested name n)

theorem IsHidden.count_eq (h : IsHidden t) : t.countP isOpening = t.countP isClosing := by
  -- The call is read from under as many brackets as `t` opens, and one more.
  have hcall : openCall (t.countP isClosing + 1) 1 (nested 'f' (t.countP isOpening + 1)) =
      some { callee := ['f'], argument := 1 } := by
    have hdeep := openCall_deep t.reverse (nested 'f' (t.countP isOpening + 1)) 0 1
    rw [List.countP_reverse, List.countP_reverse, Nat.zero_add, Nat.zero_add, h 'f' (by decide)] at hdeep
    have hadd := openCall_nested_add 'f' 0 0 (t.countP isOpening + 1) 1
    rw [Nat.zero_add, hdeep, openCall_nested_zero (by decide)] at hadd
    exact hadd
  obtain hlt | heq | hgt := Nat.lt_trichotomy (t.countP isOpening) (t.countP isClosing)
  · obtain ⟨m, hm⟩ := Nat.exists_eq_add_of_lt hlt
    have hadd := openCall_nested_add 'f' (m + 1) 0 (t.countP isOpening + 1) 1
    rw [Nat.zero_add, show m + 1 + (t.countP isOpening + 1) = t.countP isClosing + 1 by omega,
      hcall] at hadd
    cases hadd
  · exact heq
  · obtain ⟨m, hm⟩ := Nat.exists_eq_add_of_lt hgt
    have hadd := openCall_nested_add 'f' 0 (m + 1) (t.countP isClosing + 1) 1
    rw [Nat.zero_add, show m + 1 + (t.countP isClosing + 1) = t.countP isOpening + 1 by omega,
      hcall, openCall_nested_open (by decide)] at hadd
    cases hadd

theorem IsHidden.opened_eq_nil (h : IsHidden t) : (brackets t).opened = [] := by
  have hcount := h.count_eq
  cases ho : (brackets t).opened with
  | nil => rfl
  | cons o rest =>
    obtain ⟨lead, c, s, k, rfl, hc, hs, -, -⟩ := exists_innermost ho
    have hbalanced := hs.count_eq
    simp only [List.countP_append, List.countP_cons, hc, isClosing_eq_false hc, Bool.false_eq_true,
      if_false, if_true] at hcount
    -- What is before the open bracket closes one that it did not open, which would be the call's.
    have hlead : openCall 0 0 (lead.reverse ++ nested 'f' 0) =
        openCall 0 0 (lead.reverse ++ nested 'g' 0) := by
      refine openCall_closed ?_ 0
      rw [List.countP_reverse, List.countP_reverse]
      omega
    have hsame := openCall_open_congr hc hlead k
    have hread {name : Char} (hname : name ∈ ['f', 'g']) :
        openCall 0 k (c :: (lead.reverse ++ nested name 0)) =
          some { callee := [name], argument := 0 } := by
      have hhidden := h name hname 0 0 0
      rw [List.reverse_append, List.reverse_cons, List.append_assoc, List.append_assoc, hs.openCall,
        openCall_nested_zero hname, if_pos rfl, Nat.zero_add] at hhidden
      exact hhidden
    rw [hread (by decide), hread (by decide)] at hsame
    cases hsame

theorem IsHidden.balanced (h : IsHidden t) : Balanced t 0 := by
  obtain ⟨k, hk⟩ := (balanced_of_opened_eq_nil h.opened_eq_nil).2 h.count_eq
  have hcommas := h 'f' (by decide) 0 0 0
  rw [hk.openCall, openCall_nested_zero (by decide), openCall_nested_zero (by decide)] at hcommas
  obtain rfl : k = 0 := by simpa using hcommas
  exact hk

/-! ### The contents of long brackets -/

theorem isPlain_nested {name : Char} (hname : name ∈ ['f', 'g']) (n : Nat) :
    IsPlain (nested name n).reverse := by
  intro c hc
  rw [List.mem_reverse, nested, List.mem_append, List.mem_cons, List.mem_singleton] at hc
  obtain hc | rfl | rfl := hc
  · rw [List.eq_of_mem_replicate hc]
    decide
  · decide
  · obtain rfl | rfl : c = 'f' ∨ c = 'g' := by simpa using hname
    · decide
    · decide

theorem isPlace_nested {name : Char} (hname : name ∈ ['f', 'g']) (n : Nat) :
    IsPlace (nested name n).reverse := by
  have hlast : (nested name n).reverse.getLast? = some '(' := by
    rw [List.getLast?_reverse]
    cases n <;> rfl
  refine ⟨.inl ?_, by simp [hlast], by simp [hlast]⟩
  have hplain := isPlain_nested hname n
  have hreverse : (nested name n).reverse = name :: '(' :: List.replicate n '(' := by simp [nested]
  rw [hreverse] at hplain ⊢
  exact Zone.foldl_plain (.inl rfl) hplain

/-- A text that brings the scan to a depth and a number of commas. -/
def trailing (d k : Nat) : List Char := List.replicate d ')' ++ List.replicate k ','

theorem isPlain_trailing (d k : Nat) : IsPlain (trailing d k) := by
  intro c hc
  rw [trailing, List.mem_append] at hc
  obtain hc | hc := hc <;> rw [List.eq_of_mem_replicate hc] <;> decide

theorem openCall_trailing (d k : Nat) (b : List Char) :
    openCall 0 0 ((trailing d k).reverse ++ b) = openCall d k b := by
  have hcommas (j : Nat) (b : List Char) :
      openCall 0 j (List.replicate k ',' ++ b) = openCall 0 (j + k) b := by
    induction k generalizing j with
    | zero => rfl
    | succ k ih =>
      rw [List.replicate_succ, List.cons_append, openCall_other rfl rfl, if_pos ⟨rfl, rfl⟩, ih]
      congr 1
      omega
  have hclosing (j : Nat) : openCall j k (List.replicate d ')' ++ b) = openCall (j + d) k b := by
    induction d generalizing j with
    | zero => rfl
    | succ d ih =>
      rw [List.replicate_succ, List.cons_append, openCall_closing rfl, ih]
      congr 1
      omega
  rw [trailing, List.reverse_append, List.reverse_replicate, List.reverse_replicate, List.append_assoc,
    hcommas, Nat.zero_add, hclosing, Nat.zero_add]

/-- Signature help at the end of a call with a long string in it. -/
theorem callSite?_nested {name : Char} (hname : name ∈ ['f', 'g'])
    (hcode : (Zone.after contents).IsCode) (m n d k : Nat) :
    callSite? ((nested name m).reverse ++ longString n contents ++ trailing d k) =
      openCall d k ((mask (longString n contents)).reverse ++ nested name m) := by
  rw [callSite?, mask_around (isPlace_nested hname m) hcode, mask_plain (isPlain_nested hname m),
    mask_plain (isPlain_trailing d k), List.reverse_append, List.reverse_append, List.reverse_reverse,
    openCall_trailing]

theorem callSite?_nested_nil {name : Char} (hname : name ∈ ['f', 'g']) (m n d k : Nat) :
    callSite? ((nested name m).reverse ++ longString n [] ++ trailing d k) =
      openCall d k (nested name m) := by
  rw [callSite?_nested hname (.inl rfl), mask_longString_nil, (balanced_longString_nil n).openCall,
    Nat.add_zero, ite_self]

/-- A comma after a string or comment that is still open does not count. -/
theorem callSite?_of_not_isCode (hpre : (Zone.after pre).IsCode) (h : ¬ (Zone.after contents).IsCode)
    (n : Nat) :
    callSite? (pre ++ longString n contents ++ [',']) = callSite? (pre ++ longString n contents) := by
  obtain ⟨lead, hlead⟩ := mask_append (pre ++ longString n contents)
  have hend := hlead []
  rw [List.append_nil] at hend
  have hblank (b : List Char) : openCall 0 0 (' ' :: b) = openCall 0 0 b := openCall_replicate 1 0 0 b
  rw [callSite?, callSite?, hend, hlead, after_longString hpre]
  obtain hz | ⟨q, hq, hz⟩ := foldl_longClosing h (fun q => Zone.isQuote_of_after) n
  · rw [hz, List.reverse_append, List.reverse_append]
    exact hblank lead.reverse
  · have hcomma : ',' ≠ q := by
      rintro rfl
      cases hq
    rw [hz, Zone.resume, Zone.resume, maskString_other (by decide) hcomma (by decide),
      List.reverse_append, List.reverse_append]
    exact hblank lead.reverse

/-- The contents of long brackets are of no matter anywhere just when they leave no string or comment
open, and the whole is balanced without a comma outside of its brackets. -/
theorem longString_hidden_iff (n : Nat) (contents : List Char) :
    (∀ pre post, IsPlace pre → callSite? (pre ++ longString n contents ++ post) =
      callSite? (pre ++ longString n [] ++ post)) ↔
    (Zone.after contents).IsCode ∧ Balanced (mask (longString n contents)) 0 := by
  constructor
  · intro h
    have hcode : (Zone.after contents).IsCode := by
      by_contra hopen
      have hf : 'f' ∈ ['f', 'g'] := by decide
      have hplace := isPlace_nested hf 0
      have hargument (k : Nat) :
          callSite? ((nested 'f' 0).reverse ++ longString n contents ++ trailing 0 k) =
            some { callee := ['f'], argument := k } := by
        rw [h _ _ hplace, callSite?_nested_nil hf, openCall_nested_zero hf]
      have hfirst := hargument 0
      rw [show trailing 0 0 = [] from rfl, List.append_nil,
        ← callSite?_of_not_isCode hplace.1 hopen] at hfirst
      cases hfirst.symm.trans (hargument 1)
    refine ⟨hcode, IsHidden.balanced fun name hname m d k => ?_⟩
    rw [← callSite?_nested hname hcode, h _ _ (isPlace_nested hname m), callSite?_nested_nil hname]
  · rintro ⟨hcode, hbalanced⟩ pre post hpre
    exact callSite?_of_balanced hpre hcode hbalanced post

/-- Signature help shows the first argument of a call whose first argument is a long string with a
bracket in it, and the second one without. -/
example : callSite? "f([[(]], ".toList = some { callee := ['f'], argument := 0 } ∧
    callSite? "f([[]], ".toList = some { callee := ['f'], argument := 1 } := by decide

end LuaLens.Query
