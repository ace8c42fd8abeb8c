import LuaLens.Query.Signature
import Mathlib.Data.List.Induction
import Mathlib.Data.List.Nodup
import Mathlib.Data.Nat.Init

/-!
The innermost open call, read forwards. A stack takes the place of each opening bracket and gives it
back at a closing one; whatever is left on it is open, and the commas of a call are those after its
bracket that stand in no pair of brackets. The backward scan with a depth and a count finds the same
call, however the brackets are mixed up.
-/

namespace LuaLens.Query

variable {s m : List Char} {c : Char} {n : Nat}

/-! ### One character of the backward scan -/

def isOpening (c : Char) : Bool := c == '(' || c == '\x7b' || c == '['

def isClosing (c : Char) : Bool := c == ')' || c == '\x7d' || c == ']'

/-- The function called with an opening bracket, if it can call one. The text before it is given
backwards. -/
def calledWith (c : Char) (before : List Char) : Option (List Char) :=
  if c == '(' || c == '\x7b' then calleeBefore before else none

theorem isClosing_eq_false (h : isOpening c = true) : isClosing c = false := by
  simp only [isOpening, Bool.or_eq_true, beq_iff_eq] at h
  obtain (rfl | rfl) | rfl := h <;> rfl

theorem ne_comma_of_isOpening (h : isOpening c = true) : c ≠ ',' := by
  rintro rfl
  cases h

theorem ne_comma_of_isClosing (h : isClosing c = true) : c ≠ ',' := by
  rintro rfl
  cases h

@[simp] theorem openCall_nil (d k : Nat) : openCall d k [] = none := rfl

theorem openCall_closing (h : isClosing c = true) (d k : Nat) (before : List Char) :
    openCall d k (c :: before) = openCall (d + 1) k before := by
  rw [isClosing] at h
  rw [openCall, if_pos h]

theorem openCall_opening (h : isOpening c = true) (d k : Nat) (before : List Char) :
    openCall (d + 1) k (c :: before) = openCall d k before := by
  have hclosing := isClosing_eq_false h
  rw [isClosing] at hclosing
  rw [isOpening] at h
  rw [openCall, if_neg (by simp [hclosing]), if_pos (by simp [h]), Nat.add_sub_cancel]

/-- An opening bracket that nothing has closed ends the scan, if a function is called with it. -/
theorem openCall_open (h : isOpening c = true) (k : Nat) (before : List Char) :
    openCall 0 k (c :: before) =
      match calledWith c before with
      | some callee => some { callee, argument := k }
      | none => openCall 0 0 before := by
  simp only [isOpening, Bool.or_eq_true, beq_iff_eq] at h
  obtain (rfl | rfl) | rfl := h <;> rfl

theorem openCall_other (ho : isOpening c = false) (hc : isClosing c = false) (d k : Nat)
    (before : List Char) :
    openCall d k (c :: before) = openCall d (if d = 0 ∧ c = ',' then k + 1 else k) before := by
  simp only [isOpening, Bool.or_eq_false_iff] at ho
  rw [isClosing] at hc
  rw [openCall, if_neg (by simp [hc]), if_neg (by simp [ho]), if_neg (by simp [ho]),
    if_neg (by simp [ho])]
  by_cases h : d = 0 ∧ c = ','
  · rw [if_pos (by simp [h]), if_pos h]
  · rw [if_neg (by simpa [and_comm] using h), if_neg h]

/-! ### Balanced texts -/

/-- A text in which every bracket has its partner, of whatever kind, with the number of commas that
stand in no pair. -/
inductive Balanced : List Char → Nat → Prop
  | nil : Balanced [] 0
  | other {s : List Char} {n : Nat} {c : Char} : Balanced s n → isOpening c = false →
      isClosing c = false → Balanced (s ++ [c]) (if c = ',' then n + 1 else n)
  | pair {s t : List Char} {n k : Nat} {o c : Char} : Balanced s n → Balanced t k →
      isOpening o = true → isClosing c = true → Balanced (s ++ o :: t ++ [c]) n

/-- The backward scan passes a balanced text, and counts its commas if it is at the level of a call. -/
theorem Balanced.openCall (h : Balanced s n) (d k : Nat) (before : List Char) :
    openCall d k (s.reverse ++ before) = openCall d (if d = 0 then k + n else k) before := by
  induction h generalizing d k before with
  | nil => simp
  | @other s n c _ ho hc ih =>
    rw [List.reverse_append, List.reverse_singleton, List.singleton_append, List.cons_append,
      openCall_other ho hc, ih]
    by_cases hd : d = 0
    · by_cases hcomma : c = ',' <;> simp [hd, hcomma, Nat.add_right_comm, Nat.add_assoc]
    · simp [hd]
  | @pair s t n k' o c _ _ ho hc ihs iht =>
    have hrev : (s ++ o :: t ++ [c]).reverse ++ before =
        c :: (t.reverse ++ o :: (s.reverse ++ before)) := by simp
    rw [hrev, openCall_closing hc, iht, if_neg (by omega), openCall_opening ho, ihs]

/-! ### Reading forwards -/

/-- The brackets of a text by their positions. -/
structure Brackets where
  /-- Those that are open, the innermost first. -/
  opened : List Nat := []
  pairs : List (Nat × Nat) := []
deriving DecidableEq, Repr

/-- Reads the character at a position. A closing bracket closes the innermost open one, of whatever
kind, and is passed over if there is none. -/
def Brackets.read (b : Brackets) (c : Char) (i : Nat) : Brackets :=
  if isOpening c then { b with opened := i :: b.opened }
  else if isClosing c then
    match b.opened with
    | [] => b
    | o :: rest => { opened := rest, pairs := (o, i) :: b.pairs }
  else b

def brackets (m : List Char) : Brackets := m.zipIdx.foldl (fun b e => b.read e.1 e.2) {}

/-- Whether a position stands in one of the pairs. -/
def isPaired (pairs : List (Nat × Nat)) (i : Nat) : Bool := pairs.any fun p => p.1 < i && i < p.2

/-- Whether a character of a text, given with its position, is a comma outside all pairs. -/
def isLoose (pairs : List (Nat × Nat)) (e : Char × Nat) : Bool := e.1 == ',' && !isPaired pairs e.2

/-- The number of commas outside all pairs after one position and before another. -/
def commasBetween (m : List Char) (pairs : List (Nat × Nat)) (first last : Nat) : Nat :=
  m.zipIdx.countP fun e => isLoose pairs e && first < e.2 && e.2 < last

/-- The function called with the bracket at a position. -/
def calledAt (m : List Char) (o : Nat) : Option (List Char) :=
  m[o]?.bind fun c => calledWith c (m.take o).reverse

/-- The call of the innermost open bracket with which a function is called. Its commas are those before
the next open bracket, or before the end of the text. -/
def innermostCall (m : List Char) : Option CallSite :=
  let b := brackets m
  (b.opened.zip (m.length :: b.opened)).findSome? fun e =>
    (calledAt m e.1).map fun callee =>
      { callee, argument := commasBetween m b.pairs e.1 e.2 }

theorem brackets_concat (m : List Char) (c : Char) :
    brackets (m ++ [c]) = (brackets m).read c m.length := by
  rw [brackets, List.zipIdx_append, List.foldl_append, brackets]
  simp

theorem read_opening (h : isOpening c = true) (b : Brackets) (i : Nat) :
    b.read c i = { b with opened := i :: b.opened } := by
  rw [Brackets.read, if_pos h]

theorem read_closing (h : isClosing c = true) {b : Brackets} {o : Nat} {rest : List Nat}
    (hb : b.opened = o :: rest) (i : Nat) :
    b.read c i = { opened := rest, pairs := (o, i) :: b.pairs } := by
  have ho : isOpening c = false := by
    by_contra ho
    rw [isClosing_eq_false (by simpa using ho)] at h
    cases h
  rw [Brackets.read, if_neg (by simp [ho]), if_pos h]
  simp only [hb]

theorem read_other (ho : isOpening c = false) (hc : isClosing c = false) (b : Brackets) (i : Nat) :
    b.read c i = b := by
  rw [Brackets.read, if_neg (by simp [ho]), if_neg (by simp [hc])]

/-- The positions are those of the text. -/
theorem brackets_lt (m : List Char) :
    (∀ o ∈ (brackets m).opened, o < m.length) ∧ ∀ p ∈ (brackets m).pairs, p.2 < m.length := by
  induction m using List.reverseRecOn with
  | nil => exact ⟨by simp [brackets], by simp [brackets]⟩
  | append_singleton m c ih =>
    obtain ⟨hopened, hpairs⟩ := ih
    have hgrow {i : Nat} (h : i < m.length) : i < (m ++ [c]).length := by
      rw [List.length_append, List.length_singleton]
      omega
    have hlast : m.length < (m ++ [c]).length := by
      rw [List.length_append, List.length_singleton]
      omega
    rw [brackets_concat, Brackets.read]
    split_ifs
    · exact ⟨List.forall_mem_cons.2 ⟨hlast, fun o ho => hgrow (hopened o ho)⟩,
        fun p hp => hgrow (hpairs p hp)⟩
    · split
      · exact ⟨fun o ho => hgrow (hopened o ho), fun p hp => hgrow (hpairs p hp)⟩
      · rename_i a rest hb
        rw [hb] at hopened
        exact ⟨fun o ho => hgrow (hopened o (List.mem_cons_of_mem _ ho)),
          List.forall_mem_cons.2 ⟨hlast, fun p hp => hgrow (hpairs p hp)⟩⟩
    · exact ⟨fun o ho => hgrow (hopened o ho), fun p hp => hgrow (hpairs p hp)⟩

/-! ### Balanced texts forwards -/

theorem isPaired_eq_false {pairs : List (Nat × Nat)} {i : Nat}
    (h : ∀ p ∈ pairs, i ≤ p.1 ∨ p.2 ≤ i) : isPaired pairs i = false := by
  rw [isPaired, List.any_eq_false]
  intro p hp
  have := h p hp
  simp only [Bool.and_eq_true, decide_eq_true_eq]
  omega

theorem isPaired_append (new old : List (Nat × Nat)) (i : Nat) :
    isPaired (new ++ old) i = (isPaired new i || isPaired old i) := List.any_append

theorem mem_zipIdx_bounds {e : Char × Nat} {i : Nat} (h : e ∈ s.zipIdx i) :
    i ≤ e.2 ∧ e.2 < i + s.length := by
  have := List.mem_zipIdx h
  omega

/-- Pairs that begin after a text cover none of it. -/
theorem isLoose_append {new old : List (Nat × Nat)} {e : Char × Nat} (h : ∀ p ∈ new, e.2 ≤ p.1) :
    isLoose (new ++ old) e = isLoose old e := by
  have hpast : isPaired new e.2 = false := isPaired_eq_false fun p hp => .inl (h p hp)
  rw [isLoose, isPaired_append, hpast, Bool.false_or, isLoose]

/-- There is no comma to count from one bracket of a pair to the other. -/
theorem countP_isLoose_pair {o : Char} (ho : isOpening o = true) (hc : isClosing c = true)
    (t : List Char) (i : Nat) (others : List (Nat × Nat)) :
    ((o :: (t ++ [c])).zipIdx i).countP (isLoose ((i, i + 1 + t.length) :: others)) = 0 := by
  rw [List.countP_eq_zero]
  intro e he hloose
  rw [List.zipIdx_cons, List.zipIdx_append, List.mem_cons, List.mem_append, List.zipIdx_singleton,
    List.mem_singleton] at he
  rw [isLoose, Bool.and_eq_true, beq_iff_eq, Bool.not_eq_true', isPaired, List.any_cons,
    Bool.or_eq_false_iff] at hloose
  obtain ⟨hcomma, hcover, -⟩ := hloose
  obtain rfl | he | rfl := he
  · exact ne_comma_of_isOpening ho hcomma
  · have hbounds := mem_zipIdx_bounds he
    simp only [Bool.and_eq_false_iff, decide_eq_false_iff_not] at hcover
    omega
  · exact ne_comma_of_isClosing hc hcomma

/-- A balanced text leaves open what was open before it. Its own pairs stand within it, and the commas
outside of them are those that are counted. -/
theorem Balanced.brackets (h : Balanced s n) (m : List Char) : ∃ new : List (Nat × Nat),
    brackets (m ++ s) = { opened := (brackets m).opened, pairs := new ++ (brackets m).pairs } ∧
      (∀ p ∈ new, m.length ≤ p.1 ∧ p.2 < m.length + s.length) ∧
      (s.zipIdx m.length).countP (isLoose new) = n := by
  induction h generalizing m with
  | nil => exact ⟨[], by simp, by simp, rfl⟩
  | @other s n c _ ho hc ih =>
    obtain ⟨new, hb, hnew, hcount⟩ := ih m
    refine ⟨new, ?_, fun p hp => ?_, ?_⟩
    · rw [← List.append_assoc, brackets_concat, hb, read_other ho hc]
    · have := hnew p hp
      rw [List.length_append, List.length_singleton]
      omega
    · have hlast : isPaired new (m.length + s.length) = false := by
        refine isPaired_eq_false fun p hp => .inr ?_
        have := hnew p hp
        omega
      rw [List.zipIdx_append, List.countP_append, hcount, List.zipIdx_singleton,
        List.countP_singleton, isLoose, hlast]
      by_cases hcomma : c = ',' <;> simp [hcomma]
  | @pair s t n k o c _ _ ho hc ihs iht =>
    obtain ⟨new, hb, hnew, hcount⟩ := ihs m
    obtain ⟨inner, hb', hinner, -⟩ := iht (m ++ s ++ [o])
    rw [brackets_concat, read_opening ho, hb] at hb'
    simp only [List.length_append, List.length_singleton] at hb' hinner
    have htext : m ++ (s ++ o :: t ++ [c]) = m ++ s ++ [o] ++ t ++ [c] := by simp
    have hlength : (m ++ s ++ [o] ++ t).length = m.length + s.length + 1 + t.length := by
      simp only [List.length_append, List.length_singleton]
    have hsplit : s ++ o :: t ++ [c] = s ++ o :: (t ++ [c]) := by simp
    refine ⟨((m.length + s.length, m.length + s.length + 1 + t.length) :: inner) ++ new, ?_,
      fun p hp => ?_, ?_⟩
    · rw [htext, brackets_concat, hb', hlength, read_closing hc rfl]
      simp
    · rw [hsplit, List.length_append, List.length_cons, List.length_append, List.length_singleton]
      rw [List.cons_append, List.mem_cons, List.mem_append] at hp
      obtain rfl | hp | hp := hp
      · omega
      · have := hinner p hp
        omega
      · have := hnew p hp
        omega
    · -- The commas before the pair are as they were.
      have hbefore : (s.zipIdx m.length).countP (isLoose
          (((m.length + s.length, m.length + s.length + 1 + t.length) :: inner) ++ new)) = n := by
        rw [← hcount]
        refine List.countP_congr fun e he => ?_
        have hbounds := mem_zipIdx_bounds he
        rw [isLoose_append (List.forall_mem_cons.2 ⟨by omega, fun p hp => ?_⟩)]
        have := hinner p hp
        omega
      rw [hsplit, List.zipIdx_append, List.countP_append, hbefore, List.cons_append,
        countP_isLoose_pair ho hc, Nat.add_zero]

/-! ### The open brackets -/

/-- What follows the innermost open bracket is balanced, and the brackets before it are those that would
be open without it. -/
theorem exists_innermost {o : Nat} {rest : List Nat} (h : (brackets m).opened = o :: rest) :
    ∃ lead c s n, m = lead ++ c :: s ∧ isOpening c = true ∧ Balanced s n ∧
      (brackets lead).opened = rest ∧ lead.length = o := by
  induction hl : m.length using Nat.strong_induction_on generalizing m o rest with
  | _ l ih =>
    obtain rfl | ⟨m, c, rfl⟩ := List.eq_nil_or_concat m
    · cases h
    rw [List.concat_eq_append] at h hl ⊢
    rw [List.length_append, List.length_singleton] at hl
    rw [brackets_concat] at h
    cases ho : isOpening c with
    | true =>
      rw [read_opening ho] at h
      obtain ⟨rfl, rfl⟩ := List.cons.inj h
      exact ⟨m, c, [], 0, rfl, ho, .nil, rfl, rfl⟩
    | false =>
      cases hc : isClosing c with
      | false =>
        rw [read_other ho hc] at h
        obtain ⟨lead, b, s, n, rfl, hb, hs, hrest, hlead⟩ := ih m.length (by omega) h rfl
        exact ⟨lead, b, s ++ [c], _, by simp, hb, hs.other ho hc, hrest, hlead⟩
      | true =>
        cases hm : (brackets m).opened with
        | nil =>
          rw [Brackets.read, if_neg (by simp [ho]), if_pos hc] at h
          simp only [hm] at h
          cases h
        | cons a others =>
          rw [read_closing hc hm] at h
          -- The bracket that is closed here and its text join what follows the next open one.
          obtain ⟨lead, b, s, n, rfl, hb, hs, hrest, -⟩ := ih m.length (by omega) hm rfl
          have hothers : others = o :: rest := h
          have hlt : lead.length < l := by
            rw [← hl, List.length_append]
            omega
          obtain ⟨lead', b', s', n', rfl, hb', hs', hrest', hlead'⟩ :=
            ih lead.length hlt (hrest.trans hothers) rfl
          exact ⟨lead', b', s' ++ b :: s ++ [c], n', by simp, hb', hs'.pair hs hb hc, hrest', hlead'⟩

/-- A text that leaves no bracket open has no open call, whatever is closed after it. -/
theorem openCall_of_opened_eq_nil (h : (brackets m).opened = []) (d k : Nat) :
    openCall d k m.reverse = none := by
  induction hl : m.length using Nat.strong_induction_on generalizing m d k with
  | _ l ih =>
    obtain rfl | ⟨m, c, rfl⟩ := List.eq_nil_or_concat m
    · rfl
    rw [List.concat_eq_append] at h hl ⊢
    rw [List.length_append, List.length_singleton] at hl
    rw [brackets_concat] at h
    rw [List.reverse_append, List.reverse_singleton, List.singleton_append]
    cases ho : isOpening c with
    | true =>
      rw [read_opening ho] at h
      cases h
    | false =>
      cases hc : isClosing c with
      | false =>
        rw [read_other ho hc] at h
        rw [openCall_other ho hc, ih m.length (by omega) h _ _ rfl]
      | true =>
        rw [openCall_closing hc]
        cases hm : (brackets m).opened with
        | nil => exact ih m.length (by omega) hm _ _ rfl
        | cons o rest =>
          rw [read_closing hc hm] at h
          obtain rfl : rest = [] := h
          obtain ⟨lead, b, s, n, rfl, hb, hs, hrest, -⟩ := exists_innermost hm
          have hlt : lead.length < l := by
            rw [← hl, List.length_append]
            omega
          rw [List.reverse_append, List.reverse_cons, List.append_assoc, List.singleton_append,
            hs.openCall, openCall_opening hb]
          exact ih lead.length hlt hrest _ _ rfl

/-! ### The same call -/

theorem commasBetween_append {lead : List Char} {new old : List (Nat × Nat)} {first last : Nat}
    (hnew : ∀ p ∈ new, lead.length ≤ p.1) (hlast : last ≤ lead.length) (s : List Char) :
    commasBetween (lead ++ s) (new ++ old) first last = commasBetween lead old first last := by
  have hafter : ((s.zipIdx lead.length).countP fun e =>
      isLoose (new ++ old) e && first < e.2 && e.2 < last) = 0 := by
    rw [List.countP_eq_zero]
    intro e he
    have := mem_zipIdx_bounds he
    simp only [Bool.and_eq_true, decide_eq_true_eq]
    omega
  rw [commasBetween, List.zipIdx_append, List.countP_append, Nat.zero_add, hafter, Nat.add_zero,
    commasBetween]
  refine List.countP_congr fun e he => ?_
  have hbounds := mem_zipIdx_bounds he
  rw [isLoose_append fun p hp => ?_]
  have := hnew p hp
  omega

theorem calledAt_append {lead : List Char} {o : Nat} (h : o < lead.length) (s : List Char) :
    calledAt (lead ++ s) o = calledAt lead o := by
  rw [calledAt, calledAt, List.getElem?_append_left h, List.take_append_of_le_length (by omega)]

/-- The commas from a bracket to the end of the text. Pairs that end before the bracket cover none. -/
theorem commasBetween_end {lead : List Char} {old : List (Nat × Nat)}
    (hold : ∀ p ∈ old, p.2 < lead.length) (new : List (Nat × Nat)) (c : Char) (s : List Char) :
    commasBetween (lead ++ c :: s) (new ++ old) lead.length (lead ++ c :: s).length =
      (s.zipIdx (lead.length + 1)).countP (isLoose new) := by
  have hlead : (lead.zipIdx.countP fun e => isLoose (new ++ old) e &&
      lead.length < e.2 && e.2 < (lead ++ c :: s).length) = 0 := by
    rw [List.countP_eq_zero]
    intro e he
    have := mem_zipIdx_bounds he
    simp only [Bool.and_eq_true, decide_eq_true_eq]
    omega
  rw [commasBetween, List.zipIdx_append, List.countP_append, hlead, Nat.zero_add, Nat.zero_add,
    List.zipIdx_cons, List.countP_cons, if_neg (by simp), Nat.add_zero]
  refine List.countP_congr fun e he => ?_
  have hbounds := mem_zipIdx_bounds he
  have hpast : isPaired old e.2 = false := by
    refine isPaired_eq_false fun p hp => .inr ?_
    have := hold p hp
    omega
  have hfirst : lead.length < e.2 := hbounds.1
  have hlast : e.2 < (lead ++ c :: s).length := by
    rw [List.length_append, List.length_cons]
    omega
  rw [isLoose, isPaired_append, hpast, Bool.or_false, isLoose, decide_eq_true hfirst,
    decide_eq_true hlast, Bool.and_true, Bool.and_true]

/-- The call is that of the innermost open bracket, or else it is looked for before that bracket. -/
theorem innermostCall_open (hc : isOpening c = true) (hs : Balanced s n) (lead : List Char) :
    innermostCall (lead ++ c :: s) =
      match calledWith c lead.reverse with
      | some callee => some { callee, argument := n }
      | none => innermostCall lead := by
  obtain ⟨new, hb, hnew, hcount⟩ := hs.brackets (lead ++ [c])
  rw [brackets_concat, read_opening hc, List.append_assoc, List.singleton_append] at hb
  simp only [List.length_append, List.length_singleton] at hnew hcount
  have hcalled : calledAt (lead ++ c :: s) lead.length = calledWith c lead.reverse := by
    rw [calledAt, List.getElem?_append_right (Nat.le_refl _), Nat.sub_self, List.take_left]
    rfl
  have hcommas := (commasBetween_end (brackets_lt lead).2 new c s).trans hcount
  have hbefore : ((brackets lead).opened.zip (lead.length :: (brackets lead).opened)).findSome?
      (fun e => (calledAt (lead ++ c :: s) e.1).map fun callee =>
        { callee, argument := commasBetween (lead ++ c :: s) (new ++ (brackets lead).pairs) e.1 e.2 }) =
      innermostCall lead := by
    rw [innermostCall, ← List.head?_filterMap, ← List.head?_filterMap]
    refine congrArg List.head? (List.filterMap_congr fun e he => ?_)
    obtain ⟨ho, hnext⟩ := List.of_mem_zip he
    have hlt := (brackets_lt lead).1 e.1 ho
    have hle : e.2 ≤ lead.length := by
      obtain hnext | hnext := List.mem_cons.1 hnext
      · omega
      · have := (brackets_lt lead).1 e.2 hnext
        omega
    rw [calledAt_append hlt, commasBetween_append (fun p hp => ?_) hle]
    have := hnew p hp
    omega
  rw [innermostCall, hb]
  simp only [List.zip_cons_cons, List.findSome?_cons, hcalled, hcommas, hbefore]
  cases calledWith c lead.reverse <;> rfl

theorem openCall_reverse (m : List Char) : openCall 0 0 m.reverse = innermostCall m := by
  induction hl : m.length using Nat.strong_induction_on generalizing m with
  | _ l ih =>
    cases hb : (brackets m).opened with
    | nil =>
      rw [openCall_of_opened_eq_nil hb, innermostCall, hb]
      rfl
    | cons o rest =>
      obtain ⟨lead, c, s, n, rfl, hc, hs, -, -⟩ := exists_innermost hb
      have hlt : lead.length < l := by
        rw [← hl, List.length_append, List.length_cons]
        omega
      rw [innermostCall_open hc hs, ← ih lead.length hlt lead rfl, List.reverse_append,
        List.reverse_cons, List.append_assoc, List.singleton_append, hs.openCall, if_pos rfl,
        Nat.zero_add, openCall_open hc]

/-- The backward scan finds the call that the forward reading does. -/
theorem callSite?_eq_innermostCall (before : List Char) :
    callSite? before = innermostCall (mask before) :=
  openCall_reverse (mask before)

end LuaLens.Query
