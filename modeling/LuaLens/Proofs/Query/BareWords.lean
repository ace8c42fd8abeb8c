import LuaLens.Proofs.Query.Candidates
import LuaLens.Proofs.Text.Cut

/-!
Completing a word without a receiver. The document has a say in it through the lines that begin with an
equals sign: such a line reads as an assignment to the name of no characters, which is what the receiver
is called. The nearest of them decides, and when it has a value of a known kind, only entries of that
class are offered.
-/

namespace LuaLens.Query

open Text

variable {line right text : List Char}

/-! ### Lines that assign to no name -/

/-- White space, perhaps with `local` in it. -/
inductive IsLead : List Char → Prop
  | blank {a : List Char} (ha : ∀ c ∈ a, isBlank c = true) : IsLead a
  | afterLocal {a b : List Char} (ha : ∀ c ∈ a, isBlank c = true) (hb : ∀ c ∈ b, isBlank c = true)
      (hne : b ≠ []) : IsLead (a ++ "local".toList ++ b)

/-- A line that begins with a single equals sign, and what stands to the right of it. -/
def Nameless (line right : List Char) : Prop :=
  ∃ lead c rest, IsLead lead ∧ c ≠ '=' ∧ line = lead ++ '=' :: c :: rest ∧ right = trim (c :: rest)

theorem isBlank_equals : isBlank '=' = false := by decide

theorem IsLead.append {lead b : List Char} (h : IsLead lead) (hb : ∀ c ∈ b, isBlank c = true) :
    IsLead (lead ++ b) := by
  cases h with
  | blank ha => exact .blank (List.forall_mem_append.2 ⟨ha, hb⟩)
  | afterLocal ha hd hne =>
    rw [List.append_assoc]
    exact .afterLocal ha (List.forall_mem_append.2 ⟨hd, hb⟩) (by simp [hne])

theorem IsLead.equals_not_mem {lead : List Char} (h : IsLead lead) : '=' ∉ lead := by
  have hblank {s : List Char} (hs : ∀ c ∈ s, isBlank c = true) : '=' ∉ s := fun hm =>
    absurd (hs '=' hm) (by simp [isBlank_equals])
  cases h with
  | blank ha => exact hblank ha
  | afterLocal ha hb => simp [hblank ha, hblank hb]

/-- There is one right side, since no equals sign comes before that of the line. -/
theorem Nameless.unique {right' : List Char} (h : Nameless line right) (h' : Nameless line right') :
    right = right' := by
  obtain ⟨lead, c, rest, hlead, -, rfl, rfl⟩ := h
  obtain ⟨lead', c', rest', hlead', -, hline, rfl⟩ := h'
  have hsplit := splitOnce_append hlead.equals_not_mem (c :: rest)
  rw [hline, splitOnce_append hlead'.equals_not_mem] at hsplit
  rw [(Prod.mk.inj (Option.some.inj hsplit)).2]

/-- The right side of a text that begins with a single equals sign. -/
def value? (s : List Char) : Option (List Char) :=
  match s.dropWhile isBlank with
  | '=' :: c :: right => if c == '=' then none else some (trim (c :: right))
  | _ => none

theorem assigned?_nil (line : List Char) : assigned? [] line = (leads line).findSome? value? := rfl

theorem value?_cons {c : Char} (hc : c ≠ '=') (rest : List Char) :
    value? ('=' :: c :: rest) = some (trim (c :: rest)) := by
  rw [value?, List.dropWhile_cons_of_neg (by simp [isBlank_equals])]
  exact if_neg (by simpa using hc)

theorem value?_eq_some {s : List Char} (h : value? s = some right) :
    ∃ b c rest, (∀ x ∈ b, isBlank x = true) ∧ c ≠ '=' ∧ s = b ++ '=' :: c :: rest ∧
      right = trim (c :: rest) := by
  rw [value?] at h
  split at h
  · next c rest hdrop =>
    split_ifs at h with hc
    refine ⟨s.takeWhile isBlank, c, rest, fun x hx => List.mem_takeWhile_imp hx, by simpa using hc, ?_,
      (Option.some.inj h).symm⟩
    rw [← hdrop, List.takeWhile_append_dropWhile]
  · cases h

/-- What is left of a text when some of its first white space is taken off. -/
theorem eq_drop_iff {s t : List Char} {n : Nat} :
    n ≤ (s.takeWhile isBlank).length ∧ t = s.drop n ↔
      ∃ a, (∀ c ∈ a, isBlank c = true) ∧ a.length = n ∧ s = a ++ t := by
  constructor
  · rintro ⟨hn, rfl⟩
    have hfront : s.take n <+: s.takeWhile isBlank :=
      List.prefix_of_prefix_length_le (List.take_prefix n s) (List.takeWhile_prefix isBlank)
        ((List.length_take_le n s).trans hn)
    have hlen : n ≤ s.length := hn.trans (List.takeWhile_prefix isBlank).length_le
    exact ⟨s.take n, fun c hc => List.mem_takeWhile_imp (hfront.subset hc),
      List.length_take_of_le hlen, (List.take_append_drop n s).symm⟩
  · rintro ⟨a, ha, rfl, rfl⟩
    refine ⟨?_, by simp⟩
    rw [List.takeWhile_append_of_pos ha, List.length_append]
    exact Nat.le_add_right _ _

/-- What may stand between `local` and a name is some white space. -/
theorem mem_afterLocal_iff {rest s : List Char} :
    s ∈ (List.range (rest.takeWhile isBlank).length).reverse.map (fun n => rest.drop (n + 1)) ↔
      ∃ d, (∀ c ∈ d, isBlank c = true) ∧ d ≠ [] ∧ rest = d ++ s := by
  simp only [List.mem_map, List.mem_reverse, List.mem_range]
  constructor
  · rintro ⟨n, hn, rfl⟩
    obtain ⟨d, hd, hlen, heq⟩ := eq_drop_iff.1 ⟨Nat.succ_le_of_lt hn, rfl⟩
    exact ⟨d, hd, List.ne_nil_of_length_eq_add_one hlen, heq⟩
  · rintro ⟨d, hd, hne, heq⟩
    obtain ⟨n, hn⟩ := Nat.exists_eq_succ_of_ne_zero (mt List.length_eq_zero_iff.1 hne)
    obtain ⟨hle, hs⟩ := eq_drop_iff.2 ⟨d, hd, hn, heq⟩
    exact ⟨n, hle, hs.symm⟩

/-- A name may stand after any lead of a line. -/
theorem mem_leads_iff {s : List Char} : s ∈ leads line ↔ ∃ lead, IsLead lead ∧ line = lead ++ s := by
  simp only [leads, List.mem_flatMap, List.mem_map, List.mem_reverse, List.mem_range,
    List.mem_append, List.mem_singleton]
  constructor
  · rintro ⟨_, ⟨n, hn, rfl⟩, hs⟩
    obtain ⟨a, ha, -, hline⟩ := eq_drop_iff.1 ⟨Nat.le_of_lt_succ hn, rfl⟩
    obtain hs | rfl := hs
    · split at hs
      · next rest hlocal =>
        obtain ⟨d, hd, hne, rfl⟩ := mem_afterLocal_iff.1 hs
        rw [List.isPrefixOf?_eq_some_iff_append_eq] at hlocal
        refine ⟨a ++ "local".toList ++ d, .afterLocal ha hd hne, ?_⟩
        rw [hline, ← hlocal, List.append_assoc, List.append_assoc]
      · cases hs
    · exact ⟨a, .blank ha, hline⟩
  · rintro ⟨lead, hlead, rfl⟩
    cases hlead with
    | blank ha =>
      obtain ⟨hn, hs⟩ := eq_drop_iff.2 ⟨lead, ha, rfl, rfl⟩
      exact ⟨_, ⟨lead.length, Nat.lt_succ_of_le hn, rfl⟩, .inr hs⟩
    | @afterLocal a d ha hd hne =>
      have hline : a ++ "local".toList ++ d ++ s = a ++ ("local".toList ++ (d ++ s)) := by
        simp only [List.append_assoc]
      obtain ⟨hn, hs⟩ := eq_drop_iff.2 ⟨a, ha, rfl, hline⟩
      refine ⟨_, ⟨a.length, Nat.lt_succ_of_le hn, rfl⟩, .inl ?_⟩
      rw [← hs, List.isPrefixOf?_eq_some_iff_append_eq.2 rfl]
      exact mem_afterLocal_iff.2 ⟨d, hd, hne, rfl⟩

theorem assigned?_nil_eq_some_iff : assigned? [] line = some right ↔ Nameless line right := by
  have hof {right : List Char} (h : assigned? [] line = some right) : Nameless line right := by
    rw [assigned?_nil] at h
    obtain ⟨s, hs, hvalue⟩ := List.exists_of_findSome?_eq_some h
    obtain ⟨lead, hlead, rfl⟩ := mem_leads_iff.1 hs
    obtain ⟨b, c, rest, hb, hc, rfl, hright⟩ := value?_eq_some hvalue
    exact ⟨lead ++ b, c, rest, hlead.append hb, hc, (List.append_assoc ..).symm, hright⟩
  refine ⟨hof, fun h => ?_⟩
  have ⟨lead, c, rest, hlead, hc, hline, _⟩ := h
  have hs : '=' :: c :: rest ∈ leads line := mem_leads_iff.2 ⟨lead, hlead, hline⟩
  have hsome : (assigned? [] line).isSome = true := by
    rw [assigned?_nil, List.findSome?_isSome_iff]
    exact ⟨_, hs, by rw [value?_cons hc]; rfl⟩
  obtain ⟨right', hright'⟩ := Option.isSome_iff_exists.1 hsome
  rw [hright', (hof hright').unique h]

/-! ### What they do to a bare word -/

/-- The right side of the nearest line, at or above a place, that begins with a single equals sign. -/
def NearestValue (text : List Char) (n : Nat) (right : List Char) : Prop :=
  ∃ above line below, (lines text).take (n + 1) = above ++ line :: below ∧ Nameless line right ∧
    ∀ l ∈ below, ∀ r, ¬Nameless l r

/-- Whether that line has a value of the given kind. -/
def Misleads (text : List Char) (n : Nat) (kind : String) : Prop :=
  (∃ right, NearestValue text n right ∧ classify right = some kind.toList) ∧ kind ≠ ""

/-- The class to which the completions of a bare word are kept, empty for any class. -/
def bareClass (text : List Char) (n : Nat) : String := (inferType text n []).elim "" String.ofList

theorem inferType_nil_eq_some_iff {n : Nat} {kind : List Char} : inferType text n [] = some kind ↔
    ∃ right, NearestValue text n right ∧ classify right = some kind := by
  have hnone (l : List Char) : assigned? [] l = none ↔ ∀ r, ¬Nameless l r := by
    simp only [Option.eq_none_iff_forall_ne_some, ne_eq, assigned?_nil_eq_some_iff]
  simp only [inferType, Option.bind_eq_some_iff, List.findSome?_eq_some_iff, hnone,
    assigned?_nil_eq_some_iff]
  refine exists_congr fun right => and_congr_left fun _ => ?_
  -- The lines are searched from the last one on.
  constructor
  · rintro ⟨below, line, above, hlines, hright, hbelow⟩
    refine ⟨above.reverse, line, below.reverse, ?_, hright, by simpa using hbelow⟩
    rw [← List.reverse_inj, hlines]
    simp
  · rintro ⟨above, line, below, hlines, hright, hbelow⟩
    refine ⟨below.reverse, line, above.reverse, ?_, hright, by simpa using hbelow⟩
    rw [hlines]
    simp

theorem misleads_iff {n : Nat} {kind : String} :
    Misleads text n kind ↔ bareClass text n = kind ∧ kind ≠ "" := by
  rw [Misleads, ← inferType_nil_eq_some_iff, bareClass]
  refine and_congr_left fun hne => ?_
  cases inferType text n [] with
  | none => simpa using hne.symm
  | some k => simp [← String.toList_inj]

theorem bareClass_eq_empty_iff {n : Nat} : bareClass text n = "" ↔ ∀ kind, ¬Misleads text n kind := by
  simp only [misleads_iff, not_and, not_not]
  exact ⟨fun h kind hkind => hkind ▸ h, fun h => h _ rfl⟩

theorem bareClass_eq_iff {text text' : List Char} {n n' : Nat} : bareClass text n = bareClass text' n' ↔
    ∀ kind, Misleads text n kind ↔ Misleads text' n' kind := by
  constructor
  · intro h kind
    rw [misleads_iff, misleads_iff, h]
  · intro h
    by_cases hempty : bareClass text n = ""
    · have hnone := bareClass_eq_empty_iff.1 hempty
      rw [hempty, eq_comm, bareClass_eq_empty_iff]
      exact fun kind => (h kind).not.1 (hnone kind)
    · exact ((misleads_iff.1 ((h _).1 (misleads_iff.2 ⟨rfl, hempty⟩))).1).symm

/-! ### Bare words -/

/-- Whether a word without a receiver stands before a place of a text. -/
structure BareWord (text : String) (p : Position) (word : String) : Prop where
  receiver : (Completing.ofLine (lineBefore text.toList p)).receiver = ""
  partly : (Completing.ofLine (lineBefore text.toList p)).partly = word
  nonempty : word ≠ ""

/-- Whether an entry continues a word, as seen from a file. -/
def Continues (word label : String) (e : Entry) : Prop :=
  word.toList <+: e.tag.name.toList ∧ SeenFrom label e

/-- Whether proposals are those of the first entry of each name among all with a property. -/
def Offers (p : Entry → Prop) (entries : Corpus) (proposals : List Proposal) : Prop :=
  ∃ chosen, IsFirstOfEach p (·.tag.name) entries chosen ∧
    proposals = chosen.map (Proposal.ofEntry false)

variable {document document' word : String} {p p' : Position}

theorem operator_ofLine (before : List Char) (h : (Completing.ofLine before).receiver = "") :
    (Completing.ofLine before).operator = none := by
  unfold Completing.ofLine at h ⊢
  dsimp only at h ⊢
  rw [String.ofList_eq_empty_iff] at h
  rw [h]
  rfl

theorem BareWord.query (h : BareWord document p word) :
    Completing.ofLine (lineBefore document.toList p) = ⟨"", none, word⟩ := by
  have hoperator := operator_ofLine _ h.receiver
  have hreceiver := h.receiver
  have hpartly := h.partly
  generalize Completing.ofLine (lineBefore document.toList p) = q at *
  obtain ⟨receiver, operator, partly⟩ := q
  simp_all

/-- A bare word is completed by the candidates of the class that the document gives. -/
theorem BareWord.complete_eq (h : BareWord document p word) (entries : Corpus) (label : String) :
    complete entries label document p =
      (candidates entries label ⟨"", none, word⟩ (bareClass document.toList p.line)).map
        (Proposal.ofEntry false) := by
  have hempty : Completing.isEmpty ⟨"", none, word⟩ = false := by
    simp [Completing.isEmpty, h.nonempty]
  rw [Query.complete_eq, completed, h.query]
  simp only [hempty]
  rfl

theorem fits_bare_iff {label kind : String} {e : Entry} : Fits label ⟨"", none, word⟩ kind e ↔
    Continues word label e ∧ (kind = "" ∨ e.tag.owner = kind) :=
  ⟨fun h => ⟨⟨h.begins, h.seen⟩, h.owned⟩, fun h => ⟨h.1.1, h.2, nofun, h.1.2⟩⟩

theorem BareWord.offers (h : BareWord document p word) (entries : Corpus) (label : String) :
    Offers (fun e => Continues word label e ∧
        ∀ kind, Misleads document.toList p.line kind → e.tag.owner = kind) entries
      (complete entries label document p) := by
  refine ⟨_, (isFirstOfEach_candidates entries label _ _).congr fun e => ?_, h.complete_eq entries label⟩
  rw [fits_bare_iff]
  refine and_congr_right fun _ => ?_
  simp only [misleads_iff, and_imp, forall_eq', ← or_iff_not_imp_left]

/-- A function of a given name and class. -/
def probe (name owner : String) : Entry where
  tag := { name, file := "", locator := "", kind := .function, owner }
  api := { name, doc := "" }

theorem continues_probe (word label owner : String) : Continues word label (probe word owner) :=
  ⟨List.prefix_rfl, .inl rfl⟩

/-- A function of the name of a bare word is offered if its class is the one the document gives. -/
theorem BareWord.complete_probe_ne_nil_iff (h : BareWord document p word) (label owner : String) :
    complete [probe word owner] label document p ≠ [] ↔
      bareClass document.toList p.line = "" ∨ owner = bareClass document.toList p.line := by
  have hfirst := isFirstOfEach_candidates [probe word owner] label ⟨"", none, word⟩
    (bareClass document.toList p.line)
  rw [h.complete_eq, ne_eq, List.map_eq_nil_iff]
  constructor
  · intro hne
    obtain ⟨e, he⟩ := List.exists_mem_of_ne_nil _ hne
    obtain rfl := List.mem_singleton.1 (hfirst.sublist.mem he)
    exact (fits_bare_iff.1 (hfirst.of_mem he)).2
  · intro hclass
    have hfits := fits_bare_iff.2 ⟨continues_probe word label owner, hclass⟩
    obtain ⟨e, he, -⟩ := hfirst.exists_key_eq (List.mem_singleton_self _) hfits
    exact List.ne_nil_of_mem he

/-- Documents that give different classes are told apart by some entry. -/
theorem BareWord.bareClass_eq (h : BareWord document p word) (h' : BareWord document' p' word)
    (heq : ∀ entries label, complete entries label document p = complete entries label document' p') :
    bareClass document.toList p.line = bareClass document'.toList p'.line := by
  have hiff (owner : String) :
      bareClass document.toList p.line = "" ∨ owner = bareClass document.toList p.line ↔
        bareClass document'.toList p'.line = "" ∨ owner = bareClass document'.toList p'.line := by
    rw [← h.complete_probe_ne_nil_iff "" owner, heq, h'.complete_probe_ne_nil_iff]
  obtain hempty | hsame := (hiff _).1 (.inr rfl)
  · obtain hempty' | hsame := (hiff _).2 (.inr rfl)
    · rw [hempty, hempty']
    · exact hsame.symm
  · exact hsame

/-- The completions of a bare word are the same in two documents, whatever there is to offer, just when
the same kind of value misleads in both, if any does. They are those of the word alone, in any class, just
when none does, and else those of one class. -/
theorem bare_word_iff (h : BareWord document p word) (h' : BareWord document' p' word) :
    ((∀ entries label, complete entries label document p = complete entries label document' p') ↔
      ∀ kind, Misleads document.toList p.line kind ↔ Misleads document'.toList p'.line kind) ∧
    ((∀ entries label, Offers (Continues word label) entries (complete entries label document p)) ↔
      ∀ kind, ¬Misleads document.toList p.line kind) ∧
    ∀ entries label, Offers (fun e => Continues word label e ∧
        ∀ kind, Misleads document.toList p.line kind → e.tag.owner = kind) entries
      (complete entries label document p) := by
  refine ⟨?_, ?_, h.offers⟩
  · rw [← bareClass_eq_iff]
    refine ⟨h.bareClass_eq h', fun hclass entries label => ?_⟩
    rw [h.complete_eq, h'.complete_eq, hclass]
  · constructor
    · intro hoffers
      rw [← bareClass_eq_empty_iff]
      obtain ⟨chosen, hfirst, hchosen⟩ := hoffers [probe word ""] ""
      obtain ⟨e, he, -⟩ := hfirst.exists_key_eq (List.mem_singleton_self _) (continues_probe word "" "")
      have hne : complete [probe word ""] "" document p ≠ [] := by
        rw [hchosen]
        exact List.ne_nil_of_mem (List.mem_map_of_mem he)
      exact ((h.complete_probe_ne_nil_iff "" "").1 hne).elim id Eq.symm
    · intro hnone entries label
      obtain ⟨chosen, hfirst, hchosen⟩ := h.offers entries label
      exact ⟨chosen, hfirst.congr fun e => and_iff_left fun kind hkind => absurd hkind (hnone kind),
        hchosen⟩

/-- A string on a line of its own after the name it is given to. -/
def brokenAssignment : String := "local message\n  = \"hello\"\npri"

/-- Of a bare word below that line only what is called like a string is offered. -/
theorem bare_word_iff_string :
    (BareWord brokenAssignment ⟨2, 3⟩ "pri" ∧ BareWord "pri" ⟨0, 3⟩ "pri") ∧
      Misleads brokenAssignment.toList 2 "string" ∧
      ¬∀ entries label, complete entries label brokenAssignment ⟨2, 3⟩ =
        complete entries label "pri" ⟨0, 3⟩ := by
  have hbroken : BareWord brokenAssignment ⟨2, 3⟩ "pri" := ⟨by decide, by decide, by decide⟩
  have hplain : BareWord "pri" ⟨0, 3⟩ "pri" := ⟨by decide, by decide, by decide⟩
  have hkind : Misleads brokenAssignment.toList 2 "string" := misleads_iff.2 ⟨by decide, by decide⟩
  refine ⟨⟨hbroken, hplain⟩, hkind, fun hsame => ?_⟩
  have hnone : bareClass "pri".toList 0 = "" := by decide
  exact bareClass_eq_empty_iff.1 hnone _ (((bare_word_iff hbroken hplain).1.1 hsame "string").1 hkind)

end LuaLens.Query
