import LuaLens.Proofs.Firsts
import LuaLens.Proofs.Query.Locals

/-!
The order among the entries found for a name. Looking a name up gives the confirmed entries first and
keeps the order of the entries otherwise. The documentation shown, the places of declarations and the
signatures of a call all come from the same entries: the confirmed ones when there are any.
-/

namespace LuaLens.Query

open Text

variable {entries : Corpus} {label : String} {name : List Char} {e : Entry}

/-! ### Entries for a name -/

/-- Whether an entry is called like the last segment of a name, and is seen from a file. -/
structure Named (label : String) (name : List Char) (e : Entry) : Prop where
  segment : e.api.name = String.ofList (lastSegment name)
  visible : e.api.isLocal = false ∨ e.tag.file = label

/-- Whether the qualified name of an entry is the name looked up, with dots for colons. -/
def Confirms (name : List Char) (e : Entry) : Prop :=
  dotted e.api.qualifiedName.toList = dotted name

/-- Whether an entry is one of the best for a name: it is confirmed, or no entry is. -/
def IsBest (entries : Corpus) (label : String) (name : List Char) (e : Entry) : Prop :=
  Named label name e ∧ (Confirms name e ∨ ∀ d ∈ entries, Named label name d → ¬Confirms name d)

theorem named_iff : Named label name e ↔
    (e.api.name == String.ofList (lastSegment name) && isVisible label e) = true := by
  rw [Bool.and_eq_true, beq_iff_eq, isVisible, Bool.or_eq_true, Bool.not_eq_true', beq_iff_eq]
  exact ⟨fun h => ⟨h.segment, h.visible⟩, fun h => ⟨h.1, h.2⟩⟩

instance : Decidable (Named label name e) := decidable_of_iff _ named_iff.symm

instance : Decidable (Confirms name e) := inferInstanceAs (Decidable (_ = _))

instance : Decidable (IsBest entries label name e) := inferInstanceAs (Decidable (_ ∧ _))

/-! ### Looking up -/

/-- An entry as a match for a name. -/
def Match.ofEntry (name : List Char) (e : Entry) : Match :=
  ⟨e, dotted e.api.qualifiedName.toList == dotted name⟩

theorem confirmed_ofEntry : (Match.ofEntry name e).confirmed = true ↔ Confirms name e := beq_iff_eq

theorem lookup_eq (entries : Corpus) (label : String) (name : List Char) :
    lookup entries label name =
      ((entries.filter (Named label name ·)).map (Match.ofEntry name)).filter (·.confirmed) ++
        ((entries.filter (Named label name ·)).map (Match.ofEntry name)).filter (!·.confirmed) := by
  have hnamed : entries.filter (Named label name ·) =
      entries.filter fun e => e.api.name == String.ofList (lastSegment name) && isVisible label e := by
    refine List.filter_congr fun e _ => ?_
    rw [Bool.eq_iff_iff, decide_eq_true_iff, named_iff]
  rw [hnamed]
  exact mergeSort_flag _ _

/-- Confirmed matches come first. -/
theorem pairwise_lookup (entries : Corpus) (label : String) (name : List Char) :
    (lookup entries label name).Pairwise fun m n => n.confirmed = true → m.confirmed = true := by
  rw [lookup_eq, List.pairwise_append]
  refine ⟨?_, ?_, fun m hm n _ _ => (List.mem_filter.1 hm).2⟩
  · exact List.pairwise_of_forall_mem_list fun m hm n _ _ => (List.mem_filter.1 hm).2
  · refine List.pairwise_of_forall_mem_list fun m _ n hn hconfirmed => ?_
    have hnot := (List.mem_filter.1 hn).2
    rw [hconfirmed] at hnot
    cases hnot

/-- The confirmed matches, and those that are not, are the entries of their kind in the order of the
entries. -/
theorem filter_lookup (entries : Corpus) (label : String) (name : List Char) (sure : Bool) :
    ((lookup entries label name).filter (·.confirmed == sure)).map (·.entry) =
      entries.filter fun e => Named label name e ∧ (Confirms name e ↔ sure = true) := by
  have hgroup (found : List Match) :
      (found.filter (·.confirmed) ++ found.filter (!·.confirmed)).filter (·.confirmed == sure) =
        found.filter (·.confirmed == sure) := by
    cases sure <;> simp [List.filter_filter]
  have hentry : (fun m : Match => m.entry) ∘ Match.ofEntry name = id := rfl
  rw [lookup_eq, hgroup, List.filter_map, List.map_map, List.filter_filter, hentry, List.map_id]
  refine List.filter_congr fun e _ => ?_
  rw [Function.comp_apply, Bool.eq_iff_iff, Bool.and_eq_true, beq_iff_eq, decide_eq_true_iff,
    decide_eq_true_iff, and_comm, Bool.eq_iff_iff, confirmed_ofEntry]

theorem filter_confirmed_lookup (entries : Corpus) (label : String) (name : List Char) :
    ((lookup entries label name).filter (·.confirmed)).map (·.entry) =
      entries.filter fun e => Named label name e ∧ Confirms name e := by
  have hgroup := filter_lookup entries label name true
  simpa only [beq_true, iff_true] using hgroup

theorem any_confirmed_iff : (lookup entries label name).any (·.confirmed) = true ↔
    ∃ d ∈ entries, Named label name d ∧ Confirms name d := by
  rw [List.any_eq_true]
  constructor
  · rintro ⟨m, hm, hconfirmed⟩
    have hentry : m.entry ∈ ((lookup entries label name).filter (·.confirmed)).map (·.entry) :=
      List.mem_map_of_mem (List.mem_filter.2 ⟨hm, hconfirmed⟩)
    rw [filter_confirmed_lookup, List.mem_filter, decide_eq_true_iff] at hentry
    exact ⟨m.entry, hentry⟩
  · rintro ⟨d, hd, hbest⟩
    have hfound : d ∈ ((lookup entries label name).filter (·.confirmed)).map (·.entry) := by
      rw [filter_confirmed_lookup, List.mem_filter, decide_eq_true_iff]
      exact ⟨hd, hbest⟩
    obtain ⟨m, hm, -⟩ := List.mem_map.1 hfound
    exact ⟨m, List.mem_filter.1 hm⟩

/-- The best matches are the best entries, in the order of the entries. -/
theorem bestMatches_lookup (entries : Corpus) (label : String) (name : List Char) :
    (bestMatches (lookup entries label name)).map (·.entry) =
      entries.filter (IsBest entries label name ·) := by
  rw [bestMatches]
  split
  · next h =>
    obtain ⟨d, hd, hnamed, hconfirms⟩ := any_confirmed_iff.1 h
    rw [filter_confirmed_lookup]
    refine List.filter_congr fun e _ => decide_eq_decide.2 (and_congr_right fun _ => ?_)
    exact (or_iff_left fun hnone => hnone d hd hnamed hconfirms).symm
  · next h =>
    have hnone : ∀ d ∈ entries, Named label name d → ¬Confirms name d := fun d hd hnamed hconfirms =>
      h (any_confirmed_iff.2 ⟨d, hd, hnamed, hconfirms⟩)
    have hall : (lookup entries label name).filter (·.confirmed == false) =
        lookup entries label name := by
      simpa [List.filter_eq_self] using h
    rw [← hall, filter_lookup]
    refine List.filter_congr fun e he => decide_eq_decide.2 (and_congr_right fun hnamed => ?_)
    exact ⟨fun _ => .inr hnone, fun _ => iff_of_false (hnone e he hnamed) Bool.false_ne_true⟩

/-! ### Places -/

theorem exists_new_place_iff {seen : List Location} {l : Location} {found : Option Location} :
    (∃ m ∉ l :: seen, found = some m) ↔ (∃ m ∉ seen, found = some m) ∧ found ≠ some l := by
  constructor
  · rintro ⟨m, hm, rfl⟩
    rw [List.mem_cons, not_or] at hm
    exact ⟨⟨m, hm.2, rfl⟩, by simpa using hm.1⟩
  · rintro ⟨⟨m, hm, rfl⟩, hne⟩
    exact ⟨m, by simpa [hm] using hne, rfl⟩

/-- Of the entries that pass a test and have a place, the first for each place gives it. -/
theorem isFirstOfEach_distinct (test : Entry → Bool) (place : Entry → Option Location)
    (seen : List Location) (entries : Corpus) :
    ∃ chosen, IsFirstOfEach (fun e => test e = true ∧ ∃ l ∉ seen, place e = some l) place entries chosen ∧
      (distinct seen ((entries.filter test).filterMap place)).map some = chosen.map place := by
  induction entries generalizing seen with
  | nil => exact ⟨[], .nil, rfl⟩
  | cons e rest ih =>
    by_cases htest : test e = true
    · rw [List.filter_cons_of_pos htest]
      cases hplace : place e with
      | none =>
        obtain ⟨chosen, hfirst, hchosen⟩ := ih seen
        rw [List.filterMap_cons_none hplace]
        exact ⟨chosen, .cons_of_neg (by simp [hplace]) hfirst, hchosen⟩
      | some l =>
        rw [List.filterMap_cons_some hplace, distinct]
        split
        · next hseen =>
          obtain ⟨chosen, hfirst, hchosen⟩ := ih seen
          rw [List.contains_iff_mem] at hseen
          exact ⟨chosen, .cons_of_neg (by simp [hplace, hseen]) hfirst, hchosen⟩
        · next hseen =>
          obtain ⟨chosen, hfirst, hchosen⟩ := ih (l :: seen)
          rw [List.contains_iff_mem] at hseen
          refine ⟨e :: chosen, .cons_of_pos ⟨htest, l, hseen, hplace⟩ (hfirst.congr fun d => ?_), ?_⟩
          · rw [and_assoc, hplace, exists_new_place_iff]
          · rw [List.map_cons, List.map_cons, hchosen, hplace]
    · obtain ⟨chosen, hfirst, hchosen⟩ := ih seen
      rw [List.filter_cons_of_neg htest]
      exact ⟨chosen, .cons_of_neg (fun h => htest h.1) hfirst, hchosen⟩

/-! ### Answers -/

variable {document : String} {p : Position}

/-- Whether an entry is one of the best for the name at a place of a text. -/
def IsBestAt (entries : Corpus) (label document : String) (p : Position) (e : Entry) : Prop :=
  ∃ name ∈ symbolAt? document.toList p, IsBest entries label name e

instance : Decidable (IsBestAt entries label document p e) :=
  inferInstanceAs (Decidable (∃ name ∈ symbolAt? document.toList p, _))

theorem isBestAt_iff (hname : symbolAt? document.toList p = some name) :
    IsBestAt entries label document p e ↔ IsBest entries label name e := by
  constructor
  · rintro ⟨found, hfound, hbest⟩
    obtain rfl := Option.some.inj (hname.symm.trans hfound)
    exact hbest
  · exact fun hbest => ⟨name, hname, hbest⟩

/-- The matches for the name at a place of a text, empty when there is none. -/
def matchesAt (entries : Corpus) (label document : String) (p : Position) : List Match :=
  ((symbolAt? document.toList p).map fun name => bestMatches (lookup entries label name)).getD []

theorem sought_eq (entries : Corpus) (label document : String) (p : Position) :
    sought entries label document p = (matchesAt entries label document p).map (·.entry) := rfl

/-- The matches are of the best entries, in the order of the entries. -/
theorem matchesAt_eq (entries : Corpus) (label document : String) (p : Position) :
    (matchesAt entries label document p).map (·.entry) =
      entries.filter (IsBestAt entries label document p ·) := by
  rw [matchesAt]
  cases hname : symbolAt? document.toList p with
  | none =>
    have hnone : entries.filter (IsBestAt entries label document p ·) = [] := by
      refine List.filter_eq_nil_iff.2 fun e _ => ?_
      rw [decide_eq_true_iff]
      rintro ⟨name, hfound, -⟩
      rw [hname] at hfound
      cases hfound
    rw [hnone]
    rfl
  | some name =>
    rw [Option.map_some, Option.getD_some, bestMatches_lookup]
    exact List.filter_congr fun e _ => decide_eq_decide.2 (isBestAt_iff hname).symm

/-- The first match is the first of the best ones. -/
theorem head?_bestMatches (entries : Corpus) (label : String) (name : List Char) :
    (bestMatches (lookup entries label name)).head? = (lookup entries label name).head? := by
  rw [bestMatches]
  split
  · next h =>
    obtain ⟨m, hm, hconfirmed⟩ := List.any_eq_true.1 h
    have hsorted := pairwise_lookup entries label name
    cases hall : lookup entries label name with
    | nil => rfl
    | cons first rest =>
      rw [hall] at hm hsorted
      have hfirst : first.confirmed = true := by
        obtain rfl | hm := List.mem_cons.1 hm
        · exact hconfirmed
        · exact (List.pairwise_cons.1 hsorted).1 m hm hconfirmed
      rw [List.filter_cons_of_pos hfirst]
      rfl
  · rfl

/-- What is shown for a name is the documentation of the first match. -/
theorem hover_eq_head? (entries : Corpus) (label document : String) (p : Position) :
    hover entries label document p =
      (matchesAt entries label document p).head?.map (·.entry.api.doc) := by
  rw [hover_eq, hovered, matchesAt]
  cases symbolAt? document.toList p with
  | none => rfl
  | some name =>
    rw [Option.bind_some, Option.map_some, Option.getD_some, head?_bestMatches, Option.map_map]
    rfl

/-- The places of a name are those of the first entry of each place among the best ones. -/
theorem isFirstOfEach_definition (x : Index) (docs : Documents) (fs : FileSystem)
    (label document : String) (p : Position) :
    ∃ chosen, IsFirstOfEach (fun e => IsBestAt x.entries label document p e ∧
        (locate? x docs fs e.tag).isSome = true) (fun e => locate? x docs fs e.tag) x.entries chosen ∧
      (definition x docs fs label document p).map some =
        chosen.map fun e => locate? x docs fs e.tag := by
  obtain ⟨chosen, hfirst, hchosen⟩ := isFirstOfEach_distinct
    (IsBestAt x.entries label document p ·) (fun e => locate? x docs fs e.tag) [] x.entries
  rw [definition_eq, sought_eq, matchesAt_eq]
  refine ⟨chosen, hfirst.congr fun e => ?_, hchosen⟩
  rw [decide_eq_true_iff, Option.isSome_iff_exists]
  simp only [List.not_mem_nil, not_false_eq_true, true_and]

theorem nodup_definition (x : Index) (docs : Documents) (fs : FileSystem) (label document : String)
    (p : Position) : (definition x docs fs label document p).Nodup := by
  obtain ⟨chosen, hfirst, hchosen⟩ := isFirstOfEach_definition x docs fs label document p
  refine List.Nodup.of_map some ?_
  rw [hchosen]
  exact List.pairwise_map.2 hfirst.pairwise_ne

/-- The signatures of a call are those of the best entries for the name called, as far as they have
parameters. -/
theorem called_eq (entries : Corpus) (label document : String) (p : Position) (site : CallSite) :
    called entries label document p site = entries.filter fun e =>
      IsBest entries label (substituteReceiver document.toList p.line site.callee) e ∧
        '(' ∈ e.api.header.toList := by
  have hparameters (ms : List Match) :
      (ms.filter fun m => m.entry.api.header.toList.contains '(').map (·.entry) =
        (ms.map (·.entry)).filter fun e => e.api.header.toList.contains '(' := by
    rw [List.filter_map, Function.comp_def]
  rw [called, hparameters, bestMatches_lookup, List.filter_filter]
  refine List.filter_congr fun e _ => ?_
  rw [Bool.eq_iff_iff, Bool.and_eq_true, List.contains_iff_mem, decide_eq_true_iff,
    decide_eq_true_iff, and_comm]

/-- Looking up a name gives the entries that are called like its last segment and may be seen, the
confirmed ones first, and both in the order of the entries. What is shown for a name, the places it leads
to and the signatures of a call come from the best of them: the first is shown, the first for each place
gives the place, and those with parameters give the signatures, all in the order of the entries. -/
theorem features_rank_alike :
    (∀ entries label name,
      (lookup entries label name).Pairwise (fun m n => n.confirmed = true → m.confirmed = true) ∧
      ∀ sure, ((lookup entries label name).filter (·.confirmed == sure)).map (·.entry) =
        entries.filter fun e => Named label name e ∧ (Confirms name e ↔ sure = true)) ∧
    ∀ (x : Index) (docs : Documents) (fs : FileSystem) (label document : String) (p : Position),
      (matchesAt x.entries label document p).map (·.entry) =
          x.entries.filter (IsBestAt x.entries label document p ·) ∧
        hover x.entries label document p =
          (matchesAt x.entries label document p).head?.map (·.entry.api.doc) ∧
        (hover x.entries label document p = none ↔ matchesAt x.entries label document p = []) ∧
        (definition x docs fs label document p).Nodup ∧
        (∃ chosen, IsFirstOfEach (fun e => IsBestAt x.entries label document p e ∧
            (locate? x docs fs e.tag).isSome = true) (fun e => locate? x docs fs e.tag) x.entries
            chosen ∧
          (definition x docs fs label document p).map some =
            chosen.map fun e => locate? x docs fs e.tag) ∧
        ∀ site ∈ callSite? (textBefore document.toList p),
          (signatureHelp x.entries label document p).getD [] =
            (x.entries.filter fun e =>
              IsBest x.entries label (substituteReceiver document.toList p.line site.callee) e ∧
                '(' ∈ e.api.header.toList).map (Signature.ofEntry site) := by
  refine ⟨fun entries label name => ⟨pairwise_lookup entries label name, filter_lookup entries label name⟩,
    fun x docs fs label document p => ⟨matchesAt_eq _ _ _ _, hover_eq_head? _ _ _ _, ?_,
      nodup_definition x docs fs label document p, isFirstOfEach_definition x docs fs label document p,
      fun site hsite => ?_⟩⟩
  · rw [hover_eq_head?, Option.map_eq_none_iff, List.head?_eq_none_iff]
  · rw [Option.mem_def] at hsite
    rw [signatureHelp_eq, hsite, Option.bind_some, called_eq]
    split
    · next hnone =>
      rw [List.isEmpty_iff.1 hnone]
      rfl
    · rfl

end LuaLens.Query
