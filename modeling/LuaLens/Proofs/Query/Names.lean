import LuaLens.Proofs.Query.BareWords
import LuaLens.Proofs.Query.Brackets
import LuaLens.Proofs.Text.Search
import LuaLens.Proofs.Text.Units
import Mathlib.Data.List.Chain
import Mathlib.Data.List.Forall2

/-!
Names taken from the source, by three scans that go back over parts of names and separators alike: for the
receiver of a member, for the name around a place, and for the name called. Each then takes separators off
the ends, so that what it finds is words joined by single separators just when no two separators stand side
by side in it. In a concatenation they do, and there both operands are taken for one name.
-/

namespace LuaLens

open Text

namespace Query

variable {p : Char → Bool} {s name before after : List Char} {c op : Char}

/-! ### Words and separators -/

theorem isSeparator_of_isNamePart (h : isNamePart c = true) : isSeparator c = false := by
  rw [Bool.eq_false_iff]
  intro hc
  rw [isSeparator, Bool.or_eq_true, beq_iff_eq, beq_iff_eq] at hc
  obtain rfl | rfl := hc
  · revert h
    decide
  · revert h
    decide

/-- Words joined by single separators. -/
def IsQualified (s : List Char) : Prop :=
  ∀ segment ∈ s.splitOnP isSeparator, segment ≠ [] ∧ ∀ c ∈ segment, isNamePart c = true

instance (s : List Char) : Decidable (IsQualified s) :=
  have (segment : List Char) : Decidable (∀ c ∈ segment, isNamePart c = true) :=
    List.decidableBAll _ segment
  List.decidableBAll _ (s.splitOnP isSeparator)

/-- No two separators stand side by side. -/
def Single (s : List Char) : Prop := s.IsChain fun c d => isSeparator c = false ∨ isSeparator d = false

instance (s : List Char) : Decidable (Single s) := inferInstanceAs (Decidable (List.IsChain _ s))

/-- Parts of names and separators, with no separator at either end. -/
structure Bounded (s : List Char) : Prop where
  chars : ∀ c ∈ s, isNamePart c = true ∨ isSeparator c = true
  nonempty : s ≠ []
  head : ∀ c ∈ s.head?, isSeparator c = false
  last : ∀ c ∈ s.getLast?, isSeparator c = false

theorem isQualified_cons_separator (h : isSeparator c = true) (s : List Char) :
    ¬ IsQualified (c :: s) := by
  intro hname
  rw [IsQualified, List.splitOnP_cons_eq_if_modifyHead, if_pos h] at hname
  exact (hname [] List.mem_cons_self).1 rfl

/-- Between words of a name stands one separator. -/
theorem isQualified_cons_cons_separator {d : Char} (hc : isNamePart c = true) (hd : isSeparator d = true)
    (s : List Char) : IsQualified (c :: d :: s) ↔ IsQualified s := by
  have hc' := isSeparator_of_isNamePart hc
  rw [IsQualified, List.splitOnP_cons_eq_if_modifyHead, if_neg (by simp [hc']),
    List.splitOnP_cons_eq_if_modifyHead, if_pos hd, List.modifyHead_cons, List.forall_mem_cons]
  exact and_iff_right ⟨List.cons_ne_nil _ _, by simp [hc]⟩

theorem isQualified_cons_cons {d : Char} (hc : isNamePart c = true) (hd : isNamePart d = true)
    (s : List Char) : IsQualified (c :: d :: s) ↔ IsQualified (d :: s) := by
  have hc' := isSeparator_of_isNamePart hc
  have hd' := isSeparator_of_isNamePart hd
  obtain ⟨w, ws, hws⟩ := List.exists_cons_of_ne_nil (List.splitOnP_ne_nil isSeparator s)
  simp [IsQualified, List.splitOnP_cons_eq_if_modifyHead, hc', hd', hws, hc]

theorem single_cons_cons (c d : Char) (s : List Char) :
    Single (c :: d :: s) ↔ (isSeparator c = false ∨ isSeparator d = false) ∧ Single (d :: s) :=
  List.isChain_cons_cons

/-- The end of a bounded text, from a part of a name on. -/
theorem Bounded.right {u : List Char} (h : Bounded (u ++ c :: s)) (hc : isSeparator c = false) :
    Bounded (c :: s) where
  chars d hd := h.chars d (List.mem_append_right _ hd)
  nonempty := List.cons_ne_nil _ _
  head := by
    rintro d ⟨rfl⟩
    exact hc
  last d hd := h.last d (by rwa [List.getLast?_append_of_ne_nil _ (List.cons_ne_nil _ _)])

/-- A bounded text is a name just when its separators are single. -/
theorem Bounded.isQualified_iff : ∀ {s : List Char}, Bounded s → (IsQualified s ↔ Single s)
  | [], h => absurd rfl h.nonempty
  | [c], h => by
    have hc := h.head c rfl
    have hpart := (h.chars c (by simp)).resolve_right (by simp [hc])
    simp [IsQualified, Single, List.splitOnP_cons_eq_if_modifyHead, hc, hpart]
  | c :: d :: s, h => by
    have hc := h.head c rfl
    have hpart := (h.chars c (by simp)).resolve_right (by simp [hc])
    cases hd : isSeparator d with
    | false =>
      have hdpart := (h.chars d (by simp)).resolve_right (by simp [hd])
      rw [isQualified_cons_cons hpart hdpart, (h.right (u := [c]) hd).isQualified_iff,
        single_cons_cons c d s]
      simp [hd]
    | true =>
      rw [isQualified_cons_cons_separator hpart hd, single_cons_cons c d s]
      match s, h with
      | [], h => simp [h.last d rfl] at hd
      | e :: s, h =>
        rw [single_cons_cons d e s]
        cases he : isSeparator e with
        | true => simp [isQualified_cons_separator he, hd]
        | false =>
          rw [(h.right (u := [c, d]) he).isQualified_iff]
          simp [hc]

/-! ### Runs of characters -/

/-- A text is `lead` and a run of characters in `p`, the longest one at its end. -/
structure EndsIn (p : Char → Bool) (s lead run : List Char) : Prop where
  eq : s = lead ++ run
  all : ∀ c ∈ run, p c = true
  stop : ∀ c ∈ lead.getLast?, p c = false

theorem endsIn_iff {lead run : List Char} :
    EndsIn p s lead run ↔ dropEndWhile p s = lead ∧ takeEndWhile p s = run := by
  constructor
  · rintro ⟨rfl, hall, hstop⟩
    have hrun := takeEndWhile_append hall hstop
    have happend := dropEndWhile_append_takeEndWhile p (lead ++ run)
    rw [hrun] at happend
    exact ⟨List.append_cancel_right happend, hrun⟩
  · rintro ⟨rfl, rfl⟩
    exact {
      eq := (dropEndWhile_append_takeEndWhile p s).symm
      all := fun c hc => List.mem_takeWhile_imp (List.mem_reverse.1 hc)
      stop := fun c hc => of_getLast?_dropEndWhile hc }

/-- A text is `core` and characters in `p` around it, which `core` has at neither end. -/
structure Within (p : Char → Bool) (s front core back : List Char) : Prop where
  eq : s = front ++ core ++ back
  front_all : ∀ c ∈ front, p c = true
  back_all : ∀ c ∈ back, p c = true
  nonempty : core ≠ []
  head : ∀ c ∈ core.head?, p c = false
  last : ∀ c ∈ core.getLast?, p c = false

theorem strip_eq_iff {core : List Char} :
    strip p s = core ∧ core ≠ [] ↔ ∃ front back, Within p s front core back := by
  constructor
  · rintro ⟨rfl, hne⟩
    have hends : EndsIn p (s.dropWhile p) (strip p s) (takeEndWhile p (s.dropWhile p)) :=
      endsIn_iff.2 ⟨rfl, rfl⟩
    refine ⟨s.takeWhile p, takeEndWhile p (s.dropWhile p), ?_, fun c hc => List.mem_takeWhile_imp hc,
      hends.all, hne, fun c hc => ?_, hends.stop⟩
    · rw [List.append_assoc, ← hends.eq, List.takeWhile_append_dropWhile]
    · refine of_head?_dropWhile (s := s) ?_
      rwa [hends.eq, List.head?_append_of_ne_nil _ hne]
  · rintro ⟨front, back, h⟩
    obtain ⟨c, t, rfl⟩ := List.exists_cons_of_ne_nil h.nonempty
    have hdrop : s.dropWhile p = c :: t ++ back := by
      rw [h.eq, List.append_assoc, List.dropWhile_append_of_pos h.front_all, List.cons_append,
        List.dropWhile_cons_of_neg (by simp [h.head c rfl])]
    rw [strip, hdrop, (endsIn_iff.1 ⟨rfl, h.back_all, h.last⟩).1]
    exact ⟨rfl, h.nonempty⟩

theorem Within.isInfix {front core back : List Char} (h : Within p s front core back) : core <:+: s :=
  ⟨front, back, h.eq.symm⟩

/-- What stands between separators is bounded by parts of names. -/
theorem Within.bounded {front core back : List Char} (h : Within p s front core back)
    (hp : ∀ c, p c = true → isSeparator c = true)
    (hs : ∀ c ∈ s, isNamePart c = true ∨ p c = true) : Bounded core := by
  have hend {c : Char} (hc : c ∈ core) (hpc : p c = false) : isSeparator c = false :=
    isSeparator_of_isNamePart ((hs c (h.isInfix.subset hc)).resolve_right (by simp [hpc]))
  exact {
    chars := fun c hc => (hs c (h.isInfix.subset hc)).imp_right (hp c)
    nonempty := h.nonempty
    head := fun c hc => hend (List.mem_of_mem_head? hc) (h.head c hc)
    last := fun c hc => hend (List.mem_of_getLast? hc) (h.last c hc) }

/-! ### The name around a place -/

/-- What a name and the separators in it are made of. -/
def inName (c : Char) : Bool := isNamePart c || isSeparator c

/-- A name around the place where a line is cut: it may go back over separators, and ends with the word. -/
def Around (before after name : List Char) : Prop :=
  ∃ lead left right rest front back, EndsIn inName before lead left ∧ after = right ++ rest ∧
    (∀ c ∈ right, isNamePart c = true) ∧ (∀ c ∈ rest.head?, isNamePart c = false) ∧
    Within isSeparator (left ++ right) front name back

theorem Around.isInfix (h : Around before after name) : name <:+: before ++ after := by
  obtain ⟨lead, left, right, rest, front, back, hleft, rfl, -, -, hname⟩ := h
  rw [hleft.eq]
  exact hname.isInfix.trans ⟨lead, rest, by simp⟩

theorem Around.bounded (h : Around before after name) : Bounded name := by
  obtain ⟨lead, left, right, rest, front, back, hleft, -, hright, -, hname⟩ := h
  refine hname.bounded (fun _ => id) fun c hc => ?_
  obtain hc | hc := List.mem_append.1 hc
  · simpa [inName] using hleft.all c hc
  · exact .inl (hright c hc)

theorem Bounded.any_isNamePart (h : Bounded s) : s.any isNamePart = true := by
  obtain ⟨c, t, rfl⟩ := List.exists_cons_of_ne_nil h.nonempty
  have hc := (h.chars c List.mem_cons_self).resolve_right (by simp [h.head c rfl])
  simp [hc]

theorem identifierAround_eq_some_iff :
    identifierAround before after = some name ↔ Around before after name := by
  have hcore : identifierAround before after =
      if (strip isSeparator (takeEndWhile inName before ++ after.takeWhile isNamePart)).any isNamePart
      then some (strip isSeparator (takeEndWhile inName before ++ after.takeWhile isNamePart))
      else none := rfl
  rw [hcore]
  constructor
  · intro h
    split_ifs at h with hany
    obtain ⟨front, back, hname⟩ := strip_eq_iff.1 ⟨Option.some.inj h, by
      rintro rfl
      rw [Option.some.inj h] at hany
      cases hany⟩
    refine ⟨_, _, _, after.dropWhile isNamePart, front, back, endsIn_iff.2 ⟨rfl, rfl⟩,
      List.takeWhile_append_dropWhile.symm, fun c hc => List.mem_takeWhile_imp hc,
      fun c hc => of_head?_dropWhile hc, hname⟩
  · intro h
    have hany := h.bounded.any_isNamePart
    obtain ⟨lead, left, right, rest, front, back, hleft, rfl, hright, hrest, hname⟩ := h
    have hword : (right ++ rest).takeWhile isNamePart = right := by
      rw [List.takeWhile_append_of_pos hright]
      cases rest with
      | nil => rw [List.takeWhile_nil, List.append_nil]
      | cons c rest =>
        rw [List.takeWhile_cons_of_neg (by simp [hrest c rfl]), List.append_nil]
    rw [(endsIn_iff.1 hleft).2, hword, (strip_eq_iff.2 ⟨front, back, hname⟩).1, if_pos hany]

theorem identifierAtByte?_eq_some_iff :
    identifierAtByte? (before ++ after) (byteLength before) = some name ↔ Around before after name := by
  rw [identifierAtByte?, beforeByte_append, List.drop_left, identifierAround_eq_some_iff]

/-! ### The receiver of a member -/

/-- What a receiver is made of. -/
def inReceiver (c : Char) : Bool := isNamePart c || c == '.'

/-- A line that ends in a member: a run with the receiver and the dots after it, an operator that is not
doubled, and the word begun. A number is no receiver. -/
def Member (before receiver link : List Char) (op : Char) (partly : List Char) : Prop :=
  ∃ lead run front, EndsIn isNamePart before (lead ++ run ++ [op]) partly ∧ isSeparator op = true ∧
    (lead ++ run).getLast? ≠ some op ∧ EndsIn inReceiver (lead ++ run) lead run ∧
    Within (· == '.') run front receiver link ∧ isDigitStart receiver = false

/-- The operator that the text before a word ends in. -/
def operatorAt (rest : List Char) : Option Char :=
  match rest.reverse with
  | c :: d :: _ => if isSeparator c && c != d then some c else none
  | [c] => if isSeparator c then some c else none
  | [] => none

/-- The receiver of the operator at the end of a text. A number is none. -/
def receiverAt (rest : List Char) : List Char :=
  let receiver := match operatorAt rest with
    | some _ => strip (· == '.') (takeEndWhile inReceiver rest.dropLast)
    | none => []
  if isDigitStart receiver then [] else receiver

theorem ofLine_eq (before : List Char) : Completing.ofLine before =
    { receiver := String.ofList (receiverAt (dropEndWhile isNamePart before))
      operator :=
        if (receiverAt (dropEndWhile isNamePart before)).isEmpty then none
        else operatorAt (dropEndWhile isNamePart before)
      partly := String.ofList (takeEndWhile isNamePart before) } := rfl

/-- An operator is not doubled. -/
theorem operatorAt_eq_some_iff {rest : List Char} : operatorAt rest = some op ↔
    ∃ front, rest = front ++ [op] ∧ isSeparator op = true ∧ front.getLast? ≠ some op := by
  obtain rfl | ⟨front, c, rfl⟩ := List.eq_nil_or_concat rest
  · simp [operatorAt]
  have hfront : (∃ front', front.concat c = front' ++ [op] ∧ isSeparator op = true ∧
      front'.getLast? ≠ some op) ↔ c = op ∧ isSeparator c = true ∧ front.getLast? ≠ some c := by
    constructor
    · rintro ⟨front', heq, hop, hne⟩
      rw [List.concat_eq_append] at heq
      obtain ⟨rfl, hc⟩ := List.append_inj' heq rfl
      obtain rfl := List.singleton_inj.1 hc
      exact ⟨rfl, hop, hne⟩
    · rintro ⟨rfl, hop, hne⟩
      exact ⟨front, List.concat_eq_append .., hop, hne⟩
  rw [hfront, operatorAt, List.concat_eq_append, List.reverse_append, List.reverse_singleton,
    List.singleton_append, ← List.head?_reverse]
  cases front.reverse with
  | nil => simp [and_comm]
  | cons d s =>
    simp only [Option.ite_none_right_eq_some, Bool.and_eq_true, bne_iff_ne, Option.some.injEq,
      List.head?_cons, ne_eq]
    rw [and_comm, @eq_comm _ c d]

/-- What stands before an operator is its receiver, unless it is a number or nothing at all. -/
theorem receiverAt_of_operatorAt {rest : List Char} (hop : operatorAt (rest ++ [op]) = some op) :
    receiverAt (rest ++ [op]) =
      if isDigitStart (strip (· == '.') (takeEndWhile inReceiver rest)) then []
      else strip (· == '.') (takeEndWhile inReceiver rest) := by
  rw [receiverAt, hop, List.dropLast_concat]

theorem ofLine_eq_iff {receiver partly : List Char} :
    Completing.ofLine before = ⟨String.ofList receiver, some op, String.ofList partly⟩ ↔
      ∃ link, Member before receiver link op partly := by
  rw [ofLine_eq, Completing.mk.injEq, String.ofList_inj, String.ofList_inj]
  constructor
  · rintro ⟨hreceiver, hop, rfl⟩
    rw [hreceiver] at hop
    split_ifs at hop with hempty
    obtain ⟨rest, hrest, hsep, hsingle⟩ := operatorAt_eq_some_iff.1 hop
    rw [hrest] at hop hreceiver
    rw [receiverAt_of_operatorAt hop] at hreceiver
    split_ifs at hreceiver with hdigit
    · exact absurd hreceiver.symm (by simpa using hempty)
    · obtain ⟨front, link, hwithin⟩ := strip_eq_iff.1 ⟨hreceiver, by simpa using hempty⟩
      have hrun : EndsIn inReceiver rest _ _ := endsIn_iff.2 ⟨rfl, rfl⟩
      refine ⟨link, dropEndWhile inReceiver rest, takeEndWhile inReceiver rest, front, ?_⟩
      rw [← hrun.eq]
      exact ⟨endsIn_iff.2 ⟨hrest, rfl⟩, hsep, hsingle, hrun, hwithin,
        by simpa [hreceiver] using hdigit⟩
  · rintro ⟨link, lead, run, front, hword, hsep, hsingle, hrun, hreceiver, hdigit⟩
    obtain ⟨hrest, rfl⟩ := endsIn_iff.1 hword
    have hop := operatorAt_eq_some_iff.2 ⟨_, rfl, hsep, hsingle⟩
    rw [hrest, hop, receiverAt_of_operatorAt hop, (endsIn_iff.1 hrun).2,
      (strip_eq_iff.2 ⟨front, link, hreceiver⟩).1, if_neg (by simp [hdigit]),
      if_neg (by simpa using hreceiver.nonempty)]
    exact ⟨rfl, rfl, rfl⟩

theorem operator_eq_none_iff (before : List Char) :
    (Completing.ofLine before).operator = none ↔ (Completing.ofLine before).receiver = "" := by
  refine ⟨fun h => ?_, operator_ofLine before⟩
  rw [ofLine_eq] at h ⊢
  dsimp only at h ⊢
  rw [String.ofList_eq_empty_iff]
  split_ifs at h with hempty
  · simpa using hempty
  · rw [receiverAt, h]
    rfl

theorem single_append (s t : List Char) : Single (s ++ t) ↔ Single s ∧ Single t ∧
    ∀ c ∈ s.getLast?, ∀ d ∈ t.head?, isSeparator c = false ∨ isSeparator d = false :=
  List.isChain_append

/-- Dots before an operator stand beside a separator. -/
theorem single_link_iff {link : List Char} (hlink : ∀ c ∈ link, (c == '.') = true)
    (hop : isSeparator op = true) : Single (link ++ [op]) ↔ link = [] := by
  obtain rfl | ⟨link, c, rfl⟩ := List.eq_nil_or_concat link
  · simp [Single]
  · have hc : isSeparator c = true := by
      rw [isSeparator, hlink c (by simp), Bool.true_or]
    refine iff_of_false (fun h => ?_) (by simp)
    rw [List.concat_eq_append, List.append_assoc, single_append, List.singleton_append,
      single_cons_cons, hc, hop] at h
    simpa using h.2.1.1

theorem Member.bounded {receiver link partly : List Char} (h : Member before receiver link op partly) :
    Bounded receiver := by
  obtain ⟨lead, run, front, -, -, -, hrun, hreceiver, -⟩ := h
  refine hreceiver.bounded (fun c hc => by rw [isSeparator, hc, Bool.true_or]) fun c hc => ?_
  simpa [inReceiver] using hrun.all c hc

/-- A receiver is a name with the operator right after it just when no two separators stand side by side
from its start to the operator. -/
theorem Member.isQualified_iff {receiver link partly : List Char}
    (h : Member before receiver link op partly) :
    IsQualified receiver ∧ receiver ++ op :: partly <:+ before ↔ Single (receiver ++ link ++ [op]) := by
  have hbounded := h.bounded
  obtain ⟨lead, run, front, hword, hop, -, -, hreceiver, -⟩ := h
  have hline : before = lead ++ front ++ receiver ++ link ++ (op :: partly) := by
    rw [hword.eq, hreceiver.eq]
    simp
  have hsuffix : receiver ++ op :: partly <:+ before ↔ link = [] := by
    constructor
    · rintro ⟨t, ht⟩
      rw [hline, ← List.append_assoc] at ht
      have hlast := congrArg List.getLast? (List.append_cancel_right ht)
      by_contra hne
      rw [List.getLast?_append_of_ne_nil _ hbounded.nonempty,
        List.getLast?_append_of_ne_nil _ hne] at hlast
      have hdot := hreceiver.back_all _ (List.getLast_mem hne)
      rw [hreceiver.last _ (hlast.trans (List.getLast?_eq_some_getLast hne))] at hdot
      cases hdot
    · rintro rfl
      exact ⟨lead ++ front, by rw [hline]; simp⟩
  rw [hbounded.isQualified_iff, hsuffix, List.append_assoc, single_append,
    single_link_iff hreceiver.back_all hop]
  exact and_congr_right fun _ => (and_iff_left fun c hc _ _ => .inl (hbounded.last c hc)).symm

/-! ### The name called -/

/-- A name before a place in a text, perhaps with white space between. A keyword or a number is none. -/
def Called (before callee : List Char) : Prop :=
  ∃ text blanks lead run front back, EndsIn isBlank before text blanks ∧ EndsIn inName text lead run ∧
    Within isSeparator run front callee back ∧ String.ofList callee ∉ keywords ∧
    isDigitStart callee = false

theorem calleeBefore_eq_some_iff {callee : List Char} :
    calleeBefore before.reverse = some callee ↔ Called before callee := by
  have hcore : calleeBefore before.reverse =
      let callee := strip isSeparator (takeEndWhile inName (dropEndWhile isBlank before))
      if callee.isEmpty || keywords.contains (String.ofList callee) || isDigitStart callee then none
      else some callee := by
    rw [dropEndWhile, takeEndWhile, List.reverse_reverse]
    rfl
  rw [hcore]
  dsimp only
  constructor
  · intro h
    split_ifs at h with hno
    rw [Option.some.inj h] at hno
    simp only [Bool.or_eq_true, List.isEmpty_iff, List.contains_iff_mem, not_or,
      Bool.not_eq_true] at hno
    obtain ⟨front, back, hcallee⟩ := strip_eq_iff.1 ⟨Option.some.inj h, hno.1.1⟩
    exact ⟨_, _, _, _, front, back, endsIn_iff.2 ⟨rfl, rfl⟩, endsIn_iff.2 ⟨rfl, rfl⟩, hcallee,
      hno.1.2, hno.2⟩
  · rintro ⟨text, blanks, lead, run, front, back, hblanks, hrun, hcallee, hkeyword, hdigit⟩
    rw [(endsIn_iff.1 hblanks).1, (endsIn_iff.1 hrun).2,
      (strip_eq_iff.2 ⟨front, back, hcallee⟩).1, if_neg]
    simp [hcallee.nonempty, hkeyword, hdigit]

/-- The call found is that of a name before an opening bracket. -/
theorem exists_of_openCall {depth commas : Nat} {backwards : List Char} {site : CallSite}
    (h : openCall depth commas backwards = some site) :
    ∃ after c before, backwards = after ++ c :: before ∧ (c = '(' ∨ c = '\x7b') ∧
      calleeBefore before = some site.callee := by
  induction backwards generalizing depth commas with
  | nil => cases h
  | cons c before ih =>
    have hpast {depth commas : Nat} (h : openCall depth commas before = some site) :
        ∃ after c' before', c :: before = after ++ c' :: before' ∧ (c' = '(' ∨ c' = '\x7b') ∧
          calleeBefore before' = some site.callee := by
      obtain ⟨after, c', before', rfl, hc⟩ := ih h
      exact ⟨c :: after, c', before', rfl, hc⟩
    rw [openCall] at h
    split_ifs at h with hclose hpair hopen
    · exact hpast h
    · exact hpast h
    · split at h
      · next callee hcallee =>
        obtain rfl := Option.some.inj h
        exact ⟨[], c, before, rfl, by simpa using hopen, hcallee⟩
      · exact hpast h
    · exact hpast h
    · exact hpast h
    · exact hpast h

theorem Called.bounded {callee : List Char} (h : Called before callee) : Bounded callee := by
  obtain ⟨text, blanks, lead, run, front, back, -, hrun, hcallee, -⟩ := h
  refine hcallee.bounded (fun _ => id) fun c hc => ?_
  simpa [inName] using hrun.all c hc

theorem Called.isInfix {callee : List Char} (h : Called before callee) : callee <:+: before := by
  obtain ⟨text, blanks, lead, run, front, back, hblanks, hrun, hcallee, -⟩ := h
  rw [hblanks.eq, hrun.eq]
  exact hcallee.isInfix.trans ⟨lead, blanks, rfl⟩

/-! ### What is masked -/

/-- Whether a character is masked by another one, which is itself or a blank. -/
def Masks (m c : Char) : Prop := m = c ∨ m = ' '

theorem mask_masks (s : List Char) : List.Forall₂ Masks (mask s) s := by
  -- In the order of the equations, for code, in strings and in comments.
  refine mask.induct (fun s => List.Forall₂ Masks (mask s) s)
    (fun q s => List.Forall₂ Masks (maskString q s) s)
    (fun s => List.Forall₂ Masks (maskComment s) s) ?_ ?_ ?_ ?_ ?_ ?_ ?_ ?_ ?_ ?_ ?_ s
  · exact .nil
  · intro s ih
    rw [mask]
    exact .cons (.inr rfl) (.cons (.inr rfl) ih)
  · intro c s hdash hquote ih
    rw [mask.eq_3 c s hdash, if_pos hquote]
    exact .cons (.inl rfl) ih
  · intro c s hdash hquote ih
    rw [mask.eq_3 c s hdash, if_neg hquote]
    exact .cons (.inl rfl) ih
  · intro q
    exact .nil
  · intro q c s ih
    rw [maskString]
    exact .cons (.inr rfl) (.cons (.inr rfl) ih)
  · intro q c s hescape hend ih
    rw [maskString.eq_3 q c s hescape, if_pos hend]
    exact .cons (.inl rfl) ih
  · intro q c s hescape hend ih
    rw [maskString.eq_3 q c s hescape, if_neg hend]
    exact .cons (.inr rfl) ih
  · exact .nil
  · intro c s hfeed ih
    rw [maskComment, if_pos hfeed]
    exact .cons (.inl rfl) ih
  · intro c s hfeed ih
    rw [maskComment, if_neg hfeed]
    exact .cons (.inr rfl) ih

/-- What is not blank under a mask is as it was. -/
theorem isPrefix_of_masks {u v t : List Char} (h : List.Forall₂ Masks (u ++ v) t) (hu : ' ' ∉ u) :
    u <+: t := by
  induction u generalizing t with
  | nil => exact List.nil_prefix
  | cons c u ih =>
    obtain ⟨d, t, hd, ht, rfl⟩ := List.forall₂_cons_left_iff.1 h
    obtain rfl := hd.resolve_right fun hc => hu (hc ▸ List.mem_cons_self)
    exact (List.prefix_cons_inj c).2 (ih ht fun hm => hu (List.mem_cons_of_mem _ hm))

theorem isInfix_of_isInfix_mask {u : List Char} (h : u <:+: mask s) (hu : ' ' ∉ u) : u <:+: s := by
  obtain ⟨x, y, hxy⟩ := h
  have hmasks := List.forall₂_drop x.length (mask_masks s)
  rw [← hxy, List.append_assoc, List.drop_left] at hmasks
  exact (isPrefix_of_masks hmasks hu).isInfix.trans (List.drop_suffix _ _).isInfix

theorem Bounded.blank_not_mem (h : Bounded s) : ' ' ∉ s := by
  intro hm
  exact absurd (h.chars ' ' hm) (by decide)

theorem called_of_callSite? {site : CallSite} (h : callSite? before = some site) :
    ∃ lead c rest, mask before = lead ++ c :: rest ∧ (c = '(' ∨ c = '\x7b') ∧ Called lead site.callee := by
  obtain ⟨after, c, lead, hmask, hc, hcallee⟩ := exists_of_openCall h
  rw [← List.reverse_reverse lead] at hcallee
  refine ⟨lead.reverse, c, after.reverse, ?_, hc, calleeBefore_eq_some_iff.1 hcallee⟩
  rw [← List.reverse_reverse (mask before), hmask]
  simp

/-! ### The names found -/

/-- The word begun before a caret is the longest one, and there is an operator just when there is a receiver:
those of the member that the line ends in. The receiver is a name with the operator and the word right after
it just when no two separators stand side by side from its start to the operator. What is found around a
place, wherever a line is cut, and what is found to be called are names just when no two separators stand
side by side in them. -/
theorem names_qualified_iff (before after : List Char) :
    ((∃ rest, EndsIn isNamePart before rest (Completing.ofLine before).partly.toList) ∧
      ((Completing.ofLine before).operator = none ↔ (Completing.ofLine before).receiver = "") ∧
      ∀ receiver op partly,
        Completing.ofLine before = ⟨String.ofList receiver, some op, String.ofList partly⟩ ↔
          ∃ link, Member before receiver link op partly) ∧
    (∀ receiver link op partly, Member before receiver link op partly →
      (IsQualified receiver ∧ receiver ++ op :: partly <:+ before ↔
        Single (receiver ++ link ++ [op]))) ∧
    (∀ name, identifierAtByte? (before ++ after) (byteLength before) = some name ↔
      Around before after name) ∧
    (∀ name, Around before after name →
      name <:+: before ++ after ∧ (IsQualified name ↔ Single name)) ∧
    (∀ name, calleeBefore before.reverse = some name ↔ Called before name) ∧
    ∀ site, callSite? before = some site →
      (∃ lead c rest, mask before = lead ++ c :: rest ∧ (c = '(' ∨ c = '\x7b') ∧
        Called lead site.callee) ∧
      site.callee <:+: before ∧ (IsQualified site.callee ↔ Single site.callee) := by
  refine ⟨⟨⟨_, endsIn_iff.2 ⟨rfl, ?_⟩⟩, operator_eq_none_iff before, fun _ _ _ => ofLine_eq_iff⟩,
    fun _ _ _ _ h => h.isQualified_iff, fun _ => identifierAtByte?_eq_some_iff,
    fun _ h => ⟨h.isInfix, h.bounded.isQualified_iff⟩, fun _ => calleeBefore_eq_some_iff,
    fun site h => ?_⟩
  · rw [ofLine_eq, String.toList_ofList]
  · obtain ⟨lead, c, rest, hmask, hc, hcallee⟩ := called_of_callSite? h
    have hinfix : site.callee <:+: mask before := by
      rw [hmask]
      exact hcallee.isInfix.trans (List.prefix_append _ _).isInfix
    exact ⟨⟨lead, c, rest, hmask, hc, hcallee⟩,
      isInfix_of_isInfix_mask hinfix hcallee.bounded.blank_not_mem, hcallee.bounded.isQualified_iff⟩

/-- A member of a module has its receiver; the operands of a concatenation are one name to each scan. -/
theorem names_qualified_concatenated :
    (∃ link, Member "x = util.ad".toList "util".toList link '.' "ad".toList ∧
      IsQualified "util".toList ∧ "util.ad".toList <:+ "x = util.ad".toList) ∧
    (∃ link, Member "s = a..b.na".toList "a..b".toList link '.' "na".toList ∧
      ¬ Single ("a..b".toList ++ link ++ ['.'])) ∧
    (Around "a..b".toList [] "a..b".toList ∧ ¬ IsQualified "a..b".toList) ∧
    "a..tostring".toList <:+: "x = a..tostring(".toList ∧ ¬ IsQualified "a..tostring".toList := by
  obtain ⟨⟨-, -, hutil⟩, -⟩ := names_qualified_iff "x = util.ad".toList []
  obtain ⟨link, hutil⟩ := (hutil "util".toList '.' "ad".toList).1 (by decide)
  obtain ⟨⟨-, -, hboth⟩, hmember, -⟩ := names_qualified_iff "s = a..b.na".toList []
  obtain ⟨link', hboth⟩ := (hboth "a..b".toList '.' "na".toList).1 (by decide)
  obtain ⟨-, -, hat, haround, -⟩ := names_qualified_iff "a..b".toList []
  have hdots := (hat "a..b".toList).1 (by decide)
  obtain ⟨-, -, -, -, -, hcall⟩ := names_qualified_iff "x = a..tostring(".toList []
  obtain ⟨-, hinfix, hcallee⟩ := hcall ⟨"a..tostring".toList, 0⟩ (by decide)
  refine ⟨⟨link, hutil, by decide, by decide⟩, ⟨link', hboth, fun h => ?_⟩, ⟨hdots, fun h => ?_⟩,
    hinfix, fun h => ?_⟩
  · exact absurd ((hmember _ _ _ _ hboth).2 h).1 (by decide)
  · exact absurd ((haround _ hdots).2.1 h) (by decide)
  · exact absurd (hcallee.1 h) (by decide)

end Query

end LuaLens
