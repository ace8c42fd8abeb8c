import LuaLens.Symbol.Extract
import LuaLens.Proofs.Text.Cut
import LuaLens.Proofs.Text.Word

/-!
The characters of extracted symbols. Names and owners are put together from targets in the source and
from the name of the module, so that whatever holds of these characters holds of them all.
-/

namespace LuaLens

open Text Scan

/-! ### Scanners -/

namespace Text.Scan

variable {α β : Type}

section

variable {scan scan' : Scan α} {p : Char → Bool} {s rest : List Char} {a : α}

theorem bind_eq_some_iff {f : α → Scan β} {b : β} : (scan >>= f) s = some (b, rest) ↔
    ∃ a s', scan s = some (a, s') ∧ f a s' = some (b, rest) := by
  simp only [Bind.bind, StateT.bind, Option.bind_eq_some_iff, Prod.exists]

theorem pure_eq_some_iff {b : α} : (Pure.pure a : Scan α) s = some (b, rest) ↔ a = b ∧ s = rest := by
  have hpure : (Pure.pure a : Scan α) s = some (a, s) := rfl
  rw [hpure, Option.some_inj, Prod.mk.injEq]

theorem one_eq_some_iff {c : Char} : one p s = some (c, rest) ↔ s = c :: rest ∧ p c = true := by
  cases s with
  | nil => simp [one]
  | cons d s =>
    rw [one, Option.ite_none_right_eq_some, Option.some_inj, Prod.mk.injEq, List.cons.injEq, and_comm]
    exact and_congr_right fun h => by rw [h.1]

theorem many_eq_some_iff {t : List Char} :
    many p s = some (t, rest) ↔ s.takeWhile p = t ∧ s.dropWhile p = rest := by
  rw [many, Option.some_inj, Prod.mk.injEq]

theorem word_eq_some_iff {text : String} {u : Unit} :
    word text s = some (u, rest) ↔ text.toList ++ rest = s := by
  simp [word, List.isPrefixOf?_eq_some_iff_append_eq]

theorem read?_eq_some_iff : scan.read? s = some a ↔ ∃ rest, scan s = some (a, rest) := by
  simp [Scan.read?, StateT.run]

theorem of_read?_or (h : (scan.read? s <|> scan'.read? s) = some a) :
    scan.read? s = some a ∨ scan'.read? s = some a := by
  rw [Option.orElse_eq_orElse, Option.orElse_eq_or, Option.or_eq_some_iff] at h
  exact h.imp_right And.right

end

/-- Whether all that a scanner reads satisfies a property. -/
def Yields (scan : Scan α) (P : α → Prop) : Prop :=
  ∀ s a rest, scan s = some (a, rest) → P a

theorem Yields.bind {scan : Scan α} {f : α → Scan β} {P : α → Prop} {Q : β → Prop}
    (h : scan.Yields P) (hf : ∀ a, P a → (f a).Yields Q) : (scan >>= f).Yields Q := by
  intro s b rest hb
  obtain ⟨a, s', ha, hb⟩ := bind_eq_some_iff.1 hb
  exact hf a (h s a s' ha) s' b rest hb

/-- What is read first and not used is of no matter. -/
theorem Yields.next {scan : Scan α} {f : α → Scan β} {Q : β → Prop} (hf : ∀ a, (f a).Yields Q) :
    (scan >>= f).Yields Q :=
  Yields.bind (P := fun _ => True) (fun _ _ _ _ => trivial) fun a _ => hf a

theorem Yields.pure {Q : α → Prop} {a : α} (h : Q a) : (Pure.pure a : Scan α).Yields Q := by
  intro s b rest hb
  obtain ⟨rfl, -⟩ := pure_eq_some_iff.1 hb
  exact h

theorem Yields.failure {Q : α → Prop} : (Alternative.failure : Scan α).Yields Q := by
  intro s b rest hb
  cases hb

theorem Yields.read? {scan : Scan α} {P : α → Prop} (h : scan.Yields P) {s : List Char} {a : α}
    (ha : scan.read? s = some a) : P a := by
  obtain ⟨rest, ha⟩ := read?_eq_some_iff.1 ha
  exact h s a rest ha

theorem yields_one (p : Char → Bool) : (one p).Yields fun c => p c = true :=
  fun _ _ _ h => (one_eq_some_iff.1 h).2

theorem yields_many (p : Char → Bool) : (many p).Yields fun t => ∀ c ∈ t, p c = true := by
  intro s t rest h c hc
  obtain ⟨rfl, -⟩ := many_eq_some_iff.1 h
  exact List.mem_takeWhile_imp hc

theorem yields_many1 (p : Char → Bool) : (many1 p).Yields fun t => ∀ c ∈ t, p c = true := by
  refine (yields_many p).bind fun t ht => ?_
  split
  · exact Yields.failure
  · exact Yields.pure ht

end Text.Scan

/-! ### Targets -/

namespace Declaration

theorem isTarget_of_isWord {c : Char} (h : isWord c = true) : isTarget c = true := by
  simp [isTarget, h]

theorem isTarget_of_isDotted {c : Char} (h : isDotted c = true) : isTarget c = true := by
  rw [isDotted, Bool.or_eq_true] at h
  rcases h with h | h <;> simp [isTarget, h]

theorem isTarget_of_isAlphanum {c : Char} (h : (c.isAlphanum || c == '_') = true) :
    isTarget c = true := by
  refine isTarget_of_isWord ?_
  have hn := toNat_of_isAlphanum h
  rw [isWord, if_pos (by omega), h]

theorem isTarget_of_isNameStart {c : Char} (h : isNameStart c = true) : isTarget c = true := by
  refine isTarget_of_isAlphanum ?_
  rw [isNameStart, Bool.or_eq_true] at h
  rcases h with h | h <;> simp [Char.isAlphanum, h]

/-- Whether a text is made of the characters of targets. -/
def IsTarget (t : List Char) : Prop := ∀ c ∈ t, isTarget c = true

theorem yields_name_forall {P : Char → Prop} (hstart : ∀ c, isNameStart c = true → P c)
    (hword : ∀ c, isWord c = true → P c) : name.Yields fun t => ∀ c ∈ t, P c := by
  refine (yields_one isNameStart).bind fun c hc => (yields_many isWord).bind fun cs hcs => Yields.pure ?_
  intro d hd
  obtain rfl | hd := List.mem_cons.1 hd
  · exact hstart d hc
  · exact hword d (hcs d hd)

theorem yields_name : name.Yields IsTarget :=
  yields_name_forall (fun _ => isTarget_of_isNameStart) fun _ => isTarget_of_isWord

theorem yields_many1_isTarget : (many1 isTarget).Yields IsTarget := yields_many1 isTarget

theorem yields_many1_isDotted : (many1 isDotted).Yields IsTarget := by
  intro s t rest h c hc
  exact isTarget_of_isDotted (yields_many1 isDotted s t rest h c hc)

theorem yields_name_ne_nil : name.Yields (· ≠ []) :=
  .next fun _ => .next fun _ => .pure (List.cons_ne_nil _ _)

theorem yields_many1_ne_nil (p : Char → Bool) : (many1 p).Yields (· ≠ []) := by
  refine .next fun t => ?_
  split
  · exact .failure
  · rename_i ht
    exact .pure (by simpa using ht)

/-! Whatever holds of all that names and targets are read from holds of the target of a pattern. -/

section

variable {P : List Char → Prop}

theorem yields_localFunction (h : name.Yields P) : localFunction.Yields fun r => P r.1 :=
  .next fun _ => .next fun _ => .next fun _ => .next fun _ => h.bind fun _ ht =>
    .next fun _ => .next fun _ => .pure ht

theorem yields_localFunctionValue (h : name.Yields P) : localFunctionValue.Yields fun r => P r.1 :=
  .next fun _ => .next fun _ => h.bind fun _ ht =>
    .next fun _ => .next fun _ => .next fun _ => .next fun _ => .next fun _ => .next fun _ => .pure ht

theorem yields_functionStatement (h : (many1 isTarget).Yields P) :
    functionStatement.Yields fun r => P r.1 :=
  .next fun _ => .next fun _ => h.bind fun _ ht => .next fun _ => .next fun _ => .pure ht

theorem yields_functionValue (h : (many1 isTarget).Yields P) : functionValue.Yields fun r => P r.1 :=
  h.bind fun _ ht =>
    .next fun _ => .next fun _ => .next fun _ => .next fun _ => .next fun _ => .next fun _ => .pure ht

theorem yields_localTable (h : name.Yields P) : localTable.Yields P :=
  .next fun _ => .next fun _ => h.bind fun _ ht =>
    .next fun _ => .next fun _ => .next fun _ => .next fun _ => .pure ht

theorem yields_tableValue (h : (many1 isDotted).Yields P) : tableValue.Yields P :=
  h.bind fun _ ht => .next fun _ => .next fun _ => .next fun _ => .next fun _ => .pure ht

theorem yields_fieldValue (h : (many1 isDotted).Yields P) : fieldValue.Yields P := by
  refine h.bind fun t ht => ?_
  dsimp only
  split
  · refine .next fun _ => .next fun _ => .next fun r => ?_
    split
    · exact .failure
    · exact .pure ht
  · refine .next fun _ => .next fun _ => .next fun _ => .next fun r => ?_
    split
    · exact .failure
    · exact .pure ht

end

theorem read?_or {α : Type} {scan scan' : Scan α} {P : α → Prop} (h : scan.Yields P)
    (h' : scan'.Yields P) {s : List Char} {a : α} (ha : (scan.read? s <|> scan'.read? s) = some a) :
    P a :=
  (of_read?_or ha).elim h.read? h'.read?

/-- The target of a declaration. -/
def target : Declaration → List Char
  | .function target _ _ | .table target _ | .field target => target

theorem target_of_parse? {P : List Char → Prop} (hname : name.Yields P)
    (htarget : (many1 isTarget).Yields P) (hdotted : (many1 isDotted).Yields P) {line : List Char}
    {d : Declaration} (h : parse? line = some d) : P d.target := by
  rw [parse?] at h
  split at h
  · rename_i hfound
    split_ifs at hfound
    obtain rfl := Option.some.inj h
    exact read?_or (yields_localFunction hname) (yields_localFunctionValue hname) hfound
  split at h
  · rename_i hfound
    split_ifs at h
    obtain rfl := Option.some.inj h
    exact read?_or (yields_functionStatement htarget) (yields_functionValue htarget) hfound
  split at h
  · rename_i hfound
    split_ifs at hfound
    obtain rfl := Option.some.inj h
    exact (yields_localTable hname).read? hfound
  split at h
  · cases h
  split at h
  · rename_i hfound
    split_ifs at h
    obtain rfl := Option.some.inj h
    exact (yields_tableValue hdotted).read? hfound
  split at h
  · cases h
  split at h
  · rename_i hfound
    split_ifs at h
    obtain rfl := Option.some.inj h
    exact (yields_fieldValue hdotted).read? hfound
  · cases h

theorem isTarget_of_parse? {line : List Char} {d : Declaration} (h : parse? line = some d) :
    IsTarget d.target :=
  target_of_parse? yields_name yields_many1_isTarget yields_many1_isDotted h

theorem target_ne_nil {line : List Char} {d : Declaration} (h : parse? line = some d) :
    d.target ≠ [] :=
  target_of_parse? yields_name_ne_nil (yields_many1_ne_nil _) (yields_many1_ne_nil _) h

end Declaration

open Declaration

/-! ### Symbols -/

variable {Q : Char → Prop}

/-- What is always so of a symbol: its name and owner have characters of a kind, its locator is on one
line, and its documentation does not end in a carriage return. -/
structure Symbol.Made (Q : Char → Prop) (s : Symbol) : Prop where
  name : ∀ c ∈ s.name.toList, Q c
  owner : ∀ c ∈ s.owner.toList, Q c
  locator : '\n' ∉ s.locator.toList
  doc : s.doc.toList.getLast? ≠ some '\r'

namespace Extraction

structure Made (Q : Char → Prop) (x : Extraction) : Prop where
  module : ∀ c ∈ x.module.toList, Q c
  container : ∀ k ∈ x.container, ∀ c ∈ k.toList, Q c
  symbols : ∀ s ∈ x.symbols, s.Made Q

variable {x : Extraction}

theorem forall_qualified {owner name : String} (hQ : Q '.') (ho : ∀ c ∈ owner.toList, Q c)
    (hn : ∀ c ∈ name.toList, Q c) : ∀ c ∈ (qualified owner name).toList, Q c := by
  rw [qualified]
  split
  · exact hn
  · intro c hc
    rw [String.toList_append, String.toList_append, List.mem_append, List.mem_append] at hc
    obtain (hc | hc) | hc := hc
    · exact ho c hc
    · obtain rfl : c = '.' := by simpa using hc
      exact hQ
    · exact hn c hc

theorem Made.push (h : x.Made Q) (hQ : Q '.') {name owner : String} (hn : ∀ c ∈ name.toList, Q c)
    (ho : ∀ c ∈ owner.toList, Q c) (kind : Symbol.Kind) (header : String)
    (description : List (List Char)) {line : Line} (hl : '\n' ∉ line.2) :
    (x.push name owner kind header description line).Made Q := by
  refine ⟨h.module, ?_, ?_⟩
  · intro k hk
    simp only [Extraction.push] at hk
    split at hk
    · obtain rfl := Option.some.inj hk
      exact forall_qualified hQ ho hn
    · obtain rfl := Option.some.inj hk
      exact forall_qualified hQ ho hn
    · exact h.container k hk
  · intro s hs
    simp only [Extraction.push, List.mem_append, List.mem_singleton] at hs
    obtain hs | rfl := hs
    · exact h.symbols s hs
    · refine ⟨hn, ho, ?_, ?_⟩
      · rw [String.toList_ofList]
        exact fun hc => hl (mem_of_mem_trim hc)
      · rw [String.toList_ofList]
        intro hc
        have hblank := isBlank_of_getLast?_trimEnd hc
        revert hblank
        decide

/-! Targets are cut into owner and name. -/

theorem isTarget_of_isIdentifier {s : List Char} (h : QualifiedName.isIdentifier s = true) :
    IsTarget s := by
  intro c hc
  cases s with
  | nil => cases hc
  | cons d s =>
    rw [QualifiedName.isIdentifier, Bool.and_eq_true, List.all_eq_true] at h
    obtain rfl | hc := List.mem_cons.1 hc
    · exact isTarget_of_isNameStart h.1
    · exact isTarget_of_isAlphanum (h.2 c hc)

theorem isTarget_of_qualifiedName {raw : List Char} {q : QualifiedName}
    (h : QualifiedName.parse? raw = some q) : IsTarget q.name.toList ∧ IsTarget q.owner.toList := by
  simp only [QualifiedName.parse?] at h
  split_ifs at h with hall
  obtain rfl := Option.some.inj h
  rw [List.all_eq_true] at hall
  simp only [String.toList_ofList]
  refine ⟨?_, fun c hc => ?_⟩
  · rw [List.getLastD_eq_getLast?]
    generalize hlast : List.getLast? _ = last
    cases last with
    | none => simp [IsTarget]
    | some s => exact isTarget_of_isIdentifier (hall s (List.mem_of_getLast? hlast))
  · obtain hc | ⟨p, hp, hc⟩ := mem_of_mem_join hc
    · obtain rfl : c = '.' := by simpa using hc
      decide
    · exact isTarget_of_isIdentifier (hall p (List.dropLast_subset _ hp)) c hc

theorem isTarget_lastPart {raw : List Char} (h : IsTarget raw) :
    IsTarget (QualifiedName.lastPart raw) := by
  intro c hc
  rw [QualifiedName.lastPart] at hc
  generalize hfound : List.find? _ _ = found at hc
  cases found with
  | none => exact h c hc
  | some part =>
    have hmem := List.mem_reverse.1 (List.mem_of_find?_eq_some hfound)
    exact h c (mem_of_mem_splitOnP hmem c hc).2

section

variable (hQ : ∀ c, isTarget c = true → Q c)
include hQ

theorem Made.resolveAlias (h : x.Made Q) {owner : String} (ho : ∀ c ∈ owner.toList, Q c) :
    ∀ c ∈ (x.resolveAlias owner).toList, Q c := by
  intro c hc
  cases hs : splitOnce '.' owner.toList with
  | none =>
    simp only [Extraction.resolveAlias, hs] at hc
    split_ifs at hc
    · exact h.module c hc
    · exact ho c hc
  | some cut =>
    obtain ⟨head, rest⟩ := cut
    obtain ⟨-, howner⟩ := splitOnce_eq_some hs
    simp only [Extraction.resolveAlias, hs] at hc
    split_ifs at hc
    · rw [String.toList_append, String.toList_append, List.mem_append, List.mem_append] at hc
      obtain (hc | hc) | hc := hc
      · exact h.module c hc
      · obtain rfl : c = '.' := by simpa using hc
        exact hQ '.' (by decide)
      · rw [String.toList_ofList] at hc
        exact ho c (by rw [howner]; simp [hc])
    · exact ho c hc

theorem Made.qualify (h : x.Made Q) {raw : List Char} (hraw : IsTarget raw) :
    (∀ c ∈ (x.qualify raw).name.toList, Q c) ∧ ∀ c ∈ (x.qualify raw).owner.toList, Q c := by
  rw [Extraction.qualify]
  split
  · rename_i q hq
    obtain ⟨hn, ho⟩ := isTarget_of_qualifiedName hq
    exact ⟨fun c hc => hQ c (hn c hc), h.resolveAlias hQ fun c hc => hQ c (ho c hc)⟩
  · refine ⟨fun c hc => ?_, h.module⟩
    rw [String.toList_ofList] at hc
    exact hQ c (isTarget_lastPart hraw c hc)

theorem Made.declare (h : x.Made Q) {d : Declaration} (hd : IsTarget d.target)
    (description : List (List Char)) {line : Line} (hl : '\n' ∉ line.2) :
    (x.declare d description line).Made Q := by
  have hdot : Q '.' := hQ '.' (by decide)
  have hname : ∀ c ∈ (String.ofList d.target).toList, Q c := by
    rw [String.toList_ofList]
    exact fun c hc => hQ c (hd c hc)
  obtain ⟨hn, ho⟩ := h.qualify hQ hd
  cases d with
  | function target params isLocal =>
    cases isLocal with
    | true => exact h.push hdot hname (by simp) _ _ _ hl
    | false => exact h.push hdot hn ho _ _ _ hl
  | table target isLocal =>
    rw [Extraction.declare]
    split_ifs
    · exact h
    · exact h.push hdot h.module (by simp) _ _ _ hl
    · exact h.push hdot hname (by simp) _ _ _ hl
    · exact h.push hdot hn ho _ _ _ hl
  | field target => exact h.push hdot hn ho _ _ _ hl

theorem Made.declareSelf (h : x.Made Q) {d : SelfDoc} (hd : IsTarget d.name)
    (description : List (List Char)) {line : Line} (hl : '\n' ∉ line.2) :
    (x.declareSelf d description line).Made Q := by
  have hdot : Q '.' := hQ '.' (by decide)
  have hname : ∀ c ∈ (String.ofList d.name).toList, Q c := by
    rw [String.toList_ofList]
    exact fun c hc => hQ c (hd c hc)
  obtain ⟨hn, ho⟩ := h.qualify hQ hd
  have howner : ∀ c ∈ (x.container.getD x.module).toList, Q c := by
    cases hk : x.container with
    | none => exact h.module
    | some k => exact h.container k hk
  rw [Extraction.declareSelf]
  split
  · exact h.push hdot hname (by simp) _ _ _ hl
  · exact h.push hdot hn ho _ _ _ hl
  · exact h.push hdot hn ho _ _ _ hl
  · dsimp only
    split_ifs <;> first | exact h.push hdot hn ho _ _ _ hl | exact h.push hdot hname howner _ _ _ hl

end

/-! Over all lines of a source. -/

theorem yields_selfDoc : selfDoc.Yields fun d => IsTarget d.name :=
  .next fun _ => .next fun _ => .next fun _ => yields_many1_isTarget.bind fun _ ht =>
    .next fun _ => .next fun _ => .pure ht

theorem isTarget_of_selfDoc? {block others : List (List Char)} {d : SelfDoc}
    (h : selfDoc? block = some (d, others)) : IsTarget d.name := by
  induction block generalizing others with
  | nil => cases h
  | cons l block ih =>
    rw [selfDoc?] at h
    split at h
    · rename_i e he
      obtain ⟨rfl, rfl⟩ : e = d ∧ block = others := by simpa using h
      exact yields_selfDoc.read? he
    · rw [Option.map_eq_some_iff] at h
      obtain ⟨⟨e, os⟩, he, hd⟩ := h
      obtain ⟨rfl, -⟩ : e = d ∧ _ := by simpa using hd
      exact ih he

theorem mem_of_mem_afterBracket {closing : List Char} {lines : List Line} {l : Line}
    (h : l ∈ afterBracket closing lines) : l ∈ lines :=
  (List.dropWhile_sublist _).mem (List.mem_of_mem_tail h)

theorem mem_of_mem_dropWhile {p : Line → Bool} {lines : List Line} {l : Line}
    (h : l ∈ lines.dropWhile p) : l ∈ lines := (List.dropWhile_sublist p).mem h

/-- What every declaration preserves holds after all lines of a source. -/
theorem run_induct {I : Extraction → Prop}
    (hdeclare : ∀ x d description (line : Line), '\n' ∉ line.2 → Declaration.parse? line.2 = some d →
      I x → I (x.declare d description line))
    (hself : ∀ x d description (line : Line), '\n' ∉ line.2 → IsTarget d.name →
      I x → I (x.declareSelf d description line))
    (h : I x) (pending : List (List Char)) {lastCode : Option Line}
    (hc : ∀ l ∈ lastCode, '\n' ∉ l.2) {lines : List Line} (hl : ∀ l ∈ lines, '\n' ∉ l.2) :
    I (x.run pending lastCode lines) := by
  have hdeclareLine {x : Extraction} {line : Line} (hline : '\n' ∉ line.2)
      (description : List (List Char)) (h : I x) : I (x.declareLine description line) := by
    rw [declareLine]
    split
    · rename_i d hd
      exact hdeclare x d description line hline hd h
    · exact h
  fun_induction Extraction.run x pending lastCode lines with
  | case1 => exact h
  | case2 x pending lastCode line rest closing _ _ ih =>
    exact ih h hc fun l hm => hl l (by simp [mem_of_mem_afterBracket hm])
  | case3 x pending lastCode line rest closing _ _ ih =>
    have hline := hl line (by simp)
    refine ih (hdeclareLine hline pending h) ?_
      fun l hm => hl l (by simp [mem_of_mem_afterBracket hm])
    rintro l ⟨rfl⟩
    exact hline
  | case4 x pending lastCode line rest _ _ block d description hd locator ih =>
    -- The locator is the last line of code, the next one, or the comment itself.
    have hcases : locator ∈ lastCode ∨ locator ∈ line :: rest := by
      cases hlast : lastCode with
      | some l => exact .inl (by simp [locator, hlast])
      | none =>
        refine .inr ?_
        cases hfind : (rest.dropWhile isComment).find? (isCodeLine ·.2) with
        | none => simp [locator, hlast, hfind]
        | some l =>
          have hm := mem_of_mem_dropWhile (List.mem_of_find?_eq_some hfind)
          simp [locator, hlast, hfind, hm]
    have hlocator : '\n' ∉ locator.2 := hcases.elim (hc locator) (hl locator)
    exact ih (hself x d description locator hlocator (isTarget_of_selfDoc? hd) h) hc
      fun l hm => hl l (by simp [mem_of_mem_dropWhile hm])
  | case5 x pending lastCode line rest _ _ block _ ih =>
    exact ih h hc fun l hm => hl l (by simp [mem_of_mem_dropWhile hm])
  | case6 x pending lastCode line rest _ _ _ ih =>
    have hline := hl line (by simp)
    refine ih (hdeclareLine hline pending h) ?_ fun l hm => hl l (by simp [hm])
    rintro l ⟨rfl⟩
    exact hline
  | case7 x pending lastCode line rest _ _ _ ih => exact ih h hc fun l hm => hl l (by simp [hm])

end Extraction

theorem yields_moduleTag : moduleTag.Yields IsTarget :=
  .next fun _ => .next fun _ => .next fun _ => .next fun _ => yields_many1_isDotted

/-- What holds before the first line, and what every declaration preserves, holds of all symbols. -/
theorem extractSymbols_induct {I : Extraction → Prop} (text fileModule : String)
    (hstart : ∀ module returned, (module = fileModule ∨ IsTarget module.toList) →
      I { module, returned })
    (hdeclare : ∀ x d description (line : Extraction.Line), '\n' ∉ line.2 →
      Declaration.parse? line.2 = some d → I x → I (x.declare d description line))
    (hself : ∀ x d description (line : Extraction.Line), '\n' ∉ line.2 → IsTarget d.name →
      I x → I (x.declareSelf d description line)) :
    ∃ x : Extraction, I x ∧ extractSymbols text fileModule = x.symbols := by
  refine ⟨_, Extraction.run_induct hdeclare hself (hstart _ _ ?_) [] (by simp) ?_, rfl⟩
  · generalize hfound : List.findSome? _ _ = found
    cases found with
    | none => exact .inl rfl
    | some t =>
      obtain ⟨l, -, hl⟩ := List.exists_of_findSome?_eq_some hfound
      rw [Option.elim_some, String.toList_ofList]
      exact .inr (yields_moduleTag.read? hl)
  · intro l hl
    obtain ⟨⟨line, n⟩, hmem, rfl⟩ := List.mem_map.1 hl
    exact (mem_lines (List.fst_mem_of_mem_zipIdx hmem)).1

/-- What holds of the characters of targets and of the module holds of those of all symbols. -/
theorem made_of_mem_extractSymbols (hQ : ∀ c, isTarget c = true → Q c) {text fileModule : String}
    (hm : ∀ c ∈ fileModule.toList, Q c) {s : Symbol} (hs : s ∈ extractSymbols text fileModule) :
    s.Made Q := by
  have hstart (module : String) (returned : Option String)
      (h : module = fileModule ∨ IsTarget module.toList) :
      Extraction.Made Q { module, returned } := by
    obtain rfl | hmodule := h
    · exact ⟨hm, by simp, by simp⟩
    · exact ⟨fun c hc => hQ c (hmodule c hc), by simp, by simp⟩
  obtain ⟨x, hx, hsymbols⟩ := extractSymbols_induct text fileModule hstart
    (fun x d description line hl hd h => h.declare hQ (isTarget_of_parse? hd) description hl)
    fun x d description line hl hd h => h.declareSelf hQ hd description hl
  exact hx.symbols s (hsymbols ▸ hs)

end LuaLens
