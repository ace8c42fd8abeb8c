import LuaLens.Corpus.Basic
import LuaLens.Proofs.Text.Cut
import Mathlib.Data.List.Infix

/-!
The lines of a corpus. Escapes are undone exactly, so that a line is read back as its entry unless a
separator stands in one of the fields that are written as they are.
-/

namespace LuaLens

open Text

/-! ### Escapes -/

namespace Escape

theorem undo_cons {c : Char} (h : c ≠ '\\') (s : List Char) : undo (c :: s) = c :: undo s := by
  rw [undo] <;> simp_all

theorem undo_file (s : List Char) : undo (file s) = s := by
  fun_induction file s with
  | case1 => rfl
  | case2 s ih => rw [undo, ih]
  | case3 s ih => rw [undo, ih]
  | case4 s ih => rw [undo, ih]
  | case5 c s hc _ _ ih => rw [undo_cons (fun h => hc h), ih]

theorem undo_locator (s : List Char) : undo (locator s) = s := by
  fun_induction locator s with
  | case1 => rfl
  | case2 s ih => rw [undo, ih]
  | case3 s ih => rw [undo, ih]
  | case4 s ih => rw [undo, ih]
  | case5 c s hc _ _ ih => rw [undo_cons (fun h => hc h), ih]

theorem undoDoc_cons {c : Char} (h : c ≠ '\\') (s : List Char) :
    undoDoc (c :: s) = c :: undoDoc s := by
  rw [undoDoc] <;> simp_all

theorem undoDoc_doc (s : List Char) : undoDoc (doc s) = s := by
  fun_induction doc s with
  | case1 => rfl
  | case2 s ih => rw [undoDoc, ih]
  | case3 s ih => rw [undoDoc, ih]
  | case4 c s hc _ ih => rw [undoDoc_cons (fun h => hc h), ih]

/-- The file can stand between tabs on a line. -/
theorem not_mem_file (s : List Char) : '\t' ∉ file s ∧ '\n' ∉ file s := by
  fun_induction file s with
  | case1 => simp
  | case2 s ih => simpa using ih
  | case3 s ih => simpa using ih
  | case4 s ih => simpa using ih
  | case5 c s _ ht hn ih =>
    simp only [List.mem_cons, not_or]
    exact ⟨⟨fun h => ht h.symm, ih.1⟩, fun h => hn h.symm, ih.2⟩

theorem mem_of_feed_mem_locator {s : List Char} (h : '\n' ∈ locator s) : '\n' ∈ s := by
  fun_induction locator s with
  | case1 => exact h
  | case2 s ih => exact List.mem_cons_of_mem _ (ih (by simpa using h))
  | case3 s ih => exact List.mem_cons_of_mem _ (ih (by simpa using h))
  | case4 s ih => exact List.mem_cons_of_mem _ (ih (by simpa using h))
  | case5 c s _ _ _ ih =>
    rw [List.mem_cons] at h ⊢
    exact h.imp_right ih

theorem feed_not_mem_doc (s : List Char) : '\n' ∉ doc s := by
  fun_induction doc s with
  | case1 => simp
  | case2 s ih => simpa using ih
  | case3 s ih => simpa using ih
  | case4 c s _ hn ih =>
    rw [List.mem_cons, not_or]
    exact ⟨fun h => hn h.symm, ih⟩

theorem doc_cons {c : Char} (hb : c ≠ '\\') (hn : c ≠ '\n') (s : List Char) :
    doc (c :: s) = c :: doc s := by
  rw [doc] <;> simp_all

theorem doc_append (s t : List Char) : doc (s ++ t) = doc s ++ doc t := by
  fun_induction doc s with
  | case1 => rfl
  | case2 s ih => rw [List.cons_append, doc, ih]; rfl
  | case3 s ih => rw [List.cons_append, doc, ih]; rfl
  | case4 c s hb hn ih =>
    rw [List.cons_append, doc_cons (fun h => hb h) (fun h => hn h), ih, List.cons_append]

/-- Escaping adds no carriage return at the end. -/
theorem getLast?_doc {s : List Char} (h : s.getLast? ≠ some '\r') :
    (doc s).getLast? ≠ some '\r' := by
  obtain rfl | ⟨init, c, rfl⟩ := List.eq_nil_or_concat s
  · exact h
  · rw [List.concat_eq_append, doc_append]
    by_cases hb : c = '\\'
    · simp [hb, doc]
    · by_cases hn : c = '\n'
      · simp [hn, doc]
      · rw [doc_cons hb hn]
        simpa [doc] using h

end Escape

/-! ### Tags -/

namespace Tag

theorem reverse_locatorEnd : locatorEnd.reverse = ['"', ';', '/', '$'] := by decide

/-- The end of a locator begins nowhere before itself: it overlaps with no other occurrence. -/
theorem isPrefixOf?_locatorEnd {c : Char} {pre : List Char}
    (h : ¬ locatorEnd.reverse <:+: c :: pre) (post : List Char) :
    locatorEnd.reverse.isPrefixOf? (c :: (pre ++ (locatorEnd.reverse ++ post))) = none := by
  rw [reverse_locatorEnd] at h ⊢
  rw [Option.eq_none_iff_forall_ne_some]
  intro rest hrest
  rw [List.isPrefixOf?_eq_some_iff_append_eq] at hrest
  match pre, h, hrest with
  | [], _, hrest => simp at hrest
  | [_], _, hrest => simp at hrest
  | [_, _], _, hrest => simp at hrest
  | d :: e :: f :: pre, h, hrest =>
    simp only [List.cons_append, List.nil_append, List.cons.injEq] at hrest
    obtain ⟨rfl, rfl, rfl, rfl, -⟩ := hrest
    exact h ⟨[], pre, rfl⟩

theorem cut_locatorEnd {pre : List Char} (h : ¬ locatorEnd.reverse <:+: pre) (post : List Char) :
    cut locatorEnd.reverse (pre ++ (locatorEnd.reverse ++ post)) = some (pre, post) := by
  induction pre with
  | nil => rw [reverse_locatorEnd]; rfl
  | cons c pre ih =>
    have hpre : ¬ locatorEnd.reverse <:+: pre :=
      fun hi => h (hi.trans (List.suffix_cons c pre).isInfix)
    rw [List.cons_append, cut, isPrefixOf?_locatorEnd h, ih hpre]
    rfl

/-- A line is cut at the last end of a locator. -/
theorem cutLast_locatorEnd {after : List Char} (h : ¬ locatorEnd <:+: after) (before : List Char) :
    cutLast locatorEnd (before ++ locatorEnd ++ after) = some (before, after) := by
  have hr : ¬ locatorEnd.reverse <:+: after.reverse := by rwa [List.reverse_infix]
  rw [cutLast, List.reverse_append, List.reverse_append, cut_locatorEnd hr]
  simp

/-- The field of an owner, if there is one. -/
def ownerField : Option (List Char) → List Char
  | none => []
  | some owner => '\t' :: ("class:".toList ++ owner)

/-- A tag line, with or without an owner. -/
def lineWith (t : Tag) (owner : Option (List Char)) : List Char :=
  t.name.toList ++ '\t' :: (Escape.file t.file.toList ++ '\t' :: ("/^".toList ++
    (Escape.locator t.locator.toList ++ locatorEnd ++ '\t' :: t.kind.code :: ownerField owner)))

theorem tab_locatorStart : "\t/^".toList = '\t' :: "/^".toList := by decide

theorem tab_ownerMark : "\tclass:".toList = '\t' :: "class:".toList := by decide

/-- The owner that is written. -/
def writtenOwner (t : Tag) : Option (List Char) :=
  if t.owner.isEmpty then none else some t.owner.toList

theorem line_eq (t : Tag) : t.line = t.lineWith t.writtenOwner := by
  simp only [line, lineWith, writtenOwner, tab_locatorStart, tab_ownerMark]
  cases t.owner.isEmpty with
  | true => simp only [↓reduceIte, ownerField, List.append_assoc, List.cons_append, List.append_nil]
  | false =>
    simp only [Bool.false_eq_true, ↓reduceIte, ownerField, List.append_assoc, List.cons_append,
      List.nil_append]

theorem not_infix_append {c : Char} {p a s : List Char} (ha : c ∉ a) (hs : ¬ c :: p <:+: s) :
    ¬ c :: p <:+: a ++ s := by
  induction a with
  | nil => exact hs
  | cons d a ih =>
    rw [List.cons_append, List.infix_cons_iff, not_or]
    refine ⟨fun h => ha ?_, ih fun h => ha (List.mem_cons_of_mem _ h)⟩
    rw [(List.cons_prefix_cons.1 h).1]
    exact List.mem_cons_self

theorem locatorEnd_eq : locatorEnd = ['$', '/', ';', '"'] := by decide

theorem dollar_not_mem_lead (k : Symbol.Kind) : '$' ∉ '\t' :: k.code :: '\t' :: "class:".toList := by
  cases k <;> decide

theorem not_infix_ownerField {owner : Option (List Char)} (k : Symbol.Kind)
    (h : ∀ o ∈ owner, ¬ locatorEnd <:+: o) :
    ¬ locatorEnd <:+: '\t' :: k.code :: ownerField owner := by
  have hlead := dollar_not_mem_lead k
  rw [locatorEnd_eq] at h ⊢
  cases owner with
  | none =>
    refine not_infix_append (a := ['\t', k.code]) (s := []) (fun hc => hlead ?_) (by simp)
    simp only [List.mem_cons, List.not_mem_nil, or_false] at hc ⊢
    tauto
  | some o => exact not_infix_append (s := o) hlead (h o rfl)

theorem code_ne_tab (k : Symbol.Kind) : k.code ≠ '\t' := by cases k <;> decide

theorem tab_not_mem_ownerMark : '\t' ∉ "class:".toList := by decide

/-- The fields after the locator are the kind and the owner. -/
theorem splitAll_fields (k : Symbol.Kind) {owner : Option (List Char)} (ho : ∀ o ∈ owner, '\t' ∉ o) :
    splitAll '\t' (('\t' :: k.code :: ownerField owner).dropWhile (· == '\t')) =
      [k.code] :: owner.toList.map ("class:".toList ++ ·) := by
  have hk : '\t' ∉ [k.code] := by simpa using (code_ne_tab k).symm
  rw [List.dropWhile_cons_of_pos (by simp), List.dropWhile_cons_of_neg (by simp [code_ne_tab k])]
  cases owner with
  | none => exact splitAll_of_not_mem hk
  | some o =>
    have hfield : '\t' ∉ "class:".toList ++ o := by
      rw [List.mem_append, not_or]
      exact ⟨tab_not_mem_ownerMark, ho o rfl⟩
    rw [ownerField, ← List.singleton_append, splitAll_append hk, splitAll_of_not_mem hfield]
    rfl

theorem parseLine?_lineWith (t : Tag) (hn : '\t' ∉ t.name.toList) {owner : Option (List Char)}
    (ho : ∀ o ∈ owner, '\t' ∉ o ∧ ¬ locatorEnd <:+: o) :
    parseLine? (t.lineWith owner) = some { t with owner := String.ofList (owner.getD []) } := by
  have hcut := cutLast_locatorEnd (not_infix_ownerField t.kind fun o h => (ho o h).2)
    (Escape.locator t.locator.toList)
  have hlead (s : List Char) : "/^".toList.isPrefixOf? ("/^".toList ++ s) = some s := by
    rw [List.isPrefixOf?_eq_some_iff_append_eq]
  have howner : (owner.toList.map ("class:".toList ++ ·)).findSome?
      (fun f => "class:".toList.isPrefixOf? f) = owner := by
    cases owner with
    | none => rfl
    | some o =>
      rw [Option.toList_some, List.map_singleton, List.findSome?_singleton,
        List.isPrefixOf?_eq_some_iff_append_eq]
  unfold parseLine? lineWith
  rw [splitOnce_append hn]
  simp only [Option.bind_eq_bind, Option.bind_some]
  rw [splitOnce_append (Escape.not_mem_file _).1]
  simp only [Option.bind_some, hlead, hcut, splitAll_fields t.kind fun o h => (ho o h).1,
    List.head?_cons, List.tail_cons, howner, Symbol.Kind.ofCode?_code, Escape.undo_file,
    Escape.undo_locator, String.ofList_toList]
  rfl

theorem lineWith_some (t : Tag) (o : List Char) :
    t.lineWith (some o) = (t.lineWith none ++ '\t' :: "class:".toList) ++ o := by
  simp only [lineWith, ownerField, List.append_assoc, List.cons_append, List.nil_append]

theorem code_ne_return (k : Symbol.Kind) : k.code ≠ '\r' := by cases k <;> decide

/-- A carriage return at the end of a tag line is one at the end of its owner. -/
theorem dropReturn_line (t : Tag) :
    dropReturn t.line = t.lineWith (t.writtenOwner.map dropReturn) := by
  rw [line_eq, writtenOwner]
  split
  · refine dropReturn_of_getLast?_ne ?_
    have hend : t.lineWith none = (t.name.toList ++ '\t' :: (Escape.file t.file.toList ++ '\t' ::
        ("/^".toList ++ (Escape.locator t.locator.toList ++ locatorEnd ++ ['\t'])))) ++
          [t.kind.code] := by
      simp only [lineWith, ownerField, List.append_assoc, List.cons_append, List.nil_append]
    rw [hend, List.getLast?_append, List.getLast?_singleton]
    simpa using code_ne_return t.kind
  · rename_i ho
    have hne : t.owner.toList ≠ [] := by simpa using ho
    rw [lineWith_some, dropReturn_append hne, Option.map_some, lineWith_some]

theorem getD_writtenOwner (t : Tag) (f : List Char → List Char) (hf : f [] = []) :
    (t.writtenOwner.map f).getD [] = f t.owner.toList := by
  rw [writtenOwner]
  split
  · rename_i ho
    rw [String.isEmpty_iff] at ho
    rw [ho, String.toList_empty, hf]
    rfl
  · rfl

/-- A tag line is read back with what is written of the owner. -/
theorem parseLine?_written (t : Tag) (f : List Char → List Char) (hf : f [] = [])
    (hn : '\t' ∉ t.name.toList) (ho : '\t' ∉ f t.owner.toList)
    (hl : ¬ locatorEnd <:+: f t.owner.toList) :
    parseLine? (t.lineWith (t.writtenOwner.map f)) =
      some { t with owner := String.ofList (f t.owner.toList) } := by
  have hall : ∀ o ∈ t.writtenOwner.map f, '\t' ∉ o ∧ ¬ locatorEnd <:+: o := by
    intro o h
    rw [writtenOwner] at h
    split at h
    · simp at h
    · obtain rfl : f t.owner.toList = o := by simpa using h
      exact ⟨ho, hl⟩
  rw [parseLine?_lineWith t hn hall, getD_writtenOwner t f hf]

/-- A tag line is read back, but for a carriage return at the end of the owner. -/
theorem parseLine?_dropReturn (t : Tag) (hn : '\t' ∉ t.name.toList) (ho : '\t' ∉ t.owner.toList)
    (hl : ¬ locatorEnd <:+: dropReturn t.owner.toList) :
    parseLine? (dropReturn t.line) =
      some { t with owner := String.ofList (dropReturn t.owner.toList) } := by
  rw [dropReturn_line]
  exact parseLine?_written t dropReturn rfl hn (fun h => ho ((dropReturn_isPrefix _).subset h)) hl

theorem feed_not_mem_line {t : Tag} (hn : '\n' ∉ t.name.toList) (hl : '\n' ∉ t.locator.toList)
    (ho : '\n' ∉ t.owner.toList) : '\n' ∉ t.line := by
  have hstart : '\n' ∉ "/^".toList := by decide
  have hend : '\n' ∉ locatorEnd := by decide
  have hmark : '\n' ∉ "class:".toList := by decide
  have hcode : '\n' ≠ t.kind.code := by cases t.kind <;> decide
  have hloc : '\n' ∉ Escape.locator t.locator.toList :=
    fun h => hl (Escape.mem_of_feed_mem_locator h)
  have howner : '\n' ∉ ownerField t.writtenOwner := by
    rw [writtenOwner]
    split
    · simp [ownerField]
    · simp only [ownerField, List.mem_cons, List.mem_append, not_or]
      exact ⟨by decide, hmark, ho⟩
  rw [line_eq, lineWith]
  simp only [List.mem_append, List.mem_cons, not_or]
  exact ⟨hn, by decide, (Escape.not_mem_file _).2, by decide, hstart, ⟨hloc, hend⟩, by decide, hcode,
    howner⟩

theorem cutLast_eq_some {pattern s before after : List Char}
    (h : cutLast pattern s = some (before, after)) : s = before ++ pattern ++ after := by
  rw [cutLast, Option.map_eq_some_iff] at h
  obtain ⟨⟨a, b⟩, hcut, hab⟩ := h
  simp only [Prod.mk.injEq] at hab
  obtain ⟨rfl, rfl⟩ := hab
  rw [← List.reverse_reverse s, cut_eq_some hcut]
  simp

/-- What is read from a line, whatever the line is, has no separators. -/
theorem of_parseLine? {line : List Char} {t : Tag} (h : parseLine? line = some t) :
    '\t' ∉ t.name.toList ∧ '\t' ∉ t.owner.toList ∧ (∀ c ∈ t.name.toList, c ∈ line) ∧
      ∀ c ∈ t.owner.toList, c ∈ line := by
  simp only [parseLine?, Option.bind_eq_bind, Option.bind_eq_some_iff] at h
  obtain ⟨⟨name, rest⟩, hname, ⟨file, rest'⟩, hfile, located, hstart, ⟨loc, fields⟩, hend, kind, -, h⟩ := h
  obtain ⟨hn, rfl⟩ := splitOnce_eq_some hname
  obtain ⟨-, rfl⟩ := splitOnce_eq_some hfile
  rw [List.isPrefixOf?_eq_some_iff_append_eq] at hstart
  obtain rfl := cutLast_eq_some hend
  obtain rfl := hstart
  simp only [pure, Option.some.injEq] at h
  subst h
  rw [String.toList_ofList, String.toList_ofList]
  -- The owner is the end of a field, and the fields are at the end of the line.
  generalize hfound : List.findSome? _ _ = found
  have howner : '\t' ∉ found.getD [] ∧ ∀ c ∈ found.getD [], c ∈ fields := by
    cases found with
    | none => simp
    | some o =>
      obtain ⟨f, hf, hfo⟩ := List.exists_of_findSome?_eq_some hfound
      obtain ⟨htab, hsub⟩ := mem_splitAll (List.mem_of_mem_tail hf)
      rw [List.isPrefixOf?_eq_some_iff_append_eq] at hfo
      obtain rfl := hfo
      refine ⟨fun h => htab (List.mem_append_right _ h), fun c hc => ?_⟩
      exact (List.dropWhile_sublist _).mem (hsub c (List.mem_append_right _ hc))
  refine ⟨hn, howner.1, fun c hc => List.mem_append_left _ hc, fun c hc => ?_⟩
  have hc := howner.2 c hc
  simp [hc]

end Tag

/-! ### API entries -/

namespace Api

theorem parseLine?_line {a : Api} (h : ' ' ∉ a.name.toList) : parseLine? a.line = some a := by
  rw [parseLine?, line, splitOnce_append h]
  simp [Escape.undoDoc_doc]

theorem dropReturn_line {a : Api} (h : a.doc.toList.getLast? ≠ some '\r') :
    dropReturn a.line = a.line := by
  refine dropReturn_of_getLast?_ne ?_
  rw [line, List.getLast?_append, List.getLast?_cons]
  cases hd : (Escape.doc a.doc.toList).getLast? with
  | none => simp
  | some c =>
    have hc := Escape.getLast?_doc h
    rw [hd] at hc
    simpa using hc

theorem feed_not_mem_line {a : Api} (h : '\n' ∉ a.name.toList) : '\n' ∉ a.line := by
  rw [line, List.mem_append, List.mem_cons, not_or, not_or]
  exact ⟨h, by decide, Escape.feed_not_mem_doc _⟩

theorem of_parseLine? {line : List Char} {a : Api} (h : parseLine? line = some a) :
    ' ' ∉ a.name.toList ∧ ∀ c ∈ a.name.toList, c ∈ line := by
  rw [parseLine?, Option.map_eq_some_iff] at h
  obtain ⟨⟨name, doc⟩, hs, rfl⟩ := h
  obtain ⟨hn, rfl⟩ := splitOnce_eq_some hs
  rw [String.toList_ofList]
  exact ⟨hn, fun c hc => List.mem_append_left _ hc⟩

end Api

end LuaLens
