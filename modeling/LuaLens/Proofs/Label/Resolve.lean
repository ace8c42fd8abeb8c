import LuaLens.Proofs.Label

/-!
What labels stand for. A label leads back to the file it was made for, unless a step below the root has a
backslash in it, which a label spells as a slash.
-/

namespace LuaLens

open Text

/-! ### Components -/

namespace Path

variable {root p q : Path}

theorem startsWith_iff (hr : root.isAbsolute = true) (hp : p.isAbsolute = true) :
    p.startsWith root = true ↔ root.steps <+: p.steps := by
  rw [startsWith, List.isPrefixOf_iff_prefix, components_of_isAbsolute hr, components_of_isAbsolute hp,
    List.cons_prefix_cons, List.prefix_map_iff_of_injective component_injective]
  exact and_iff_right rfl

theorem components_eq_iff (hp : p.isAbsolute = true) (hq : q.isAbsolute = true) :
    p.components = q.components ↔ p.steps = q.steps := by
  refine ⟨steps_eq_of_components hp hq, fun h => ?_⟩
  rw [components_of_isAbsolute hp, components_of_isAbsolute hq, h]

/-- The components of a path that are below a root. -/
def componentsBelow (root p : Path) : List Component := p.components.drop root.components.length

theorem Below.componentsBelow {tail : List (List Char)} (h : root.Below p tail) :
    root.componentsBelow p = tail.map component := by
  rw [Path.componentsBelow, components_of_isAbsolute h.rooted, components_of_isAbsolute h.absolute,
    List.length_cons, List.drop_succ_cons, h.steps, List.map_append, List.length_map]
  exact List.drop_left' (List.length_map _)

/-- Whether no component below the root has a backslash in it. -/
def NoBackslash (root p : Path) : Prop :=
  ∀ c ∈ root.componentsBelow p, ∀ name ∈ c.name?, '\\' ∉ name.toList

instance (root p : Path) : Decidable (root.NoBackslash p) :=
  inferInstanceAs (Decidable (∀ c ∈ _, ∀ name ∈ _, _))

theorem name?_component {piece : List Char} (h : '\\' ∈ piece) :
    (component piece).name? = some (String.ofList piece) := by
  rw [component, if_neg]
  · rfl
  · intro hup
    rw [beq_iff_eq.1 hup] at h
    revert h
    decide

theorem Below.noBackslash_iff {tail : List (List Char)} (h : root.Below p tail) :
    root.NoBackslash p ↔ ∀ piece ∈ tail, '\\' ∉ piece := by
  rw [NoBackslash, h.componentsBelow, List.forall_mem_map]
  refine forall₂_congr fun piece _ => ⟨fun hno hmem => ?_, fun hno name hname => ?_⟩
  · refine hno _ (name?_component hmem) ?_
    rwa [String.toList_ofList]
  · exact mem_of_stepName? hname ▸ hno

end Path

/-! ### Labels -/

namespace Label

variable {root p q : Path} {tail : List (List Char)}

theorem backslash_not_mem_slashed (s : List Char) : '\\' ∉ slashed s := by
  rw [slashed, List.mem_map]
  rintro ⟨c, -, hc⟩
  split at hc
  · cases hc
  · next hne => simp [hc] at hne

theorem isPrefixOf?_rootMark (rest : List Char) :
    rootMark.toList.isPrefixOf? (rootMark.toList ++ rest) = some rest :=
  List.isPrefixOf?_eq_some_iff_append_eq.2 rfl

theorem isPrefixOf?_of_head? {mark s : List Char} (hmark : mark.head? = some '$')
    (hs : s.head? = some '/') : mark.isPrefixOf? s = none := by
  obtain ⟨m, rfl⟩ := List.head?_eq_some_iff.1 hmark
  obtain ⟨t, rfl⟩ := List.head?_eq_some_iff.1 hs
  rfl

/-- The way that a label shows: slashes in front do not count. -/
def way (text : String) : String := String.ofList ((slashed text.toList).dropWhile (· == '/'))

/-- The label of a file below the root leads there by way of the root. -/
theorem resolve_below (h : root.Below p tail) : ∃ text, Path.Leads text tail ∧
    (ofPath root p).toList = rootMark.toList ++ '/' :: slashed text.toList ∧
    ∀ builtins, resolve root builtins (ofPath root p) = root.join (way text) := by
  obtain ⟨text, hrelative, hleads⟩ := Path.relativeTo?_of_steps h.rooted h.absolute h.steps
  have hlabel : (ofPath root p).toList = rootMark.toList ++ '/' :: slashed text.toList := by
    rw [ofPath, hrelative]
    simp [slashed]
  refine ⟨text, hleads, hlabel, fun builtins => ?_⟩
  rw [resolve, hlabel, isPrefixOf?_rootMark]
  rfl

theorem resolve_outside (hr : root.isAbsolute = true) (hp : p.isAbsolute = true)
    (h : ¬ root.steps <+: p.steps) (builtins : Path) :
    resolve root builtins (ofPath root p) = p := by
  have hhead : p.text.toList.head? = some '/' := by simpa [Path.isAbsolute] using hp
  rw [ofPath_outside hr hp h, resolve, isPrefixOf?_of_head? (by decide) hhead,
    isPrefixOf?_of_head? (by decide) hhead]

theorem leads_way (text : String) :
    Path.Leads (way text) (Path.counted (splitAll '/' (way text).toList)) := by
  refine ⟨rfl, fun hslash => ?_⟩
  rw [way, String.toList_ofList] at hslash
  cases of_head?_dropWhile hslash

/-- The way is the one below the root just when there is no backslash to be spelt as a slash. -/
theorem counted_way_iff {text : String} (h : Path.Leads text tail) :
    Path.counted (splitAll '/' (way text).toList) = tail ↔ ∀ piece ∈ tail, '\\' ∉ piece := by
  constructor
  · intro hway piece hpiece hback
    rw [← hway, Path.mem_counted] at hpiece
    have hmem := (mem_splitAll hpiece.1).2 _ hback
    rw [way, String.toList_ofList] at hmem
    exact backslash_not_mem_slashed _ ((List.dropWhile_sublist _).mem hmem)
  · intro hno
    have hdrop : text.toList.dropWhile (· == '/') = text.toList := by
      cases htext : text.toList with
      | nil => rfl
      | cons c s =>
        have hhead := h.head
        rw [htext, List.head?_cons, ne_eq, Option.some_inj] at hhead
        exact List.dropWhile_cons_of_neg (by simpa using hhead)
    rw [way, slashed_of_leads h hno, hdrop, String.ofList_toList, h.steps]

/-- Whether a file is not below the root, or has no backslash below it. -/
def Kept (root p : Path) : Prop := p.startsWith root = false ∨ root.NoBackslash p

/-- A file that is below the root without a backslash, or not below it, is what its label stands for. -/
theorem components_resolve_iff (hr : root.isAbsolute = true) (hp : p.isAbsolute = true)
    (builtins : Path) : (resolve root builtins (ofPath root p)).components = p.components ↔
      Kept root p := by
  by_cases hbelow : root.steps <+: p.steps
  · obtain ⟨tail, hsteps⟩ := hbelow
    have h : root.Below p tail := ⟨hr, hp, hsteps.symm⟩
    obtain ⟨text, hleads, -, hresolve⟩ := resolve_below h
    obtain ⟨habs, hway⟩ := Path.steps_join hr (leads_way text)
    have hstarts := (Path.startsWith_iff hr hp).2 ⟨tail, hsteps⟩
    rw [hresolve, Path.components_eq_iff habs hp, hway, h.steps, List.append_cancel_left_eq,
      counted_way_iff hleads, ← h.noBackslash_iff, Kept, hstarts]
    simp
  · have hstarts : p.startsWith root = false := by
      rw [Bool.eq_false_iff, ne_eq, Path.startsWith_iff hr hp]
      exact hbelow
    simp [resolve_outside hr hp hbelow, Kept, hstarts]

/-- Labels of two files that stand for them are the same for one file only. -/
theorem components_of_ofPath (hr : root.isAbsolute = true) (hp : p.isAbsolute = true)
    (hq : q.isAbsolute = true) (hkp : Kept root p)
    (hkq : Kept root q) (h : ofPath root p = ofPath root q) :
    p.components = q.components := by
  rw [← (components_resolve_iff hr hp root).2 hkp, h, (components_resolve_iff hr hq root).2 hkq]

/-- No file has the label of a built-in one. -/
theorem ofPath_not_builtin (hr : root.isAbsolute = true) (hp : p.isAbsolute = true) :
    ¬ builtinMark.toList <+: (ofPath root p).toList := by
  by_cases hbelow : root.steps <+: p.steps
  · obtain ⟨tail, hsteps⟩ := hbelow
    obtain ⟨text, -, hlabel, -⟩ := resolve_below ⟨hr, hp, hsteps.symm⟩
    rw [hlabel]
    rintro ⟨rest, hrest⟩
    exact absurd (congrArg (·[1]?) hrest) (by simp [builtinMark, rootMark])
  · rw [ofPath_outside hr hp hbelow]
    rintro ⟨rest, hrest⟩
    have hhead : p.text.toList.head? = some '/' := by simpa [Path.isAbsolute] using hp
    rw [← hrest] at hhead
    exact absurd hhead (by simp [builtinMark])

/-- The directory of the built-in declarations is of no matter to the label of a file. -/
theorem resolve_congr (hr : root.isAbsolute = true) (hp : p.isAbsolute = true)
    (builtins builtins' : Path) :
    resolve root builtins (ofPath root p) = resolve root builtins' (ofPath root p) := by
  by_cases hbelow : root.steps <+: p.steps
  · obtain ⟨tail, hsteps⟩ := hbelow
    obtain ⟨text, -, -, hresolve⟩ := resolve_below ⟨hr, hp, hsteps.symm⟩
    rw [hresolve, hresolve]
  · rw [resolve_outside hr hp hbelow, resolve_outside hr hp hbelow]

/-- A label stands for the file it was made for just when that is not below the root or has no backslash
below it. Of such files no two have the same label, and no file has a label that leads among the built-in
declarations. -/
theorem labels_exact (hr : root.isAbsolute = true) :
    (∀ p, p.isAbsolute = true → ∀ builtins,
      (resolve root builtins (ofPath root p)).components = p.components ↔ Kept root p) ∧
    (∀ p q, p.isAbsolute = true → q.isAbsolute = true → Kept root p → Kept root q →
      ofPath root p = ofPath root q → p.components = q.components) ∧
    ∀ p, p.isAbsolute = true → ¬ builtinMark.toList <+: (ofPath root p).toList ∧
      ∀ builtins builtins', resolve root builtins (ofPath root p) =
        resolve root builtins' (ofPath root p) :=
  ⟨fun _ hp => components_resolve_iff hr hp, fun _ _ => components_of_ofPath hr,
    fun _ hp => ⟨ofPath_not_builtin hr hp, resolve_congr hr hp⟩⟩

/-- Two spellings of a file have one label, which leads back to it, and the label of a file with a backslash
leads to another. -/
theorem labels_exact_spellings :
    Path.isAbsolute ⟨"/r/"⟩ = true ∧
      (ofPath ⟨"/r/"⟩ ⟨"/r//a b/x.lua"⟩ = ofPath ⟨"/r/"⟩ ⟨"/r/./a b/x.lua/"⟩ ∧
        Path.components ⟨"/r//a b/x.lua"⟩ = Path.components ⟨"/r/./a b/x.lua/"⟩) ∧
      (resolve ⟨"/r/"⟩ ⟨"/lib"⟩ (ofPath ⟨"/r/"⟩ ⟨"/r/a\\b.lua"⟩)).components ≠
        Path.components ⟨"/r/a\\b.lua"⟩ := by
  obtain ⟨hresolve, hsame, -⟩ := @labels_exact ⟨"/r/"⟩ (by decide)
  refine ⟨by decide, ⟨by decide, ?_⟩, ?_⟩
  · exact hsame _ _ (by decide) (by decide) (.inr (by decide)) (.inr (by decide)) (by decide)
  · rw [ne_eq, hresolve _ (by decide)]
    exact not_or.2 ⟨by decide, by decide⟩

end Label

end LuaLens
