import LuaLens.Proofs.Path

/-!
Absolute paths by their steps: the pieces that count. Two spellings of a path have the same steps, and
the steps say what its components are, its parent, its module, and what is left of it below another.
-/

namespace LuaLens

open Text

namespace Text

theorem splitAll_join {c : Char} {ps : List (List Char)} (hne : ps ≠ []) (h : ∀ p ∈ ps, c ∉ p) :
    splitAll c (join [c] ps) = ps := by
  induction ps with
  | nil => exact absurd rfl hne
  | cons p ps ih =>
    cases ps with
    | nil => exact splitAll_of_not_mem (h p (by simp))
    | cons q ps =>
      rw [join, List.append_assoc, List.singleton_append, splitAll_append (h p (by simp)),
        ih (by simp) fun r hr => h r (by simp [hr])]

/-- A character of a text is a separator or in a piece. -/
theorem mem_piece_of_mem {c d : Char} {s : List Char} (h : d ∈ s) :
    d = c ∨ ∃ p ∈ splitAll c s, d ∈ p := by
  induction s using pieces_induct c with
  | last s hs => exact .inr ⟨s, by simp [splitAll_of_not_mem hs], h⟩
  | piece q t hq ih =>
    rw [splitAll_append hq]
    obtain h | h := List.mem_append.1 h
    · exact .inr ⟨q, by simp, h⟩
    · obtain rfl | h := List.mem_cons.1 h
      · exact .inl rfl
      · obtain hc | ⟨p, hp, hd⟩ := ih h
        · exact .inl hc
        · exact .inr ⟨p, List.mem_cons_of_mem _ hp, hd⟩

end Text

namespace Path

variable {p q r : Path}

/-! ### Steps -/

/-- The pieces that count. -/
def counted (all : List (List Char)) : List (List Char) := all.filter (!isIdle ·)

def steps (p : Path) : List (List Char) := counted p.pieces

theorem counted_append (a b : List (List Char)) : counted (a ++ b) = counted a ++ counted b :=
  List.filter_append ..

theorem counted_of_idle {all : List (List Char)} (h : ∀ piece ∈ all, isIdle piece = true) :
    counted all = [] := by
  rw [counted, List.filter_eq_nil_iff]
  intro piece hpiece
  simp [h piece hpiece]

theorem mem_counted {piece : List Char} {all : List (List Char)} :
    piece ∈ counted all ↔ piece ∈ all ∧ isIdle piece = false := by
  rw [counted, List.mem_filter, Bool.not_eq_true']

theorem dot_of_isIdle {piece : List Char} (h : isIdle piece = true) {c : Char} (hc : c ∈ piece) :
    c = '.' := by
  rw [isIdle, Bool.or_eq_true, List.isEmpty_iff, beq_iff_eq] at h
  obtain rfl | rfl := h
  · cases hc
  · simpa using hc

/-- Idle pieces at an end do not count. -/
theorem dropIdleEnd_append (all : List (List Char)) :
    ∃ idle, all = dropIdleEnd all ++ idle ∧ ∀ piece ∈ idle, isIdle piece = true := by
  refine ⟨(all.reverse.takeWhile isIdle).reverse, ?_, ?_⟩
  · rw [dropIdleEnd, ← List.reverse_append, List.takeWhile_append_dropWhile, List.reverse_reverse]
  · intro piece hpiece
    exact List.mem_takeWhile_imp (List.mem_reverse.1 hpiece)

theorem counted_dropIdleEnd (all : List (List Char)) : counted (dropIdleEnd all) = counted all := by
  obtain ⟨idle, hall, hidle⟩ := dropIdleEnd_append all
  conv_rhs => rw [hall, counted_append, counted_of_idle hidle, List.append_nil]

theorem mem_of_mem_dropIdleEnd {piece : List Char} {all : List (List Char)}
    (h : piece ∈ dropIdleEnd all) : piece ∈ all := by
  obtain ⟨idle, hall, -⟩ := dropIdleEnd_append all
  rw [hall]
  exact List.mem_append_left _ h

/-- Pieces that do not end in idle ones end in a step. -/
theorem dropIdleEnd_eq_concat {all init : List (List Char)} {last : List Char}
    (h : counted all = init ++ [last]) :
    ∃ front, dropIdleEnd all = front ++ [last] ∧ counted front = init := by
  have hd := (counted_dropIdleEnd all).trans h
  cases hk : (dropIdleEnd all).getLast? with
  | none =>
    rw [List.getLast?_eq_none_iff.1 hk] at hd
    simp [counted] at hd
  | some piece =>
    obtain ⟨front, hfront⟩ := List.getLast?_eq_some_iff.1 hk
    have hstep : isIdle piece = false := by
      rw [dropIdleEnd, List.getLast?_reverse] at hk
      exact of_head?_dropWhile hk
    have hone : counted [piece] = [piece] := by simp [counted, hstep]
    rw [hfront, counted_append, hone] at hd
    obtain ⟨rfl, rfl⟩ : counted front = init ∧ piece = last := by simpa using hd
    exact ⟨front, hfront, rfl⟩

/-! ### Components -/

theorem body_of_isAbsolute (h : p.isAbsolute = true) : p.body = (false, p.pieces) := by
  rw [body, h]

theorem components_of_isAbsolute (h : p.isAbsolute = true) :
    p.components = .root :: p.steps.map component := by
  rw [components, body_of_isAbsolute h, h]
  rfl

theorem component_injective : Function.Injective component := by
  intro a b h
  rw [component, component] at h
  split_ifs at h with ha hb hb
  · exact (beq_iff_eq.1 ha).trans (beq_iff_eq.1 hb).symm
  · exact String.ofList_injective (Component.named.inj h)

theorem steps_eq_of_components (hp : p.isAbsolute = true) (hq : q.isAbsolute = true)
    (h : p.components = q.components) : p.steps = q.steps := by
  rw [components_of_isAbsolute hp, components_of_isAbsolute hq, List.cons.injEq] at h
  exact component_injective.list_map h.2

/-- The name of a component that has one. -/
def Component.name? : Component → Option String
  | .named name => some name
  | _ => none

theorem fileName?_eq (p : Path) : p.fileName? = p.components.getLast?.bind Component.name? := by
  rw [fileName?]
  cases p.components.getLast? with
  | none => rfl
  | some c => cases c <;> rfl

/-- The name of a step, which an upward one has not. -/
def stepName? (piece : List Char) : Option String := (component piece).name?

theorem fileName?_of_isAbsolute (h : p.isAbsolute = true) :
    p.fileName? = p.steps.getLast?.bind stepName? := by
  rw [fileName?_eq, components_of_isAbsolute h]
  cases hl : p.steps.getLast? with
  | none =>
    rw [List.getLast?_eq_none_iff.1 hl]
    rfl
  | some piece =>
    obtain ⟨init, hi⟩ := List.getLast?_eq_some_iff.1 hl
    rw [hi, List.map_append, List.map_singleton, ← List.cons_append, List.getLast?_concat]
    rfl

theorem mem_of_stepName? {piece : List Char} {name : String} (h : stepName? piece = some name) :
    name.toList = piece := by
  rw [stepName?, component] at h
  split at h
  · cases h
  · obtain rfl := Option.some.inj h
    exact String.toList_ofList

theorem stepName?_of_isPlain {name : String} (h : IsPlain name) :
    stepName? name.toList = some name := by
  have hup : (name.toList == ['.', '.']) = false := by simpa using h.2.1
  rw [stepName?, component, hup]
  exact congrArg some String.ofList_toList

/-! ### Parents -/

/-- The steps of a text that pieces are put together to after a slash. -/
theorem steps_assemble {all : List (List Char)} (h : ∀ piece ∈ all, '/' ∉ piece) :
    (assemble "/" all).isAbsolute = true ∧ (assemble "/" all).steps = counted all := by
  have htext : (assemble "/" all).text.toList = '/' :: Text.join ['/'] all := by
    simp only [assemble, String.toList_append, String.toList_ofList]
    rfl
  refine ⟨by rw [isAbsolute, htext]; rfl, ?_⟩
  rw [steps, pieces_eq, htext, unrooted]
  cases all with
  | nil => rfl
  | cons piece rest => rw [splitAll_join (by simp) h]

theorem parent?_of_steps {init : List (List Char)} {last : List Char} (h : p.isAbsolute = true)
    (hs : p.steps = init ++ [last]) :
    ∃ up, p.parent? = some up ∧ up.isAbsolute = true ∧ up.steps = init := by
  obtain ⟨front, hfront, hinit⟩ := dropIdleEnd_eq_concat hs
  have hslash : ∀ piece ∈ dropIdleEnd front, '/' ∉ piece := by
    intro piece hpiece
    refine slash_not_mem_pieces (p := p) (mem_of_mem_dropIdleEnd ?_)
    rw [hfront]
    exact List.mem_append_left _ (mem_of_mem_dropIdleEnd hpiece)
  obtain ⟨habs, hsteps⟩ := steps_assemble hslash
  refine ⟨assemble "/" (dropIdleEnd front), ?_, habs, ?_⟩
  · rw [parent?, body_of_isAbsolute h]
    simp only
    split
    · rename_i hnil
      rw [hfront] at hnil
      simp at hnil
    · rw [hfront, List.dropLast_concat, rebuild, if_pos h]
  · rw [hsteps, counted_dropIdleEnd, hinit]

/-! ### Below another path -/

theorem dropPieces_spec (n : Nat) (all : List (List Char)) :
    counted (dropPieces n all) = (counted all).drop n ∧
      (∀ piece ∈ dropPieces n all, piece ∈ all) ∧
      ∀ piece rest, dropPieces n all = piece :: rest → isIdle piece = false := by
  induction all generalizing n with
  | nil => cases n <;> simp [dropPieces, counted]
  | cons piece rest ih =>
    cases hidle : isIdle piece with
    | true =>
      have hd : dropPieces n (piece :: rest) = dropPieces n rest := by
        cases n <;> rw [dropPieces, if_pos hidle]
      have hc : counted (piece :: rest) = counted rest := by simp [counted, hidle]
      rw [hd, hc]
      obtain ⟨h, hmem, hhead⟩ := ih n
      exact ⟨h, fun a ha => List.mem_cons_of_mem _ (hmem a ha), hhead⟩
    | false =>
      have hc : counted (piece :: rest) = piece :: counted rest := by simp [counted, hidle]
      rw [hc]
      cases n with
      | zero =>
        rw [dropPieces, hidle]
        simp [hc, hidle]
      | succ n =>
        rw [dropPieces, hidle]
        obtain ⟨h, hmem, hhead⟩ := ih n
        exact ⟨h, fun a ha => List.mem_cons_of_mem _ (hmem a ha), hhead⟩

/-- A text that leads to the given steps from wherever it is put. -/
structure Leads (text : String) (tail : List (List Char)) : Prop where
  steps : counted (splitAll '/' text.toList) = tail
  head : text.toList.head? ≠ some '/'

theorem Leads.mem {text : String} {tail : List (List Char)} (h : Leads text tail) {c : Char}
    (hc : c ∈ text.toList) : c = '/' ∨ c = '.' ∨ ∃ piece ∈ tail, c ∈ piece := by
  obtain hs | ⟨piece, hp, hd⟩ := mem_piece_of_mem (c := '/') hc
  · exact .inl hs
  · cases hi : isIdle piece with
    | true => exact .inr (.inl (dot_of_isIdle hi hd))
    | false => exact .inr (.inr ⟨piece, h.steps ▸ mem_counted.2 ⟨hp, hi⟩, hd⟩)

theorem leads_join {all : List (List Char)} (h : ∀ piece ∈ all, '/' ∉ piece)
    (hhead : ∀ piece rest, all = piece :: rest → isIdle piece = false) :
    Leads (String.ofList (Text.join ['/'] all)) (counted all) := by
  cases all with
  | nil => exact ⟨rfl, by simp [Text.join]⟩
  | cons piece rest =>
    constructor
    · rw [String.toList_ofList, splitAll_join (by simp) h]
    · rw [String.toList_ofList]
      have hne : piece ≠ [] := by
        rintro rfl
        exact absurd (hhead _ _ rfl) (by simp [isIdle])
      have hin : (Text.join ['/'] (piece :: rest)).head? = piece.head? := by
        cases rest with
        | nil => rfl
        | cons b rest => rw [Text.join, List.append_assoc, List.head?_append_of_ne_nil _ hne]
      rw [hin]
      exact fun hc => h piece (by simp) (List.mem_of_mem_head? hc)

/-- What is left of a path below another leads the rest of the way. -/
theorem relativeTo?_of_steps {tail : List (List Char)} (hr : r.isAbsolute = true)
    (hq : q.isAbsolute = true) (h : q.steps = r.steps ++ tail) :
    ∃ text, relativeTo? r q = some ⟨text⟩ ∧ Leads text tail := by
  obtain ⟨hsteps, hmem, hhead⟩ := dropPieces_spec r.steps.length q.pieces
  set left := dropIdleEnd (dropPieces r.steps.length q.pieces) with hleft
  refine ⟨String.ofList (Text.join ['/'] left), ?_, ?_⟩
  · have hpre : r.components.isPrefixOf q.components = true := by
      rw [List.isPrefixOf_iff_prefix, components_of_isAbsolute hr, components_of_isAbsolute hq, h,
        List.map_append, ← List.cons_append]
      exact List.prefix_append _ _
    have hne : r.components.isEmpty = false := by rw [components_of_isAbsolute hr]; rfl
    have hlen : r.components.length - 1 = r.steps.length := by
      rw [components_of_isAbsolute hr, List.length_cons, List.length_map, Nat.add_sub_cancel]
    rw [relativeTo?, hne, hpre, body_of_isAbsolute hq, hq]
    simp only [Bool.false_eq_true, ↓reduceIte, Bool.true_or, hlen, assemble, String.empty_append,
      hleft]
  · have hcounted : counted left = tail := by
      have hrest : counted q.pieces = r.steps ++ tail := h
      rw [hleft, counted_dropIdleEnd, hsteps, hrest, List.drop_left]
    rw [← hcounted]
    refine leads_join ?_ ?_
    · intro piece hp
      exact slash_not_mem_pieces (hmem piece (mem_of_mem_dropIdleEnd hp))
    · intro piece rest hp
      obtain ⟨idle, hall, -⟩ := dropIdleEnd_append (dropPieces r.steps.length q.pieces)
      rw [← hleft, hp, List.cons_append] at hall
      exact hhead piece _ hall

theorem relativeTo?_eq_none (hr : r.isAbsolute = true) (hq : q.isAbsolute = true)
    (h : ¬ r.steps <+: q.steps) : relativeTo? r q = none := by
  have hpre : r.components.isPrefixOf q.components = false := by
    rw [Bool.eq_false_iff, ne_eq, List.isPrefixOf_iff_prefix, components_of_isAbsolute hr,
      components_of_isAbsolute hq, List.cons_prefix_cons]
    rintro ⟨-, hp⟩
    exact h ((List.prefix_map_iff_of_injective component_injective).1 hp)
  have hne : r.components.isEmpty = false := by rw [components_of_isAbsolute hr]; rfl
  rw [relativeTo?, hne, hpre]
  rfl

theorem steps_join {text : String} {tail : List (List Char)} (hp : p.isAbsolute = true)
    (h : Leads text tail) :
    (p.join text).isAbsolute = true ∧ (p.join text).steps = p.steps ++ tail := by
  have hne : p.text.toList ≠ [] := by
    intro hnil
    rw [isAbsolute, hnil] at hp
    cases hp
  obtain ⟨init, hpieces, hinit, t, ht, -⟩ := pieces_join (by simpa using hne) h.head
  constructor
  · rw [isAbsolute, ht, List.append_assoc, List.head?_append_of_ne_nil _ hne]
    exact hp
  · have hsteps : p.steps = counted init := by
      obtain hi | hi := hinit
      · rw [steps, hi]
      · rw [steps, hi, counted_append]
        simp [counted, isIdle]
    rw [hsteps, steps, hpieces, counted_append, h.steps]

theorem leads_plain {name : String} (h : IsPlain name) : Leads name [name.toList] := by
  refine ⟨?_, h.head?_ne⟩
  rw [splitAll_of_not_mem h.2.2]
  simp [counted, h.1]

/-! ### Characters -/

/-- A slash, a dot, or in one of the pieces. -/
def Spelt (all : List (List Char)) (c : Char) : Prop := c = '/' ∨ c = '.' ∨ ∃ piece ∈ all, c ∈ piece

theorem Spelt.mono {all all' : List (List Char)} {c : Char} (h : Spelt all c)
    (hall : ∀ piece ∈ all, piece ∈ all') : Spelt all' c :=
  h.imp_right <| .imp_right fun ⟨piece, hp, hc⟩ => ⟨piece, hall piece hp, hc⟩

theorem mem_text_of_mem_piece {piece : List Char} {c : Char} (hp : piece ∈ p.pieces)
    (hc : c ∈ piece) : c ∈ p.text.toList := by
  rw [pieces] at hp
  split at hp
  · rename_i s hs
    rw [hs]
    exact List.mem_cons_of_mem _ ((mem_splitAll hp).2 c hc)
  · exact (mem_splitAll hp).2 c hc

theorem spelt_of_mem_text {c : Char} (h : c ∈ p.text.toList) : Spelt p.pieces c := by
  rw [pieces]
  split
  · rename_i s hs
    rw [hs, List.mem_cons] at h
    obtain rfl | h := h
    · exact .inl rfl
    · exact (mem_piece_of_mem h).imp_right .inr
  · exact (mem_piece_of_mem h).imp_right .inr

/-- What a path is spelt with, that of its pieces is. -/
theorem Spelt.trans {all : List (List Char)} {c : Char} (h : Spelt p.pieces c)
    (hp : ∀ d ∈ p.text.toList, Spelt all d) : Spelt all c := by
  obtain hc | hc | ⟨piece, hpiece, hc⟩ := h
  · exact .inl hc
  · exact .inr (.inl hc)
  · exact hp c (mem_text_of_mem_piece hpiece hc)

theorem spelt_of_mem_assemble {lead : String} {all : List (List Char)} {c : Char}
    (hlead : lead.toList.all fun d => d == '/' || d == '.') (h : c ∈ (assemble lead all).text.toList) :
    Spelt all c := by
  rw [assemble, String.toList_append, List.mem_append, String.toList_ofList] at h
  obtain h | h := h
  · have hmark : c = '/' ∨ c = '.' := by simpa using List.all_eq_true.1 hlead c h
    exact hmark.imp_right .inl
  · obtain h | h := mem_of_mem_join h
    · exact .inl (List.mem_singleton.1 h)
    · exact .inr (.inr h)

theorem spelt_of_mem_rebuild {left : List (List Char)} {c : Char}
    (h : c ∈ (p.rebuild left).text.toList) : Spelt left c := by
  rw [rebuild] at h
  split at h
  · exact spelt_of_mem_assemble (by decide) h
  · split at h
    · refine (spelt_of_mem_assemble (by decide) h).imp_right <| .imp_right ?_
      rintro ⟨piece, hp, hc⟩
      split at hp
      · cases hp
      · obtain rfl | hp := List.mem_cons.1 hp
        · cases hc
        · exact ⟨piece, hp, hc⟩
    · exact spelt_of_mem_assemble (by decide) h

theorem spelt_of_mem_parent {up : Path} {c : Char} (hup : p.parent? = some up)
    (h : c ∈ up.text.toList) : Spelt p.pieces c := by
  rw [parent?] at hup
  simp only at hup
  split at hup
  · split at hup
    · obtain rfl := Option.some.inj hup
      cases h
    · cases hup
  · obtain rfl := Option.some.inj hup
    refine (spelt_of_mem_rebuild h).mono fun piece hp => ?_
    have hkept := List.mem_of_mem_dropLast (mem_of_mem_dropIdleEnd hp)
    exact mem_pieces_of_mem_body (mem_of_mem_dropIdleEnd hkept)

theorem spelt_of_mem_relativeTo {rest : Path} {c : Char} (hrest : relativeTo? r p = some rest)
    (h : c ∈ rest.text.toList) : Spelt p.pieces c := by
  rw [relativeTo?] at hrest
  simp only at hrest
  split at hrest
  · obtain rfl := Option.some.inj hrest
    exact (spelt_of_mem_rebuild h).mono fun piece hp =>
      mem_pieces_of_mem_body (mem_of_mem_dropIdleEnd hp)
  · split at hrest
    · obtain rfl := Option.some.inj hrest
      refine (spelt_of_mem_assemble (by simp) h).mono fun piece hp => ?_
      exact mem_pieces_of_mem_body ((dropPieces_spec _ _).2.1 piece (mem_of_mem_dropIdleEnd hp))
    · cases hrest

theorem spelt_of_mem_fileName {name : String} {c : Char} (hn : p.fileName? = some name)
    (h : c ∈ name.toList) : Spelt p.pieces c := by
  rw [fileName?] at hn
  split at hn
  · rename_i last hlast
    obtain rfl := Option.some.inj hn
    obtain ⟨piece, hp, rfl⟩ := exists_piece_of_named (List.mem_of_getLast? hlast)
    rw [String.toList_ofList] at h
    exact .inr (.inr ⟨piece, hp, h⟩)
  · cases hn

end Path

/-! ### Modules -/

/-- The module named after the last step of a way and the one before it. -/
def stepsModule (steps : List (List Char)) : String :=
  let stem := ((steps.getLast?.bind Path.stepName?).map fun n => (Path.splitName n).1).getD ""
  if stem == "init" then (steps.dropLast.getLast?.bind Path.stepName?).getD stem else stem

theorem moduleNameOf_eq {p : Path} (h : p.isAbsolute = true) : moduleNameOf p = stepsModule p.steps := by
  rw [moduleNameOf, stepsModule, Path.fileStem?, Path.fileName?_of_isAbsolute h]
  cases hl : p.steps.getLast? with
  | none => simp
  | some last =>
    obtain ⟨init, hi⟩ := List.getLast?_eq_some_iff.1 hl
    obtain ⟨up, hup, habs, hsteps⟩ := Path.parent?_of_steps h hi
    have hname : p.parent?.bind (·.fileName?) = init.getLast?.bind Path.stepName? := by
      rw [hup, ← hsteps]
      exact Path.fileName?_of_isAbsolute habs
    rw [hname, hi, List.dropLast_concat]

/-- A module is spelt with what its path is spelt with. -/
theorem spelt_of_mem_moduleNameOf {p : Path} {c : Char} (h : c ∈ (moduleNameOf p).toList) :
    Path.Spelt p.pieces c := by
  have hstem (h : c ∈ (p.fileStem?.getD "").toList) : Path.Spelt p.pieces c := by
    rw [Path.fileStem?] at h
    cases hn : p.fileName? with
    | none => simp [hn] at h
    | some name =>
      rw [hn] at h
      exact Path.spelt_of_mem_fileName hn (Path.mem_of_mem_stem h)
  rw [moduleNameOf] at h
  split at h
  · cases hparent : p.parent?.bind (·.fileName?) with
    | none =>
      rw [hparent] at h
      exact hstem h
    | some name =>
      rw [hparent] at h
      obtain ⟨up, hup, hname⟩ := Option.bind_eq_some_iff.1 hparent
      exact (Path.spelt_of_mem_fileName hname h).trans fun d hd => Path.spelt_of_mem_parent hup hd
  · exact hstem h

/-- The stem of a step, if it has a name. -/
def stepStem (piece : List Char) : String :=
  ((Path.stepName? piece).map fun n => (Path.splitName n).1).getD ""

theorem mem_of_mem_stepStem {piece : List Char} {c : Char} (h : c ∈ (stepStem piece).toList) :
    c ∈ piece := by
  rw [stepStem] at h
  cases hname : Path.stepName? piece with
  | none => simp [hname] at h
  | some name =>
    rw [hname] at h
    exact Path.mem_of_stepName? hname ▸ Path.mem_of_mem_stem h

theorem stepsModule_concat (init : List (List Char)) (last : List Char) :
    stepsModule (init ++ [last]) =
      if stepStem last = "init" then (init.getLast?.bind Path.stepName?).getD (stepStem last)
      else stepStem last := by
  simp only [stepsModule, List.getLast?_concat, Option.bind_some, List.dropLast_concat, beq_iff_eq]
  rfl

/-- A module is named after the last two steps, and after the last alone if that is no `init`. -/
theorem mem_of_mem_stepsModule {base tail : List (List Char)} {piece : List Char} {c : Char}
    (hp : stepStem piece ≠ "init") (h : c ∈ (stepsModule (base ++ piece :: tail)).toList) :
    c ∈ piece ∨ ∃ p ∈ tail, c ∈ p := by
  obtain rfl | ⟨front, last, rfl⟩ := List.eq_nil_or_concat tail
  · rw [stepsModule_concat, if_neg hp] at h
    exact .inl (mem_of_mem_stepStem h)
  · rw [List.concat_eq_append, ← List.cons_append, ← List.append_assoc, stepsModule_concat] at h
    have hlast (h : c ∈ (stepStem last).toList) : c ∈ piece ∨ ∃ p ∈ front.concat last, c ∈ p :=
      .inr ⟨last, by simp, mem_of_mem_stepStem h⟩
    split at h
    · rw [List.getLast?_append_of_ne_nil _ (by simp), List.getLast?_eq_some_getLast (by simp),
        Option.bind_some] at h
      cases hname : Path.stepName? ((piece :: front).getLast (by simp)) with
      | none =>
        rw [hname] at h
        exact hlast h
      | some name =>
        rw [hname, Option.getD_some, Path.mem_of_stepName? hname] at h
        obtain heq | hmem := List.mem_cons.1 (List.getLast_mem (l := piece :: front) (by simp))
        · exact .inl (heq ▸ h)
        · exact .inr ⟨_, by simpa using .inl hmem, h⟩
    · exact hlast h

theorem fileStem?_eq_init_iff {p : Path} {init : List (List Char)} {last : List Char}
    (h : p.isAbsolute = true) (hs : p.steps = init ++ [last]) :
    p.fileStem? = some "init" ↔ stepStem last = "init" := by
  rw [Path.fileStem?, Path.fileName?_of_isAbsolute h, hs, List.getLast?_concat, Option.bind_some,
    stepStem]
  cases Path.stepName? last with
  | none => simp
  | some name => simp

end LuaLens
