import LuaLens.Symbol.Basic
import LuaLens.Proofs.Text.Cut

/-!
Paths by their pieces. Joining appends pieces, a parent has one that counts less, and the module of a
file is named after the last two of them.
-/

namespace LuaLens

open Text

namespace Path

variable {p : Path}

/-! ### Pieces -/

/-- A name that is one step of a path. -/
def IsPlain (name : String) : Prop :=
  isIdle name.toList = false ∧ name.toList ≠ ['.', '.'] ∧ '/' ∉ name.toList

instance (name : String) : Decidable (IsPlain name) := inferInstanceAs (Decidable (_ ∧ _ ∧ _))

theorem IsPlain.ne_nil {name : String} (h : IsPlain name) : name.toList ≠ [] := by
  intro hn
  simp [IsPlain, hn, isIdle] at h

/-- A text without a slash in front. -/
def unrooted : List Char → List Char
  | '/' :: s => s
  | s => s

theorem pieces_eq (p : Path) : p.pieces = splitAll '/' (unrooted p.text.toList) := by
  rw [pieces]
  generalize p.text.toList = s
  cases s with
  | nil => rfl
  | cons c s =>
    by_cases hc : c = '/'
    · rw [hc, unrooted]
      rfl
    · rw [unrooted] <;> simp_all

theorem unrooted_append {s : List Char} (h : s ≠ []) (t : List Char) :
    unrooted (s ++ t) = unrooted s ++ t := by
  obtain ⟨c, s, rfl⟩ := List.exists_cons_of_ne_nil h
  by_cases hc : c = '/'
  · rw [hc]; rfl
  · rw [List.cons_append, unrooted, unrooted] <;> simp_all

/-- The pieces of a path below another are those of the other, less an empty one at their end, and its
own. -/
theorem pieces_join (hp : p.text.isEmpty = false) {tail : String}
    (ht : tail.toList.head? ≠ some '/') :
    ∃ init, (p.join tail).pieces = init ++ splitAll '/' tail.toList ∧
      (p.pieces = init ∨ p.pieces = init ++ [[]]) ∧
      ∃ t, (p.join tail).text.toList = p.text.toList ++ t ++ tail.toList ∧ (t = [] ∨ t = ['/']) := by
  have hne : p.text.toList ≠ [] := by simpa using hp
  have hhead : (tail.toList.head? == some '/') = false := by simpa using ht
  have hmark : "/".toList = ['/'] := rfl
  rw [join, hhead, hp]
  simp only [Bool.or_self, Bool.false_eq_true, ↓reduceIte, beq_iff_eq]
  split
  · rename_i hlast
    obtain ⟨s, hs⟩ := List.getLast?_eq_some_iff.1 hlast
    simp only [pieces_eq, String.toList_append, hs]
    by_cases hempty : s = []
    · refine ⟨[], ?_, .inr ?_, [], by simp, .inl rfl⟩
      · rw [hempty]
        rfl
      · rw [hempty]
        rfl
    · refine ⟨splitAll '/' (unrooted s), ?_, .inr ?_, [], by simp, .inl rfl⟩
      · rw [List.append_assoc, unrooted_append hempty, List.singleton_append, splitAll_append_cons]
      · rw [unrooted_append hempty, splitAll_append_cons]
        rfl
  · refine ⟨p.pieces, ?_, .inl rfl, ['/'], by simp, .inr rfl⟩
    rw [pieces_eq, pieces_eq, String.toList_append, String.toList_append, List.append_assoc,
      unrooted_append hne, hmark, List.singleton_append, splitAll_append_cons]

theorem IsPlain.head?_ne {name : String} (h : IsPlain name) : name.toList.head? ≠ some '/' :=
  fun hh => h.2.2 (List.mem_of_mem_head? hh)

theorem pieces_join_plain (hp : p.text.isEmpty = false) {name : String} (hn : IsPlain name) :
    ∃ init, (p.join name).pieces = init ++ [name.toList] ∧
      (p.pieces = init ∨ p.pieces = init ++ [[]]) ∧
      ∃ t, (p.join name).text.toList = p.text.toList ++ t ++ name.toList ∧ (t = [] ∨ t = ['/']) := by
  rw [← splitAll_of_not_mem hn.2.2]
  exact pieces_join hp hn.head?_ne

/-! ### Joining -/

theorem isEmpty_join {name : String} (hn : IsPlain name) : (p.join name).text.isEmpty = false := by
  have hname : name ≠ "" := fun h => hn.ne_nil (by rw [h]; rfl)
  unfold join
  split_ifs <;> simp [hname]

theorem body_of_here {rest : List (List Char)} (habs : p.isAbsolute = false)
    (h : p.pieces = ['.'] :: rest) : p.body = (true, rest) := by
  rw [body, habs, h]
  rfl

theorem body_of_not_here (h : p.isAbsolute = false → p.pieces.head? ≠ some ['.']) :
    p.body = (false, p.pieces) := by
  unfold body
  split
  · rename_i rest habs hpieces
    rw [hpieces] at h
    exact absurd rfl (h habs)
  · rfl

/-- A name is joined behind the other pieces, whether or not a leading dot counts apart from them, and
an empty one at their end makes way for it. -/
theorem body_join {name : String} (hp : p.text.isEmpty = false) (hn : IsPlain name) : ∃ init,
    (p.join name).isAbsolute = p.isAbsolute ∧ (p.join name).body = (p.body.1, init ++ [name.toList]) ∧
      (p.body.2 = init ∨ p.body.2 = init ++ [[]]) := by
  obtain ⟨init, hjoin, hpieces, t, htext, -⟩ := pieces_join_plain hp hn
  have habs : (p.join name).isAbsolute = p.isAbsolute := by
    have hne : p.text.toList ≠ [] := by simpa using hp
    rw [isAbsolute, isAbsolute, htext, List.append_assoc, List.head?_append_of_ne_nil _ hne]
  have hdot : name.toList ≠ ['.'] := by
    intro hdot
    have hidle := hn.1
    rw [hdot] at hidle
    cases hidle
  by_cases hhere : p.isAbsolute = false ∧ init.head? = some ['.']
  · obtain ⟨hrel, hhead⟩ := hhere
    obtain ⟨rest, rfl⟩ := List.head?_eq_some_iff.1 hhead
    rw [List.cons_append] at hjoin hpieces
    have hbody := body_of_here (habs.trans hrel) hjoin
    refine ⟨rest, habs, ?_, hpieces.imp (fun h => ?_) fun h => ?_⟩
    · obtain h | h := hpieces <;> rw [hbody, body_of_here hrel h]
    · rw [body_of_here hrel h]
    · rw [body_of_here hrel h]
  · have hfirst {last : List Char} (hlast : last ≠ ['.']) (hrel : p.isAbsolute = false) :
        (init ++ [last]).head? ≠ some ['.'] := by
      cases init with
      | nil => simpa using hlast
      | cons first rest => exact fun h => hhere ⟨hrel, h⟩
    have hbody : (p.join name).body = (false, init ++ [name.toList]) := by
      rw [body_of_not_here, hjoin]
      rw [habs, hjoin]
      exact hfirst hdot
    have hown : p.body = (false, p.pieces) := by
      refine body_of_not_here fun hrel => ?_
      obtain hpieces | hpieces := hpieces
      · rw [hpieces]
        exact fun h => hhere ⟨hrel, h⟩
      · rw [hpieces]
        exact hfirst (by simp) hrel
    refine ⟨init, habs, by rw [hbody, hown], ?_⟩
    rwa [hown]

/-- A name below a path is one component more. -/
theorem components_join {name : String} (hp : p.text.isEmpty = false) (hn : IsPlain name) :
    (p.join name).components = p.components ++ [.named name] := by
  obtain ⟨init, habs, hbody, hown⟩ := body_join hp hn
  have hcomponent : component name.toList = .named name := by
    rw [component, if_neg (by simpa using hn.2.1), String.ofList_toList]
  have hcounted : (p.body.2.filter (!isIdle ·)) = init.filter (!isIdle ·) := by
    obtain hown | hown := hown
    · rw [hown]
    · rw [hown, List.filter_append]
      exact List.append_nil _
  unfold components
  rw [habs, hbody]
  dsimp only
  rw [hcounted, List.filter_append, List.filter_cons_of_pos (by simp [hn.1]), List.filter_nil,
    List.map_append, List.map_singleton, hcomponent]
  simp only [List.append_assoc]

/-! ### Slashes -/

theorem mem_pieces_of_mem_body {piece : List Char} (h : piece ∈ p.body.2) : piece ∈ p.pieces := by
  rw [body] at h
  split at h
  · rename_i rest _ hp
    rw [hp]
    exact List.mem_cons_of_mem _ h
  · exact h

theorem slash_not_mem_pieces {piece : List Char} (h : piece ∈ p.pieces) : '/' ∉ piece := by
  rw [pieces] at h
  split at h <;> exact (mem_splitAll h).1

theorem exists_piece_of_named {name : String} (h : .named name ∈ p.components) :
    ∃ piece ∈ p.pieces, String.ofList piece = name := by
  simp only [components, List.mem_append, List.mem_map, List.mem_filter] at h
  obtain (h | h) | ⟨piece, ⟨hpiece, -⟩, hname⟩ := h
  · split at h <;> simp at h
  · split at h <;> simp at h
  · rw [component] at hname
    split at hname
    · cases hname
    · exact ⟨piece, mem_pieces_of_mem_body hpiece, Component.named.inj hname⟩

theorem slash_not_mem_of_named {name : String} (h : .named name ∈ p.components) :
    '/' ∉ name.toList := by
  obtain ⟨piece, hpiece, rfl⟩ := exists_piece_of_named h
  rw [String.toList_ofList]
  exact slash_not_mem_pieces hpiece

theorem slash_not_mem_fileName {name : String} (h : p.fileName? = some name) :
    '/' ∉ name.toList := by
  rw [fileName?] at h
  split at h
  · rename_i last hlast
    obtain rfl := Option.some.inj h
    exact slash_not_mem_of_named (List.mem_of_getLast? hlast)
  · cases h

theorem splitName_of_not_mem {name : String} (h : '.' ∉ name.toList) :
    splitName name = (name, none) := by
  rw [splitName, splitLast, splitOnce_of_not_mem (by simpa using h)]
  rfl

theorem mem_of_mem_stem {name : String} {c : Char} (h : c ∈ (splitName name).1.toList) :
    c ∈ name.toList := by
  rw [splitName] at h
  split at h
  · rename_i before after hs
    split at h
    · exact h
    · rw [splitLast, Option.map_eq_some_iff] at hs
      obtain ⟨⟨a, b⟩, hcut, hab⟩ := hs
      obtain ⟨rfl, rfl⟩ : b.reverse = before ∧ a.reverse = after := by simpa using hab
      obtain ⟨-, hrev⟩ := splitOnce_eq_some hcut
      rw [String.toList_ofList, List.mem_reverse] at h
      rw [← List.mem_reverse, hrev]
      simp [h]
  · exact h

end Path

theorem slash_not_mem_moduleNameOf (p : Path) : '/' ∉ (moduleNameOf p).toList := by
  have hstem : '/' ∉ (p.fileStem?.getD "").toList := by
    rw [Path.fileStem?]
    cases hn : p.fileName? with
    | none => simp
    | some name => exact fun h => Path.slash_not_mem_fileName hn (Path.mem_of_mem_stem h)
  rw [moduleNameOf]
  split
  · cases hparent : p.parent?.bind (·.fileName?) with
    | none => exact hstem
    | some name =>
      obtain ⟨up, -, hup⟩ := Option.bind_eq_some_iff.1 hparent
      exact Path.slash_not_mem_fileName hup
  · exact hstem

end LuaLens
