import LuaLens.Corpus.Basic
import LuaLens.Proofs.Path.Steps

/-!
Labels of the files of a project and of other files. A label of the project stands for the steps below
the root, and no other file has such a label.
-/

namespace LuaLens

open Text

/-- Steps without white space and backslashes. -/
def Unspaced (tail : List (List Char)) : Prop :=
  ∀ piece ∈ tail, ∀ c ∈ piece, isBlank c = false ∧ c ≠ '\\'

instance (tail : List (List Char)) : Decidable (Unspaced tail) :=
  decidable_of_iff (tail.all fun piece => piece.all fun c => !isBlank c && c != '\\')
    (by simp [Unspaced])

theorem Unspaced.isBlank_of_spelt {all : List (List Char)} (h : Unspaced all) {c : Char}
    (hc : Path.Spelt all c) : isBlank c = false := by
  obtain rfl | rfl | ⟨piece, hp, hc⟩ := hc
  · decide
  · decide
  · exact (h piece hp c hc).1

/-- An absolute path with the given steps below a root. -/
structure Path.Below (root q : Path) (tail : List (List Char)) : Prop where
  rooted : root.isAbsolute = true
  absolute : q.isAbsolute = true
  steps : q.steps = root.steps ++ tail

namespace Label

variable {root q q' : Path} {tail tail' : List (List Char)}

theorem rootMark_toList : (rootMark ++ "/").toList = ['$', 'R', 'O', 'O', 'T', '/'] := by
  decide

/-- A text with slashes for backslashes. -/
def slashed (s : List Char) : List Char := s.map fun c => if c == '\\' then '/' else c

/-- A way without backslashes is spelt as it is. -/
theorem slashed_of_leads {text : String} (h : Path.Leads text tail)
    (hno : ∀ piece ∈ tail, '\\' ∉ piece) : slashed text.toList = text.toList := by
  rw [slashed, List.map_congr_left (g := id), List.map_id]
  intro c hc
  have hne : c ≠ '\\' := by
    obtain rfl | rfl | ⟨piece, hp, hcp⟩ := h.mem hc
    · decide
    · decide
    · rintro rfl
      exact hno piece hp hcp
  rw [if_neg (by simpa using hne), id]

/-- The label of a file of the project spells out the way to it. -/
theorem ofPath_below (h : root.Below q tail) (hu : Unspaced tail) :
    ∃ text, ofPath root q = rootMark ++ "/" ++ text ∧ Path.Leads text tail := by
  obtain ⟨text, hrel, hleads⟩ := Path.relativeTo?_of_steps h.rooted h.absolute h.steps
  refine ⟨text, ?_, hleads⟩
  have hslash := slashed_of_leads hleads fun piece hp hc => (hu piece hp _ hc).2 rfl
  rw [slashed] at hslash
  simp only [ofPath, hrel, hslash, String.ofList_toList]

theorem steps_of_ofPath (h : root.Below q tail) (hu : Unspaced tail) (h' : root.Below q' tail')
    (hu' : Unspaced tail') (hl : ofPath root q = ofPath root q') : q.steps = q'.steps := by
  obtain ⟨text, htext, hleads⟩ := ofPath_below h hu
  obtain ⟨text', htext', hleads'⟩ := ofPath_below h' hu'
  rw [htext, htext'] at hl
  have hsame : text = text' := by
    have hlist := congrArg String.toList hl
    rw [String.toList_append, String.toList_append (s := rootMark ++ "/")] at hlist
    exact String.toList_injective (List.append_cancel_left hlist)
  rw [h.steps, h'.steps, ← hleads.steps, ← hleads'.steps, hsame]

theorem ofPath_outside (hr : root.isAbsolute = true) (hq : q.isAbsolute = true)
    (h : ¬ root.steps <+: q.steps) : ofPath root q = q.text := by
  rw [ofPath, Path.relativeTo?_eq_none hr hq h]

/-- A label that no file of a project has: it starts with a slash, or has none. -/
def Outlying (label : List Char) : Prop := label.head? = some '/' ∨ '/' ∉ label

theorem not_outlying_below (h : root.Below q tail) (hu : Unspaced tail) :
    ¬ Outlying (ofPath root q).toList := by
  obtain ⟨text, htext, -⟩ := ofPath_below h hu
  rw [htext, String.toList_append, rootMark_toList]
  rintro (hhead | hslash)
  · simp at hhead
  · simp at hslash

theorem outlying_outside (hr : root.isAbsolute = true) (hq : q.isAbsolute = true)
    (h : ¬ root.steps <+: q.steps) : Outlying (ofPath root q).toList := by
  rw [ofPath_outside hr hq h]
  exact .inl (by simpa [Path.isAbsolute] using hq)

end Label

end LuaLens
