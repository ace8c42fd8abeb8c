import LuaLens.Proofs.FileSystem
import LuaLens.Proofs.Path.Steps

/-!
Canonical paths. A path without steps upward has the same components in every tree, whether there is
something at its end or not.
-/

namespace LuaLens.FileSystem

open Text

variable {fs : FileSystem} {p : Path} {loc l r : Location}

/-! ### Paths of locations -/

theorem toList_pathOf (h : loc ≠ []) :
    (pathOf loc).text.toList = loc.flatMap fun name => '/' :: name.toList := by
  rw [pathOf, if_neg (by simpa using h), String.toList_join, List.flatMap_map]
  refine List.flatMap_congr fun name _ => ?_
  rw [String.toList_append]
  rfl

theorem isAbsolute_pathOf (loc : Location) : (pathOf loc).isAbsolute = true := by
  cases loc with
  | nil => rfl
  | cons name loc =>
    rw [Path.isAbsolute, toList_pathOf (by simp), List.flatMap_cons]
    rfl

theorem isAbsolute_canonical (h : p.isAbsolute = true) : (fs.canonical p).isAbsolute = true := by
  rw [canonical]
  split
  · exact isAbsolute_pathOf _
  · exact h

/-- The pieces of the path of a location are its names. -/
theorem splitAll_pathOf {name : String} (h : ∀ n ∈ name :: loc, '/' ∉ n.toList) :
    splitAll '/' (name.toList ++ loc.flatMap fun n => '/' :: n.toList) =
      name.toList :: loc.map String.toList := by
  induction loc generalizing name with
  | nil =>
    rw [List.flatMap_nil, List.append_nil, splitAll_of_not_mem (h name (by simp))]
    rfl
  | cons next loc ih =>
    rw [List.flatMap_cons, List.cons_append, splitAll_append (h name (by simp)),
      ih fun n hn => h n (List.mem_cons_of_mem _ hn)]
    rfl

theorem steps_pathOf (h : ∀ n ∈ loc, '/' ∉ n.toList ∧ Path.isIdle n.toList = false) :
    (pathOf loc).steps = loc.map String.toList := by
  cases loc with
  | nil => rfl
  | cons name loc =>
    rw [Path.steps, Path.pieces_eq, toList_pathOf (by simp), List.flatMap_cons, List.cons_append,
      Path.unrooted, splitAll_pathOf fun n hn => (h n hn).1, ← List.map_cons, Path.counted,
      List.filter_eq_self]
    intro piece hpiece
    obtain ⟨n, hn, rfl⟩ := List.mem_map.1 hpiece
    rw [(h n hn).2]
    rfl

/-! ### Paths without steps upward -/

/-- Without steps upward a way leads down by its steps. -/
theorem follow_steps {pieces : List (List Char)} (h : ['.', '.'] ∉ pieces)
    (hf : fs.follow l pieces = .ok r) : r = l ++ (Path.counted pieces).map String.ofList := by
  induction pieces generalizing l with
  | nil =>
    obtain rfl : l = r := by simpa [follow] using hf
    simp [Path.counted]
  | cons piece rest ih =>
    have hup : (piece == ['.', '.']) = false := by
      rw [beq_eq_false_iff_ne]
      rintro rfl
      exact h (by simp)
    have hrest : ['.', '.'] ∉ rest := fun hm => h (by simp [hm])
    have hl := directory_of_follow hf
    rw [follow, hl] at hf
    simp only [hup, Bool.false_eq_true, ↓reduceIte] at hf
    cases hidle : Path.isIdle piece with
    | true =>
      rw [hidle, if_pos rfl] at hf
      rw [ih hrest hf, Path.counted, Path.counted, List.filter_cons_of_neg (by simp [hidle])]
    | false =>
      rw [hidle, if_neg (by simp)] at hf
      split_ifs at hf
      cases hn : fs.node? (l ++ [String.ofList piece]) with
      | none => simp [hn] at hf
      | some n =>
        simp only [hn] at hf
        rw [ih hrest hf, Path.counted, Path.counted, List.filter_cons_of_pos (by simp [hidle]),
          List.map_cons, List.append_assoc, List.singleton_append]

/-- In whatever tree, a path without steps upward keeps its components. -/
theorem components_canonical (hp : p.isAbsolute = true) (h : ['.', '.'] ∉ p.pieces) :
    (fs.canonical p).components = p.components := by
  rw [canonical]
  split
  · rename_i r hr
    obtain ⟨-, -, hf⟩ := locate_eq_ok hr
    have hstart : fs.start p = [] := by rw [start, hp]; rfl
    rw [hstart] at hf
    have hr := follow_steps h hf
    rw [List.nil_append] at hr
    rw [Path.components_of_isAbsolute hp, Path.components_of_isAbsolute (isAbsolute_pathOf r), hr,
      steps_pathOf, List.map_map]
    · simp [Path.steps]
    · intro n hn
      obtain ⟨piece, hpiece, rfl⟩ := List.mem_map.1 hn
      rw [String.toList_ofList]
      exact ⟨Path.slash_not_mem_pieces (Path.mem_counted.1 hpiece).1, (Path.mem_counted.1 hpiece).2⟩
  · rfl

end LuaLens.FileSystem
