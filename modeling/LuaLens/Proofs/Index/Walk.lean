import LuaLens.Index.Basic
import LuaLens.Proofs.Canonical
import LuaLens.Proofs.Label

/-!
What a walk finds. Every file has the canonical path of a location below the root, and so it has that
path in every tree, and a label of the project.
-/

namespace LuaLens

open Text

namespace FileSystem

variable {fs : FileSystem} {p : Path} {loc l r : Location}

/-! ### Canonical paths -/

theorem pieces_pathOf (hne : loc ≠ []) (h : ∀ n ∈ loc, Path.IsPlain n) :
    (pathOf loc).pieces = loc.map String.toList := by
  obtain ⟨name, loc, rfl⟩ := List.exists_cons_of_ne_nil hne
  rw [Path.pieces_eq, toList_pathOf (by simp), List.flatMap_cons, List.cons_append, Path.unrooted,
    splitAll_pathOf fun n hn => (h n hn).2.2, List.map_cons]

theorem up_not_mem_pathOf (h : ∀ n ∈ loc, Path.IsPlain n) : ['.', '.'] ∉ (pathOf loc).pieces := by
  by_cases hne : loc = []
  · rw [hne]
    decide
  · rw [pieces_pathOf hne h]
    intro hm
    obtain ⟨n, hn, hup⟩ := List.mem_map.1 hm
    exact (h n hn).2.1 hup

theorem steps_pathOf_plain (h : ∀ n ∈ loc, Path.IsPlain n) :
    (pathOf loc).steps = loc.map String.toList :=
  steps_pathOf fun n hn => ⟨(h n hn).2.2, (h n hn).1⟩

theorem eq_of_locate_pathOf (h : ∀ n ∈ loc, Path.IsPlain n) (hr : fs.locate (pathOf loc) = .ok r) :
    r = loc := by
  obtain ⟨-, -, hf⟩ := locate_eq_ok hr
  rw [start, isAbsolute_pathOf, if_pos rfl] at hf
  have hsteps := steps_pathOf_plain h
  rw [Path.steps] at hsteps
  rw [follow_steps (up_not_mem_pathOf h) hf, List.nil_append, hsteps, List.map_map]
  simp

/-- The canonical path of a location stays as it is in every tree. -/
theorem canonical_pathOf (fs : FileSystem) (h : ∀ n ∈ loc, Path.IsPlain n) :
    fs.canonical (pathOf loc) = pathOf loc := by
  rw [canonical]
  split
  · rename_i r hr
    rw [eq_of_locate_pathOf h hr]
  · rfl

/-- The path of a location ends in its last name. -/
theorem getLast?_pathOf {last : String} (h : Path.IsPlain last) :
    (pathOf (loc ++ [last])).text.toList.getLast? = last.toList.getLast? := by
  rw [toList_pathOf (by simp), List.flatMap_append, List.flatMap_singleton,
    List.getLast?_append_of_ne_nil _ (by simp), List.getLast?_cons, List.getLast?_eq_some_getLast h.ne_nil]
  rfl

theorem join_pathOf {name : String} (h : ∀ n ∈ loc, Path.IsPlain n) (hn : Path.IsPlain name) :
    (pathOf loc).join name = pathOf (loc ++ [name]) := by
  have hhead : (name.toList.head? == some '/') = false := by simpa using hn.head?_ne
  have htext : ((pathOf loc).join name).text.toList = (pathOf (loc ++ [name])).text.toList := by
    rw [toList_pathOf (by simp), List.flatMap_append, List.flatMap_singleton, Path.join, hhead]
    obtain rfl | ⟨init, last, rfl⟩ := List.eq_nil_or_concat loc
    · rw [if_neg (by decide), if_pos (by decide), String.toList_append]
      rfl
    · rw [List.concat_eq_append] at h ⊢
      have hlast : (pathOf (init ++ [last])).text.toList.getLast? ≠ some '/' := by
        rw [getLast?_pathOf (h last (by simp))]
        exact fun hc => (h last (by simp)).2.2 (List.mem_of_getLast? hc)
      have hne : (pathOf (init ++ [last])).text.isEmpty = false := by
        rw [Bool.eq_false_iff, ne_eq, String.isEmpty_iff, ← String.toList_eq_nil_iff,
          toList_pathOf (by simp)]
        simp
      rw [hne, Bool.or_self, if_neg (by simp), if_neg (by simpa using hlast), String.toList_append,
        String.toList_append, toList_pathOf (by simp), List.append_assoc]
      rfl
  exact congrArg Path.mk (String.toList_injective htext)

theorem below_pathOf_append {tail : Location} (h : ∀ n ∈ loc ++ tail, Path.IsPlain n) :
    (pathOf loc).Below (pathOf (loc ++ tail)) (tail.map String.toList) := by
  refine ⟨isAbsolute_pathOf _, isAbsolute_pathOf _, ?_⟩
  rw [steps_pathOf_plain h, steps_pathOf_plain fun n hn => h n (by simp [hn]), List.map_append]

theorem below_parent?_pathOf {init : Location} {last : String}
    (h : ∀ n ∈ init ++ [last], Path.IsPlain n) (other : Path) :
    ((pathOf (init ++ [last])).parent?.getD other).Below (pathOf (init ++ [last])) [last.toList] := by
  have hsteps := steps_pathOf_plain h
  rw [List.map_append, List.map_singleton] at hsteps
  obtain ⟨up, hup, habs, hupSteps⟩ := Path.parent?_of_steps (isAbsolute_pathOf _) hsteps
  rw [hup, Option.getD_some]
  exact ⟨habs, isAbsolute_pathOf _, by rw [hsteps, hupSteps]⟩

/-! ### Locations that exist -/

/-- What is located exists. -/
theorem WellFormed.node?_of_locate (hfs : fs.WellFormed) (h : fs.locate p = .ok r) :
    (fs.node? r).isSome = true := by
  obtain ⟨-, -, hf⟩ := locate_eq_ok h
  have hne : p.pieces ≠ [] := by
    rw [Path.pieces_eq]
    exact splitAll_ne_nil _ _
  generalize fs.start p = l at hf
  generalize p.pieces = pieces at hne hf
  induction pieces generalizing l with
  | nil => exact absurd rfl hne
  | cons piece rest ih =>
    -- The last place passed through exists, whichever way the piece leads.
    have hend (l' : Location) (hl' : (fs.node? l').isSome = true) (hf : fs.follow l' rest = .ok r) :
        (fs.node? r).isSome = true := by
      by_cases hrest : rest = []
      · obtain rfl : l' = r := by simpa [hrest, follow] using hf
        exact hl'
      · exact ih l' hrest hf
    have hl := directory_of_follow hf
    rw [follow, hl] at hf
    simp only at hf
    split_ifs at hf
    · exact hend l (by rw [hl]; rfl) hf
    · refine hend l.dropLast ?_ hf
      obtain rfl | ⟨init, last, rfl⟩ := List.eq_nil_or_concat l
      · rfl
      · rw [List.concat_eq_append] at hl ⊢
        rw [List.dropLast_concat, hfs.directory_above (b := [last]) (by simp) (by rw [hl]; rfl)]
        rfl
    · cases hn : fs.node? (l ++ [String.ofList piece]) with
      | none => simp [hn] at hf
      | some n =>
        simp only [hn] at hf
        exact hend _ (by rw [hn]; rfl) hf

/-- A canonical path that leads somewhere is the path of that location. -/
theorem WellFormed.canonical_eq (hfs : fs.WellFormed) (h : fs.locate (fs.canonical p) = .ok loc) :
    fs.canonical p = pathOf loc ∧ (fs.node? loc).isSome = true ∧ ∀ n ∈ loc, Path.IsPlain n := by
  cases hl : fs.locate p with
  | error fault =>
    have hsame : fs.canonical p = p := by rw [canonical, hl]
    rw [hsame, hl] at h
    cases h
  | ok r =>
    have hpath : fs.canonical p = pathOf r := by rw [canonical, hl]
    have hnode := hfs.node?_of_locate hl
    have hplain : ∀ n ∈ r, Path.IsPlain n := fun n hn => (hfs.isName_of_node? hnode n hn).1
    rw [hpath] at h ⊢
    obtain rfl := eq_of_locate_pathOf hplain h
    exact ⟨rfl, hnode, hplain⟩

end FileSystem

/-! ### Walks -/

namespace Walk

open FileSystem

variable {fs : FileSystem} {ignored : String → Bool → Bool} {maxScan : Nat}

/-- The canonical path of something below a location. -/
def Under (dir : Location) (q : Path) : Prop :=
  ∃ tail, tail ≠ [] ∧ (∀ n ∈ dir ++ tail, IsName n) ∧ q = pathOf (dir ++ tail)

theorem Under.of_child {dir : Location} {name : String} {q : Path} (h : Under (dir ++ [name]) q) :
    Under dir q := by
  obtain ⟨tail, -, hnames, rfl⟩ := h
  rw [List.append_assoc] at hnames ⊢
  exact ⟨[name] ++ tail, by simp, hnames, rfl⟩

/-- What each step of a fold finds, or nothing more, all of them find. -/
theorem mem_files_foldl {α : Type} {f : Walk → α → Walk} {P : Path → Prop} {l : List α}
    (hf : ∀ w, ∀ a ∈ l, ∀ q ∈ (f w a).files, q ∈ w.files ∨ P q) (w : Walk) :
    ∀ q ∈ (l.foldl f w).files, q ∈ w.files ∨ P q := by
  induction l generalizing w with
  | nil => exact fun q hq => .inl hq
  | cons a l ih =>
    intro q hq
    obtain hq | hq := ih (fun w b hb => hf w b (by simp [hb])) (f w a) q hq
    · exact hf w a (by simp) q hq
    · exact .inr hq

theorem mem_files_visitFile {w : Walk} {p : Place} :
    ∀ q ∈ (visitFile ignored w p).files, q ∈ w.files ∨ q = p.path := by
  intro q hq
  rw [visitFile] at hq
  split_ifs at hq
  · exact .inl hq
  · simpa using hq
  · exact .inl hq

/-- A walk finds files below the place it starts from. -/
theorem under_of_mem_visit (hfs : fs.WellFormed) (fuel : Nat) (w : Walk) {p : Place}
    (hp : p.path = pathOf p.location) :
    ∀ q ∈ (visit fs ignored maxScan fuel w p).files, q ∈ w.files ∨ Under p.location q := by
  induction fuel generalizing w p with
  | zero => exact fun q hq => .inl hq
  | succ fuel ih =>
    have hchild : ∀ c ∈ (fs.children p.location).map fun e => (p.child e.1, isDirectoryNode e.2),
        ∃ name, (∀ n ∈ p.location ++ [name], IsName n) ∧ c.1.location = p.location ++ [name] ∧
          c.1.path = pathOf (p.location ++ [name]) := by
      intro c hc
      obtain ⟨⟨name, n⟩, hm, rfl⟩ := List.mem_map.1 hc
      have hnames := hfs.names _ (mem_children hm)
      refine ⟨name, hnames, rfl, ?_⟩
      refine (congrArg (Path.join · name) hp).trans ?_
      exact join_pathOf (fun n hn => (hnames n (by simp [hn])).1) (hnames name (by simp)).1
    intro q hq
    rw [visit] at hq
    dsimp only at hq
    have hdirectories := mem_files_foldl (P := Under p.location) ?_ _ q hq
    · obtain hq | hq := hdirectories
      · refine mem_files_foldl (P := Under p.location) (fun w c hc q hq => ?_) w q hq
        obtain ⟨name, hnames, -, hpath⟩ := hchild c (List.mem_filter.1 hc).1
        refine (mem_files_visitFile q hq).imp_right fun hq => ?_
        exact ⟨[name], by simp, hnames, hq.trans hpath⟩
      · exact .inr hq
    · intro w c hc q hq
      obtain ⟨name, -, hlocation, hpath⟩ := hchild c (List.mem_filter.1 hc).1
      split_ifs at hq
      · exact .inl hq
      · exact .inl hq
      · obtain hq | hq := ih w (hpath.trans (congrArg pathOf hlocation.symm)) q hq
        · exact .inl hq
        · rw [hlocation] at hq
          exact .inr hq.of_child

end Walk

namespace Index

open FileSystem

variable {x : Index} {fs : FileSystem} {root base p : Path} {files : List Path} {truncated : Bool}

/-- Every file that is to be scanned has a canonical path, below the root. -/
theorem below_of_plan (hfs : fs.WellFormed)
    (hplan : (x.plan fs root).2 = .ok (base, files, truncated)) (hp : p ∈ files) :
    ∃ loc tail, p = pathOf loc ∧ (∀ n ∈ loc, Path.IsPlain n) ∧ tail ≠ [] ∧ base.Below p tail := by
  simp only [plan] at hplan
  -- The root may be a file itself, and then the directory it is in takes its place.
  split at hplan
  · rename_i hfile
    simp only [Except.ok.injEq, Prod.mk.injEq] at hplan
    obtain ⟨rfl, rfl, -⟩ := hplan
    obtain rfl := List.mem_singleton.1 hp
    cases hl : fs.locate (fs.canonical root) with
    | error fault => simp [isFile, nodeAt?, hl] at hfile
    | ok loc =>
      obtain ⟨hpath, -, hplain⟩ := hfs.canonical_eq hl
      obtain rfl | ⟨init, last, rfl⟩ := List.eq_nil_or_concat loc
      · simp [isFile, nodeAt?, hl, node?_nil] at hfile
      · rw [List.concat_eq_append] at hpath hplain
        refine ⟨_, [last.toList], hpath, hplain, by simp, ?_⟩
        rw [hpath]
        exact below_parent?_pathOf hplain _
  · rw [luaFiles] at hplan
    split at hplan
    · cases hplan
    · rw [Walk.ofRoot] at hplan
      split at hplan
      · simp only [Except.map, Except.ok.injEq, Prod.mk.injEq] at hplan
        rw [← hplan.2.1] at hp
        cases hp
      · rename_i loc hl
        simp only [Except.map, Except.ok.injEq, Prod.mk.injEq] at hplan
        obtain ⟨rfl, rfl, -⟩ := hplan
        obtain ⟨hpath, -, -⟩ := hfs.canonical_eq hl
        obtain hp | ⟨tail, htail, hnames, rfl⟩ := Walk.under_of_mem_visit hfs _ _ hpath p hp
        · cases hp
        · have hplain' : ∀ n ∈ loc ++ tail, Path.IsPlain n := fun n hn => (hnames n hn).1
          refine ⟨_, tail.map String.toList, rfl, hplain', by simpa using htail, ?_⟩
          rw [hpath]
          exact below_pathOf_append hplain'

end Index

end LuaLens
