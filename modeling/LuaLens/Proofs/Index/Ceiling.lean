import LuaLens.Index.Walk
import LuaLens.Proofs.FileSystem.Places
import Mathlib.Data.Set.Card

/-!
Walks under a ceiling. Without one a walk comes to every file that no rule keeps it from, and once; a
walk under a ceiling goes the same way until it stands before a directory with too many files behind
it. So a higher ceiling only adds to the end of the list, and no directory is left half listed.
-/

namespace LuaLens

open FileSystem

namespace Walk

variable {fs : FileSystem} {ignored : String → Bool → Bool} {m m' fuel : Nat} {w : Walk} {p q : Place}
  {name : String} {names rest dir : List String}

/-! ### Places below a place -/

/-- The place that names lead to. -/
def Place.descend (p : Place) (names : List String) : Place := names.foldl Place.child p

@[simp] theorem descend_nil (p : Place) : p.descend [] = p := rfl

@[simp] theorem descend_cons (p : Place) (name : String) (names : List String) :
    p.descend (name :: names) = (p.child name).descend names := rfl

theorem location_descend (p : Place) (names : List String) :
    (p.descend names).location = p.location ++ names := by
  induction names generalizing p with
  | nil => exact (List.append_nil _).symm
  | cons name names ih =>
    refine (ih (p.child name)).trans ?_
    show p.location ++ [name] ++ names = _
    rw [List.append_assoc, List.singleton_append]

theorem components_descend (hp : p.path.text.isEmpty = false) (h : ∀ n ∈ names, Path.IsPlain n) :
    (p.descend names).path.components = p.path.components ++ names.map .named := by
  induction names generalizing p with
  | nil => exact (List.append_nil _).symm
  | cons name names ih =>
    have hname := h name List.mem_cons_self
    refine (ih (Path.isEmpty_join hname) fun n hn => h n (List.mem_cons_of_mem _ hn)).trans ?_
    show (p.path.join name).components ++ _ = _
    rw [Path.components_join hp hname, List.append_assoc, List.map_cons, List.singleton_append]

/-! ### Files that no rule keeps a walk from -/

/-- Whether names lead from a place to a file, with nothing on the way that is ignored. -/
def Open (fs : FileSystem) (ignored : String → Bool → Bool) (p : Place) (names : List String) : Prop :=
  (∃ content, fs.node? (p.location ++ names) = some (.file content)) ∧
    ∀ init, init <+: names → init ≠ [] →
      ignored (p.descend init).below (decide (init ≠ names)) = false

theorem open_singleton : Open fs ignored p [name] ↔
    (∃ content, fs.node? (p.location ++ [name]) = some (.file content)) ∧
      ignored (p.child name).below false = false := by
  unfold Open
  refine and_congr_right fun _ => ⟨fun h => ?_, fun h init hinit hne => ?_⟩
  · simpa using h [name] List.prefix_rfl (by simp)
  · obtain rfl | ⟨t, rfl, ht⟩ := List.prefix_cons_iff.1 hinit
    · exact absurd rfl hne
    · rw [List.prefix_nil.1 ht]
      simpa using h

theorem open_cons (hrest : rest ≠ []) : Open fs ignored p (name :: rest) ↔
    ignored (p.child name).below true = false ∧ Open fs ignored (p.child name) rest := by
  have hlocation : (p.child name).location ++ rest = p.location ++ name :: rest := by
    show p.location ++ [name] ++ rest = _
    rw [List.append_assoc, List.singleton_append]
  unfold Open
  rw [hlocation, and_left_comm]
  refine and_congr_right fun _ => ⟨fun h => ⟨?_, fun init hinit hne => ?_⟩, fun h init hinit hne => ?_⟩
  · simpa [hrest.symm] using h [name] (by simp) (by simp)
  · simpa using h (name :: init) (List.cons_prefix_cons.2 ⟨rfl, hinit⟩) (by simp)
  · obtain rfl | ⟨t, rfl, ht⟩ := List.prefix_cons_iff.1 hinit
    · exact absurd rfl hne
    · by_cases hempty : t = []
      · subst hempty
        simpa [hrest.symm] using h.1
      · simpa using h.2 t ht hempty

theorem Open.isName (h : Open fs ignored p names) (hfs : fs.WellFormed) : ∀ n ∈ names, IsName n := by
  obtain ⟨⟨content, hfile⟩, -⟩ := h
  intro n hn
  exact hfs.isName_of_node? (by rw [hfile]; rfl) n (List.mem_append_right _ hn)

theorem Open.directory (h : Open fs ignored p (name :: rest)) (hfs : fs.WellFormed) (hrest : rest ≠ []) :
    fs.node? (p.location ++ [name]) = some .directory := by
  obtain ⟨⟨content, hfile⟩, -⟩ := h
  refine hfs.directory_above hrest ?_
  rw [List.append_assoc, List.singleton_append, hfile]
  rfl

/-- A way down a tree is no longer than the tree has nodes. -/
theorem Open.length_le (h : Open fs ignored p names) (hfs : fs.WellFormed) :
    names.length ≤ fs.nodes.length := by
  obtain ⟨⟨content, hfile⟩, -⟩ := h
  let above := (List.range names.length).map fun i => p.location ++ names.take (i + 1)
  have hnodup : above.Nodup := by
    refine List.Nodup.map_on (fun i hi j hj hsame => ?_) List.nodup_range
    have hlength := congrArg List.length hsame
    simp only [List.mem_range] at hi hj
    simp only [List.length_append, List.length_take] at hlength
    omega
  have hsub : above ⊆ fs.nodes.map (·.1) := by
    intro l hl
    obtain ⟨i, hi, rfl⟩ := List.mem_map.1 hl
    have hne : p.location ++ names.take (i + 1) ≠ [] := by
      have hpos := List.mem_range.1 hi
      simp [List.ne_nil_of_length_pos (Nat.zero_lt_of_lt hpos)]
    have hnode : (fs.node? (p.location ++ names.take (i + 1))).isSome = true := by
      by_cases hall : names.drop (i + 1) = []
      · rw [List.take_of_length_le (List.drop_eq_nil_iff.1 hall), hfile]
        rfl
      · rw [hfs.directory_above hall (by rw [List.append_assoc, List.take_append_drop, hfile]; rfl)]
        rfl
    obtain ⟨n, hn⟩ := Option.isSome_iff_exists.1 hnode
    exact List.mem_map_of_mem (mem_of_node? hne hn)
  have hle := (List.subperm_of_subset hnodup hsub).length_le
  simpa [above] using hle

/-! ### Tours -/

/-- What stands in a directory, either its files or its subdirectories, less what is ignored. -/
def listed (fs : FileSystem) (ignored : String → Bool → Bool) (p : Place) (isDir : Bool) : List Place :=
  (((fs.children p.location).filter fun e => isDirectoryNode e.2 == isDir).map fun e =>
    p.child e.1).filter (!ignored ·.below isDir)

theorem mem_listed_iff (hfs : fs.WellFormed) {isDir : Bool} : q ∈ listed fs ignored p isDir ↔
    ∃ name n, fs.node? (p.location ++ [name]) = some n ∧ isDirectoryNode n = isDir ∧
      ignored (p.child name).below isDir = false ∧ q = p.child name := by
  unfold listed
  simp only [List.mem_filter, List.mem_map, Prod.exists, beq_iff_eq, Bool.not_eq_true']
  constructor
  · rintro ⟨⟨name, n, ⟨hm, hn⟩, rfl⟩, hopen⟩
    exact ⟨name, n, hfs.node?_of_mem (mem_children hm), hn, hopen, rfl⟩
  · rintro ⟨name, n, hm, hn, hopen, rfl⟩
    exact ⟨⟨name, n, ⟨mem_children_of_mem (mem_of_node? (by simp) hm), hn⟩, rfl⟩, hopen⟩

theorem mem_listed_file_iff (hfs : fs.WellFormed) : q ∈ listed fs ignored p false ↔
    ∃ name, Open fs ignored p [name] ∧ q = p.child name := by
  rw [mem_listed_iff hfs]
  constructor
  · rintro ⟨name, n, hn, hfile, hopen, rfl⟩
    cases n with
    | file content => exact ⟨name, open_singleton.2 ⟨⟨content, hn⟩, hopen⟩, rfl⟩
    | directory => cases hfile
  · rintro ⟨name, hopen, rfl⟩
    obtain ⟨⟨content, hn⟩, hignored⟩ := open_singleton.1 hopen
    exact ⟨name, _, hn, rfl, hignored, rfl⟩

theorem Open.child_mem_listed (h : Open fs ignored p (name :: rest)) (hfs : fs.WellFormed)
    (hrest : rest ≠ []) : p.child name ∈ listed fs ignored p true := by
  have hignored := ((open_cons hrest).1 h).1
  exact (mem_listed_iff hfs).2 ⟨name, _, h.directory hfs hrest, rfl, hignored, rfl⟩

theorem Open.mem_listed (h : Open fs ignored p (dir ++ [name])) (hfs : fs.WellFormed) :
    p.descend (dir ++ [name]) ∈ listed fs ignored (p.descend dir) false := by
  induction dir generalizing p with
  | nil => exact (mem_listed_file_iff hfs).2 ⟨name, h, rfl⟩
  | cons first dir ih => exact ih ((open_cons (by simp)).1 h).2

/-- No two of them stand at one location. -/
theorem pairwise_listed (hfs : fs.WellFormed) (isDir : Bool) :
    (listed fs ignored p isDir).Pairwise fun a b => a.location ≠ b.location := by
  unfold listed
  refine ((List.pairwise_map.2 ?_).sublist List.filter_sublist)
  refine ((hfs.children p.location).sublist List.filter_sublist).imp fun hne hsame => hne ?_
  exact List.singleton_injective (List.append_cancel_left hsame)

/-- What a walk comes to: a file that it counts, or a directory that it may enter. -/
inductive Stop
  | file (p : Place)
  | directory (p : Place)

def Stop.file? : Stop → Option Place
  | .file p => some p
  | .directory _ => none

/-- All that a walk without a ceiling comes to, in its order. -/
def tour (fs : FileSystem) (ignored : String → Bool → Bool) : Nat → Place → List Stop
  | 0, _ => []
  | fuel + 1, p =>
    (listed fs ignored p false).map .file ++
      (listed fs ignored p true).flatMap fun c => .directory c :: tour fs ignored fuel c

def filesOf (stops : List Stop) : List Place := stops.filterMap Stop.file?

@[simp] theorem filesOf_nil : filesOf [] = [] := rfl

@[simp] theorem filesOf_file (p : Place) (stops : List Stop) :
    filesOf (.file p :: stops) = p :: filesOf stops := rfl

@[simp] theorem filesOf_append (a b : List Stop) : filesOf (a ++ b) = filesOf a ++ filesOf b :=
  List.filterMap_append

@[simp] theorem filesOf_map (ps : List Place) : filesOf (ps.map .file) = ps := by
  induction ps with
  | nil => rfl
  | cons p ps ih => rw [List.map_cons, filesOf_file, ih]

theorem filesOf_tour (fs : FileSystem) (ignored : String → Bool → Bool) (fuel : Nat) (p : Place) :
    filesOf (tour fs ignored (fuel + 1) p) = listed fs ignored p false ++
      (listed fs ignored p true).flatMap fun c => filesOf (tour fs ignored fuel c) := by
  rw [tour, filesOf_append, filesOf_map, filesOf, List.filterMap_flatMap]
  rfl

/-- A tour comes to the open files as far as it goes. -/
theorem mem_tour_iff (hfs : fs.WellFormed) : q ∈ filesOf (tour fs ignored fuel p) ↔
    ∃ names, names ≠ [] ∧ names.length ≤ fuel ∧ Open fs ignored p names ∧ q = p.descend names := by
  induction fuel generalizing p with
  | zero =>
    refine ⟨fun h => absurd h List.not_mem_nil, ?_⟩
    rintro ⟨names, hne, hlength, -⟩
    exact absurd (List.length_eq_zero_iff.1 (Nat.le_zero.1 hlength)) hne
  | succ fuel ih =>
    rw [filesOf_tour, List.mem_append, mem_listed_file_iff hfs, List.mem_flatMap]
    constructor
    · rintro (⟨name, hopen, rfl⟩ | ⟨c, hc, hq⟩)
      · exact ⟨[name], by simp, by simp, hopen, rfl⟩
      · obtain ⟨name, n, -, -, hignored, rfl⟩ := (mem_listed_iff hfs).1 hc
        obtain ⟨names, hne, hlength, hopen, rfl⟩ := ih.1 hq
        exact ⟨name :: names, by simp, by simpa using hlength, (open_cons hne).2 ⟨hignored, hopen⟩, rfl⟩
    · rintro ⟨names, hne, hlength, hopen, rfl⟩
      obtain ⟨name, rest, rfl⟩ := List.exists_cons_of_ne_nil hne
      by_cases hrest : rest = []
      · subst hrest
        exact .inl ⟨name, hopen, rfl⟩
      · refine .inr ⟨_, hopen.child_mem_listed hfs hrest, ih.2 ⟨rest, hrest, ?_, ?_, rfl⟩⟩
        · simpa using hlength
        · exact ((open_cons hrest).1 hopen).2

/-- No file stands twice on a tour. -/
theorem nodup_tour (hfs : fs.WellFormed) (fuel : Nat) (p : Place) :
    ((filesOf (tour fs ignored fuel p)).map Place.location).Nodup := by
  induction fuel generalizing p with
  | zero => exact List.nodup_nil
  | succ fuel ih =>
    -- The files of a subdirectory have its name and one more after the location of the directory.
    have hbelow {c a : Place} (hc : c ∈ listed fs ignored p true)
        (ha : a ∈ filesOf (tour fs ignored fuel c)) :
        ∃ name names, names ≠ [] ∧ c.location = p.location ++ [name] ∧
          a.location = p.location ++ name :: names := by
      obtain ⟨name, n, -, -, -, rfl⟩ := (mem_listed_iff hfs).1 hc
      obtain ⟨names, hne, -, -, rfl⟩ := (mem_tour_iff hfs).1 ha
      refine ⟨name, names, hne, rfl, ?_⟩
      rw [← descend_cons, location_descend]
    rw [filesOf_tour, List.map_append, List.nodup_append', List.map_flatMap, List.nodup_flatMap]
    refine ⟨List.pairwise_map.2 (pairwise_listed hfs false), ⟨fun c hc => ih c, ?_⟩, ?_⟩
    · refine (pairwise_listed hfs true).imp_of_mem fun {c d} hc hd hne l hl hl' => ?_
      obtain ⟨a, ha, rfl⟩ := List.mem_map.1 hl
      obtain ⟨b, hb, hsame⟩ := List.mem_map.1 hl'
      obtain ⟨name, names, -, hcname, hlocation⟩ := hbelow hc ha
      obtain ⟨name', names', -, hdname, hlocation'⟩ := hbelow hd hb
      rw [hlocation, hlocation', List.append_cancel_left_eq, List.cons.injEq] at hsame
      rw [hcname, hdname, hsame.1] at hne
      exact hne rfl
    · intro l hl hl'
      obtain ⟨a, ha, rfl⟩ := List.mem_map.1 hl
      obtain ⟨c, hc, hin⟩ := List.mem_flatMap.1 hl'
      obtain ⟨b, hb, hsame⟩ := List.mem_map.1 hin
      obtain ⟨name, n, -, -, -, rfl⟩ := (mem_listed_iff hfs).1 ha
      obtain ⟨name', names, hne, -, hlocation⟩ := hbelow hc hb
      rw [hlocation] at hsame
      have hlength := congrArg List.length hsame
      exact hne (by simpa [Place.child] using hlength)

/-- The files of an open directory stand together on a tour. -/
theorem tour_split (hfs : fs.WellFormed) (hopen : Open fs ignored p (dir ++ [name]))
    (hfuel : dir.length < fuel) : ∃ a b,
      tour fs ignored fuel p = a ++ (listed fs ignored (p.descend dir) false).map .file ++ b := by
  obtain ⟨fuel, rfl⟩ : ∃ f, fuel = f + 1 := ⟨fuel - 1, by omega⟩
  induction dir generalizing fuel p with
  | nil => exact ⟨[], _, rfl⟩
  | cons first dir ih =>
    obtain ⟨fuel, rfl⟩ : ∃ f, fuel = f + 1 := ⟨fuel - 1, by simp at hfuel; omega⟩
    obtain ⟨a, b, htour⟩ := ih ((open_cons (by simp)).1 hopen).2 fuel (by simpa using hfuel)
    obtain ⟨before, after, hsplit⟩ := List.append_of_mem (hopen.child_mem_listed hfs (by simp))
    refine ⟨(listed fs ignored p false).map .file ++
      (before.flatMap fun c => .directory c :: tour fs ignored (fuel + 1) c) ++
        .directory (p.child first) :: a, b ++
      after.flatMap fun c => .directory c :: tour fs ignored (fuel + 1) c, ?_⟩
    rw [tour, hsplit, List.flatMap_append, List.flatMap_cons, htour, descend_cons]
    simp only [List.append_assoc, List.cons_append]

/-! ### Passing along a tour -/

/-- The paths of the Lua files among those seen. -/
def luaPaths (ps : List Place) : List Path :=
  (ps.filter (·.path.extension? == some "lua")).map (·.path)

theorem luaPaths_append (ps qs : List Place) : luaPaths (ps ++ qs) = luaPaths ps ++ luaPaths qs := by
  rw [luaPaths, List.filter_append, List.map_append]
  rfl

theorem mem_luaPaths {ps : List Place} {path : Path} :
    path ∈ luaPaths ps ↔ ∃ q ∈ ps, q.path = path ∧ path.extension? = some "lua" := by
  unfold luaPaths
  simp only [List.mem_map, List.mem_filter, beq_iff_eq]
  constructor
  · rintro ⟨q, ⟨hq, hlua⟩, rfl⟩
    exact ⟨q, hq, rfl, hlua⟩
  · rintro ⟨q, hq, rfl, hlua⟩
    exact ⟨q, ⟨hq, hlua⟩, rfl⟩

/-- Counts a file that is not ignored. -/
def see (w : Walk) (p : Place) : Walk :=
  { w with seen := w.seen + 1, files := w.files ++ luaPaths [p] }

theorem foldl_see (ps : List Place) (w : Walk) : ps.foldl see w =
    { w with seen := w.seen + ps.length, files := w.files ++ luaPaths ps } := by
  induction ps generalizing w with
  | nil => simp [luaPaths]
  | cons p ps ih =>
    rw [List.foldl_cons, ih, ← List.singleton_append, luaPaths_append]
    simp only [see, List.append_assoc, List.singleton_append, List.length_cons, Walk.mk.injEq,
      and_true, true_and]
    omega

/-- Goes along a tour up to the first directory past the ceiling. -/
def pass (m : Nat) : Walk → List Stop → Walk
  | w, [] => w
  | w, .file p :: rest => pass m (w.see p) rest
  | w, .directory _ :: rest => if m < w.seen then { w with truncated := true } else pass m w rest

theorem visitFile_eq (ignored : String → Bool → Bool) (w : Walk) (p : Place) :
    visitFile ignored w p = if !ignored p.below false then w.see p else w := by
  unfold visitFile see
  cases ignored p.below false with
  | true => rfl
  | false => split_ifs with hlua <;> simp_all [luaPaths]

/-- Enters a directory that is not ignored, unless the ceiling is passed. -/
def enter (fs : FileSystem) (ignored : String → Bool → Bool) (m fuel : Nat) (w : Walk) (c : Place) :
    Walk :=
  if m < w.seen then { w with truncated := true } else visit fs ignored m fuel w c

theorem visit_succ (fs : FileSystem) (ignored : String → Bool → Bool) (m fuel : Nat) (w : Walk)
    (p : Place) : visit fs ignored m (fuel + 1) w p = (listed fs ignored p true).foldl (enter fs ignored m fuel)
      ((listed fs ignored p false).foldl see w) := by
  rw [visit]
  unfold listed
  simp only [List.foldl_filter, List.foldl_map, List.filter_map]
  congr 1
  · funext w e
    cases hdir : isDirectoryNode e.2 <;> cases hignored : ignored (p.child e.1).below true <;>
      simp [hdir, hignored, enter]
  · congr 1
    funext w e
    cases hdir : isDirectoryNode e.2 <;> simp [hdir, visitFile_eq]

/-- A walk that has stopped enters nothing more. -/
theorem foldl_enter_stopped (hw : w.truncated = true) (hm : m < w.seen) (ds : List Place) :
    ds.foldl (enter fs ignored m fuel) w = w := by
  induction ds with
  | nil => rfl
  | cons c ds ih =>
    have hstay : enter fs ignored m fuel w c = w := by
      rw [enter, if_pos hm, ← hw]
    rw [List.foldl_cons, hstay, ih]

section Pass

variable {a b stops : List Stop}

theorem truncated_pass (hw : w.truncated = false) (h : (pass m w stops).truncated = true) :
    m < (pass m w stops).seen := by
  induction stops generalizing w with
  | nil =>
    rw [pass, hw] at h
    cases h
  | cons stop stops ih =>
    cases stop with
    | file p => exact ih hw h
    | directory p =>
      rw [pass] at h ⊢
      split_ifs at h ⊢ with hm
      · exact hm
      · exact ih hw h

theorem pass_append (hw : w.truncated = false) (b : List Stop) : pass m w (a ++ b) =
    if (pass m w a).truncated then pass m w a else pass m (pass m w a) b := by
  induction a generalizing w with
  | nil => rw [pass, hw]; rfl
  | cons stop a ih =>
    cases stop with
    | file p => exact ih hw
    | directory p =>
      rw [List.cons_append, pass, pass]
      by_cases hm : m < w.seen
      · simp only [hm, ↓reduceIte]
      · simp only [hm, ↓reduceIte]
        exact ih hw

theorem pass_files (ps : List Place) (w : Walk) : pass m w (ps.map .file) = ps.foldl see w := by
  induction ps generalizing w with
  | nil => rfl
  | cons p ps ih => exact ih (w.see p)

theorem prefix_files_pass (w : Walk) (stops : List Stop) : w.files <+: (pass m w stops).files := by
  induction stops generalizing w with
  | nil => exact List.prefix_rfl
  | cons stop stops ih =>
    cases stop with
    | file p => exact (List.prefix_append _ _).trans (ih (w.see p))
    | directory p =>
      rw [pass]
      split_ifs
      · exact List.prefix_rfl
      · exact ih w

/-- A higher ceiling only adds to the end. -/
theorem files_pass_mono (hm : m ≤ m') (w : Walk) (stops : List Stop) :
    (pass m w stops).files <+: (pass m' w stops).files := by
  induction stops generalizing w with
  | nil => exact List.prefix_rfl
  | cons stop stops ih =>
    cases stop with
    | file p => exact ih (w.see p)
    | directory p =>
      rw [pass, pass]
      split_ifs with hlow hhigh
      · exact List.prefix_rfl
      · exact prefix_files_pass w stops
      · omega
      · exact ih w

theorem files_pass_isPrefix (w : Walk) (stops : List Stop) :
    (pass m w stops).files <+: w.files ++ luaPaths (filesOf stops) := by
  induction stops generalizing w with
  | nil => exact List.prefix_append _ _
  | cons stop stops ih =>
    cases stop with
    | file p =>
      rw [filesOf_file, ← List.singleton_append (l := filesOf stops), luaPaths_append,
        ← List.append_assoc]
      exact ih (w.see p)
    | directory p =>
      rw [pass]
      split_ifs
      · exact List.prefix_append _ _
      · exact ih w

theorem pass_of_not_truncated (h : (pass m w stops).truncated = false) : pass m w stops =
    { w with
      seen := w.seen + (filesOf stops).length
      files := w.files ++ luaPaths (filesOf stops) } := by
  induction stops generalizing w with
  | nil => simp [pass, luaPaths]
  | cons stop stops ih =>
    cases stop with
    | file p =>
      rw [pass, ih h, ← foldl_see, ← foldl_see]
      rfl
    | directory p =>
      rw [pass] at h ⊢
      split_ifs at h ⊢
      exact ih h

/-- Of the files that stand together on a tour all are passed or none. -/
theorem luaPaths_subset_of_pass {ps : List Place} {path : Path} (hw : w.truncated = false)
    (hnew : path ∉ w.files ++ luaPaths (filesOf a))
    (hpath : path ∈ (pass m w (a ++ ps.map .file ++ b)).files) :
    luaPaths ps ⊆ (pass m w (a ++ ps.map .file ++ b)).files := by
  rw [List.append_assoc, pass_append hw] at hpath ⊢
  split_ifs at hpath ⊢ with ht
  · exact absurd ((files_pass_isPrefix w a).mem hpath) hnew
  · rw [pass_append (Bool.eq_false_iff.2 ht), pass_files, foldl_see, if_neg ht]
    refine fun q hq => (prefix_files_pass _ b).mem ?_
    exact List.mem_append_right _ hq

end Pass

/-- Entering directories one after the other passes along their tours, when entering one does. -/
theorem foldl_enter
    (hvisit : ∀ w c, w.truncated = false →
      visit fs ignored m fuel w c = pass m w (tour fs ignored fuel c))
    (hw : w.truncated = false) (ds : List Place) : ds.foldl (enter fs ignored m fuel) w =
      pass m w (ds.flatMap fun c => .directory c :: tour fs ignored fuel c) := by
  induction ds generalizing w with
  | nil => rfl
  | cons c ds ih =>
    rw [List.foldl_cons, List.flatMap_cons, List.cons_append, pass, enter]
    split_ifs with hm
    · apply foldl_enter_stopped
      · rfl
      · exact hm
    · rw [hvisit w c hw, pass_append hw]
      split_ifs with ht
      · exact foldl_enter_stopped ht (truncated_pass hw ht) ds
      · exact ih (Bool.eq_false_iff.2 ht)

/-- A walk passes along the tour. -/
theorem visit_eq_pass (hw : w.truncated = false) (fuel : Nat) (p : Place) :
    visit fs ignored m fuel w p = pass m w (tour fs ignored fuel p) := by
  induction fuel generalizing w p with
  | zero => rfl
  | succ fuel ih =>
    have hfiles : ((listed fs ignored p false).foldl see w).truncated = false := by
      rw [foldl_see]
      exact hw
    rw [visit_succ, tour, pass_append hw, pass_files, hfiles, if_neg Bool.false_ne_true]
    exact foldl_enter (fun w c hw => ih hw c) hfiles _

/-! ### Walks under a ceiling -/

/-- Different open files have different paths, however they are written. -/
theorem nodup_components (hfs : fs.WellFormed) (hp : p.path.text.isEmpty = false) (fuel : Nat) :
    ((luaPaths (filesOf (tour fs ignored fuel p))).map Path.components).Nodup := by
  have hall : (filesOf (tour fs ignored fuel p)).Pairwise fun a b =>
      a.path.components ≠ b.path.components := by
    refine (List.pairwise_map.1 (nodup_tour hfs fuel p)).imp_of_mem fun ha hb hne hsame => hne ?_
    obtain ⟨names, -, -, hopen, rfl⟩ := (mem_tour_iff hfs).1 ha
    obtain ⟨names', -, -, hopen', rfl⟩ := (mem_tour_iff hfs).1 hb
    rw [components_descend hp fun n hn => (hopen.isName hfs n hn).1,
      components_descend hp fun n hn => (hopen'.isName hfs n hn).1, List.append_cancel_left_eq] at hsame
    have hnames : names = names' :=
      List.map_injective_iff.2 (fun a b h => Path.Component.named.inj h) hsame
    rw [hnames]
  unfold luaPaths
  rw [List.map_map]
  exact List.pairwise_map.2 (hall.sublist List.filter_sublist)

theorem ofRoot_eq_pass (hroot : fs.locate p.path = .ok p.location) (hbelow : p.below = "") :
    ofRoot fs ignored m p.path = pass m {} (tour fs ignored (fs.nodes.length + 1) p) := by
  rw [ofRoot, hroot, ← visit_eq_pass rfl, ← hbelow]

/-- The tour of a whole tree comes to all open files. -/
theorem mem_tour_whole_iff (hfs : fs.WellFormed) (hp : fs.node? p.location = some .directory) :
    q ∈ filesOf (tour fs ignored (fs.nodes.length + 1) p) ↔
      ∃ names, Open fs ignored p names ∧ q = p.descend names := by
  rw [mem_tour_iff hfs]
  constructor
  · rintro ⟨names, -, -, hopen, rfl⟩
    exact ⟨names, hopen, rfl⟩
  · rintro ⟨names, hopen, rfl⟩
    refine ⟨names, ?_, (hopen.length_le hfs).trans (Nat.le_succ _), hopen, rfl⟩
    rintro rfl
    obtain ⟨⟨content, hfile⟩, -⟩ := hopen
    rw [List.append_nil, hp] at hfile
    cases hfile

theorem encard_open (hfs : fs.WellFormed) (hp : fs.node? p.location = some .directory) :
    {names | Open fs ignored p names}.encard =
      (filesOf (tour fs ignored (fs.nodes.length + 1) p)).length := by
  have himage : (p.location ++ ·) '' {names | Open fs ignored p names} =
      {l | l ∈ (filesOf (tour fs ignored (fs.nodes.length + 1) p)).map Place.location} := by
    ext l
    simp only [Set.mem_image, Set.mem_ofPred_eq, List.mem_map, mem_tour_whole_iff hfs hp]
    constructor
    · rintro ⟨names, hopen, rfl⟩
      exact ⟨_, ⟨names, hopen, rfl⟩, location_descend p names⟩
    · rintro ⟨_, ⟨names, hopen, rfl⟩, rfl⟩
      exact ⟨names, hopen, (location_descend p names).symm⟩
  rw [← (List.append_right_injective p.location).encard_image, himage, ← List.coe_toFinset,
    Set.encard_coe_eq_coe_finsetCard, List.toFinset_card_of_nodup (nodup_tour hfs _ p), List.length_map]

/-- A directory is listed whole or not at all. -/
theorem mem_files_of_sibling {other : String} (hfs : fs.WellFormed) (hp : p.path.text.isEmpty = false)
    (hopen : Open fs ignored p (dir ++ [name])) (hother : Open fs ignored p (dir ++ [other]))
    (hlua : (p.descend (dir ++ [other])).path.extension? = some "lua")
    (hmem : (p.descend (dir ++ [name])).path ∈
      (pass m {} (tour fs ignored (fs.nodes.length + 1) p)).files) :
    (p.descend (dir ++ [other])).path ∈
      (pass m {} (tour fs ignored (fs.nodes.length + 1) p)).files := by
  have hlength := hopen.length_le hfs
  rw [List.length_append, List.length_singleton] at hlength
  obtain ⟨a, b, hsplit⟩ := tour_split hfs hopen (show dir.length < fs.nodes.length + 1 by omega)
  have hnodup : ((luaPaths (filesOf (tour fs ignored (fs.nodes.length + 1) p))).map
      Path.components).Nodup := nodup_components hfs hp _
  have hfound := (files_pass_isPrefix {} _).mem hmem
  rw [hsplit] at hmem hnodup ⊢
  have hself : (p.descend (dir ++ [name])).path ∈ luaPaths (listed fs ignored (p.descend dir) false) := by
    obtain ⟨q, -, -, hext⟩ := mem_luaPaths.1 hfound
    exact mem_luaPaths.2 ⟨_, hopen.mem_listed hfs, rfl, hext⟩
  have hnew : (p.descend (dir ++ [name])).path ∉ luaPaths (filesOf a) := by
    intro hold
    rw [filesOf_append, filesOf_append, filesOf_map, luaPaths_append, luaPaths_append, List.map_append,
      List.map_append] at hnodup
    have hdisjoint := List.disjoint_of_nodup_append (List.Nodup.of_append_left hnodup)
    exact hdisjoint (List.mem_map_of_mem hold) (List.mem_map_of_mem hself)
  refine luaPaths_subset_of_pass rfl hnew hmem ?_
  exact mem_luaPaths.2 ⟨_, hother.mem_listed hfs, rfl, hlua⟩

/-- The Lua files below a root under a ceiling, whatever is passed over: a higher ceiling adds to the end
of the list, no file stands twice, a list that is not cut short has every open file, one that is has more
files behind it than the ceiling, and a directory is listed whole or not at all. What is passed over in a
project is what its ignore list says. -/
theorem luaFiles_ceiling (hfs : fs.WellFormed) (hroot : fs.locate p.path = .ok p.location)
    (hbelow : p.below = "") (hdir : fs.node? p.location = some .directory) (hm : m ≤ m')
    (ignored : String → Bool → Bool) :
    let w := ofRoot fs ignored m p.path
    let w' := ofRoot fs ignored m' p.path
    (∀ (config : ProjectConfig) (rules : Ignore), Ignore.parse? config.ignore = some rules →
      luaFiles fs config p.path = .ok (ofRoot fs rules.ignores config.maxScan p.path)) ∧
    w.files <+: w'.files ∧
    (w.files.map Path.components).Nodup ∧
    (w.truncated = false →
      (∀ path, path ∈ w.files ↔ ∃ names, Open fs ignored p names ∧
        (p.descend names).path = path ∧ path.extension? = some "lua") ∧
      {names | Open fs ignored p names}.encard = w.seen) ∧
    (w.truncated = true → m < w.seen) ∧
    ∀ path ∈ w.files, ∃ dir name, Open fs ignored p (dir ++ [name]) ∧
      (p.descend (dir ++ [name])).path = path ∧
      ∀ other, Open fs ignored p (dir ++ [other]) →
        (p.descend (dir ++ [other])).path.extension? = some "lua" →
        (p.descend (dir ++ [other])).path ∈ w.files := by
  have htext : p.path.text.isEmpty = false := (locate_eq_ok hroot).1
  simp only [ofRoot_eq_pass hroot hbelow]
  refine ⟨fun config rules hrules => ?_, files_pass_mono hm _ _, ?_, fun h => ?_, truncated_pass rfl, ?_⟩
  · rw [← ofRoot_eq_pass hroot hbelow, luaFiles, hrules]
  · have hbegins := files_pass_isPrefix (m := m) {} (tour fs ignored (fs.nodes.length + 1) p)
    exact (nodup_components hfs htext _).sublist (hbegins.map Path.components).sublist
  · rw [pass_of_not_truncated h]
    refine ⟨fun path => ?_, (encard_open hfs hdir).trans (by simp)⟩
    show path ∈ [] ++ luaPaths _ ↔ _
    rw [List.nil_append, mem_luaPaths]
    constructor
    · rintro ⟨q, hq, hpath⟩
      obtain ⟨names, hopen, rfl⟩ := (mem_tour_whole_iff hfs hdir).1 hq
      exact ⟨names, hopen, hpath⟩
    · rintro ⟨names, hopen, hpath⟩
      exact ⟨_, (mem_tour_whole_iff hfs hdir).2 ⟨names, hopen, rfl⟩, hpath⟩
  · intro path hmem
    obtain ⟨q, hq, rfl, -⟩ := mem_luaPaths.1 ((files_pass_isPrefix {} _).mem hmem)
    obtain ⟨names, hne, -, hopen, rfl⟩ := (mem_tour_iff hfs).1 hq
    obtain ⟨dir, name, rfl⟩ := (List.eq_nil_or_concat' names).resolve_left hne
    refine ⟨dir, name, hopen, rfl, fun other hother hlua => ?_⟩
    exact mem_files_of_sibling hfs htext hopen hother hlua hmem

/-- A project with a file that is not of Lua, a subdirectory, and a directory that is ignored. -/
def smallTree : FileSystem where
  nodes := [(["w"], .directory), (["w", ".git"], .directory), (["w", ".git", "d.lua"], .file (.text "")),
    (["w", "a.lua"], .file (.text "")), (["w", "b.txt"], .file (.text "")),
    (["w", "sub"], .directory), (["w", "sub", "c.lua"], .file (.text ""))]

def smallRoot : Place where
  location := ["w"]
  path := ⟨"/w"⟩
  below := ""

/-- Under a ceiling of one file the subdirectory is left out, and under one of two it is not. -/
theorem luaFiles_ceiling_small : ∃ rules w w',
    smallTree.WellFormed ∧ Ignore.parse? ({} : ProjectConfig).ignore = some rules ∧
    luaFiles smallTree { maxScan := 1 } ⟨"/w"⟩ = .ok w ∧
    luaFiles smallTree { maxScan := 2 } ⟨"/w"⟩ = .ok w' ∧
    w.truncated = true ∧ 1 < w.seen ∧ w.files <+: w'.files ∧ w'.truncated = false ∧
    {names | Open smallTree rules.ignores smallRoot names}.encard = 3 := by
  have hfs : smallTree.WellFormed := ⟨by decide, by decide, by decide⟩
  have hparse : (Ignore.parse? ({} : ProjectConfig).ignore).isSome = true := by decide +kernel
  obtain ⟨rules, hrules⟩ := Option.isSome_iff_exists.1 hparse
  have hroot : smallTree.locate ⟨"/w"⟩ = .ok ["w"] := by decide +kernel
  -- Sorting is not by structural recursion, and so the names, in order as they are, are set in first.
  have hchildren : smallTree.children ["w"] = [(".git", .directory), ("a.lua", .file (.text "")),
      ("b.txt", .file (.text "")), ("sub", .directory)] := by
    unfold FileSystem.children
    refine (List.mergeSort_of_pairwise ?_).trans ?_
    · decide +kernel
    · decide +kernel
  have hone : luaFiles smallTree { maxScan := 1 } ⟨"/w"⟩ =
      .ok { files := [⟨"/w/a.lua"⟩], seen := 2, truncated := true } := by
    simp only [luaFiles, ofRoot, hroot, visit, hchildren]
    decide +kernel
  have htwo : luaFiles smallTree { maxScan := 2 } ⟨"/w"⟩ =
      .ok { files := [⟨"/w/a.lua"⟩, ⟨"/w/sub/c.lua"⟩], seen := 3, truncated := false } := by
    simp only [luaFiles, ofRoot, hroot, visit, hchildren]
    decide +kernel
  obtain ⟨hlist, hbegins, -, -, hpassed, -⟩ :=
    luaFiles_ceiling (p := smallRoot) hfs hroot rfl rfl (show 1 ≤ 2 by omega) rules.ignores
  have hw := Except.ok.inj ((hlist { maxScan := 1 } rules hrules).symm.trans hone)
  have hw' := Except.ok.inj ((hlist { maxScan := 2 } rules hrules).symm.trans htwo)
  obtain ⟨-, -, -, hall, -⟩ :=
    luaFiles_ceiling (p := smallRoot) hfs hroot rfl rfl (le_refl 2) rules.ignores
  rw [hw] at hbegins hpassed
  rw [hw'] at hbegins hall
  exact ⟨rules, _, _, hfs, hrules, hone, htwo, rfl, hpassed rfl, hbegins, rfl, (hall rfl).2⟩

end Walk

end LuaLens
