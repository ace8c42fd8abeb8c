import LuaLens.Proofs.Index.Calls

/-!
Calls of an index that fail. After a rescan that fails everything is as it was. A scan takes over the
settings of its directory before anything of it can fail, and gives up all entries before it writes
new ones; only the root is kept until the end. So a scan that fails leaves the settings of one project
with the root of another, and no entries unless it failed over the patterns in those settings.
-/

namespace LuaLens.Index

variable {x : Index} {fs : FileSystem} {root : Path} {e : IndexError}

/-! ### Failing -/

def errorOf? {α : Type} : Except IndexError α → Option IndexError
  | .ok _ => none
  | .error e => some e

theorem errorOf?_eq_some {α : Type} {r : Except IndexError α} :
    errorOf? r = some e ↔ r = .error e := by
  cases r <;> simp [errorOf?]

/-- The error that a call returns. -/
def failure? (x : Index) (fs : FileSystem) : Call → Option IndexError
  | .scan root => errorOf? (x.scan fs root).2.2
  | .rescan p text => errorOf? (x.rescan fs p text).2.2
  | .forget _ => none

/-- The directory whose settings count for a scan. -/
def settingsDirectory (fs : FileSystem) (root : Path) : Path :=
  let root := fs.canonical root
  if fs.isFile root then root.parent?.getD ⟨"."⟩ else root

/-- The settings that a call takes over. -/
def Call.settings? (fs : FileSystem) : Call → Option ProjectConfig
  | .scan root => some (ProjectConfig.loadOrUsual fs (settingsDirectory fs root))
  | .rescan _ _ | .forget _ => none

/-- Whether a call that fails with an error has given up the entries by then. -/
def Call.givesUp (e : IndexError) : Call → Bool
  | .scan _ => e ≠ .ignore
  | .rescan _ _ | .forget _ => false

/-- Two indexes that give the same answers about their project. -/
structure Alike (x y : Index) : Prop where
  config : y.config = x.config
  root : y.root = x.root
  projectEntries : y.projectEntries = x.projectEntries
  entries : y.entries = x.entries

/-! ### Scans -/

theorem plan_config (x : Index) (fs : FileSystem) (root : Path) :
    (x.plan fs root).1.config = ProjectConfig.loadOrUsual fs (settingsDirectory fs root) := by
  by_cases hfile : fs.isFile (fs.canonical root) = true
  · simp only [plan, settingsDirectory, if_pos hfile]
  · simp only [plan, settingsDirectory, if_neg hfile]

/-- Only the patterns to ignore stand in the way of a plan. -/
theorem plan_eq_error (h : (x.plan fs root).2 = .error e) : e = .ignore := by
  simp only [plan] at h
  split at h
  · cases h
  · simp only [luaFiles] at h
    split at h
    · exact (Except.error.inj h).symm
    · cases h

theorem load_ne_ignore {tags api : Path} (h : Corpus.load fs tags api = .error e) : e ≠ .ignore := by
  cases ht : fs.readText tags with
  | error fault =>
    rw [Corpus.load, ht] at h
    obtain rfl := Except.error.inj h
    simp
  | ok tagText =>
    cases ha : fs.readText api with
    | error fault =>
      rw [Corpus.load, ht, ha] at h
      obtain rfl := Except.error.inj h
      simp
    | ok apiText =>
      rw [Corpus.load_eq ht ha] at h
      split at h
      · cases h
      · obtain rfl := Except.error.inj h
        simp

/-- A scan fails over its plan, or over the files of the corpus when the entries are gone. -/
theorem scan_failed (h : (x.scan fs root).2.2 = .error e) :
    e = .ignore ∧ (x.scan fs root).1 = (x.plan fs root).1 ∨
      e ≠ .ignore ∧
        (x.scan fs root).1 = { (x.plan fs root).1 with overrides := [], project := [] } := by
  generalize hr : x.scan fs root = r at h
  rcases hplan : x.plan fs root with ⟨planned, outcome⟩
  rw [scan, hplan] at hr
  cases outcome with
  | error d =>
    subst hr
    obtain rfl : d = e := Except.error.inj h
    exact .inl ⟨plan_eq_error (congrArg Prod.snd hplan), rfl⟩
  | ok found =>
    simp only at hr
    split at hr
    · rename_i d hwrite
      subst hr
      obtain rfl : d = e := Except.error.inj h
      obtain ⟨path, fault, rfl⟩ := write_ne_error hwrite
      exact .inr ⟨by simp, rfl⟩
    · split at hr
      · rename_i d hload
        subst hr
        obtain rfl : d = e := Except.error.inj h
        exact .inr ⟨load_ne_ignore hload, rfl⟩
      · subst hr
        cases h

/-! ### Rescans -/

theorem rescan_failed {p : Path} {text : String} (h : (x.rescan fs p text).2.2 = .error e) :
    ∃ issued, (x.rescan fs p text).1 = { x with issued } := by
  cases hroot : x.root with
  | none =>
    have hx : (x.rescan fs p text).1 = x := by
      rw [rescan]
      simp only [hroot]
    exact ⟨x.issued, by rw [hx, ← hroot]⟩
  | some root =>
    obtain ⟨-, hx⟩ | ⟨mid, written, -, ⟨d, -, -, hx⟩ | ⟨c, -, hok, -⟩⟩ := rescan_cases hroot fs p text
    · exact ⟨x.issued + 1, by rw [hx, hroot]⟩
    · exact ⟨x.issued + 1, by rw [hx, hroot]⟩
    · rw [hok] at h
      cases h

/-! ### All calls -/

/-- What a call that fails leaves: the root, its settings if it has any, and the entries unless it has
given them up. -/
theorem perform_failed {call : Call} (h : x.failure? fs call = some e) :
    (x.perform fs call).root = x.root ∧
      (x.perform fs call).config = (call.settings? fs).getD x.config ∧
      (x.perform fs call).projectEntries = if call.givesUp e then [] else x.projectEntries := by
  cases call with
  | scan root =>
    obtain ⟨config, hindex⟩ := plan_index x fs root
    have hconfig := plan_config x fs root
    rw [hindex] at hconfig
    rw [perform, Call.settings?, Option.getD_some, Call.givesUp]
    obtain ⟨rfl, hx⟩ | ⟨hne, hx⟩ := scan_failed (errorOf?_eq_some.1 h)
    · rw [hx, hindex, if_neg (by decide)]
      exact ⟨rfl, hconfig, rfl⟩
    · rw [hx, hindex, if_pos (by simpa using hne)]
      exact ⟨rfl, hconfig, by simp [projectEntries]⟩
  | rescan p text =>
    obtain ⟨issued, hx⟩ := rescan_failed (errorOf?_eq_some.1 h)
    rw [perform, hx, Call.givesUp, if_neg (by decide)]
    exact ⟨rfl, rfl, rfl⟩
  | forget p => cases h

theorem alike_iff {y : Index} (hroot : y.root = x.root) :
    Alike x y ↔ y.config = x.config ∧ y.projectEntries = x.projectEntries := by
  refine ⟨fun h => ⟨h.config, h.projectEntries⟩, fun ⟨hconfig, hproject⟩ => ?_⟩
  exact ⟨hconfig, hroot, hproject, by rw [entries, hproject, entries]⟩

/-- A call that fails leaves everything as it was exactly when it is no scan, or a scan whose directory
has the settings that were there before and which failed over their patterns or found no entries to
give up. In any case the root stays. -/
theorem alike_failed_iff {call : Call} (h : x.failure? fs call = some e) :
    let y := x.perform fs call
    y.root = x.root ∧
      y.config = (call.settings? fs).getD x.config ∧
      y.projectEntries = (if call.givesUp e then [] else x.projectEntries) ∧
      y.entries = y.projectEntries ++ Builtins.corpus ∧
      (Alike x y ↔ (∀ settings, call.settings? fs = some settings → settings = x.config) ∧
        (call.givesUp e = true → x.projectEntries = [])) := by
  intro y
  obtain ⟨hroot, hconfig, hproject⟩ := perform_failed h
  refine ⟨hroot, hconfig, hproject, rfl, ?_⟩
  rw [alike_iff hroot, hconfig, hproject]
  refine and_congr ?_ ?_
  · cases call.settings? fs with
    | none => simp
    | some settings => simp
  · cases call.givesUp e with
    | false => simp
    | true => simp [eq_comm (a := [])]

/-- The project of one file, with a pattern that cannot be read in its settings. -/
def mistaken : FileSystem where
  nodes := single.nodes ++ [(["w", ".lua-lsp.toml"], .file (.text "ignore = [\"[z-a]\"]\n"))]

/-- Another project, with a file whose name fills two lines. -/
def torn : FileSystem where
  nodes := single.nodes ++ [(["v"], .directory),
    (["v", "x\ny.lua"], .file (.text "local M = \x7b\x7d\nfunction M.g() end\nreturn M\n"))]

/-- The settings are those that failed, with the entries of the scan before; and after a scan of
another project has failed there are no entries. -/
theorem alike_failed_iff_scanned :
    let x := (create {} ⟨"/c"⟩).1.run [(single, .scan ⟨"/w"⟩)]
    (x.failure? mistaken (.scan ⟨"/w"⟩) = some .ignore ∧
      (x.perform mistaken (.scan ⟨"/w"⟩)).config.ignore = ["[z-a]"] ∧
      (x.perform mistaken (.scan ⟨"/w"⟩)).projectEntries = x.projectEntries ∧
      ¬Alike x (x.perform mistaken (.scan ⟨"/w"⟩))) ∧
    (x.failure? torn (.scan ⟨"/v"⟩) = some (.corpus ⟨"/c/tags"⟩ 4 ⟨"/c/api"⟩ 3) ∧
      (x.perform torn (.scan ⟨"/v"⟩)).root = some ⟨"/w"⟩ ∧
      (x.perform torn (.scan ⟨"/v"⟩)).projectEntries = [] ∧
      ¬Alike x (x.perform torn (.scan ⟨"/v"⟩))) := by
  intro x
  have hpattern : x.failure? mistaken (.scan ⟨"/w"⟩) = some .ignore := by decide +kernel
  have htorn : x.failure? torn (.scan ⟨"/v"⟩) = some (.corpus ⟨"/c/tags"⟩ 4 ⟨"/c/api"⟩ 3) := by
    decide +kernel
  have hsettings : Call.settings? mistaken (.scan ⟨"/w"⟩) = some ⟨["[z-a]"], 10000⟩ := by
    decide +kernel
  obtain ⟨hroot, hconfig, hentries⟩ : x.root = some ⟨"/w"⟩ ∧ x.config ≠ ⟨["[z-a]"], 10000⟩ ∧
      x.projectEntries ≠ [] := by
    decide +kernel
  -- From here on the index is known by these facts alone, and nothing unfolds its scan.
  clear_value x
  obtain ⟨-, hc, hp, -, halike⟩ := alike_failed_iff hpattern
  obtain ⟨hr', -, hp', -, halike'⟩ := alike_failed_iff htorn
  refine ⟨⟨hpattern, ?_, ?_, fun h => ?_⟩, htorn, hr'.trans hroot, ?_, fun h => ?_⟩
  · rw [hc, hsettings, Option.getD_some]
  · rw [hp, if_neg (by decide)]
  · exact hconfig ((halike.1 h).1 _ hsettings).symm
  · rw [hp', if_pos (by decide)]
  · exact hentries ((halike'.1 h).2 (by decide))

end LuaLens.Index
