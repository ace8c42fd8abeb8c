import LuaLens.Proofs.Canonical
import LuaLens.Proofs.Host.Servers

/-!
Files that keep their identifiers and their roots. They do so when they are named by absolute paths
without steps upward, and otherwise as long as no files or directories are made or removed.
-/

namespace LuaLens

variable {π : Type}

/-! ### Trees of one shape -/

/-- Whether two trees differ only in what their files hold. -/
structure FileSystem.SameShape (fs fs' : FileSystem) : Prop where
  current : fs'.current = fs.current
  kind : ∀ loc, (fs'.node? loc).map (· == .directory) = (fs.node? loc).map (· == .directory)

namespace FileSystem.SameShape

variable {fs fs' fs'' : FileSystem} {p : Path} {loc : Location}

theorem refl (fs : FileSystem) : fs.SameShape fs := ⟨rfl, fun _ => rfl⟩

theorem trans (h : fs.SameShape fs') (h' : fs'.SameShape fs'') : fs.SameShape fs'' :=
  ⟨h'.current.trans h.current, fun loc => (h'.kind loc).trans (h.kind loc)⟩

theorem directory_iff (h : fs.SameShape fs') (loc : Location) :
    fs'.node? loc = some .directory ↔ fs.node? loc = some .directory := by
  have hkind := h.kind loc
  rcases hn : fs.node? loc with _ | _ | _ <;> rcases hn' : fs'.node? loc with _ | _ | _ <;>
    simp_all

theorem isSome_node? (h : fs.SameShape fs') (loc : Location) :
    (fs'.node? loc).isSome = (fs.node? loc).isSome := by
  simpa using congrArg Option.isSome (h.kind loc)

/-- A path leads to the same place. -/
theorem follow (h : fs.SameShape fs') (loc : Location) (pieces : List (List Char)) :
    fs'.follow loc pieces = fs.follow loc pieces := by
  induction pieces generalizing loc with
  | nil => rfl
  | cons piece rest ih =>
    have hkind := h.kind loc
    have hnext := h.isSome_node? (loc ++ [String.ofList piece])
    rw [FileSystem.follow, FileSystem.follow]
    rcases hn : fs.node? loc with _ | _ | _ <;> rcases hn' : fs'.node? loc with _ | _ | _ <;>
      simp [hn, hn'] at hkind
    · rfl
    · rfl
    · simp only [ih]
      rcases hm : fs.node? (loc ++ [String.ofList piece]) with _ | _ <;>
        rcases hm' : fs'.node? (loc ++ [String.ofList piece]) with _ | _ <;> simp_all

theorem locate (h : fs.SameShape fs') (p : Path) : fs'.locate p = fs.locate p := by
  rw [FileSystem.locate, FileSystem.locate, start, start, h.current, h.follow]

theorem canonical (h : fs.SameShape fs') (p : Path) : fs'.canonical p = fs.canonical p := by
  rw [FileSystem.canonical, FileSystem.canonical, h.locate]

theorem isDirectory (h : fs.SameShape fs') (p : Path) : fs'.isDirectory p = fs.isDirectory p := by
  rw [FileSystem.isDirectory, FileSystem.isDirectory, nodeAt?, nodeAt?, h.locate]
  rcases fs.locate p with _ | loc
  · rfl
  · rw [Bool.eq_iff_iff, beq_iff_eq, beq_iff_eq]
    exact h.directory_iff loc

theorem exists? (h : fs.SameShape fs') (p : Path) : fs'.exists? p = fs.exists? p := by
  rw [FileSystem.exists?, FileSystem.exists?, nodeAt?, nodeAt?, h.locate]
  rcases fs.locate p with _ | loc
  · rfl
  · exact h.isSome_node? loc

theorem findRoot (h : fs.SameShape fs') (p : Path) : findRoot fs' p = findRoot fs p := by
  simp only [LuaLens.findRoot, h.canonical, h.isDirectory, h.exists?]

/-- Writing a file that exists changes what it holds and nothing else. -/
theorem writeText {t : String} (hp : fs.isFile p = true) (h : fs.writeText p t = .ok fs') :
    fs.SameShape fs' := by
  rcases hl : fs.locate p with fault | loc
  · simp [isFile, nodeAt?, hl] at hp
  · rcases hn : fs.node? loc with _ | content | _
    · simp [isFile, nodeAt?, hl, hn] at hp
    · obtain rfl : fs.put loc (.file (.text t)) = fs' := by
        simpa [FileSystem.writeText, write, hl, hn] using h
      refine ⟨rfl, fun l => ?_⟩
      by_cases hloc : l = loc
      · have hne : loc ≠ [] := by
          rintro rfl
          simp at hn
        rw [hloc, node?_put_self hne, hn]
        rfl
      · rw [node?_put_of_ne hloc]
    · simp [isFile, nodeAt?, hl, hn] at hp

theorem isFile (h : fs.SameShape fs') (p : Path) : fs'.isFile p = fs.isFile p := by
  rw [FileSystem.isFile, FileSystem.isFile, nodeAt?, nodeAt?, h.locate]
  rcases fs.locate p with _ | loc
  · rfl
  · have hkind := h.kind loc
    rcases hn : fs.node? loc with _ | _ | _ <;> rcases hn' : fs'.node? loc with _ | _ | _ <;>
      simp_all

end FileSystem.SameShape

/-! ### Steady files -/

/-- Whether the files in use keep their identifiers and their roots, whatever the far ends do and
whatever is saved. -/
structure Steady [Peer π] (launch : Launcher π) (paths : Path → Prop) (trees : FileSystem → Prop)
    (peers : π → Prop) : Prop where
  uris : ∀ p fs fs', paths p → trees fs → trees fs' →
    Uri.ofPath? (fs.canonical p) = Uri.ofPath? (fs'.canonical p)
  roots : ∀ p fs fs', paths p → trees fs → trees fs' →
    (findRoot fs p).components = (findRoot fs' p).components
  hear : ∀ p fs m, peers p → trees fs → peers (Peer.hear p fs m).1 ∧ trees (Peer.hear p fs m).2.1
  start : ∀ command root fs p fs', trees fs → launch command root fs = .ok (p, fs') →
    peers p ∧ trees fs'
  save : ∀ p fs text fs', paths p → trees fs → fs.writeText p text = .ok fs' → trees fs'

namespace Steady

variable [Peer π] {launch : Launcher π} {paths : Path → Prop} {trees : FileSystem → Prop}
  {peers : π → Prop}

/-- Absolute paths without steps upward have one identifier in all trees, so that only their roots have
to stay. -/
theorem of_absolute (hpaths : ∀ p, paths p → p.isAbsolute = true ∧ ['.', '.'] ∉ p.pieces)
    (roots : ∀ p fs fs', paths p → trees fs → trees fs' →
      (findRoot fs p).components = (findRoot fs' p).components)
    (hear : ∀ p fs m, peers p → trees fs → peers (Peer.hear p fs m).1 ∧ trees (Peer.hear p fs m).2.1)
    (start : ∀ command root fs p fs', trees fs → launch command root fs = .ok (p, fs') →
      peers p ∧ trees fs')
    (save : ∀ p fs text fs', paths p → trees fs → fs.writeText p text = .ok fs' → trees fs') :
    Steady launch paths trees peers where
  uris p fs fs' hp _ _ := by
    obtain ⟨habsolute, hup⟩ := hpaths p hp
    rw [Uri.ofPath?, Uri.ofPath?, FileSystem.isAbsolute_canonical habsolute,
      FileSystem.isAbsolute_canonical habsolute, FileSystem.components_canonical habsolute hup,
      FileSystem.components_canonical habsolute hup]
  roots := roots
  hear := hear
  start := start
  save := save

/-- Files that exist are steady whatever their paths as long as none are made or removed. -/
theorem of_shape (fs : FileSystem)
    (hear : ∀ p fs' m, peers p → fs.SameShape fs' →
      peers (Peer.hear p fs' m).1 ∧ fs'.SameShape (Peer.hear p fs' m).2.1)
    (start : ∀ command root fs' p fs'', fs.SameShape fs' → launch command root fs' = .ok (p, fs'') →
      peers p ∧ fs'.SameShape fs'') :
    Steady launch (fun p => fs.isFile p = true) fs.SameShape peers where
  uris p fs₁ fs₂ _ h₁ h₂ := by rw [h₁.canonical, h₂.canonical]
  roots p fs₁ fs₂ _ h₁ h₂ := by rw [h₁.findRoot, h₂.findRoot]
  hear p fs' m hp h := ⟨(hear p fs' m hp h).1, h.trans (hear p fs' m hp h).2⟩
  start command root fs' p fs'' h hl :=
    ⟨(start command root fs' p fs'' h hl).1, h.trans (start command root fs' p fs'' h hl).2⟩
  save p fs' text fs'' hp h hw := h.trans (.writeText ((h.isFile p).trans hp) hw)

variable (steady : Steady launch paths trees peers) {b : Buffer} {fs fs' : FileSystem}

include steady

theorem uri? (hb : ∀ p, b.path = some p → paths p) (h : trees fs) (h' : trees fs') :
    b.uri? fs = b.uri? fs' := by
  rcases hp : b.path with _ | p
  · simp [Buffer.uri?, hp]
  · simpa [Buffer.uri?, hp] using steady.uris p fs fs' (hb p hp) h h'

theorem place (hb : ∀ p, b.path = some p → paths p) (h : trees fs) (h' : trees fs') :
    (ServerKey.ofBuffer? fs b).map (·.place) = (ServerKey.ofBuffer? fs' b).map (·.place) := by
  rcases hp : b.path with _ | p
  · rcases hl : b.language with _ | language <;> simp [ServerKey.ofBuffer?, hp, hl]
  · rcases hl : b.language with _ | language
    · simp [ServerKey.ofBuffer?, hl]
    · simp [ServerKey.ofBuffer?, hp, hl, ServerKey.place, steady.roots p fs fs' (hb p hp) h h']

end Steady

end LuaLens
