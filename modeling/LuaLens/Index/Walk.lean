import LuaLens.Index.Config
import LuaLens.Ignore.Basic

/-!
The Lua files below a root, depth first. A directory lists its files before its subdirectories, each
in order of name, so that the files of a directory are finished even when the scan stops there.
-/

namespace LuaLens

/-- The outcome of a walk. -/
structure Walk where
  /-- The Lua files, in the order of the walk. -/
  files : List Path := []
  /-- How many files were seen, Lua or not. -/
  seen : Nat := 0
  /-- Whether a directory was left out because too many files had been seen. -/
  truncated : Bool := false
deriving DecidableEq, Repr

namespace Walk

/-- A directory on the way: where it is, how it is written, and its path below the root. -/
structure Place where
  location : FileSystem.Location
  path : Path
  below : String

def Place.child (p : Place) (name : String) : Place where
  location := p.location ++ [name]
  path := p.path.join name
  below := if p.below.isEmpty then name else p.below ++ "/" ++ name

/-- Counts a file that is not ignored, and keeps it if it is a Lua file. `ignored` says of a path below
the root, and whether it is a directory, if a walk passes it over. -/
def visitFile (ignored : String → Bool → Bool) (w : Walk) (p : Place) : Walk :=
  if ignored p.below false then w
  else if p.path.extension? == some "lua" then
    { w with seen := w.seen + 1, files := w.files ++ [p.path] }
  else { w with seen := w.seen + 1 }

def isDirectoryNode : FileSystem.Node → Bool
  | .directory => true
  | .file _ => false

/-- Walks a directory that has been entered. The fuel bounds the depth. -/
def visit (fs : FileSystem) (ignored : String → Bool → Bool) (maxScan : Nat) :
    Nat → Walk → Place → Walk
  | 0, w, _ => w
  | fuel + 1, w, p =>
    let children := (fs.children p.location).map fun (name, n) => (p.child name, isDirectoryNode n)
    let w := (children.filter (!·.2)).foldl (fun w c => visitFile ignored w c.1) w
    (children.filter (·.2)).foldl (fun w c =>
      if ignored c.1.below true then w
      else if maxScan < w.seen then { w with truncated := true }
      else visit fs ignored maxScan fuel w c.1) w

/-- The Lua files below a root that are not passed over. -/
def ofRoot (fs : FileSystem) (ignored : String → Bool → Bool) (maxScan : Nat) (root : Path) : Walk :=
  match fs.locate root with
  | .error _ => {}
  | .ok location =>
    visit fs ignored maxScan (fs.nodes.length + 1) {} { location, path := root, below := "" }

end Walk

/-- Whether an ignore list keeps a walk from a path. -/
def Ignore.ignores (rules : Ignore) (path : String) (isDir : Bool) : Bool :=
  rules.verdict path isDir == .ignore

/-- The Lua files below a root. -/
def luaFiles (fs : FileSystem) (config : ProjectConfig) (root : Path) : Except IndexError Walk :=
  match Ignore.parse? config.ignore with
  | none => .error .ignore
  | some rules => .ok (Walk.ofRoot fs rules.ignores config.maxScan root)

end LuaLens
