import LuaLens.Corpus.Basic
import LuaLens.Toml.Document

/-!
The settings of a project, from a file in its root.
-/

namespace LuaLens

/-- What a scan leaves out, and how far it goes. -/
structure ProjectConfig where
  /-- Patterns of paths to ignore, in place of the usual ones. -/
  ignore : List String :=
    [".git", ".hg", ".svn", ".bzr", "node_modules", ".luarocks", "lua_modules"]
  /-- Once more files than this have been seen, no further directory is entered. -/
  maxScan : Nat := 10000
deriving DecidableEq, Repr

namespace ProjectConfig

def fileName : String := ".lua-lsp.toml"

def parse? (text : String) : Option ProjectConfig := do
  let members ← Toml.parse? text
  let usual : ProjectConfig := {}
  let ignore ← match Toml.get? "ignore" members with
    | some v => v.strings?
    | none => some usual.ignore
  let maxScan ← match Toml.get? "max_scan" members with
    | some v => v.nat?
    | none => some usual.maxScan
  pure { ignore, maxScan }

/-- The settings of a root; the usual ones when it has no file for them. -/
def load (fs : FileSystem) (root : Path) : Except IndexError ProjectConfig := do
  let path := root.join fileName
  if fs.isFile path then
    let text ← (fs.readText path).mapError (IndexError.io path)
    match parse? text with
    | some config => pure config
    | none => throw (.config path)
  else pure {}

/-- The settings of a root; a file that cannot be read counts as absent. -/
def loadOrUsual (fs : FileSystem) (root : Path) : ProjectConfig :=
  match load fs root with
  | .ok config => config
  | .error _ => {}

end ProjectConfig

end LuaLens
