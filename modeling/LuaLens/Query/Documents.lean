import LuaLens.FileSystem

/-!
The documents that a client has open. They stand before the files of the same path.
-/

namespace LuaLens

/-- The open documents, by the components of their paths. -/
structure Documents where
  opened : List (List Path.Component × String) := []

namespace Documents

/-- Two spellings of a path are one document. -/
def key (fs : FileSystem) (p : Path) : List Path.Component := (fs.canonical p).components

def update (d : Documents) (fs : FileSystem) (p : Path) (text : String) : Documents :=
  let k := key fs p
  { opened := (k, text) :: d.opened.filter (·.1 != k) }

def close (d : Documents) (fs : FileSystem) (p : Path) : Documents :=
  { opened := d.opened.filter (·.1 != key fs p) }

def get? (d : Documents) (fs : FileSystem) (p : Path) : Option String :=
  (d.opened.find? (·.1 == key fs p)).map (·.2)

def isOpen (d : Documents) (fs : FileSystem) (p : Path) : Bool := (d.get? fs p).isSome

/-- The text of an open document, else of the file. -/
def source? (d : Documents) (fs : FileSystem) (p : Path) : Option String :=
  match d.get? fs p with
  | some text => some text
  | none => (fs.readText p).toOption

end Documents

end LuaLens
