import LuaLens.Path

/-!
Symbols of Lua source files: what a declaration introduces, where it stands, and what its
documentation says.
-/

namespace LuaLens

/-- What a symbol is. Local kinds are visible in their own file only. -/
inductive Symbol.Kind
  | module
  | function
  | localFunction
  | table
  | localTable
  | field
deriving DecidableEq, Repr, Inhabited

namespace Symbol.Kind

/-- The letter that stands for a kind in a tag line. -/
def code : Kind → Char
  | .module => 'm'
  | .function => 'f'
  | .localFunction => 'l'
  | .table => 't'
  | .localTable => 'T'
  | .field => 'F'

def ofCode? : Char → Option Kind
  | 'm' => some .module
  | 'f' => some .function
  | 'l' => some .localFunction
  | 't' => some .table
  | 'T' => some .localTable
  | 'F' => some .field
  | _ => none

theorem ofCode?_code (k : Kind) : ofCode? k.code = some k := by cases k <;> rfl

def isCallable : Kind → Bool
  | .function | .localFunction => true
  | _ => false

def isLocal : Kind → Bool
  | .localFunction | .localTable => true
  | _ => false

end Symbol.Kind

/-- A declared symbol with its documentation. -/
structure Symbol where
  name : String
  /-- The enclosing module or table; empty for globals and locals. -/
  owner : String
  kind : Symbol.Kind
  /-- The trimmed source line that declares the symbol. -/
  locator : String
  /-- The number of that line, from zero. -/
  line : Nat
  /-- A header such as `util.add(a, b)`, then the lines of the description. -/
  doc : String
deriving DecidableEq, Repr

/-- A name with its owner in front of it. -/
def qualified (owner name : String) : String :=
  if owner.isEmpty then name else owner ++ "." ++ name

namespace Symbol

def header (s : Symbol) : String := Text.firstLine s.doc

def qualifiedName (s : Symbol) : String := qualified s.owner s.name

end Symbol

/-- The module that a file defines when nothing in it says otherwise: its stem, or the name of its
directory for `init.lua`. -/
def moduleNameOf (p : Path) : String :=
  let stem := p.fileStem?.getD ""
  if stem == "init" then (p.parent?.bind (·.fileName?)).getD stem else stem

end LuaLens
