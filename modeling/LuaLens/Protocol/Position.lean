/-!
Places in a document: lines from zero, and columns in UTF-16 units.
-/

namespace LuaLens

structure Position where
  line : Nat
  character : Nat
deriving DecidableEq, Repr, Inhabited

structure Range where
  start : Position
  stop : Position
deriving DecidableEq, Repr, Inhabited

namespace Range

/-- A range on one line. -/
def onLine (line start stop : Nat) : Range := ⟨⟨line, start⟩, ⟨line, stop⟩⟩

end Range

end LuaLens
