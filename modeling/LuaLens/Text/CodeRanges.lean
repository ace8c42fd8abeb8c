/-!
Sets of code points, given as closed ranges.
-/

namespace LuaLens.Text

/-- Closed ranges of code points, in increasing order. -/
abbrev CodeRanges := Array (Nat × Nat)

/-- Whether `n` lies in one of the ranges. -/
def CodeRanges.covers (ranges : CodeRanges) (n : Nat) : Bool :=
  ranges.any fun (lo, hi) => lo ≤ n && n ≤ hi

end LuaLens.Text
