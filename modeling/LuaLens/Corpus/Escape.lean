/-!
Escapes that keep an entry of a corpus file on one line.
-/

namespace LuaLens.Escape

/-! ### Fields of a tag line -/

/-- The locator stands between slashes. -/
def locator : List Char → List Char
  | [] => []
  | '\\' :: s => '\\' :: '\\' :: locator s
  | '/' :: s => '\\' :: '/' :: locator s
  | '\t' :: s => '\\' :: 't' :: locator s
  | c :: s => c :: locator s

/-- The file stands between tabs. -/
def file : List Char → List Char
  | [] => []
  | '\\' :: s => '\\' :: '\\' :: file s
  | '\t' :: s => '\\' :: 't' :: file s
  | '\n' :: s => '\\' :: 'n' :: file s
  | c :: s => c :: file s

/-- Undoes both. A backslash before any other character stands for itself. -/
def undo : List Char → List Char
  | [] => []
  | '\\' :: 't' :: s => '\t' :: undo s
  | '\\' :: 'n' :: s => '\n' :: undo s
  | '\\' :: '\\' :: s => '\\' :: undo s
  | '\\' :: '/' :: s => '/' :: undo s
  | c :: s => c :: undo s

/-! ### Documentation -/

def doc : List Char → List Char
  | [] => []
  | '\\' :: s => '\\' :: '\\' :: doc s
  | '\n' :: s => '\\' :: 'n' :: doc s
  | c :: s => c :: doc s

/-- Undoes `doc`. A backslash before any other character stands for itself. -/
def undoDoc : List Char → List Char
  | [] => []
  | '\\' :: 'n' :: s => '\n' :: undoDoc s
  | '\\' :: '\\' :: s => '\\' :: undoDoc s
  | '\\' :: c :: s => '\\' :: c :: undoDoc s
  | c :: s => c :: undoDoc s

end LuaLens.Escape
