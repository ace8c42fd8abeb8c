import LuaLens.Ignore.Glob

/-!
Ignore lists: patterns relative to a root, one a line, where `!` takes a path back in and a slash at
the end means directories only. The last pattern that matches decides.
-/

namespace LuaLens

namespace Ignore

/-- A pattern of an ignore list. -/
structure Rule where
  glob : Glob
  readmits : Bool
  onlyDirs : Bool

/-- What an ignore list says of a path. -/
inductive Verdict
  | none
  | ignore
  | whitelist
deriving DecidableEq, Repr

/-- Whether a pattern matches in every directory: it holds no slash of its own. -/
def isFloating (anchored : Bool) (text : List Char) : Bool :=
  !anchored && !text.contains '/' && text != ['*', '*'] && !"**/".toList.isPrefixOf text

/-- The pattern of a line without its marks. One without a slash matches in every directory, and one
that ends in `/**` matches what is below a directory but not the directory. -/
def expand (anchored : Bool) (text : List Char) : List Char :=
  let text := if isFloating anchored text then "**/".toList ++ text else text
  if "/**".toList.isSuffixOf text then text ++ "/*".toList else text

/-- The rule of a line: nothing for a comment or a blank line, and failure for a bad pattern. -/
def Rule.parse? (line : List Char) : Option (Option Rule) :=
  if line.head? == some '#' then some .none
  else
    let line := if "\\ ".toList.isSuffixOf line then line else Text.trimEnd line
    if line.isEmpty then some .none
    else
      let (readmits, anchored, line) :=
        if "\\!".toList.isPrefixOf line || "\\#".toList.isPrefixOf line then (false, false, line.tail)
        else
          let (readmits, line) := match line with
            | '!' :: s => (true, s)
            | s => (false, s)
          match line with
          | '/' :: s => (readmits, true, s)
          | s => (readmits, false, s)
      let (onlyDirs, line) :=
        if line.getLast? == some '/' then
          let line := line.dropLast
          (true, if line.getLast? == some '\\' then line.dropLast else line)
        else (false, line)
      (Glob.parse? (expand anchored line)).map fun glob => some { glob, readmits, onlyDirs }

end Ignore

/-- The rules of an ignore list, in order. -/
abbrev Ignore := List Ignore.Rule

namespace Ignore

/-- Reads all lines; one bad pattern spoils the list. -/
def parse? : List String → Option Ignore
  | [] => some []
  | line :: rest =>
    match Rule.parse? line.toList, parse? rest with
    | some rule, some rules => some (rule.toList ++ rules)
    | _, _ => Option.none

/-- What the list says of a path relative to its root. -/
def verdict (rules : Ignore) (path : String) (isDir : Bool) : Verdict :=
  let bytes := path.toUTF8.toList
  match rules.reverse.find? fun r => (!r.onlyDirs || isDir) && r.glob.matches? bytes with
  | some r => if r.readmits then .whitelist else .ignore
  | Option.none => .none

end Ignore

end LuaLens
