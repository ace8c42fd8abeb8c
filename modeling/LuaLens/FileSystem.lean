import LuaLens.Path

/-!
File trees as values: which paths are directories, which are files, and what the files hold. Every
operation that changes a tree returns the new one.
-/

namespace LuaLens

/-- What a file holds: text, or bytes that are not text. -/
inductive Content
  | text (s : String)
  | binary (bytes : List UInt8)
deriving DecidableEq, Repr, Inhabited

namespace Content

/-- Bytes are text when they are UTF-8. -/
def ofBytes (bytes : List UInt8) : Content :=
  match String.fromUTF8? ⟨bytes.toArray⟩ with
  | some s => .text s
  | none => .binary bytes

def bytes : Content → List UInt8
  | .text s => s.toUTF8.toList
  | .binary bytes => bytes

end Content

namespace FileSystem

/-- Why an operation on files fails. -/
inductive Fault
  | notFound
  | isDirectory
  | notDirectory
  | exists
  | nameTooLong
  | badName
  | notText
deriving DecidableEq, Repr

def Fault.message : Fault → String
  | .notFound => "No such file or directory (os error 2)"
  | .isDirectory => "Is a directory (os error 21)"
  | .notDirectory => "Not a directory (os error 20)"
  | .exists => "File exists (os error 17)"
  | .nameTooLong => "File name too long (os error 36)"
  | .badName => "file name contained an unexpected NUL byte"
  | .notText => "stream did not contain valid UTF-8"

/-- The names that lead from the top to a file or directory. -/
abbrev Location := List String

inductive Node
  | file (content : Content)
  | directory
deriving DecidableEq, Repr

end FileSystem

/-- A tree of files. The top is always a directory; relative paths start at `current`. -/
structure FileSystem where
  nodes : List (FileSystem.Location × FileSystem.Node) := []
  current : FileSystem.Location := []

namespace FileSystem

/-! ### Looking -/

def node? (fs : FileSystem) (loc : Location) : Option Node :=
  if loc.isEmpty then some .directory else (fs.nodes.find? (·.1 == loc)).map (·.2)

/-- The absolute path of a location. -/
def pathOf (loc : Location) : Path :=
  if loc.isEmpty then ⟨"/"⟩ else ⟨String.join (loc.map ("/" ++ ·))⟩

/-- Follows the pieces of a path from a location, through directories only. -/
def follow (fs : FileSystem) (loc : Location) : List (List Char) → Except Fault Location
  | [] => .ok loc
  | piece :: rest =>
    match fs.node? loc with
    | some .directory =>
      if Path.isIdle piece then follow fs loc rest
      else if piece == ['.', '.'] then follow fs loc.dropLast rest
      else if 255 < Text.byteLength piece then .error .nameTooLong
      else
        let next := loc ++ [String.ofList piece]
        match fs.node? next with
        | some _ => follow fs next rest
        | none => .error .notFound
    | some (.file _) => .error .notDirectory
    | none => .error .notFound

/-- Where a path begins. -/
def start (fs : FileSystem) (p : Path) : Location := if p.isAbsolute then [] else fs.current

/-- The location of an existing file or directory. -/
def locate (fs : FileSystem) (p : Path) : Except Fault Location :=
  if p.text.isEmpty then .error .notFound
  else if p.text.toList.contains '\x00' then .error .badName
  else fs.follow (fs.start p) p.pieces

def nodeAt? (fs : FileSystem) (p : Path) : Option Node :=
  match fs.locate p with
  | .ok loc => fs.node? loc
  | .error _ => none

def isFile (fs : FileSystem) (p : Path) : Bool :=
  match fs.nodeAt? p with
  | some (.file _) => true
  | _ => false

def isDirectory (fs : FileSystem) (p : Path) : Bool := fs.nodeAt? p == some .directory

def exists? (fs : FileSystem) (p : Path) : Bool := (fs.nodeAt? p).isSome

/-- The absolute path without detours of something that exists, and any other path as it is. -/
def canonical (fs : FileSystem) (p : Path) : Path :=
  match fs.locate p with
  | .ok loc => pathOf loc
  | .error _ => p

/-- The content of a file. -/
def read (fs : FileSystem) (p : Path) : Except Fault Content := do
  match fs.node? (← fs.locate p) with
  | some (.file content) => pure content
  | some .directory => throw .isDirectory
  | none => throw .notFound

/-- The content of a text file. -/
def readText (fs : FileSystem) (p : Path) : Except Fault String := do
  match ← fs.read p with
  | .text s => pure s
  | .binary _ => throw .notText

/-- The names in a directory, in increasing order, with what they are. -/
def children (fs : FileSystem) (loc : Location) : List (String × Node) :=
  let inside := fs.nodes.filterMap fun (l, n) =>
    match l.getLast? with
    | some name => if l.dropLast == loc then some (name, n) else none
    | none => none
  inside.mergeSort fun a b => !(b.1 < a.1)

/-! ### Changing -/

/-- Puts a node at a location, in place of what was there. -/
def put (fs : FileSystem) (loc : Location) (n : Node) : FileSystem :=
  { fs with nodes := fs.nodes.filter (·.1 != loc) ++ [(loc, n)] }

/-- Removes a location and all below it. -/
def remove (fs : FileSystem) (loc : Location) : FileSystem :=
  { fs with nodes := fs.nodes.filter fun (l, _) => !loc.isPrefixOf l }

/-- Where a new entry of the given path would stand, when its directory exists. -/
def locateNew (fs : FileSystem) (p : Path) : Except Fault Location :=
  let pieces := (p.pieces.reverse.dropWhile List.isEmpty).reverse
  match pieces.getLast? with
  | none => .error .notFound
  | some name => do
    let dir ← fs.follow (fs.start p) pieces.dropLast
    match fs.node? dir with
    | some .directory =>
      if Path.isIdle name || name == ['.', '.'] then throw .notFound
      else if 255 < Text.byteLength name then throw .nameTooLong
      else pure (dir ++ [String.ofList name])
    | _ => throw .notDirectory

/-- Writes a file, new or not. -/
def write (fs : FileSystem) (p : Path) (content : Content) : Except Fault FileSystem :=
  match fs.locate p with
  | .ok loc =>
    match fs.node? loc with
    | some (.file _) => .ok (fs.put loc (.file content))
    | _ => .error .isDirectory
  | .error .notFound =>
    if p.text.isEmpty then .error .notFound
    else
      match fs.locateNew p with
      | .error fault => .error fault
      | .ok loc =>
        if p.text.toList.getLast? == some '/' then .error .isDirectory
        else .ok (fs.put loc (.file content))
  | .error fault => .error fault

def writeText (fs : FileSystem) (p : Path) (text : String) : Except Fault FileSystem :=
  fs.write p (.text text)

/-- Makes one directory. -/
def makeDirectory (fs : FileSystem) (p : Path) : Except Fault FileSystem :=
  match fs.locate p with
  | .ok _ => .error .exists
  | .error .notFound => (fs.locateNew p).map fun loc => fs.put loc .directory
  | .error fault => .error fault

/-- Makes the directories of a list that do not exist, in order. -/
def makeAll (fs : FileSystem) : List Path → Except Fault FileSystem
  | [] => .ok fs
  | p :: rest =>
    match fs.makeDirectory p with
    | .ok fs => makeAll fs rest
    | .error .exists => if fs.isDirectory p then makeAll fs rest else .error .exists
    | .error fault => .error fault

/-- Makes a directory with all that lead to it. -/
def makeDirectories (fs : FileSystem) (p : Path) : Except Fault FileSystem :=
  fs.makeAll ((p.ancestors.filter fun a => !a.text.isEmpty && a.parent?.isSome).reverse)

/-- Writes a file, with the directories that lead to it. -/
def install (fs : FileSystem) (p : Path) (content : Content) : Except Fault FileSystem := do
  let fs ← fs.makeDirectories (p.parent?.getD ⟨"/"⟩)
  fs.write p content

/-- Removes a file or a directory tree, if there is one. -/
def removeAt (fs : FileSystem) (p : Path) : FileSystem :=
  match fs.locate p with
  | .ok loc => fs.remove loc
  | .error _ => fs

end FileSystem

end LuaLens
