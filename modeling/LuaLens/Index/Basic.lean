import LuaLens.Index.Builtins
import LuaLens.Index.Walk

/-!
The index of a project: the entries of a full scan, the entries of documents scanned again since
then, which take the place of the former file by file, and the built-in declarations. Each corpus is
kept as two files in a private directory.
-/

namespace LuaLens

/-- Names a scan of a single document; no two of an index are the same. -/
structure RescanId where
  number : Nat
deriving DecidableEq, Repr

namespace RescanId

/-- A number in `width` hexadecimal digits. -/
def hex (width n : Nat) : String :=
  let digits := Nat.toDigits 16 n
  String.ofList (List.replicate (width - digits.length) '0' ++ digits)

/-- The id in the form of a universally unique identifier. -/
def text (id : RescanId) : String := "00000000-0000-4000-8000-" ++ hex 12 id.number

end RescanId

/-- A document scanned by itself. -/
structure Rescan where
  id : RescanId
  corpus : Corpus

/-- What a scan found. -/
structure ScanSummary where
  files : Nat
  symbols : Nat
  truncated : Bool
deriving DecidableEq, Repr

structure Index where
  /-- The private directory of the corpus files. -/
  cache : Path
  root : Option Path := none
  config : ProjectConfig := {}
  /-- The entries of the last full scan. -/
  project : Corpus := []
  /-- Documents scanned since, by label, in increasing order. -/
  overrides : List (String × Rescan) := []
  /-- How many ids have been used. -/
  issued : Nat := 0

namespace Index

/-! ### Looking -/

def builtinDir (x : Index) : Path := x.cache.join "stdlib"

/-- The label of a file, however its path is written. -/
def labelOf (x : Index) (fs : FileSystem) (p : Path) : String :=
  match x.root with
  | some root => Label.ofPath root (fs.canonical p)
  | none => p.text

/-- The file that a label stands for. -/
def resolve (x : Index) (label : String) : Path :=
  Label.resolve (x.root.getD ⟨""⟩) x.builtinDir label

def isOverridden (x : Index) (label : String) : Bool := x.overrides.any (·.1 == label)

/-- The entries of the project by label, and in source order for each. -/
def projectEntries (x : Index) : Corpus :=
  let kept := x.project.filter fun e => !x.isOverridden e.tag.file
  let again := x.overrides.flatMap (·.2.corpus)
  (kept ++ again).mergeSort fun a b => !(b.tag.file < a.tag.file)

/-- The entries of the project, then the built-in ones. -/
def entries (x : Index) : Corpus := x.projectEntries ++ Builtins.corpus

/-- The names of the files directly in the private directory. -/
def corpusFiles (x : Index) (fs : FileSystem) : List String :=
  match fs.locate x.cache with
  | .ok loc => (fs.children loc).filterMap fun (name, n) =>
      if Walk.isDirectoryNode n then none else some name
  | .error _ => []

/-! ### Scanning -/

/-- A new index with its private directory, which holds the built-in declarations. -/
def create (fs : FileSystem) (cache : Path) : Index × FileSystem :=
  let x : Index := { cache }
  let fs := match fs.makeDirectories x.builtinDir with
    | .ok fs => fs
    | .error _ => fs
  match fs.writeText (x.builtinDir.join Builtins.fileName) Builtins.source with
  | .ok fs => (x, fs)
  | .error _ => (x, fs)

/-- The symbols of each file that can be read, by label. -/
def extractFiles (fs : FileSystem) (root : Path) (files : List Path) : List (String × List Symbol) :=
  let found := files.filterMap fun p =>
    match fs.readText p with
    | .ok text => some (Label.ofPath root p, extractSymbols text (moduleNameOf p))
    | .error _ => none
  found.mergeSort fun a b => !(b.1 < a.1)

/-- Removes the files of earlier scans and forgets their entries. -/
def clear (x : Index) (fs : FileSystem) : Index × FileSystem :=
  let fs := (x.corpusFiles fs).foldl (fun fs name => fs.removeAt (x.cache.join name)) fs
  ({ x with overrides := [], project := [] }, fs)

/-- What is to be scanned: the root directory, its files, and whether some were left out. A root that
is a file is scanned alone, with its directory as the root. -/
def plan (x : Index) (fs : FileSystem) (root : Path) :
    Index × Except IndexError (Path × List Path × Bool) :=
  let root := fs.canonical root
  if fs.isFile root then
    let dir := root.parent?.getD ⟨"."⟩
    ({ x with config := ProjectConfig.loadOrUsual fs dir }, .ok (dir, [root], false))
  else
    let x := { x with config := ProjectConfig.loadOrUsual fs root }
    (x, (luaFiles fs x.config root).map fun w => (root, w.files, w.truncated))

/-- Indexes everything below a root, in place of what an earlier scan found. -/
def scan (x : Index) (fs : FileSystem) (root : Path) :
    Index × FileSystem × Except IndexError ScanSummary :=
  let (x, planned) := x.plan fs root
  match planned with
  | .error e => (x, fs, .error e)
  | .ok (root, files, truncated) =>
    let (x, fs) := x.clear fs
    let project : Corpus := (extractFiles fs root files).flatMap fun (label, symbols) =>
      Corpus.ofSymbols label symbols
    let tags := x.cache.join "tags"
    let api := x.cache.join "api"
    match Corpus.write project fs tags api with
    | .error e => (x, fs, .error e)
    | .ok fs =>
      match Corpus.load fs tags api with
      | .error e => (x, fs, .error e)
      | .ok project =>
        ({ x with project, root := some root }, fs,
          .ok { files := files.length, symbols := project.length, truncated })

/-! ### Single documents -/

/-- Puts a rescan in the place of an earlier one of the same label. -/
def insertOverride (label : String) (r : Rescan) :
    List (String × Rescan) → List (String × Rescan)
  | [] => [(label, r)]
  | o :: rest =>
    if o.1 == label then (label, r) :: rest
    else if label < o.1 then (label, r) :: o :: rest
    else o :: insertOverride label r rest

/-- Removes the files of a rescan. -/
def removeRescan (x : Index) (fs : FileSystem) (id : RescanId) : FileSystem :=
  (fs.removeAt (Corpus.tagsPath x.cache id.text)).removeAt (Corpus.apiPath x.cache id.text)

/-- Indexes a document again from its text. The text is copied below a directory of its own, under
its path relative to the root, and the module is named after that copy. -/
def rescan (x : Index) (fs : FileSystem) (p : Path) (text : String) :
    Index × FileSystem × Except IndexError Nat :=
  match x.root with
  | none => (x, fs, .error .noRoot)
  | some root =>
    let p := fs.canonical p
    let label := Label.ofPath root p
    let below := match Path.relativeTo? root p with
      | some rest => rest.text
      | none => p.fileName?.getD p.text
    let id : RescanId := ⟨x.issued⟩
    let x := { x with issued := x.issued + 1 }
    let scratch := x.cache.join id.text
    let copy := scratch.join below
    let made := match copy.parent? with
      | some dir => (fs.makeDirectories dir).mapError (IndexError.io dir)
      | none => .ok fs
    match made with
    | .error e => (x, fs, .error e)
    | .ok fs =>
      match (fs.writeText copy text).mapError (IndexError.io copy) with
      | .error e => (x, fs, .error e)
      | .ok fs =>
        let corpus : Corpus := (extractFiles fs scratch [copy]).flatMap fun (_, symbols) =>
          Corpus.ofSymbols label symbols
        let fs := fs.removeAt scratch
        let tags := Corpus.tagsPath x.cache id.text
        let api := Corpus.apiPath x.cache id.text
        match Corpus.write corpus fs tags api with
        | .error e => (x, fs, .error e)
        | .ok fs =>
          match Corpus.load fs tags api with
          | .error e => (x, fs, .error e)
          | .ok corpus =>
            let fs := match x.overrides.find? (·.1 == label) with
              | some (_, earlier) => x.removeRescan fs earlier.id
              | none => fs
            ({ x with overrides := insertOverride label { id, corpus } x.overrides }, fs,
              .ok corpus.length)

/-- Drops the rescan of a document, so that the entries of the full scan count again. -/
def forget (x : Index) (fs : FileSystem) (p : Path) : Index × FileSystem :=
  let label := x.labelOf fs p
  match x.overrides.find? (·.1 == label) with
  | some (_, earlier) =>
    ({ x with overrides := x.overrides.filter (·.1 != label) }, x.removeRescan fs earlier.id)
  | none => (x, fs)

end Index

end LuaLens
