import LuaLens.Cli.Program

/-!
The programs: one asks about a file on the command line, and one serves Lua on its standard input
and output. Both work on a picture of the files that is taken beforehand.
-/

namespace LuaLens

namespace Picture

/-- A path of the system. -/
def place (loc : FileSystem.Location) :=
  ({ root := (FileSystem.pathOf loc).text, fileName := "" } : IO.FS.DirEntry).root

/-- The location of a path, by its text alone. -/
def location (current : FileSystem.Location) (p : Path) : FileSystem.Location :=
  p.pieces.foldl (fun loc piece =>
    if Path.isIdle piece then loc
    else if piece == ['.', '.'] then loc.dropLast
    else loc ++ [String.ofList piece]) (if p.isAbsolute then [] else current)

/-- Files that are read; of all others only the names count. -/
def isRead (name : String) : Bool := name.endsWith ".lua" || name.endsWith ".toml"

/-- Takes in a file. -/
def file (loc : FileSystem.Location) : IO (List (FileSystem.Location × FileSystem.Node)) := do
  try
    let bytes ← IO.FS.readBinFile (place loc)
    pure [(loc, .file (.ofBytes bytes.toList))]
  catch _ => pure []

/-- Takes in all below a directory, without following links. -/
partial def tree (loc : FileSystem.Location) : IO (List (FileSystem.Location × FileSystem.Node)) := do
  try
    let mut found := [(loc, FileSystem.Node.directory)]
    for entry in ← (place loc).readDir do
      let inner := loc ++ [entry.fileName]
      match (← entry.path.symlinkMetadata).type with
      | .dir => found := (← tree inner) ++ found
      | .file =>
        found := (← if isRead entry.fileName then file inner
          else pure [(inner, .file (.text ""))]) ++ found
      | _ => pure ()
    pure found
  catch _ => pure []

/-- Takes in a path with the directories that lead to it and the marks of a root in them. -/
def spine (loc : FileSystem.Location) : IO (List (FileSystem.Location × FileSystem.Node)) := do
  let mut found := []
  for n in List.range loc.length do
    let dir := loc.take n
    if n != 0 then found := (dir, FileSystem.Node.directory) :: found
    for mark in rootMarkers do
      if ← (place (dir ++ [mark])).pathExists then
        found := (dir ++ [mark], FileSystem.Node.directory) :: found
  if ← (place loc).isDir then pure ((loc, .directory) :: found) else pure ((← file loc) ++ found)

/-- Adds what was found to a picture, in place of what it had there. -/
def add (fs : FileSystem) (found : List (FileSystem.Location × FileSystem.Node)) : FileSystem :=
  { fs with nodes := found ++ fs.nodes }

/-- A picture of a file or directory and of the project around it. -/
def around (fs : FileSystem) (p : Path) : IO FileSystem := do
  let loc := location fs.current p
  let fs := add fs (← spine loc)
  pure (add fs (← tree (location fs.current (findRoot fs p))))

end Picture

/-! ### Asking -/

def currentLocation : IO FileSystem.Location := do
  pure (Picture.location [] ⟨(← IO.currentDir).toString⟩)

/-- The files that the given arguments are about. -/
def filesFor (args : List String) (settings : List Path) : IO FileSystem := do
  let mut fs : FileSystem := { current := ← currentLocation }
  match CommandLine.parse args with
  | .error _ => pure fs
  | .ok line =>
    for p in settings ++ line.config.toList do
      fs := Picture.add fs (← Picture.spine (Picture.location fs.current p))
    match line.command with
    | .index root _ =>
      let loc := Picture.location fs.current root
      fs := Picture.add fs (← Picture.spine loc)
      pure (Picture.add fs (← Picture.tree (if fs.isFile root then loc.dropLast else loc)))
    | command =>
      match command.file? with
      | some p => Picture.around fs p
      | none => pure fs

def runArguments (args : List String) : IO UInt32 := do
  let home : Path := ⟨(← IO.getEnv "HOME").getD "."⟩
  let configHome : Path := match ← IO.getEnv "XDG_CONFIG_HOME" with
    | some dir => if Path.isAbsolute ⟨dir⟩ then ⟨dir⟩ else home.join ".config"
    | none => home.join ".config"
  let files ← filesFor args (HostConfig.places configHome home)
  let s : Surroundings :=
    { files, home, configHome, caches := ⟨"/tmp/quill"⟩, server := Server.name }
  match Outcome.ofArguments s args with
  | some o =>
    (← IO.getStdout).putStr o.out
    (← IO.getStderr).putStr o.err
    pure o.exit.toUInt32
  | none => pure 1

/-! ### Serving -/

/-- Renews the picture of the project that the next message of a conversation is about. -/
def renew (t : Server.Talk) : IO Server.Talk := do
  match Frame.next t.closed t.unread with
  | .frame payload _ =>
    let named := match Message.decode? payload with
      | some (.request r) =>
        match ClientRequest.parse? r.method r.params with
        | some (.setUp root) => root
        | _ => none
      | _ => none
    match named.or t.server.index.root with
    | some root =>
      let loc := Picture.location t.files.current root
      let fs := t.files.remove loc
      pure { t with files := Picture.add (Picture.add fs (← Picture.spine loc)) (← Picture.tree loc) }
    | none => pure t
  | _ => pure t

/-- The result of an action, or the reason why it failed. -/
def attempt {α : Type} (act : IO α) : IO (Except String α) := do
  try
    pure (.ok (← act))
  catch e => pure (.error (toString e))

/-- Takes the turns of a conversation as they come, until it is over. What it reads and writes is what
`Server.serve` does with the pieces in which the input arrives. -/
partial def listen (input output : IO.FS.Stream) (t : Server.Talk) : IO Server.Serving := do
  let t ← renew t
  match t.turn with
  | .read missing =>
    match ← attempt (input.read missing.toUSize) with
    | .ok bytes => listen input output (t.receive bytes.toList)
    | .error reason => pure (.failed reason)
  | .continue t => listen input output t
  | .write r t =>
    let parts := Frame.parts (Message.response r).encode
    match ← attempt (do parts.forM (fun part => output.write ⟨part.toArray⟩); output.flush) with
    | .ok _ => listen input output t
    | .error reason => pure (.failed reason)
  | .over ending => pure ending

/-- Serves Lua, with a private directory that lasts as long as the conversation. -/
def serveLua : IO UInt32 := do
  let dir ← IO.FS.createTempDir
  let fs : FileSystem := { current := ← currentLocation }
  let cache : Path := ⟨dir.toString⟩
  let (s, fs) := Server.create fs cache
  IO.FS.createDirAll s.index.builtinDir.text
  IO.FS.writeFile (s.index.builtinDir.join Builtins.fileName).text Builtins.source
  let ending ← listen (← IO.getStdin) (← IO.getStdout) { server := s, files := fs }
  IO.FS.removeDirAll dir
  match ending.causes with
  | [] => pure 0
  | causes =>
    (← IO.getStderr).putStr (Report.error "Lua language server stopped" causes)
    pure 1

end LuaLens

/-- Serves when it is called by the name of the server, and asks otherwise. -/
def main (args : List String) : IO UInt32 := do
  if (← IO.appPath).fileName == some LuaLens.Server.name then LuaLens.serveLua
  else LuaLens.runArguments args
