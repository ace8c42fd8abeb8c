import LuaLens.Host.Editor
import LuaLens.Wire.FarEnd

/-!
Which programs can be started as servers, and what they do.
-/

namespace LuaLens

/-- What a program does when it is started. -/
inductive Program
  /-- The server of this library; its indexes have their private directories below a common one. -/
  | server (caches : Path)
  /-- Sends back what it hears. -/
  | echo
  /-- Ends at once. -/
  | quits

namespace Program

/-- A name that no entry of a directory has. -/
def freshName (fs : FileSystem) (dir : Path) : String :=
  match fs.locate dir with
  | .ok loc => toString (fs.children loc).length
  | .error _ => "0"

/-- A program that runs, and the files that it made. -/
def start (fs : FileSystem) : Program → FarEnd × FileSystem
  | .server caches =>
    let (s, fs) := Server.create fs (caches.join (freshName fs caches))
    (.server s false, fs)
  | .echo => (.echo, fs)
  | .quits => (.gone, fs)

/-- Whether a command names a file rather than a program to be looked for. -/
def isFileName (command : String) : Bool := command.toList.contains '/'

/-- Starts the programs of a table. A command that names some other file is refused, and one that
names nothing is not found. -/
def launcher (programs : ServerCommand → Option Program) : Launcher FarEnd := fun command root fs =>
  if !fs.isDirectory root then .error FileSystem.Fault.notFound.message
  else
    match programs command with
    | some p => .ok (p.start fs)
    | none =>
      if isFileName command.command && fs.exists? (root.join command.command) then
        .error "Permission denied (os error 13)"
      else .error FileSystem.Fault.notFound.message

end Program

end LuaLens
