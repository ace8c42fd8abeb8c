import LuaLens.FileSystem
import LuaLens.Toml.Document

/-!
Which program serves a language: what the user says, else a usual one.
-/

namespace LuaLens

/-- How a server is started. -/
structure ServerCommand where
  command : String
  args : List String := []
  /-- What it is told when it is initialized. -/
  options : Option Json := none

/-- The settings of a user: the programs by language. -/
structure HostConfig where
  servers : List (String × ServerCommand) := []
  /-- The program that serves Lua when the user names none. -/
  bundled : String := "quill-lua-server"

namespace HostConfig

/-- Why settings cannot be read from a file. -/
inductive Fault
  | read (path : Path) (fault : FileSystem.Fault)
  | parse (path : Path)
deriving DecidableEq, Repr

def Fault.message : Fault → String
  | .read path fault => "Failed to read config file " ++ path.text ++ ": " ++ fault.message
  | .parse path => "Invalid config format in " ++ path.text

/-- The entry of a language: a table, or an array of the command, its arguments and its options. -/
def commandOf? : Toml → Option ServerCommand
  | .table members => do
    let command ← (← Toml.get? "command" members).str?
    let args ← match Toml.get? "args" members with
      | some v => v.strings?
      | none => some []
    pure { command, args, options := (Toml.get? "init_options" members).map Toml.toJson }
  | .arr (command :: args :: options :: _) => do
    pure { command := ← command.str?, args := ← args.strings?, options := some options.toJson }
  | _ => none

def parse? (text : String) : Option HostConfig := do
  let members ← Toml.parse? text
  match Toml.get? "servers" members with
  | none => pure {}
  | some v => do
    let servers ← (← v.members?).mapM fun (name, v) => (commandOf? v).map fun e => (name, e)
    pure { servers }

def load (fs : FileSystem) (p : Path) : Except Fault HostConfig := do
  let text ← (fs.readText p).mapError (Fault.read p)
  match parse? text with
  | some config => pure config
  | none => throw (.parse p)

/-- The usual program of a language. -/
def usual? (config : HostConfig) : String → Option ServerCommand
  | "lua" => some { command := config.bundled }
  | "rust" => some { command := "rust-analyzer" }
  | "python" => some { command := "pyright-langserver", args := ["--stdio"] }
  | "javascript" | "typescript" =>
    some { command := "typescript-language-server", args := ["--stdio"] }
  | _ => none

/-- The program that serves a language. -/
def command? (config : HostConfig) (language : String) : Option ServerCommand :=
  (config.servers.lookup language).or (config.usual? language)

/-- The files that may hold the settings of a user, in the order in which they count. -/
def places (configHome home : Path) : List Path :=
  [(configHome.join "quill").join "config.toml", (home.join ".quill").join "config.toml"]

/-- The settings of a user, from the first file that exists; a file that cannot be read counts for
nothing. -/
def find (fs : FileSystem) (configHome home : Path) : HostConfig :=
  match (places configHome home).find? fs.exists? with
  | some p => (load fs p).toOption.getD {}
  | none => {}

end HostConfig

end LuaLens
