import LuaLens.Cli.CommandLine
import LuaLens.Cli.Report
import LuaLens.Host.Programs

/-!
A run of the program: the file named on the command line is opened in an editor, its server is asked
one question, and the answer is printed.
-/

namespace LuaLens

/-- What a run sees of the system. -/
structure Surroundings where
  files : FileSystem
  home : Path
  /-- Where settings are kept. -/
  configHome : Path
  /-- Where private directories are made. -/
  caches : Path
  /-- The command of the server that comes with the program. -/
  server : String
  /-- Other programs. -/
  programs : ServerCommand → Option Program := fun _ => none

/-- What a run leaves behind. -/
structure Outcome where
  exit : Nat := 0
  out : String := ""
  err : String := ""

namespace Surroundings

/-- Starts the server that comes with the program, or another program. -/
def launcher (s : Surroundings) : Launcher FarEnd :=
  Program.launcher fun c => if c.command == s.server then some (.server s.caches) else s.programs c

end Surroundings

namespace Outcome

def failed (message : String) (causes : List String) : Outcome :=
  { exit := 1, err := Report.error message causes }

/-! ### Printing an index -/

def indexCauses : IndexError → List String
  | e@(.io _ fault) => [e.message, fault.message]
  | e => [e.message]

/-- The corpus of a project, and how large it is. -/
def ofIndex (s : Surroundings) (root : Path) (api : Bool) : Outcome :=
  let (index, files) := Index.create s.files (s.caches.join (Program.freshName s.files s.caches))
  match index.scan files root with
  | (_, _, .error e) => failed ("Cannot index " ++ root.text) (indexCauses e)
  | (index, _, .ok summary) =>
    let entries := index.projectEntries
    let stopped := if summary.truncated then
        " (stopped after " ++ toString index.config.maxScan ++ " files)" else ""
    let count := toString summary.symbols ++ " symbols in " ++ toString summary.files ++ " files" ++ stopped
    { out := if api then entries.apiText else entries.tagText
      err := Report.lines (count :: (index.root.map fun r => Label.rootMark ++ " = " ++ r.text).toList) }

/-! ### Asking a server -/

variable {π : Type} [Peer π]

/-- Moves the caret to the place that is asked about. -/
def placeCaret (spot : Spot) : Act π Unit :=
  Editor.edit fun e => { e with cursor := .within e.buffer spot.caret.1 spot.caret.2 }

/-- The lines of the answer to a command. -/
def answer : Command → Act π (List String)
  | .index .. => pure []
  | .ask question spot => do
    placeCaret spot
    match question with
    | .complete =>
      let _ ← Editor.complete
      pure (← get).1.choices.lines
    | .hover => pure (← Editor.askHover).toList
    | .signature => pure (((← Editor.askSignature).map Report.signatures).getD [])
    | .definition => pure ((← Editor.goToDefinition).map Report.place)
  | .symbols _ => do pure ((← Editor.documentSymbols).map Report.symbol)
  | .workspaceSymbol _ query => do pure ((← Editor.workspaceSymbols query).map Report.symbol)

/-- Opens a file, asks, and takes leave of the servers. -/
def ofQuestion (file : Path) (command : Command) : Act π Outcome := do
  match ← Editor.openFile file with
  | .error fault => pure (failed ("Cannot open " ++ file.text) [fault.message, fault.reason])
  | .ok () =>
    let lines ← answer command
    let status := (← get).1.status
    Editor.shutDown
    pure { out := Report.lines lines, err := Report.lines status.toList }

/-! ### Runs -/

/-- The settings named on the command line, else those of the user. -/
def settings (s : Surroundings) (named : Option Path) : Except HostConfig.Fault HostConfig := do
  let config ← match named with
    | some path => HostConfig.load s.files path
    | none => pure (HostConfig.find s.files s.configHome s.home)
  pure { config with bundled := s.server }

def settingsCauses : HostConfig.Fault → List String
  | .read _ fault => [fault.message]
  | .parse _ => []

def ofStop : CommandLine.Stop → Outcome
  | .help => { out := usage }
  | .version => { out := "quill 0.1.0\n" }
  | .usage => { exit := 2, err := usage }
where
  usage := Report.lines
    ["Usage: quill [-c CONFIG] index ROOT [--api]",
      "       quill [-c CONFIG] complete|hover|signature|definition FILE LINE COLUMN",
      "       quill [-c CONFIG] symbols FILE",
      "       quill [-c CONFIG] workspace-symbol FILE QUERY"]

/-- A run with the given arguments; `none` when it waits for an answer that does not come. -/
def ofArguments (s : Surroundings) (args : List String) : Option Outcome :=
  match CommandLine.parse args with
  | .error stop => some (ofStop stop)
  | .ok { config := _, command := .index root api } => some (ofIndex s root api)
  | .ok { config, command } =>
    match settings s config, command.file? with
    | .error fault, _ => some (failed fault.message (settingsCauses fault))
    | .ok config, some file =>
      let editor : Editor FarEnd := { config, launch := s.launcher }
      (StateT.run (OptionT.run (ofQuestion file command)) (editor, { files := s.files })).1
    | .ok _, none => some (failed "nothing to open" [])

end Outcome

end LuaLens
