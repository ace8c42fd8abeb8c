import LuaLens.Path

/-!
The command line: options, a command, and its arguments. Arguments are taken from left to right; the
value of an argument is checked when the next one of its level is taken, so that of two faults the
one that is noticed first counts, and a call for help stops everything after it.
-/

namespace LuaLens

/-- A question about a place in a file. -/
inductive Question
  | complete
  | hover
  | signature
  | definition
deriving DecidableEq, Repr

def Question.name : Question → String
  | .complete => "complete"
  | .hover => "hover"
  | .signature => "signature"
  | .definition => "definition"

/-- A place in a file; line and column are counted from one. -/
structure Spot where
  file : Path
  line : Nat
  column : Nat
deriving DecidableEq, Repr

/-- The line and the column counted from zero. -/
def Spot.caret (s : Spot) : Nat × Nat := (s.line - 1, s.column - 1)

inductive Command
  /-- Prints the corpus of a project. -/
  | index (root : Path) (api : Bool)
  | ask (question : Question) (spot : Spot)
  | symbols (file : Path)
  | workspaceSymbol (file : Path) (query : String)
deriving DecidableEq, Repr

namespace Command

def name : Command → String
  | .index .. => "index"
  | .ask question _ => question.name
  | .symbols _ => "symbols"
  | .workspaceSymbol .. => "workspace-symbol"

/-- The file that the command is about. -/
def file? : Command → Option Path
  | .index .. => none
  | .ask _ spot => some spot.file
  | .symbols file | .workspaceSymbol file _ => some file

end Command

structure CommandLine where
  /-- The settings to use in place of those of the user. -/
  config : Option Path
  command : Command
deriving DecidableEq, Repr

namespace CommandLine

/-- Why there is nothing to run. -/
inductive Stop
  | help
  | version
  | usage
deriving DecidableEq, Repr

/-! ### Values -/

/-- What an argument of a command has to be. -/
inductive Slot
  | path
  | number
  | text
deriving DecidableEq, Repr

/-- A number below `2 ^ 64` in decimal digits, with a plus sign or without. -/
def number? (s : String) : Option Nat :=
  let digits := match s.toList with
    | '+' :: rest => rest
    | all => all
  let value := digits.foldl (fun n c => 10 * n + (c.toNat - '0'.toNat)) 0
  if !digits.isEmpty && digits.all Char.isDigit && value < 18446744073709551616 then some value else none

def Slot.accepts (value : String) : Slot → Bool
  | .path => !value.isEmpty
  | .number => (number? value).isSome
  | .text => true

/-! ### Levels -/

/-- The command that a word names, before its arguments are known. -/
inductive Verb
  | index
  | ask (question : Question)
  | symbols
  | workspaceSymbol
deriving DecidableEq, Repr

namespace Verb

def ofName? : String → Option Verb
  | "index" => some .index
  | "complete" => some (.ask .complete)
  | "hover" => some (.ask .hover)
  | "signature" => some (.ask .signature)
  | "definition" => some (.ask .definition)
  | "symbols" => some .symbols
  | "workspace-symbol" => some .workspaceSymbol
  | _ => none

/-- The arguments of a command, in order. -/
def slots : Verb → List Slot
  | .index | .symbols => [.path]
  | .ask _ => [.path, .number, .number]
  | .workspaceSymbol => [.path, .text]

end Verb

inductive Flag
  | config
  | api
  | help
  | version
deriving DecidableEq, Repr

/-- Where an argument stands: before the command, or after it. -/
inductive Level
  | top
  | inside (verb : Verb)
deriving DecidableEq, Repr

namespace Level

/-- The flag with a name of several letters. -/
def long? (l : Level) : String → Option Flag
  | "config" => some .config
  | "help" => some .help
  | "version" => if l = .top then some .version else none
  | "api" => if l = .inside .index then some .api else none
  | _ => none

/-- The flag of a letter. -/
def short? (l : Level) : Char → Option Flag
  | 'c' => some .config
  | 'h' => some .help
  | 'V' => if l = .top then some .version else none
  | _ => none

def slots : Level → List Slot
  | .top => []
  | .inside verb => verb.slots

end Level

/-- What an argument is by its form. -/
inductive Token
  /-- All that follows are words. -/
  | escape
  | flag (flag : Option Flag) (value : Option String)
  | word
deriving DecidableEq, Repr

/-- A letter takes what follows it as its value, after an equals sign or without. Only the settings
take one: the other letters stop the reading. -/
def attached (flag : Option Flag) (rest : List Char) : Option String :=
  if flag = some .config then
    match rest with
    | [] => none
    | '=' :: value => some (String.ofList value)
    | value => some (String.ofList value)
  else none

def Level.token (l : Level) (arg : String) : Token :=
  match arg.toList with
  | ['-', '-'] => .escape
  | '-' :: '-' :: s =>
    let name := s.takeWhile (· != '=')
    let value := match s.dropWhile (· != '=') with
      | [] => none
      | _ :: value => some (String.ofList value)
    .flag (l.long? (String.ofList name)) value
  | '-' :: c :: s => .flag (l.short? c) (attached (l.short? c) s)
  | _ => .word

/-! ### Reading -/

/-- An argument that was taken and not checked yet. -/
inductive Pending
  /-- The settings, with their value once it has come. -/
  | config (value : Option String)
  | word (slot : Slot) (value : String)
deriving DecidableEq, Repr

/-- What was read of a level. -/
structure Reading where
  config : Option String := none
  api : Bool := false
  words : List String := []
  pending : Option Pending := none

namespace Reading

/-- Notes the settings, which are named once. -/
def setConfig (r : Reading) (value : String) : Except Stop Reading :=
  if value.isEmpty || r.config.isSome then .error .usage else .ok { r with config := some value }

/-- Checks the argument taken last. -/
def settle (r : Reading) : Except Stop Reading :=
  let done : Reading := { r with pending := none }
  match r.pending with
  | none => .ok r
  | some (.config none) => .error .usage
  | some (.config (some value)) => done.setConfig value
  | some (.word slot value) =>
    if slot.accepts value then .ok { done with words := r.words ++ [value] } else .error .usage

def awaitsValue (r : Reading) : Bool := r.pending = some (.config none)

def takeFlag (r : Reading) (flag : Flag) (value : Option String) : Except Stop Reading := do
  let r ← r.settle
  match flag, value with
  | .config, some value => r.setConfig value
  | .config, none => .ok { r with pending := some (.config none) }
  | .api, none => if r.api then .error .usage else .ok { r with api := true }
  | .help, none => .error .help
  | .version, none => .error .version
  | _, some _ => .error .usage

/-- Takes a word as the next argument. -/
def takeWord (r : Reading) (l : Level) (word : String) : Except Stop Reading := do
  let r ← r.settle
  match l.slots[r.words.length]? with
  | some slot => .ok { r with pending := some (.word slot word) }
  | none => .error .usage

/-- Reads the arguments of a command. -/
def readInside (l : Level) (escaped : Bool) (r : Reading) : List String → Except Stop Reading
  | [] => r.settle
  | arg :: rest => do
    if escaped then readInside l true (← r.takeWord l arg) rest
    else
      match l.token arg with
      | .escape => readInside l true r rest
      | .flag none _ => .error .usage
      | .flag (some flag) value => readInside l false (← r.takeFlag flag value) rest
      | .word =>
        if r.awaitsValue then readInside l false { r with pending := some (.config (some arg)) } rest
        else readInside l false (← r.takeWord l arg) rest

end Reading

/-- The command of a verb and the words after it. -/
def commandOf (verb : Verb) (r : Reading) : Except Stop Command :=
  match verb, r.words with
  | .index, [root] => .ok (.index ⟨root⟩ r.api)
  | .ask question, [file, line, column] =>
    match number? line, number? column with
    | some line, some column => .ok (.ask question { file := ⟨file⟩, line, column })
    | _, _ => .error .usage
  | .symbols, [file] => .ok (.symbols ⟨file⟩)
  | .workspaceSymbol, [file, query] => .ok (.workspaceSymbol ⟨file⟩ query)
  | _, _ => .error .usage

/-- Whether there is help about the words after `help`. -/
def isTopic : List String → Bool
  | [] => true
  | [word] => word == "help" || (Verb.ofName? word).isSome
  | _ => false

/-- Reads up to the command, and the command. Settings named after the command count before those
named in front of it. -/
def readTop (r : Reading) : List String → Except Stop CommandLine
  | [] => .error .usage
  | arg :: rest => do
    match Level.top.token arg with
    | .escape | .flag none _ => .error .usage
    | .flag (some flag) value => readTop (← r.takeFlag flag value) rest
    | .word =>
      if r.awaitsValue then readTop { r with pending := some (.config (some arg)) } rest
      else if arg == "help" then .error (if isTopic rest then .help else .usage)
      else
        match Verb.ofName? arg with
        | none => .error .usage
        | some verb => do
          let inner ← Reading.readInside (.inside verb) false {} rest
          let command ← commandOf verb inner
          let outer ← r.settle
          .ok { config := (inner.config.or outer.config).map Path.mk, command }

def parse (args : List String) : Except Stop CommandLine := readTop {} args

end CommandLine

end LuaLens
