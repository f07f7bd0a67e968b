import Playbook.Completion.Basic
import Playbook.JsonText
import Playbook.Session
import Playbook.Workspace

/-!
The command line: what the arguments ask for, and what is printed.
-/

namespace Playbook

namespace CommandLine

/-- What the program is told to do. -/
inductive Action
  | serve
  | complete (file : String) (place : Option Cursor) (asJson : Bool)
  | modules (pattern : String)
  deriving Repr, DecidableEq, Inhabited

structure Invocation where
  /-- The file of settings, if one is named. -/
  configFile : Option String
  action : Action
  deriving Repr, DecidableEq, Inhabited

/-- The commands by name. -/
inductive Command
  | serve
  | complete
  | modules
  deriving Repr, DecidableEq, Inhabited

namespace Command

def all : List Command := [serve, complete, modules]

def name : Command → String
  | serve => "serve"
  | complete => "complete"
  | modules => "modules"

def ofName? (s : String) : Option Command := all.find? (·.name == s)

end Command

/-- What there is help on. -/
inductive Topic
  | program
  | command (c : Command)
  | help
  deriving Repr, DecidableEq, Inhabited

/-- What arguments come to. -/
inductive Parsed
  | run (invocation : Invocation)
  | version
  | help (topic : Topic)
  | misused
  deriving Repr, DecidableEq, Inhabited

/-- Options with a value. -/
inductive Setting
  | config
  | logLevel
  | line
  | column
  deriving Repr, DecidableEq, Inhabited

namespace Setting

def all : List Setting := [config, logLevel, line, column]

def flag : Setting → String
  | config => "--config"
  | logLevel => "--log-level"
  | line => "--line"
  | column => "--column"

/-- Whether an option may stand here. Two may stand anywhere. -/
def isFor (command : Option Command) : Setting → Bool
  | config => true
  | logLevel => true
  | _ => command == some .complete

/-- Whether a value is one for the option: paths have a name, places are numbers of 64 bits. -/
def admits (value : String) : Setting → Bool
  | config => !value.isEmpty
  | logLevel => true
  | _ => (readNat? 10 value.toList).any (· < Nat.pow 2 64)

end Setting

/-- What the arguments of one command have said so far. -/
structure Arguments where
  settings : List (Setting × String)
  asJson : Bool
  operand : Option String
  deriving Repr, DecidableEq, Inhabited

def Arguments.none : Arguments := ⟨[], false, .none⟩

/-- Options before the command, and the arguments of the command if there is one. -/
structure Layers where
  outer : Arguments
  command : Option Command
  inner : Arguments
  deriving Repr, DecidableEq, Inhabited

namespace Layers

/-- The arguments of the current layer. -/
def current (l : Layers) : Arguments := if l.command.isSome then l.inner else l.outer

def withCurrent (l : Layers) (a : Arguments) : Layers :=
  if l.command.isSome then { l with inner := a } else { l with outer := a }

/-- Give an option its value, which may happen once in a layer. -/
def set? (l : Layers) (setting : Setting) (value : String) : Option Layers :=
  if (l.current.settings.lookup setting).isSome || !setting.admits value then none
  else some (l.withCurrent { l.current with settings := (setting, value) :: l.current.settings })

/-- Take an operand: a command has at most one. A file has a name. -/
def operand? (l : Layers) (value : String) : Option Layers :=
  if l.current.operand.isSome then none
  else
    match l.command with
    | some .complete => if value.isEmpty then none else some (accept value)
    | some .modules => some (accept value)
    | _ => none
where
  accept (value : String) : Layers := l.withCurrent { l.current with operand := some value }

def json? (l : Layers) : Option Layers :=
  if l.command == some .complete && !l.current.asJson then
    some (l.withCurrent { l.current with asJson := true })
  else none

/-- The value of an option, the one behind the command prevailing. -/
def setting? (l : Layers) (setting : Setting) : Option String :=
  (l.inner.settings.lookup setting).orElse fun _ => l.outer.settings.lookup setting

/-- A place has both a line and a column, or neither is given. -/
def place? (l : Layers) : Option (Option Cursor) :=
  let number (s : Setting) : Option Nat := (l.setting? s).bind fun v => readNat? 10 v.toList
  match number .line, number .column with
  | some line, some column => some (some ⟨line, column⟩)
  | none, none => some none
  | _, _ => none

/-- What the arguments ask for, once all are taken. -/
def finish (l : Layers) : Parsed :=
  let action : Option Action :=
    match l.command with
    | none => some .serve
    | some .serve => some .serve
    | some .modules => some (.modules (l.inner.operand.getD ""))
    | some .complete => do return .complete (← l.inner.operand) (← l.place?) l.inner.asJson
  match action with
  | some action => .run ⟨l.setting? .config, action⟩
  | none => .misused

end Layers

/-- An option that stands here, with the value that is attached to it by an equals sign. -/
def settingHere? (l : Layers) (argument : String) : Option (Setting × Option String) :=
  Setting.all.findSome? fun s =>
    let rest := argument.toList.drop s.flag.length
    if !s.isFor l.command || !s.flag.toList.isPrefixOf argument.toList then none
    else
      match rest with
      | [] => some (s, none)
      | '=' :: value => some (s, some (String.ofList value))
      | _ => none

/-- A lone hyphen is no option. -/
def isOption (argument : String) : Bool :=
  argument.toList.head? == some '-' && argument != "-"

/-- The answer to `help` with some commands. -/
def helpOn : List String → Parsed
  | [] => .help .program
  | ["help"] => .help .help
  | [name] => (Command.ofName? name).elim .misused fun command => .help (.command command)
  | _ => .misused

/-- Read operands only. -/
def parseOperands : List String → Layers → Parsed
  | [], l => l.finish
  | argument :: rest, l =>
      match l.operand? argument with
      | some l => parseOperands rest l
      | none => .misused

/-- Read arguments from the left. Behind two hyphens stand operands only. -/
def parseFrom : List String → Layers → Parsed
  | [], l => l.finish
  | argument :: rest, l =>
      if argument == "--" then parseOperands rest l
      else if argument == "--help" || "-h".toList.isPrefixOf argument.toList then
        .help (l.command.elim .program .command)
      else if l.command.isNone &&
          (argument == "--version" || "-V".toList.isPrefixOf argument.toList) then .version
      else if argument == "--json" then
        match l.json? with
        | some l => parseFrom rest l
        | none => .misused
      else
        match settingHere? l argument, rest with
        | some (setting, some value), rest =>
            match l.set? setting value with
            | some l => parseFrom rest l
            | none => .misused
        | some (setting, none), value :: rest =>
            match if isOption value then none else l.set? setting value with
            | some l => parseFrom rest l
            | none => .misused
        | some (_, none), [] => .misused
        | none, rest =>
            if isOption argument then .misused
            else if l.command.isSome then
              match l.operand? argument with
              | some l => parseFrom rest l
              | none => .misused
            else if argument == "help" then helpOn rest
            else
              match Command.ofName? argument with
              | some command => parseFrom rest { l with command := some command }
              | none => .misused

def parse (arguments : List String) : Parsed :=
  parseFrom arguments ⟨.none, none, .none⟩

/-! ### Texts -/

def optionsHelp : List (String × String) :=
  [("    --config <CONFIG>", "Config file (defaults to <config dir>/playbook-lsp/config.toml)"),
    ("    --log-level <LOG_LEVEL>", "Log filter, e.g. \x60debug\x60 or \x60playbook_lsp=trace\x60")]

/-- Two columns, the second aligned. -/
def columns (rows : List (String × String)) : List String :=
  let width := rows.foldl (fun w row => max w row.1.length) 0
  rows.map fun (left, right) =>
    "  " ++ left ++ String.ofList (List.replicate (width - left.length + 2) ' ') ++ right

def Command.about : Command → String
  | .serve => "Run the language server on stdin/stdout (the default)"
  | .complete => "Print the completions for a position in a playbook file"
  | .modules => "List the modules found on the module search paths"

def helpAbout : String := "Print this message or the help of the given subcommand(s)"

def helpLines : Topic → List String
  | .program =>
      ["Completion for automation playbooks, as a language server or a one-shot command", "",
        "Usage: playbook-lsp [OPTIONS] [COMMAND]", "", "Commands:"] ++
      columns (Command.all.map (fun c => (c.name, c.about)) ++
        [("help", helpAbout)]) ++
      ["", "Options:"] ++
      columns (optionsHelp ++ [("-h, --help", "Print help"), ("-V, --version", "Print version")])
  | .command .serve =>
      [Command.about .serve, "", "Usage: playbook-lsp serve [OPTIONS]", "", "Options:"] ++
      columns (optionsHelp ++ [("-h, --help", "Print help")])
  | .command .complete =>
      [Command.about .complete, "", "Usage: playbook-lsp complete [OPTIONS] <FILE>", "",
        "Arguments:", "  <FILE>  ", "", "Options:"] ++
      columns
        (optionsHelp.take 1 ++
          [("    --line <LINE>", "0-based line (defaults to the end of the file)"),
            ("    --column <COLUMN>", "0-based column, in characters")] ++
          optionsHelp.drop 1 ++
          [("    --json", "Print JSON instead of one candidate per line"),
            ("-h, --help", "Print help")])
  | .command .modules =>
      [Command.about .modules, "", "Usage: playbook-lsp modules [OPTIONS] [PATTERN]", "",
        "Arguments:", "  [PATTERN]  Only list modules whose name contains this text", "",
        "Options:"] ++
      columns (optionsHelp ++ [("-h, --help", "Print help")])
  | .help =>
      [helpAbout, "", "Usage: playbook-lsp help [COMMAND]...", "", "Arguments:",
        "  [COMMAND]...  Print help for the subcommand(s)"]

/-! ### Running -/

/-- What a run leaves behind. -/
structure Outcome where
  code : Nat
  output : String
  errors : String
  deriving Repr, DecidableEq, Inhabited

def unlines (lines : List String) : String := String.join (lines.map (· ++ "\n"))

namespace Outcome

def success (output : String) : Outcome := ⟨0, output, ""⟩

def failure (errors : String) : Outcome := ⟨1, "", errors⟩

def misuse : Outcome := ⟨2, "", ""⟩

/-- The program was stopped. What it says then is not its own. -/
def crash : Outcome := ⟨101, "", ""⟩

end Outcome

def candidateLine : Candidate → String
  | .directive d => "directive\t" ++ d.name
  | .moduleName m => "module\t" ++ m.name
  | .parameter _ name => "parameter\t" ++ name

def candidateJson : Candidate → JsonText
  | .directive d =>
      .object [("type", .string "directive"), ("name", .string d.name),
        ("kinds", .array (d.kinds.toList.map fun k => .string k.label))]
  | .moduleName m =>
      .object [("type", .string "module"), ("name", .string m.name),
        ("path", (m.path.map .string).getD .null)]
  | .parameter owner name =>
      .object [("type", .string "parameter"), ("module", .string owner), ("name", .string name)]

def moduleLine (m : ModuleInfo) : String :=
  match m.path with
  | some path => m.name ++ "\t" ++ path
  | none => m.name

/-- Print the completions for a file. -/
def complete (disk : Disk) (catalogs : Catalogs) (cap : Nat) (file : String) (place : Option Cursor)
    (asJson : Bool) : Outcome :=
  match disk.readText file with
  | .error fault => .failure ("failed to read " ++ file ++ ": " ++ fault.message ++ "\n")
  | .ok content =>
      let request : CompletionRequest := ⟨content.toList, place, some file⟩
      match request.answer catalogs disk cap with
      | .error e => if e.diagnostic.isCrash then .crash else .failure (e.message ++ "\n")
      | .ok candidates =>
          .success <|
            if asJson then (JsonText.array (candidates.map candidateJson)).render 0 ++ "\n"
            else unlines (candidates.map candidateLine)

/-- Do what is asked. A fault in the settings or catalogs ends the run without a word. -/
def perform (disk : Disk) (env : Environment) (invocation : Invocation) : Outcome :=
  match Config.load disk env invocation.configFile with
  | .error _ => .failure ""
  | .ok config =>
      match Catalogs.load disk config env.library with
      | .error _ => .failure ""
      | .ok catalogs =>
          match invocation.action with
          | .serve => .success ""
          | .complete file place asJson =>
              complete disk catalogs config.repairCap file place asJson
          | .modules pattern =>
              .success (unlines
                ((catalogs.modules.entries.filter fun m => hasPart m.name pattern).map moduleLine))

/-- Run the program with some arguments. -/
def run (disk : Disk) (env : Environment) (arguments : List String) : Outcome :=
  match parse arguments with
  | .run invocation => perform disk env invocation
  | .version => .success (programName ++ " " ++ programVersion ++ "\n")
  | .help topic => .success (unlines (helpLines topic))
  | .misused => .misuse

end CommandLine

end Playbook
