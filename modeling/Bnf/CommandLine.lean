import Bnf.Grammar.Parse
import Bnf.Grammar.Print
import Bnf.Json.Codec
import Bnf.Json.Read
import Bnf.Text.WhiteSpace

/-!
# The command line

The command reads a grammar from a file or from its standard input and writes it in one of three
forms: as a grammar without groups and repetitions, as a dump of its flat rules, or as the JSON form
of its raw table. All that the command reads is given to it, and all that it writes is its result;
reading and writing as such are left to the program around it.

## Main definitions

- `Arguments.read` — the meaning of an argument list
- `Environment` — what the command can read
- `Outcome` — what it writes, and its exit code
- `CommandLine.run` — the command
-/

namespace Bnf

/-- The form in which a grammar is written. -/
inductive OutputForm where
  | grammar
  | flat
  | raw
deriving DecidableEq

/-- What the arguments ask for. -/
structure Arguments where
  form : OutputForm := .grammar
  config : Option String := none
  /-- The name of the root, which goes before that of the options. -/
  root : Option String := none
  path : Option String := none
deriving DecidableEq

/-- Why a file or the standard input has no text. -/
inductive ReadFault where
  | notFound
  | isDirectory
  /-- The path goes through a file, or ends in a slash behind one. -/
  | notDirectory
  | notPermitted
  | nameTooLong
  | notText
  | other (message : String)
deriving DecidableEq

def ReadFault.message : ReadFault → String
  | notFound => "No such file or directory (os error 2)"
  | isDirectory => "Is a directory (os error 21)"
  | notDirectory => "Not a directory (os error 20)"
  | notPermitted => "Permission denied (os error 13)"
  | nameTooLong => "File name too long (os error 36)"
  | notText => "stream did not contain valid UTF-8"
  | other message => message

def usage : String :=
  "Usage: dump [--flat | --raw] [--config <options.json>] [--root <name>] [grammar.gbnf]"

/-- Why the command fails. -/
inductive CommandFault where
  | missingConfigPath
  | missingRootName
  | unknownFlag (flag : String)
  | secondPath
  | unreadableConfig (path : String) (fault : ReadFault)
  /-- The text of the options file holds no options, for what `message` says. -/
  | invalidConfig (path message : String)
  | unreadableGrammar (path : String) (fault : ReadFault)
  | unreadableInput (fault : ReadFault)
  /-- The text called `name` is refused for what `message` says. -/
  | refusedGrammar (name message : String)
deriving DecidableEq

def CommandFault.message : CommandFault → String
  | missingConfigPath => "Expected a path after --config"
  | missingRootName => "Expected a name after --root"
  | unknownFlag flag => s!"Unknown flag {flag}\n{usage}"
  | secondPath => s!"Only one grammar file is accepted\n{usage}"
  | unreadableConfig path fault => s!"Failed to read config {path}: {fault.message}"
  | invalidConfig path message => s!"Invalid config {path}: {message}"
  | unreadableGrammar path fault => s!"Failed to read {path}: {fault.message}"
  | unreadableInput fault => s!"Failed to read stdin: {fault.message}"
  | refusedGrammar name message => s!"{name}: {message}"

/-! ## Arguments -/

/-- What an argument is, unless it belongs to the one before. -/
inductive Argument where
  | form (form : OutputForm)
  | config
  | root
  | help
  | unknown (flag : String)
  | path (path : String)
deriving DecidableEq

/-- What an argument is: a flag by its name, else an unknown flag if it starts with two hyphens,
    else a path. -/
def Argument.ofString (s : String) : Argument :=
  if s = "--flat" then .form .flat
  else if s = "--raw" then .form .raw
  else if s = "--config" then .config
  else if s = "--root" then .root
  else if s = "-h" || s = "--help" then .help
  else if s.toList.take 2 = ['-', '-'] then .unknown s
  else .path s

/-- The meaning of an argument list. -/
inductive Request where
  | write (arguments : Arguments)
  | help
  | refuse (fault : CommandFault)
deriving DecidableEq

/-- **The meaning of the arguments that are left**, behind those that ask for `found`. They are read
    in order; a call for help and a fault end the reading. -/
def Arguments.read (found : Arguments) : List String → Request
  | [] => .write found
  | argument :: rest =>
    match Argument.ofString argument with
    | .form form => Arguments.read { found with form } rest
    | .config =>
      match rest with
      | [] => .refuse .missingConfigPath
      | path :: rest => Arguments.read { found with config := some path } rest
    | .root =>
      match rest with
      | [] => .refuse .missingRootName
      | name :: rest => Arguments.read { found with root := some name } rest
    | .help => .help
    | .unknown flag => .refuse (.unknownFlag flag)
    | .path path =>
      if found.path.isSome then .refuse .secondPath
      else Arguments.read { found with path := some path } rest

/-! ## The command -/

/-- What the command can read, and the words of others that it passes on. -/
structure Environment where
  file : String → Except ReadFault String
  input : Except ReadFault String
  /-- What is said about a text that holds no options. The wording is not the command's own. -/
  refusal : String → String
  /-- The reports that are shown: those of this level and of those that matter more, or none. -/
  level : Option Level

/-- What the command writes, and its exit code. -/
structure Outcome where
  code : UInt32
  output : String
  errors : String
deriving DecidableEq

namespace CommandLine

/-- The level with a name, in capitals or not. Without a known name warnings are shown. -/
def levelNamed (name : String) : Option Level :=
  let wanted := name.toList.map Char.toUpper
  if wanted = "OFF".toList then none
  else some (([.error, .warn, .info, .debug, .trace].find? (fun level : Level =>
    level.name.toList = wanted)).getD .warn)

/-- The line of a report, if reports of its level are shown. -/
def reportLine (shown : Option Level) (level : Level) (message : String) : String :=
  if ((shown.map (·.rank)).getD 0) < level.rank then "" else s!" [{level.name}] {message}\n"

def reportLines (shown : Option Level) (events : Array Event) : String :=
  String.join (events.toList.map fun event => reportLine shown event.level event.message)

/-- The options of the options file, or the default ones. -/
def configured (env : Environment) (arguments : Arguments) : Except CommandFault ParseOptions :=
  match arguments.config with
  | none => .ok {}
  | some path =>
    match env.file path with
    | .error fault => .error (.unreadableConfig path fault)
    | .ok text =>
      match (Json.parse? text).bind ParseOptions.ofJson? with
      | none => .error (.invalidConfig path (env.refusal text))
      | some options => .ok options

/-- The options that hold: those of the options file, with the root of the arguments. -/
def options (env : Environment) (arguments : Arguments) : Except CommandFault ParseOptions :=
  (configured env arguments).map fun options =>
    { options with root := arguments.root <|> options.root }

def source (env : Environment) (arguments : Arguments) : Except CommandFault String :=
  match arguments.path with
  | some path => (env.file path).mapError (.unreadableGrammar path)
  | none => env.input.mapError .unreadableInput

def sourceName (arguments : Arguments) : String :=
  arguments.path.getD "<stdin>"

def render (form : OutputForm) (g : Grammar) : String :=
  match form with
  | .grammar => g.text
  | .flat => g.flatText
  | .raw => g.encode.toJson.pretty

def failure (reports : String) (fault : CommandFault) : Outcome :=
  ⟨1, "", reports ++ s!"Error: {fault.message}\n"⟩

def writeGrammar (env : Environment) (arguments : Arguments) (options : ParseOptions)
    (text : String) : Outcome :=
  let reading := Grammar.read text options
  let reports := reportLines env.level reading.events
  let name := sourceName arguments
  match reading.result with
  | .error e => failure reports (.refusedGrammar name (e.message text))
  | .ok g =>
    ⟨0, trimEnd (render arguments.form g) ++ "\n",
      reports ++ reportLine env.level .info s!"{name}: {g.size} rules"⟩

def perform (env : Environment) (arguments : Arguments) : Outcome :=
  match options env arguments with
  | .error fault => failure "" fault
  | .ok options =>
    match source env arguments with
    | .error fault => failure "" fault
    | .ok text => writeGrammar env arguments options text

/-- **The command**, called with a list of arguments. -/
def run (env : Environment) (args : List String) : Outcome :=
  match Arguments.read {} args with
  | .help => ⟨0, usage ++ "\n", ""⟩
  | .refuse fault => failure "" fault
  | .write arguments => perform env arguments

end CommandLine

end Bnf
