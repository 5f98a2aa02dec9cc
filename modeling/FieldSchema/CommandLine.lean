/-! The command line: what a list of arguments asks for. -/
namespace FieldSchema

/-- What can be made of a schema. -/
inductive Product where
  | normalized | wire | objectSchema
  deriving DecidableEq

inductive Command where
  | doctor
  /-- `overlay` is laid over the schema. -/
  | compile (product : Product) (schema : String) (overlay : Option String)
  | extract (schema document : String) (validate : Bool)
  deriving DecidableEq

inductive CommandName where
  | doctor
  | compile (product : Product)
  | extract
  deriving DecidableEq

/-- What help can be asked for. -/
inductive Topic where
  | general
  | command (name : CommandName)
  | help
  deriving DecidableEq

inductive Invocation where
  | version
  | help (topic : Topic)
  | run (config : Option String) (command : Command)
  deriving DecidableEq

namespace CommandName

def parse? : String → Option CommandName
  | "doctor" => some .doctor
  | "normalize" => some (.compile .normalized)
  | "wire" => some (.compile .wire)
  | "object-schema" => some (.compile .objectSchema)
  | "extract" => some .extract
  | _ => none

def hasOverlay : CommandName → Bool
  | .compile _ => true
  | _ => false

def hasValidate : CommandName → Bool
  | .extract => true
  | _ => false

/-- How many names of files a command takes. -/
def arity : CommandName → Nat
  | .doctor => 0
  | .compile _ => 1
  | .extract => 2

end CommandName

namespace CommandLine

/-- What was given to a command so far; files come last first. -/
structure Given where
  config : Option String
  overlay : Option String
  validate : Bool
  files : List String

def Given.nothing : Given := ⟨none, none, false, []⟩

inductive Switch where
  | config | overlay
  deriving DecidableEq

/-- An option is given once, with a value that is not empty. -/
def Given.setOption (given : Given) : Switch → String → Option Given
  | .config, value =>
    if given.config.isSome || value.isEmpty then none else some { given with config := value }
  | .overlay, value =>
    if given.overlay.isSome || value.isEmpty then none else some { given with overlay := value }

def option? (name : Option CommandName) (word : String) : Option Switch :=
  if word = "--config" then some .config
  else if word = "--private" && name.any CommandName.hasOverlay then some .overlay
  else none

/-- A word with a dash in front is an option, but a dash alone is not. -/
def isOption (word : String) : Bool := word.startsWith "-" && word ≠ "-"

/-- An option that has its value behind an equals sign. -/
def joined? (name : Option CommandName) (word : String) : Option (Switch × String) :=
  match word.splitOn "=" with
  | key :: first :: rest => (option? name key).map (·, "=".intercalate (first :: rest))
  | _ => none

def isHelp (word : String) : Bool := word = "--help" || word.startsWith "-h"

def isVersion (word : String) : Bool := word = "--version" || word.startsWith "-V"

def addFile (name : CommandName) (given : Given) (file : String) : Option Given :=
  if file.isEmpty || name.arity ≤ given.files.length then none
  else some { given with files := file :: given.files }

/-- The command, if all its files are there. The options of a command win over those before it. -/
def finish (name : CommandName) (before : Given) (given : Given) : Option Invocation :=
  let config := given.config.or before.config
  match name, given.files with
  | .doctor, [] => some (.run config .doctor)
  | .compile product, [schema] => some (.run config (.compile product schema given.overlay))
  | .extract, [document, schema] => some (.run config (.extract schema document given.validate))
  | _, _ => none

/-- The arguments behind the name of a command. -/
def readCommand (name : CommandName) (before : Given) : Given → List String → Option Invocation
  | given, [] => finish name before given
  | given, word :: rest =>
    if word = "--" then do
      finish name before (← rest.foldlM (addFile name) given)
    else if isHelp word then some (.help (.command name))
    else if word = "--validate" && name.hasValidate then
      if given.validate then none else readCommand name before { given with validate := true } rest
    else
      match joined? (some name) word, option? (some name) word, rest with
      | some (option, value), _, rest => do
        readCommand name before (← given.setOption option value) rest
      | _, some option, value :: rest =>
        if isOption value then none
        else do readCommand name before (← given.setOption option value) rest
      | _, some _, [] => none
      | _, _, rest =>
        if isOption word then none
        else do readCommand name before (← addFile name given word) rest

def readHelp : List String → Option Invocation
  | [] => some (.help .general)
  | ["help"] => some (.help .help)
  | [word] => (CommandName.parse? word).map fun name => .help (.command name)
  | _ => none

/-- The arguments up to the name of the command. -/
def readFirst : Given → List String → Option Invocation
  | _, [] => none
  | given, word :: rest =>
    if isHelp word then some (.help .general)
    else if isVersion word then some .version
    else if word = "help" then readHelp rest
    else
      match joined? none word, option? none word, rest with
      | some (option, value), _, rest => do readFirst (← given.setOption option value) rest
      | _, some option, value :: rest =>
        if isOption value then none else do readFirst (← given.setOption option value) rest
      | _, some _, [] => none
      | _, _, rest =>
        match CommandName.parse? word with
        | some name => readCommand name given .nothing rest
        | _ => none

/-- What the arguments ask for; none if they are not usage. -/
def parse? (arguments : List String) : Option Invocation := readFirst .nothing arguments

/-! Help. -/

def usage : String := "Usage: cval [OPTIONS] <COMMAND>"

def configHelp : String :=
  "Configuration file (default: $XDG_CONFIG_HOME/combined-validator/config.toml)"

def generalHelp : List String :=
  ["Compile declarative field descriptions into object schemas, wire schemas and validators", "",
    usage, "", "Commands:",
    "  doctor         Validate configuration and print resolved settings",
    "  normalize      Print the normalized form of a schema",
    "  wire           Print the wire schema (JSON Type Definition) of a schema",
    "  object-schema  Print the object schema built from a schema",
    "  extract        Keep the declared fields of a document, type-checked",
    "  help           Print this message or the help of the given subcommand(s)", "", "Options:",
    "      --config <CONFIG>  " ++ configHelp,
    "  -h, --help             Print help",
    "  -V, --version          Print version"]

def doctorHelp : List String :=
  ["Validate configuration and print resolved settings", "",
    "Usage: cval doctor [OPTIONS]", "", "Options:",
    "      --config <CONFIG>  " ++ configHelp,
    "  -h, --help             Print help"]

def extractHelp : List String :=
  ["Keep the declared fields of a document, type-checked", "",
    "Usage: cval extract [OPTIONS] <SCHEMA> <DATA>", "", "Arguments:",
    "  <SCHEMA>  Schema file (JSON or YAML)",
    "  <DATA>    Document to extract from (JSON or YAML)", "", "Options:",
    "      --config <CONFIG>  " ++ configHelp,
    "      --validate         Also check enums, length rules and cross-field rules",
    "  -h, --help             Print help"]

def productName : Product → String
  | .normalized => "normalize"
  | .wire => "wire"
  | .objectSchema => "object-schema"

def productHelp : Product → String
  | .normalized => "Print the normalized form of a schema"
  | .wire => "Print the wire schema (JSON Type Definition) of a schema"
  | .objectSchema => "Print the object schema built from a schema"

def compileHelp (product : Product) : List String :=
  [productHelp product, "", "Usage: cval " ++ productName product ++ " [OPTIONS] <SCHEMA>", "",
    "Arguments:", "  <SCHEMA>  Schema file (JSON or YAML)", "", "Options:",
    "      --config <CONFIG>    " ++ configHelp,
    "      --private <PRIVATE>  Private schema merged over the public one",
    "  -h, --help               Print help"]

def helpHelp : List String :=
  ["Print this message or the help of the given subcommand(s)", "",
    "Usage: cval help [COMMAND]...", "", "Arguments:",
    "  [COMMAND]...  Print help for the subcommand(s)"]

def help : Topic → List String
  | .general => generalHelp
  | .command .doctor => doctorHelp
  | .command (.compile product) => compileHelp product
  | .command .extract => extractHelp
  | .help => helpHelp

end CommandLine

end FieldSchema
