import FieldSchema.CommandLine
import FieldSchema.Compiler
import FieldSchema.Config.Load
import FieldSchema.Document
import FieldSchema.LogFilter
import FieldSchema.Overlay

/-! What the command does: it reads its configuration and its documents, and writes what was asked
for, or what is wrong. -/
namespace FieldSchema.Command

/-- How the command ends, and what it writes until then. -/
structure Outcome where
  exit : Nat
  out : String
  err : String
  deriving DecidableEq

def line (s : String) : String := s ++ "\n"

def lines (ss : List String) : String := String.join (ss.map line)

namespace Outcome

def wrote (out : String) : Outcome := ⟨0, out, ""⟩

def failed (err : String) : Outcome := ⟨1, "", err⟩

/-- Puts earlier messages before those of an outcome. -/
def after (err : String) (outcome : Outcome) : Outcome := { outcome with err := err ++ outcome.err }

def refused (message : String) : Outcome := failed (line ("Error: " ++ message))

end Outcome

/-! Logging. -/

/-- What the command may say beside its output. -/
structure Log where
  filter : LogFilter
  /-- What was said while logging was set up. -/
  opening : String

/-- The variable whose directives take the place of the configured level. -/
def logVariable : String := "CVAL_LOG"

/-- The target under which fields that are declared again are logged. -/
def noticeTarget : String := "combined_validator_core::schema::normalize"

def levelOf (standard : LogLevel) (configured : String) : LogLevel :=
  (LogLevel.parse? (Text.trim configured)).getD standard

/-- A control that a terminal could take for a command is written as its number. -/
def shown (c : Char) : List Char :=
  let n := c.toNat
  if n = 0x07 || n = 0x08 || n = 0x0C || n = 0x1B || n = 0x7F then
    ['\\', 'x', Nat.digitChar (n / 16), Nat.digitChar (n % 16)]
  else if 0x80 ≤ n && n ≤ 0x9F then
    ['\\', 'u', '\x7b', Nat.digitChar (n / 16), Nat.digitChar (n % 16), '\x7d']
  else [c]

def noticeLine (notice : Notice) : String :=
  line (" WARN " ++ String.ofList (notice.message.toList.flatMap shown))

/-- A notice has no field but its message. -/
def Log.notices (log : Log) (notices : List Notice) : String :=
  if log.filter.admits noticeTarget ["message"] .warn then String.join (notices.map noticeLine)
  else ""

section

variable {m : Type → Type} [Monad m] [Host m]

/-- Sets up logging; a log file is opened, and refused directives are named for it once more. -/
def openLog (logging : Logging) : m (Except Outcome Log) := do
  let directives := (← Host.lookup logVariable).getD ""
  let (filter, refusals) := LogFilter.parse (levelOf .info logging.level) directives
  match logging.file with
  | none => return .ok ⟨filter, lines refusals⟩
  | some file =>
    match ← Host.openLog file with
    | .ok () => return .ok ⟨filter, lines refusals ++ lines refusals⟩
    | .error problem =>
      return .error (.failed (lines refusals ++
        line s!"Failed to open log file {file}: {problem.message}"))

/-! Commands on documents. -/

/-- Goes on with a document, if it can be read. -/
def withDocument (location : String) (go : Json → m Outcome) : m Outcome := do
  match ← Document.read location with
  | .error fault => return .refused fault.message
  | .ok value => go value

/-- Normalization that keeps its notices, in order. -/
abbrev Noting := ExceptT Fault (StateM (List Notice))

def note (notice : Notice) : Noting Unit := modify (· ++ [notice])

/-- Compiles a schema and writes what is made of its field map. -/
def compileWith (log : Log) (settings : Settings) (schema : Json)
    (make : FieldMap → Except Fault Json) : Outcome :=
  let normalized : Noting FieldMap := (Source.written schema).normalizeNoting note settings
  let (result, notices) := normalized.run.run []
  Outcome.after (log.notices notices) <|
    match result.bind make with
    | .ok value => .wrote (line value.pretty)
    | .error fault => .refused fault.message

def make (settings : Settings) (map : FieldMap) : Product → Except Fault Json
  | .normalized => .ok map.toValue
  | .wire => Wire.ofMap settings map
  | .objectSchema => (ObjectSchema.ofMap settings map).map ObjectSchema.describe

def runCompile (log : Log) (settings : Settings) (product : Product) (schema : String)
    (overlay : Option String) : m Outcome :=
  withDocument schema fun schema =>
    match overlay with
    | none => pure (compileWith log settings schema fun map => make settings map product)
    | some overlay =>
      withDocument overlay fun overlay =>
        pure (compileWith log settings (Overlay.merge schema overlay) fun map =>
          make settings map product)

def runExtract (log : Log) (settings : Settings) (schema document : String) (validate : Bool) :
    m Outcome :=
  withDocument schema fun schema =>
    withDocument document fun document =>
      pure (compileWith log settings schema fun map =>
        if validate then extractValid settings map document
        else FieldSchema.extract settings map document)

/-! The command that looks at the configuration alone. -/

def settingsLines (config : Config) (source : String) : List String :=
  ["OK   cval doctor", "path: " ++ source,
    s!"normalize.max_depth: {config.settings.maxDepth}",
    "normalize.duplicate_fields: " ++ config.settings.duplicates.name,
    "wire.ref_prefix: " ++ config.settings.refPrefix,
    "logging.level: " ++ config.logging.level] ++
    (config.logging.file.map ("logging.file: " ++ ·)).toList

def runDoctor (location : Option String) : m Outcome := do
  match ← Config.load location with
  | .ok config =>
    match ← openLog config.logging with
    | .error outcome => return outcome
    | .ok log => do
      let source ← match config.source with
        | some source => pure source
        | none => pure ((← Config.defaultLocation) ++ " (not found, using defaults)")
      return .after log.opening (.wrote (lines (settingsLines config source)))
  | .error fault => do
    let place ← match location with
      | some _ => pure []
      | none => pure ["looked for: " ++ (← Config.defaultLocation)]
    return ⟨1, lines (["FAIL cval doctor", fault.message] ++ place), ""⟩

/-- Loads the configuration and sets up logging before anything else. -/
def withConfig (location : Option String) (go : Log → Settings → m Outcome) : m Outcome := do
  match ← Config.load location with
  | .error fault => return .failed (line ("Error loading config: " ++ fault.message))
  | .ok config =>
    match ← openLog config.logging with
    | .error outcome => return outcome
    | .ok log => return .after log.opening (← go log config.settings)

def perform (location : Option String) : Command → m Outcome
  | .doctor => runDoctor location
  | .compile product schema overlay =>
    withConfig location fun log settings => runCompile log settings product schema overlay
  | .extract schema document validate =>
    withConfig location fun log settings => runExtract log settings schema document validate

/-- Does what the arguments ask for. -/
def run (arguments : List String) : m Outcome :=
  match CommandLine.parse? arguments with
  | none => pure ⟨2, "", line CommandLine.usage⟩
  | some .version => pure (.wrote (line ("cval " ++ version)))
  | some (.help topic) => pure (.wrote (lines (CommandLine.help topic)))
  | some (.run location command) => perform location command

end

end FieldSchema.Command
