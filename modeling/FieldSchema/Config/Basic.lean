import FieldSchema.Host.Basic
import FieldSchema.Settings
import FieldSchema.Toml.Reader

/-! The configuration: settings and logging, as a TOML table of three sections gives them. What is
not given has a default, and keys that are not known are passed over. -/
namespace FieldSchema

structure Logging where
  level : String
  fileLevel : Option String
  file : Option String
  deriving DecidableEq

structure Config where
  /-- The file that the configuration comes from. -/
  source : Option String
  settings : Settings
  logging : Logging
  deriving DecidableEq

inductive ConfigFault where
  | notFound (location : String)
  | unreadable (location : String) (problem : FileProblem)
  | notToml (location : String)
  | badVersion (version : Nat)
  | badValue (key problem : String)
  | noHome
  deriving DecidableEq

def ConfigFault.message : ConfigFault → String
  | .notFound location => s!"config file not found at {location}"
  | .unreadable location problem => s!"failed to read config file {location}: {problem.message}"
  | .notToml location => s!"failed to parse TOML in {location}: not a configuration"
  | .badVersion version => s!"version {version} is unsupported (expected 1)"
  | .badValue key problem => s!"invalid value for {key}: {problem}"
  | .noHome => "home directory not available to expand '~'"

def Logging.standard : Logging := ⟨"info", none, none⟩

def DuplicatePolicy.name : DuplicatePolicy → String
  | .reject => "reject"
  | .lastWins => "last-wins"

def DuplicatePolicy.parse? : String → Option DuplicatePolicy
  | "reject" => some .reject
  | "last-wins" => some .lastWins
  | _ => none

namespace Config

def standard : Config := ⟨none, .standard, .standard⟩

/-- A section is a table or, with its values in their order, a list. -/
inductive Section where
  | keyed (entries : Toml.Table)
  | listed (items : List Toml.Value)

namespace Section

/-- A time counts as a table of keys that are not known. All numbers of a table have to be held,
but of a list only those that are looked at. -/
def ofValue? : Toml.Value → Option Section
  | .table entries _ => if Toml.Value.areEntriesHeld entries then some (.keyed entries) else none
  | .time => some (.keyed [])
  | .array items => some (.listed items)
  | .tables items => some (.listed (items.reverse.map fun entries => .table entries .header))
  | _ => none

def item? (key : String) (place : Nat) : Section → Option Toml.Value
  | .keyed entries => entries.lookup key
  | .listed items => items[place]?

/-- The value of a key, or a default if there is none; `none` if it is not of its type. -/
def get? {α : Type} (sec : Section) (key : String) (place : Nat) (missing : α)
    (read : Toml.Value → Option α) : Option α :=
  match sec.item? key place with
  | none => some missing
  | some value => read value

end Section

def sectionNames : List String := ["normalize", "wire", "logging"]

/-- Whether all numbers outside the sections can be held. -/
def isHeld (root : Toml.Table) : Bool :=
  root.all fun (key, value) => sectionNames.contains key || value.isHeld

/-- The section called `key`; without it, every value is missing. -/
def section? (root : Toml.Table) (key : String) : Option Section :=
  match root.lookup key with
  | none => some (.keyed [])
  | some value => Section.ofValue? value

def isEmptyContainer : Toml.Value → Bool
  | .table entries _ => entries.isEmpty
  | .array items => items.isEmpty
  | _ => false

/-- A policy is named by a string, or by the one key of a table that holds nothing else. -/
def policy? : Toml.Value → Option DuplicatePolicy
  | .string name => DuplicatePolicy.parse? name
  | .table [(name, value)] _ => if isEmptyContainer value then DuplicatePolicy.parse? name
    else none
  | _ => none

/-- The version, and the configuration with its file name as it is written. -/
def ofTable? (root : Toml.Table) : Option (Nat × Config) := do
  if !isHeld root then none
  let version ← (← root.lookup "version").natural? UInt32.size
  let normalize ← section? root "normalize"
  let maxDepth ← normalize.get? "max_depth" 0 Settings.standard.maxDepth (·.natural? UInt64.size)
  let duplicates ← normalize.get? "duplicate_fields" 1 Settings.standard.duplicates policy?
  let wire ← section? root "wire"
  let refPrefix ← wire.get? "ref_prefix" 0 Settings.standard.refPrefix (·.string?)
  let logging ← section? root "logging"
  let level ← logging.get? "level" 0 Logging.standard.level (·.string?)
  let fileLevel ← logging.get? "file_level" 1 none (·.string?.map some)
  let file ← logging.get? "file" 2 none (·.string?.map some)
  return (version, ⟨none, ⟨maxDepth, duplicates, refPrefix⟩, ⟨level, fileLevel, file⟩⟩)

/-- What no configuration may say. -/
def fault? (version : Nat) (config : Config) : Option ConfigFault :=
  if version ≠ 1 then some (.badVersion version)
  else if config.settings.maxDepth = 0 then
    some (.badValue "normalize.max_depth" "must be at least 1")
  else if config.settings.refPrefix.isEmpty then
    some (.badValue "wire.ref_prefix" "must not be empty")
  else none

end Config

end FieldSchema
