import FieldSchema.Config.Basic
import FieldSchema.Config.Expansion
import FieldSchema.Host.Location

/-! Where the configuration is, and how it is read from there. -/
namespace FieldSchema.Config

variable {m : Type → Type} [Monad m] [Host m]

/-- The file below the configuration directory of the user. -/
def defaultLocation : m String := do
  let directory ← match ← Host.lookup "XDG_CONFIG_HOME" with
    | some directory => pure directory
    | none => return below (Host.Location.join ((← home? Host.lookup).getD "~") ".config")
  return below directory
where
  below (directory : String) : String :=
    Host.Location.join (Host.Location.join directory "combined-validator") "config.toml"

/-- A configuration that was read, with the name of its log file expanded. -/
def resolve (location : String) (version : Nat) (config : Config) :
    m (Except ConfigFault Config) := do
  match fault? version config with
  | some fault => return .error fault
  | none =>
    let config := { config with source := some location }
    match config.logging.file with
    | none => return .ok config
    | some written =>
      match ← expand Host.lookup written with
      | none => return .error .noHome
      | some file => return .ok { config with logging := { config.logging with file := some file } }

def readFrom (location : String) : m (Except ConfigFault Config) := do
  if !(← Host.isThere location) then return .error (.notFound location)
  match ← Host.read location with
  | .error problem => return .error (.unreadable location problem)
  | .ok text =>
    match (Toml.parse? text).bind ofTable? with
    | none => return .error (.notToml location)
    | some (version, config) => resolve location version config

/-- Reads the file that is named, which has to be there, or else the default one, which need not. -/
def load : Option String → m (Except ConfigFault Config)
  | some location => readFrom location
  | none => do
    let location ← defaultLocation
    if ← Host.isThere location then readFrom location else return .ok standard

end FieldSchema.Config
