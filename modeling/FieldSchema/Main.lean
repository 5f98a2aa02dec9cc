import FieldSchema.Command

/-! The command on a machine of its own. -/
namespace FieldSchema.Main

/-- The number of a system error, which comes with either sign. -/
def errorNumber (code : UInt32) : Nat := min code.toNat (-code).toNat

/-- Why the system could not do what it was asked to. -/
def problemOf : IO.Error → FileProblem
  | .noFileOrDirectory .. => .missing
  | .noSuchThing .. => .missing
  | .alreadyExists .. => .present
  | .inappropriateType _ code details =>
    if errorNumber code = 20 then .notDirectory
    else if errorNumber code = 21 then .directory
    else .other details
  | error => .other (toString error)

def attempt {α : Type} (action : IO α) : IO (Except FileProblem α) := do
  match ← action.toBaseIO with
  | .ok a => return .ok a
  | .error error => return .error (problemOf error)

def readText (location : String) : IO (Except FileProblem String) := do
  match ← attempt (IO.FS.readBinFile location) with
  | .error problem => return .error problem
  | .ok bytes =>
    match String.fromUTF8? bytes with
    | some text => return .ok text
    | none => return .error .notText

/-- The directory that a name leads through, if it is not the current one. -/
def directoryOf (location : String) : String :=
  let above := "/".intercalate (Host.Location.parents location)
  if Host.Location.isAbsolute location then "/" ++ above else above

def openText (location : String) : IO (Except FileProblem Unit) :=
  attempt do
    if directoryOf location ≠ "" then IO.FS.createDirAll (directoryOf location)
    let _ ← IO.FS.Handle.mk location .append

instance : Host IO where
  lookup name := IO.getEnv name
  isThere location := do
    match ← attempt (IO.FS.readBinFile location) with
    | .ok _ => return true
    | .error problem => return problem ≠ .missing && problem ≠ .notDirectory
  read := readText
  openLog := openText

end FieldSchema.Main

def main (arguments : List String) : IO UInt32 := do
  let outcome ← (FieldSchema.Command.run arguments : IO FieldSchema.Command.Outcome)
  IO.print outcome.out
  IO.eprint outcome.err
  return UInt32.ofNat outcome.exit
