/-! What a command needs of the machine it runs on: its variables and its files. -/
namespace FieldSchema

/-- Why a file cannot be had. -/
inductive FileProblem where
  | missing
  | present
  | notDirectory
  | directory
  | tooLong
  | notText
  | other (text : String)
  deriving DecidableEq

def FileProblem.message : FileProblem → String
  | .missing => "No such file or directory (os error 2)"
  | .present => "File exists (os error 17)"
  | .notDirectory => "Not a directory (os error 20)"
  | .directory => "Is a directory (os error 21)"
  | .tooLong => "File name too long (os error 36)"
  | .notText => "stream did not contain valid UTF-8"
  | .other text => text

class Host (m : Type → Type) where
  lookup : String → m (Option String)
  isThere : String → m Bool
  read : String → m (Except FileProblem String)
  /-- Opens a file for more text, and makes it and its directories if they are missing. -/
  openLog : String → m (Except FileProblem Unit)

end FieldSchema
