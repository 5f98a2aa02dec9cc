import FieldSchema.Text.Letter

/-! Variables and the home directory in the name of a file. `$NAME` stands for a variable, and so
does a name between braces, for which a default may be given behind `:-`. -/
namespace FieldSchema.Config

inductive Piece where
  | text (s : String)
  | plain (name : String)
  /-- `whole` is the piece as it is written. -/
  | braced (name : String) (default : Option String) (whole : String)
  deriving DecidableEq

def isNameCharacter (c : Char) : Bool := Text.isLetterOrNumber c || c = '_'

/-- Splits what is between braces at the first `:-`; if that leads it, there is no default. -/
def splitDefault (cs : List Char) : List Char × Option (List Char) :=
  match go cs with
  | ([], some _) => (cs, none)
  | found => found
where
  go : List Char → List Char × Option (List Char)
    | ':' :: '-' :: rest => ([], some rest)
    | c :: rest => (c :: (go rest).1, (go rest).2)
    | [] => ([], none)

def braced (inner : List Char) : Piece :=
  let (name, default) := splitDefault inner
  .braced (String.ofList name) (default.map String.ofList)
    ("$\x7b" ++ String.ofList inner ++ "\x7d")

/-- A dollar before anything else is itself, and two of them are one. -/
def pieces : (fuel : Nat) → List Char → List Piece
  | 0, _ => []
  | _, [] => []
  | fuel + 1, '$' :: '\x7b' :: rest =>
    let inner := rest.takeWhile (· ≠ '\x7d')
    match rest.dropWhile (· ≠ '\x7d') with
    | _ :: rest => braced inner :: pieces fuel rest
    | [] => .text "$\x7b" :: pieces fuel rest
  | fuel + 1, '$' :: '$' :: rest => .text "$" :: pieces fuel rest
  | fuel + 1, '$' :: rest =>
    match rest.takeWhile isNameCharacter with
    | [] => .text "$" :: pieces fuel rest
    | name => .plain (String.ofList name) :: pieces fuel (rest.drop name.length)
  | fuel + 1, cs =>
    .text (String.ofList (cs.takeWhile (· ≠ '$'))) :: pieces fuel (cs.dropWhile (· ≠ '$'))

/-- What a piece stands for, where the variable it names has this value: a variable that is not set
has to have a default, and one that is empty gives way to its default. -/
def Piece.text? (value? : Option String) : Piece → Option String
  | .text s => some s
  | .plain _ => value?
  | .braced _ default whole =>
    match value?, default with
    | none, none => none
    | some "", none => some whole
    | some "", some default => some default
    | some value, _ => some value
    | none, some default => some default

def Piece.variableName : Piece → String
  | .text _ => ""
  | .plain name => name
  | .braced name _ _ => name

section

variable {m : Type → Type} [Monad m] (lookup : String → m (Option String))

def expandPiece (piece : Piece) : m (Option String) :=
  match piece with
  | .text s => pure (some s)
  | piece => return piece.text? (← lookup piece.variableName)

/-- The pieces in order, up to the first that stands for nothing. -/
def expandPieces : List Piece → m (Option String)
  | [] => pure (some "")
  | piece :: rest => do
    match ← expandPiece lookup piece with
    | none => return none
    | some s => return (← expandPieces rest).map (s ++ ·)

/-- The home directory; an empty name is none. -/
def home? : m (Option String) := return (← lookup "HOME").filter (· ≠ "")

/-- A tilde alone or before a slash is the home directory, unless a variable has brought it here. -/
def expandHome (written expanded : String) : m String := do
  match written.toList, expanded.toList with
  | '~' :: _, '~' :: rest =>
    if rest.isEmpty || rest.head? = some '/' then
      match ← home? lookup with
      | some home => return home ++ String.ofList rest
      | none => return expanded
    else return expanded
  | _, _ => return expanded

/-- The name that a written one stands for. -/
def expand (written : String) : m (Option String) := do
  match ← expandPieces lookup (pieces (written.length + 1) written.toList) with
  | none => return none
  | some expanded => return some (← expandHome lookup written expanded)

end

end FieldSchema.Config
