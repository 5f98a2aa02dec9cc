/-! Names of files: parts between slashes. -/
namespace FieldSchema.Host.Location

def parts (location : String) : List String := location.splitOn "/"

def isAbsolute (location : String) : Bool := location.startsWith "/"

/-- The parts that name something; dots stand for where one is. -/
def named (location : String) : List String := (parts location).filter fun p => p ≠ "" && p ≠ "."

/-- A name below a directory; no slash is doubled. -/
def join (directory name : String) : String :=
  if directory.isEmpty || directory.endsWith "/" then directory ++ name
  else directory ++ "/" ++ name

/-- The directories above a file. -/
def parents (location : String) : List String := (named location).dropLast

/-- Whether a part is longer than the name of a file may be. -/
def isTooLong (part : String) : Bool := 255 < part.utf8ByteSize

/-- Whether the parts of a name lead out of a directory, `depth` levels below which they begin. -/
def leaves (depth : Nat) : List String → Bool
  | [] => false
  | part :: rest =>
    if part = "" || part = "." then leaves depth rest
    else if part = ".." then depth = 0 || leaves (depth - 1) rest
    else leaves (depth + 1) rest

/-- Whether a name can only be that of a directory. -/
def namesDirectory (location : String) : Bool :=
  location.endsWith "/" || (named location).getLast? = some ".."

/-- What stands behind the last point of the last part, unless the part begins with that point. -/
def suffix? (location : String) : Option String :=
  match (named location).getLast? with
  | none => none
  | some name =>
    match (name.splitOn ".").reverse with
    | last :: first :: rest =>
      if name = ".." || (rest.isEmpty && first.isEmpty) then none else some last
    | _ => none

end FieldSchema.Host.Location
