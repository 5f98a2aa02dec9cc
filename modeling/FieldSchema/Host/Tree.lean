import FieldSchema.Host.Basic
import FieldSchema.Host.Location
import FieldSchema.Entries

/-! A machine whose files are a value: a tree below the current directory. -/
namespace FieldSchema.Host

/-- The text of a file is absent if its bytes are none. -/
inductive Node where
  | file (text : Option String)
  | directory
  deriving DecidableEq

/-- The nodes below the current directory, each under its parts; a node comes after the directories
above it. -/
abbrev Tree := List (List String × Node)

namespace Tree

def node? (tree : Tree) (place : List String) : Option Node :=
  if place.isEmpty then some .directory else List.lookup place tree

/-- Follows the parts of a name from `here` on, each from a directory that is there. -/
def descend (tree : Tree) : (here : List String) → List String → Except FileProblem (List String)
  | here, [] => .ok here
  | here, part :: rest =>
    match tree.node? here with
    | none => .error .missing
    | some (.file _) => .error .notDirectory
    | some .directory =>
      if part = "" || part = "." then descend tree here rest
      else if part = ".." then
        if here.isEmpty then .error .missing else descend tree here.dropLast rest
      else if Location.isTooLong part then .error .tooLong
      else descend tree (here ++ [part]) rest

/-- The place that a name leads to; nothing is known of places outside the tree. -/
def find (tree : Tree) (location : String) : Except FileProblem (List String) :=
  if location.isEmpty || Location.isAbsolute location then .error .missing
  else if 4095 < location.utf8ByteSize then .error .tooLong
  else tree.descend [] (Location.parts location)

def isThere (tree : Tree) (location : String) : Bool :=
  match tree.find location with
  | .ok place => (tree.node? place).isSome
  | .error _ => false

def read (tree : Tree) (location : String) : Except FileProblem String := do
  match tree.node? (← tree.find location) with
  | none => .error .missing
  | some .directory => .error .directory
  | some (.file none) => .error .notText
  | some (.file (some text)) => .ok text

/-- Makes the directories of a path that are missing. -/
def makeDirectories : Tree → (here : List String) → List String → Except FileProblem Tree
  | tree, _, [] => .ok tree
  | tree, here, part :: rest =>
    if Location.isTooLong part then .error .tooLong
    else match tree.node? (here ++ [part]) with
    | none => makeDirectories (tree ++ [(here ++ [part], .directory)]) (here ++ [part]) rest
    | some .directory => makeDirectories tree (here ++ [part]) rest
    | some (.file _) => .error (if rest.isEmpty then .present else .notDirectory)

/-- A name that ends in a slash can only be a directory. -/
def create (tree : Tree) (location : String) : Except FileProblem Tree := do
  let tree ← tree.makeDirectories [] (Location.parents location)
  let place ← tree.descend [] ((Location.parts location).reverse.dropWhile (· = "")).reverse
  match tree.node? place with
  | some .directory => .error .directory
  | some (.file _) => if location.endsWith "/" then .error .notDirectory else .ok tree
  | none =>
    if location.endsWith "/" then .error .directory
    else .ok (tree ++ [(place, .file (some ""))])

/-- Opening a file outside the tree changes nothing in it. -/
def openLog (tree : Tree) (location : String) : Except FileProblem Tree :=
  if location.isEmpty then .error .missing
  else if Location.isAbsolute location then .ok tree
  else if Location.leaves 0 (Location.parts location) then
    if Location.namesDirectory location then .error .directory else .ok tree
  else tree.create location

/-- Puts a node under a name, with the directories above it. -/
def put (tree : Tree) (location : String) (node : Node) : Tree :=
  match tree.makeDirectories [] (Location.parents location) with
  | .ok grown =>
    List.filter (·.1 ≠ Location.named location) grown ++ [(Location.named location, node)]
  | .error _ => tree

/-- The names of all files. -/
def files (tree : Tree) : List String :=
  tree.filterMap fun (place, node) =>
    match node with
    | .file _ => some ("/".intercalate place)
    | .directory => none

end Tree

structure Machine where
  environment : List (String × String)
  tree : Tree

instance : Host (StateM Machine) where
  lookup name := return (← get).environment.lookup name
  isThere location := return (← get).tree.isThere location
  read location := return (← get).tree.read location
  openLog location := modifyGet fun machine =>
    match machine.tree.openLog location with
    | .ok tree => (.ok (), { machine with tree := tree })
    | .error problem => (.error problem, machine)

end FieldSchema.Host
