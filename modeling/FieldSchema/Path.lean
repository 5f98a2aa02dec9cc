/-! Where an object stands in a document: the members and elements that lead to it from the root. -/
namespace FieldSchema

inductive Segment where
  | member (name : String)
  | element (index : Nat)
  deriving DecidableEq

/-- Root first. -/
abbrev Path := List Segment

namespace Segment

/-- A name that opens with a bracket is written like an index. -/
def bracketed (name : String) : Bool := name.toList.head? == some '['

def text : Segment → String
  | .member name => if bracketed name then name else "." ++ name
  | .element index => "[" ++ toString index ++ "]"

/-- Whether the segment counts as a level of objects. -/
def isLevel : Segment → Bool
  | .member name => !bracketed name
  | .element _ => false

end Segment

namespace Path

def root : Path := []

def child (path : Path) (name : String) : Path := path ++ [.member name]

def element (path : Path) (index : Nat) : Path := path ++ [.element index]

def isRoot (path : Path) : Bool := List.isEmpty path

/-- The number of object levels below the root. -/
def depth (path : Path) : Nat := List.countP Segment.isLevel path

def text (path : Path) : String := "$" ++ String.join (List.map Segment.text path)

end Path

end FieldSchema
