/-! What the compilation of a schema can be told. -/
namespace FieldSchema

/-- What becomes of a field that is declared again. -/
inductive DuplicatePolicy where
  | reject | lastWins
  deriving DecidableEq

structure Settings where
  /-- The number of object levels that a schema may have. -/
  maxDepth : Nat
  duplicates : DuplicatePolicy
  /-- What the names of wire definitions begin with. -/
  refPrefix : String
  deriving DecidableEq

def Settings.standard : Settings := ⟨32, .reject, "_ref_"⟩

end FieldSchema
