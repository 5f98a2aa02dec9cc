import FieldSchema.Yaml.Graph

/-! Reading YAML text. -/
namespace FieldSchema.Yaml

/-- The value that a text of one document holds, with at most `room` containers inside each other;
a text without a document holds null. -/
def parse? (room : Nat) (text : String) : Option Json := do
  let tokens ← Token.ofGlyphs? (← Glyph.ofText? text)
  match ← Node.ofTokens? tokens with
  | some root => root.toJson? room
  | none => return .null

end FieldSchema.Yaml
