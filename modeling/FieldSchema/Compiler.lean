import FieldSchema.Extraction
import FieldSchema.ObjectSchema
import FieldSchema.Schema.Source
import FieldSchema.Wire

/-! All that can be made of a source under one choice of settings. -/
namespace FieldSchema

/-- The version of the schema language and its tools. -/
def version : String := "0.1.0"

structure Compiler where
  settings : Settings

namespace Compiler

def standard : Compiler := ⟨.standard⟩

variable (compiler : Compiler) (source : Source)

def normalize : Except Fault FieldMap := source.normalize compiler.settings

def objectSchema : Except Fault ObjectSchema := do
  ObjectSchema.ofMap compiler.settings (← compiler.normalize source)

def wireSchema : Except Fault Json := do
  Wire.ofMap compiler.settings (← compiler.normalize source)

def extract (document : Json) : Except Fault Json := do
  FieldSchema.extract compiler.settings (← compiler.normalize source) document

def extractWhere (document : Json) (filter : Extraction.Filter) : Except Fault Json := do
  FieldSchema.extractWhere compiler.settings (← compiler.normalize source) document filter

def extractValid (document : Json) : Except Fault Json := do
  FieldSchema.extractValid compiler.settings (← compiler.normalize source) document

end Compiler

end FieldSchema
