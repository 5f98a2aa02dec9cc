/-! The words of the schema language that are not names of fields. -/
namespace FieldSchema.Key

def type := "type"

def required := "required"

def optional := "optional"

def array := "array"

def allowed := "enum"

def maxLength := "maxLength"

def exactLength := "exactLength"

def atLeast := "greaterOrEqualTo"

def default := "default"

def unique := "unique"

end FieldSchema.Key
