/-! Ordered entries: what objects, field maps and patches have in common. An entry list is read by
its first entry of a name, and writing a name that is present keeps its place. -/
namespace FieldSchema.Entries

variable {α : Type}

abbrev names (entries : List (String × α)) : List String := entries.map Prod.fst

/-- No name occurs twice. -/
def Distinct (entries : List (String × α)) : Prop := (names entries).Nodup

def has (name : String) (entries : List (String × α)) : Bool := (entries.lookup name).isSome

/-- Replaces the value of `name` where it stands, or adds the entry at the end. -/
def set (name : String) (value : α) : List (String × α) → List (String × α)
  | [] => [(name, value)]
  | (other, old) :: rest =>
    if other = name then (name, value) :: rest else (other, old) :: set name value rest

def erase (name : String) (entries : List (String × α)) : List (String × α) :=
  entries.filter (·.1 ≠ name)

/-- Rewrites the value of `name`, if it is there. -/
def modify (name : String) (f : α → α) : List (String × α) → List (String × α)
  | [] => []
  | (other, old) :: rest =>
    if other = name then (other, f old) :: rest else (other, old) :: modify name f rest

/-- Makes sure that `name` is there: at the end and with `value`, if it was not. -/
def ensure (name : String) (value : α) (entries : List (String × α)) : List (String × α) :=
  if has name entries then entries else entries ++ [(name, value)]

end FieldSchema.Entries
