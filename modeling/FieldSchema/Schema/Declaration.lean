import FieldSchema.Schema.Options

/-! Declared fields: a collection has halves of required and optional fields, each with groups of
fields under one tag. An object among them has a collection of its own. -/
namespace FieldSchema

structure Declared where
  name : String
  isArray : Bool
  options : Options

structure Half (Group : Type) where
  required : Bool
  groups : List Group

inductive Group where
  | primitive (type : Primitive) (fields : List Declared)
  | object (fields : List (Declared × List (Half Group)))

abbrev Collection := List (Half Group)

namespace Collection

def isEmpty (collection : Collection) : Bool := List.all collection (·.groups.isEmpty)

end Collection

namespace Declared

def ofOptions (name : String) (draft : Options.Draft) : Declared := ⟨name, draft.2, draft.1⟩

/-- One field of a group of primitives. -/
def ofMember (type : Primitive) (path : Path) : String × Json → Except Fault Declared
  | (name, .object entries) =>
    (Options.ofMembers (some type) path name entries).map (ofOptions name)
  | (name, _) => .error (.malformedSchema path (.optionsExpected name))

end Declared

namespace Collection

/-- Whether the fields of the half called `key` are required. -/
def required? (key : String) : Option Bool :=
  if key = Key.required then some true
  else if key = Key.optional then some false
  else none

def guardDepth (limit : Nat) (path : Path) : Except Fault Unit :=
  if limit ≤ path.depth then .error (.tooDeep path limit) else .ok ()

mutual

/-- The halves of a collection. The other members are the options of the object that it belongs to;
the outermost collection has none. -/
def readHalves (limit : Nat) (path : Path) (nested : Bool) :
    Members → Except Fault (Collection × Members)
  | [] => .ok ([], [])
  | (key, value) :: rest =>
    match required? key with
    | some required => do
      let half ← readHalf limit path key required value
      let (halves, others) ← readHalves limit path nested rest
      return (half :: halves, others)
    | none =>
      if nested then do
        let (halves, others) ← readHalves limit path nested rest
        return (halves, (key, value) :: others)
      else .error (.malformedSchema path (.unexpectedKey key))

def readHalf (limit : Nat) (path : Path) (key : String) (required : Bool) :
    Json → Except Fault (Half Group)
  | .object members => (readGroups limit path members).map (⟨required, ·⟩)
  | _ => .error (.malformedSchema path (.groupsExpected key))

def readGroups (limit : Nat) (path : Path) : Members → Except Fault (List Group)
  | [] => .ok []
  | (name, value) :: rest => do
    let group ← readGroup limit path name value
    return group :: (← readGroups limit path rest)

/-- The tag is looked at first. -/
def readGroup (limit : Nat) (path : Path) (name : String) : Json → Except Fault Group
  | .object members =>
    match Tag.parse? name with
    | none => .error (.unknownType path name)
    | some (.primitive type) =>
      (members.mapM (Declared.ofMember type path)).map (.primitive type)
    | some .object => (readObjects limit path members).map .object
  | _ =>
    match Tag.parse? name with
    | none => .error (.unknownType path name)
    | some _ => .error (.malformedSchema path (.fieldsExpected name))

def readObjects (limit : Nat) (path : Path) :
    Members → Except Fault (List (Declared × Collection))
  | [] => .ok []
  | (name, value) :: rest => do
    let object ← readObject limit path name value
    return object :: (← readObjects limit path rest)

def readObject (limit : Nat) (path : Path) (name : String) :
    Json → Except Fault (Declared × Collection)
  | .object members => do
    guardDepth limit (path.child name)
    let (halves, others) ← readHalves limit (path.child name) true members
    let draft ← Options.ofMembers none path name others
    return (.ofOptions name draft, halves)
  | _ => .error (.malformedSchema path (.nestedExpected name))

end

/-- The collection that the members of a schema declare, in at most `limit` levels. -/
def ofMembers (limit : Nat) (members : Members) : Except Fault Collection := do
  guardDepth limit .root
  return (← readHalves limit .root false members).1

def ofValue (limit : Nat) : Json → Except Fault Collection
  | .object members => ofMembers limit members
  | _ => .error (.malformedSchema .root .notAnObject)

end Collection

end FieldSchema
