import FieldSchema.Json.Value
import FieldSchema.Text.Digit

/-! Changes to a value. A patch merges into lists and objects key by key, the keys of a list being
its indices, and a container keeps its kind. -/
namespace FieldSchema

inductive Patch where
  | keep
  | delete
  | override (value : Json)
  /-- What has no container to merge into becomes a list or an object of its own. -/
  | merge (entries : List (String × Patch)) (isList : Bool)

namespace Patch

/-- Gives `key` a patch, behind the others. -/
def set (key : String) (patch : Patch) (entries : List (String × Patch)) : List (String × Patch) :=
  Entries.erase key entries ++ [(key, patch)]

mutual

def ofValue : Json → Patch
  | .null => .delete
  | .object members => .merge (ofMembers members) false
  | .array items => .merge (ofItems 0 items) true
  | scalar => .override scalar

def ofItems (i : Nat) : List Json → List (String × Patch)
  | [] => []
  | item :: rest => (toString i, ofValue item) :: ofItems (i + 1) rest

def ofMembers : Members → List (String × Patch)
  | [] => []
  | (key, value) :: rest => (key, ofValue value) :: ofMembers rest

end

/-- The patch that lays `overlay` over a value: a null inside it deletes, a null alone does not. -/
def ofOverlay : Json → Patch
  | .null => .keep
  | value => ofValue value

mutual

/-- What the patch makes where there is nothing. -/
def materialize : Patch → Option Json
  | .keep => none
  | .delete => none
  | .override value => some value
  | .merge entries isList =>
    let members := materializeEntries entries
    some (if isList then .array (members.map Prod.snd) else .object members)

def materializeEntries : List (String × Patch) → Members
  | [] => []
  | (key, patch) :: rest =>
    ((materialize patch).map (key, ·)).toList ++ materializeEntries rest

end

def patchAt (entries : List (String × Patch)) (key : String) : Patch :=
  (entries.lookup key).getD .keep

/-- The keys of a target and, behind them, the other keys of a patch. -/
def mergeKeys (targetKeys : List String) (entries : List (String × Patch)) : List String :=
  entries.foldl (fun keys (key, _) => if keys.contains key then keys else keys ++ [key]) targetKeys

/-- What a patch makes of a value, which is given by what patches make of it, or of nothing. -/
def changed (change? : Option (Patch → Option Json)) (patch : Patch) : Option Json :=
  match change? with
  | some change => change patch
  | none => patch.materialize

/-- Merges key by key into a target, which is given by its keys and by what is found under a key. -/
def mergeEntries (targetKeys : List String) (find? : String → Option (Patch → Option Json))
    (entries : List (String × Patch)) : Members :=
  (mergeKeys targetKeys entries).foldl (fun out key =>
    match changed (find? key) (patchAt entries key) with
    | some value => Entries.set key value out
    | none => out) []

/-- The index that a key spells, in a list of `n` elements. An index has 64 bits; more would take a
list that no memory holds. -/
def index? (n : Nat) (key : String) : Option Nat := Text.natural? (max n UInt64.size) key

/-- Merged values in the order of the indices that their keys spell, and where these are the same in
the order in which they were merged. -/
def inIndexOrder (n : Nat) (merged : Members) : List Json :=
  let indexed := merged.filterMap fun (key, value) => (index? n key).map (·, value)
  (indexed.mergeSort fun a b => a.1 ≤ b.1).map Prod.snd

mutual

/-- Applies a patch; nothing is left of a value that is deleted. The keys of a list are the decimal
texts of its indices, but an element is found under each key that spells its index. -/
def apply : Patch → Json → Option Json
  | .keep, target => some target
  | .delete, _ => none
  | .override value, _ => some value
  | .merge entries _, .object members =>
    let changes := memberChanges members
    some (.object (mergeEntries (Entries.names members) (fun key => changes.lookup key) entries))
  | .merge entries _, .array items =>
    let changes := itemChanges items
    let merged := mergeEntries ((List.range items.length).map toString)
      (fun key => (index? items.length key).bind fun i => changes[i]?) entries
    some (.array (inIndexOrder items.length merged))
  | patch, _ => patch.materialize
termination_by structural _ target => target

/-- What patches make of each member. -/
def memberChanges : Members → List (String × (Patch → Option Json))
  | [] => []
  | (key, value) :: rest => (key, fun patch => apply patch value) :: memberChanges rest
termination_by structural members => members

/-- What patches make of each element. -/
def itemChanges : List Json → List (Patch → Option Json)
  | [] => []
  | item :: rest => (fun patch => apply patch item) :: itemChanges rest
termination_by structural items => items

end

end Patch

/-- Lays `overlay` over `base`. -/
def Json.overlaid (base overlay : Json) : Json := (Patch.apply (.ofOverlay overlay) base).getD .null

end FieldSchema
