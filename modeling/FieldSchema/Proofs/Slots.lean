import FieldSchema.Overlay
import FieldSchema.Proofs.Patch

/-! Slots of a schema: the fields in one half under one tag. Each change that a relocation makes is
described by what it leaves in every slot, and keeps the frame that holds the slots. -/
namespace FieldSchema.Overlay

/-- A place for fields in a schema: one of its halves, and a tag. -/
structure Slot where
  required : Bool
  tag : String
  deriving DecidableEq

def halfName (required : Bool) : String := if required then Key.required else Key.optional

/-- The members of the object under a key. -/
def membersAt (key : String) (members : Members) : Members :=
  ((members.lookup key).bind Json.object?).getD []

namespace Slot

def half (slot : Slot) : String := halfName slot.required

/-- The same tag in the other half. -/
def opposite (slot : Slot) : Slot := ⟨!slot.required, slot.tag⟩

def fields (slot : Slot) (schema : Members) : Members :=
  membersAt slot.tag (membersAt slot.half schema)

/-- What a schema has under a name in the slot. -/
def lookup (slot : Slot) (name : String) (schema : Members) : Option Json :=
  (slot.fields schema).lookup name

end Slot

theorem halfName_inj {a b : Bool} : halfName a = halfName b ↔ a = b := by
  revert a b
  decide

/-- An object with such members. -/
def Holds (P : Members → Prop) (value : Json) : Prop := ∃ members, value = .object members ∧ P members

/-- Groups are objects, and neither they nor their fields repeat a name. -/
structure GroupsFramed (groups : Members) : Prop where
  distinct : Entries.Distinct groups
  group : ∀ tag value, groups.lookup tag = some value → Holds Entries.Distinct value

/-- The halves of a schema, as far as there are any, are objects of groups. -/
structure Framed (schema : Members) : Prop where
  distinct : Entries.Distinct schema
  half : ∀ required value, schema.lookup (halfName required) = some value → Holds GroupsFramed value

theorem Holds.mono {P Q : Members → Prop} {value : Json} (holds : Holds P value)
    (weaker : ∀ members, P members → Q members) : Holds Q value := by
  obtain ⟨members, same, inside⟩ := holds
  exact ⟨members, same, weaker members inside⟩

theorem GroupsFramed.nil : GroupsFramed [] := ⟨.nil, nofun⟩

theorem Framed.nil : Framed [] := ⟨.nil, nofun⟩

theorem membersAt_of_lookup_object {key : String} {members inner : Members}
    (found : members.lookup key = some (.object inner)) : membersAt key members = inner := by
  rw [membersAt, found]
  rfl

theorem membersAt_of_lookup_none {key : String} {members : Members}
    (absent : members.lookup key = none) : membersAt key members = [] := by
  rw [membersAt, absent]
  rfl

/-- What holds of no members holds of those under a key. -/
theorem membersAt_holds {P : Members → Prop} (empty : P []) {key : String} {members : Members}
    (each : ∀ value, members.lookup key = some value → Holds P value) :
    P (membersAt key members) := by
  cases found : members.lookup key with
  | none => rwa [membersAt_of_lookup_none found]
  | some value =>
    obtain ⟨inner, rfl, holds⟩ := each value found
    rwa [membersAt_of_lookup_object found]

theorem lookup_membersAt (name key : String) (members : Members) :
    (membersAt key members).lookup name = (members.lookup key).bind (member? name) := by
  rw [membersAt]
  cases members.lookup key with
  | none => rfl
  | some value => cases value <;> rfl

theorem lookup_membersAt_eq_some_iff {name key : String} {members : Members} {value : Json} :
    (membersAt key members).lookup name = some value ↔
      ∃ inner, members.lookup key = some (.object inner) ∧ inner.lookup name = some value := by
  rw [lookup_membersAt, Option.bind_eq_some_iff]
  constructor
  · rintro ⟨lower, found, inside⟩
    cases lower with
    | object inner => exact ⟨inner, found, inside⟩
    | null | bool | number | string | array => cases inside
  · rintro ⟨inner, found, inside⟩
    exact ⟨.object inner, found, inside⟩

theorem Slot.lookup_eq_some_iff {slot : Slot} {name : String} {schema : Members} {value : Json} :
    slot.lookup name schema = some value ↔ ∃ groups fields,
      schema.lookup slot.half = some (.object groups) ∧
        groups.lookup slot.tag = some (.object fields) ∧ fields.lookup name = some value := by
  simp only [lookup, Slot.fields, lookup_membersAt_eq_some_iff]
  constructor
  · rintro ⟨fields, ⟨groups, half, group⟩, found⟩
    exact ⟨groups, fields, half, group, found⟩
  · rintro ⟨groups, fields, half, group, found⟩
    exact ⟨fields, ⟨groups, half, group⟩, found⟩

theorem membersAt_modify {f : Members → Members} (empty : f [] = []) (key other : String)
    (members : Members) : membersAt other (Entries.modify key (within f) members) =
      if other = key then f (membersAt other members) else membersAt other members := by
  rw [membersAt, membersAt, Entries.lookup_modify]
  split
  · cases members.lookup other with
    | none => exact empty.symm
    | some value => cases value <;> first | rfl | exact empty.symm
  · rfl

theorem declaredOpposite_eq (slot : Slot) (name : String) (schema : Members) :
    declaredOpposite slot.half slot.tag name schema = slot.opposite.lookup name schema := by
  have other : otherHalf slot.half = slot.opposite.half := by
    obtain ⟨required, tag⟩ := slot
    cases required <;> rfl
  rw [declaredOpposite, other, Slot.lookup, Slot.fields, lookup_membersAt]
  congr 1
  exact (lookup_membersAt slot.tag slot.opposite.half schema).symm

/-! One change under one key, made if it is missing. -/

def place (key : String) (f : Members → Members) (members : Members) : Members :=
  Entries.modify key (within f) (Entries.ensure key (.object []) members)

theorem updateSlot_eq_place (half tag : String) (f : Members → Members) (schema : Members) :
    updateSlot half tag f schema = place half (place tag f) schema := rfl

section

variable {P : Members → Prop} {key : String} {members : Members} {f : Members → Members}

theorem lookup_place (objects : ∀ value, members.lookup key = some value → Holds P value)
    (other : String) : (place key f members).lookup other =
      if other = key then some (.object (f (membersAt key members))) else members.lookup other := by
  rw [place, Entries.lookup_modify, Entries.lookup_ensure]
  by_cases same : other = key
  · subst same
    rw [if_pos rfl, if_pos rfl, if_pos rfl, membersAt]
    cases found : members.lookup other with
    | none => rfl
    | some value =>
      obtain ⟨inner, rfl, -⟩ := objects value found
      rfl
  · rw [if_neg same, if_neg same, if_neg same]

theorem membersAt_place (objects : ∀ value, members.lookup key = some value → Holds P value)
    (other : String) : membersAt other (place key f members) =
      if other = key then f (membersAt key members) else membersAt other members := by
  rw [membersAt, lookup_place objects]
  split
  · rfl
  · rfl

theorem place_distinct (distinct : Entries.Distinct members) :
    Entries.Distinct (place key f members) :=
  (distinct.ensure key (.object [])).modify key (within f)

theorem place_each (empty : P []) (kept : ∀ inner, P inner → P (f inner))
    (objects : ∀ value, members.lookup key = some value → Holds P value) {other : String}
    (others : ∀ value, members.lookup other = some value → Holds P value) {value : Json}
    (found : (place key f members).lookup other = some value) : Holds P value := by
  rw [lookup_place objects] at found
  split at found
  · cases found
    exact ⟨_, rfl, kept _ (membersAt_holds empty objects)⟩
  · exact others value found

end

section

variable {schema : Members}

theorem Framed.groups (framed : Framed schema) (required : Bool) :
    GroupsFramed (membersAt (halfName required) schema) :=
  membersAt_holds .nil (framed.half required)

theorem Framed.fields (framed : Framed schema) (slot : Slot) :
    Entries.Distinct (slot.fields schema) :=
  membersAt_holds Entries.Distinct.nil ((framed.groups slot.required).group slot.tag)

/-! Updates. -/

theorem fields_updateSlot (framed : Framed schema) (slot other : Slot) (f : Members → Members) :
    other.fields (updateSlot slot.half slot.tag f schema) =
      if other = slot then f (slot.fields schema) else other.fields schema := by
  obtain ⟨required, tag⟩ := slot
  obtain ⟨otherRequired, otherTag⟩ := other
  rw [updateSlot_eq_place]
  simp only [Slot.fields, Slot.half, Slot.mk.injEq]
  rw [membersAt_place (framed.half required)]
  by_cases half : otherRequired = required
  · subst half
    rw [if_pos rfl, membersAt_place ((framed.groups otherRequired).group tag)]
    by_cases same : otherTag = tag <;> simp [same]
  · rw [if_neg (halfName_inj.not.mpr half), if_neg (fun both => half both.1)]

theorem Framed.updateSlot (framed : Framed schema) (slot : Slot) {f : Members → Members}
    (kept : ∀ fields, Entries.Distinct fields → Entries.Distinct (f fields)) :
    Framed (updateSlot slot.half slot.tag f schema) := by
  rw [updateSlot_eq_place]
  refine ⟨place_distinct framed.distinct, fun required value found => ?_⟩
  refine place_each GroupsFramed.nil (fun groups inner => ?_) (framed.half slot.required)
    (framed.half required) found
  exact ⟨place_distinct inner.distinct, fun tag value found =>
    place_each Entries.Distinct.nil kept (inner.group slot.tag) (inner.group tag) found⟩

/-! Leaving a name in one slot only. -/

def eraseUnderTag (slot : Slot) (name : String) (required : Bool) (tag : String)
    (fields : Json) : Json :=
  if halfName required = slot.half && tag = slot.tag then fields
  else within (Entries.erase name) fields

def eraseInGroups (slot : Slot) (name : String) (required : Bool) (groups : Members) : Members :=
  groups.map fun (tag, fields) => (tag, eraseUnderTag slot name required tag fields)

theorem eraseElsewhere_eq (slot : Slot) (name : String) (schema : Members) :
    eraseElsewhere slot.half slot.tag name schema =
      Entries.modify (halfName false) (within (eraseInGroups slot name false))
        (Entries.modify (halfName true) (within (eraseInGroups slot name true)) schema) := rfl

theorem membersAt_eraseElsewhere (slot : Slot) (name : String) (required : Bool) :
    membersAt (halfName required) (eraseElsewhere slot.half slot.tag name schema) =
      eraseInGroups slot name required (membersAt (halfName required) schema) := by
  have empty : ∀ required, eraseInGroups slot name required [] = [] := fun _ => rfl
  rw [eraseElsewhere_eq, membersAt_modify (empty false), membersAt_modify (empty true)]
  cases required
  · rw [if_pos rfl, if_neg (by decide)]
  · rw [if_neg (by decide), if_pos rfl]

theorem membersAt_eraseInGroups (slot : Slot) (name : String) (required : Bool) (tag : String)
    (groups : Members) : membersAt tag (eraseInGroups slot name required groups) =
      if ⟨required, tag⟩ = slot then membersAt tag groups
      else Entries.erase name (membersAt tag groups) := by
  rw [membersAt, eraseInGroups, Entries.lookup_mapValues tag (eraseUnderTag slot name required),
    membersAt]
  cases groups.lookup tag with
  | none => exact (ite_self ([] : Members)).symm
  | some value =>
    rw [Option.map_some, eraseUnderTag]
    by_cases same : ⟨required, tag⟩ = slot
    · subst same
      rw [if_pos rfl, if_pos (by simp [Slot.half])]
    · have elsewhere : ¬ (halfName required = slot.half && decide (tag = slot.tag)) = true := by
        rw [Bool.and_eq_true, decide_eq_true_iff, decide_eq_true_iff]
        exact fun ⟨half, tag⟩ => same (congr (congrArg Slot.mk (halfName_inj.mp half)) tag)
      rw [if_neg same, if_neg elsewhere]
      cases value <;> rfl

theorem fields_eraseElsewhere (slot other : Slot) (name : String) :
    other.fields (eraseElsewhere slot.half slot.tag name schema) =
      if other = slot then other.fields schema else Entries.erase name (other.fields schema) := by
  rw [Slot.fields, Slot.half, membersAt_eraseElsewhere, membersAt_eraseInGroups]
  rfl

theorem eraseInGroups_framed {slot : Slot} {name : String} {required : Bool} {groups : Members}
    (framed : GroupsFramed groups) : GroupsFramed (eraseInGroups slot name required groups) := by
  refine ⟨framed.distinct.mapValues (eraseUnderTag slot name required), fun tag value found => ?_⟩
  rw [eraseInGroups, Entries.lookup_mapValues tag (eraseUnderTag slot name required)] at found
  obtain ⟨old, present, rfl⟩ := Option.map_eq_some_iff.mp found
  obtain ⟨fields, rfl, distinct⟩ := framed.group tag old present
  unfold eraseUnderTag
  split
  · exact ⟨fields, rfl, distinct⟩
  · exact ⟨_, rfl, distinct.filter _⟩

theorem Framed.modify (framed : Framed schema) {f : Members → Members}
    (kept : ∀ groups, GroupsFramed groups → GroupsFramed (f groups)) (key : String) :
    Framed (Entries.modify key (within f) schema) := by
  refine ⟨framed.distinct.modify key _, fun required value found => ?_⟩
  rw [Entries.lookup_modify] at found
  split at found
  · obtain ⟨old, present, rfl⟩ := Option.map_eq_some_iff.mp found
    obtain ⟨groups, rfl, inner⟩ := framed.half required old present
    exact ⟨_, rfl, kept groups inner⟩
  · exact framed.half required value found

theorem Framed.eraseElsewhere (framed : Framed schema) (slot : Slot) (name : String) :
    Framed (eraseElsewhere slot.half slot.tag name schema) := by
  rw [eraseElsewhere_eq]
  exact (framed.modify (fun _ => eraseInGroups_framed) _).modify (fun _ => eraseInGroups_framed) _

/-! Moving a declaration. -/

theorem Framed.move (framed : Framed schema) (slot : Slot) (name : String) :
    Framed (move slot.half slot.tag name schema) := by
  have cleared := framed.eraseElsewhere slot name
  unfold Overlay.move
  dsimp only
  split
  · exact cleared.updateSlot slot fun _ distinct => distinct.ensure name _
  · exact cleared

/-- After the move the name is in its slot, or nowhere. -/
theorem lookup_move (framed : Framed schema) (slot other : Slot) (name : String) :
    other.lookup name (move slot.half slot.tag name schema) =
      if other = slot then (slot.lookup name schema).or (slot.opposite.lookup name schema)
      else none := by
  have cleared := framed.eraseElsewhere slot name
  unfold move
  dsimp only
  rw [declaredOpposite_eq]
  cases opposite : slot.opposite.lookup name schema with
  | none =>
    dsimp only
    rw [Slot.lookup, fields_eraseElsewhere]
    by_cases same : other = slot
    · subst same
      simp [Slot.lookup]
    · rw [if_neg same, if_neg same, Entries.lookup_erase, if_pos rfl]
  | some declaration =>
    dsimp only
    rw [Slot.lookup, fields_updateSlot cleared, fields_eraseElsewhere, fields_eraseElsewhere]
    by_cases same : other = slot
    · subst same
      rw [if_pos rfl, if_pos rfl, if_pos rfl, Entries.lookup_ensure, if_pos rfl]
      cases found : other.lookup name schema <;> rw [Slot.lookup] at found <;> simp [found]
    · rw [if_neg same, if_neg same, if_neg same, Entries.lookup_erase, if_pos rfl]

/-- The other names stay where they are. -/
theorem lookup_move_of_ne (framed : Framed schema) (slot other : Slot) {name kept : String}
    (different : kept ≠ name) :
    other.lookup kept (move slot.half slot.tag name schema) = other.lookup kept schema := by
  have cleared := framed.eraseElsewhere slot name
  have left : ∀ other : Slot, (other.fields (eraseElsewhere slot.half slot.tag name schema)).lookup
      kept = other.lookup kept schema := by
    intro other
    rw [fields_eraseElsewhere, Slot.lookup]
    split
    · rfl
    · rw [Entries.lookup_erase, if_neg different]
  unfold move
  dsimp only
  split
  · rw [Slot.lookup, fields_updateSlot cleared]
    split
    · next same => rw [Entries.lookup_ensure, if_neg different, left, same]
    · exact left other
  · exact left other

end

/-! One schema laid over another. -/

theorem membersAt_laidMembers {lower upper : Members} {key : String}
    (distinct : Entries.Distinct lower) (distinctOver : Entries.Distinct upper)
    (objects : ∀ value, lower.lookup key = some value → Holds Entries.Distinct value)
    (objectsOver : ∀ value, upper.lookup key = some value → Holds Entries.Distinct value) :
    membersAt key (Patch.laidMembers lower upper) =
      Patch.laidMembers (membersAt key lower) (membersAt key upper) := by
  rw [membersAt, Patch.lookup_laidMembers distinct distinctOver, membersAt, membersAt]
  cases found : lower.lookup key with
  | none =>
    cases foundOver : upper.lookup key with
    | none => rfl
    | some value =>
      obtain ⟨inner, rfl, apart⟩ := objectsOver value foundOver
      rw [Patch.laid, Patch.materialize_ofValue]
      exact (Patch.nil_laidMembers apart).symm
  | some value =>
    obtain ⟨inner, rfl, apart⟩ := objects value found
    cases foundOver : upper.lookup key with
    | none => exact (Patch.laidMembers_nil apart).symm
    | some value =>
      obtain ⟨other, rfl, -⟩ := objectsOver value foundOver
      rw [Patch.laid, Patch.apply_object]
      rfl

theorem lookup_laidMembers {lower upper : Members} (framed : Framed lower) (framedOver : Framed upper)
    (slot : Slot) (name : String) : slot.lookup name (Patch.laidMembers lower upper) =
      Patch.laid (slot.lookup name lower) (slot.lookup name upper) := by
  have half := membersAt_laidMembers framed.distinct framedOver.distinct
    (fun value found => (framed.half slot.required value found).mono fun _ => GroupsFramed.distinct)
    (fun value found => (framedOver.half slot.required value found).mono fun _ => GroupsFramed.distinct)
  have group := membersAt_laidMembers (framed.groups slot.required).distinct
    (framedOver.groups slot.required).distinct
    ((framed.groups slot.required).group slot.tag) ((framedOver.groups slot.required).group slot.tag)
  rw [Slot.lookup, Slot.fields, Slot.half, half, group]
  exact Patch.lookup_laidMembers (framed.fields slot) (framedOver.fields slot) name

end FieldSchema.Overlay
