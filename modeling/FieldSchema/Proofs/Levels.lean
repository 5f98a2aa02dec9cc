import FieldSchema.Proofs.Relocation
import FieldSchema.Proofs.Reordering

/-! Levels of a schema: the schema itself and each object declared in it. What can be read as a
schema, with its null declarations left out, is framed at every level. -/
namespace FieldSchema.Overlay

open Collection

/-! Leaving out the field declarations that are null. The other members of an object stay. -/

mutual

def declaring : Json → Json
  | .object members => .object (declaringMembers members)
  | value => value

def declaringMembers : Members → Members
  | [] => []
  | (key, value) :: rest =>
    (key, if (required? key).isSome then declaringHalf value else value) :: declaringMembers rest

def declaringHalf : Json → Json
  | .object groups => .object (declaringGroups groups)
  | value => value

def declaringGroups : Members → Members
  | [] => []
  | (tag, fields) :: rest => (tag, declaringGroup tag fields) :: declaringGroups rest

def declaringGroup (tag : String) : Json → Json
  | .object fields => .object (declaringFields tag fields)
  | value => value

def declaringFields (tag : String) : Members → Members
  | [] => []
  | (name, declaration) :: rest =>
    if declaration.isNull then declaringFields tag rest
    else (name, if tag = Tag.object.name then declaring declaration else declaration) ::
      declaringFields tag rest

end

def declaringField (tag : String) (declaration : Json) : Option Json :=
  if declaration.isNull then none
  else some (if tag = Tag.object.name then declaring declaration else declaration)

theorem declaringMembers_eq_map (members : Members) :
    declaringMembers members = members.map fun (key, value) =>
      (key, if (required? key).isSome then declaringHalf value else value) := by
  induction members with
  | nil => rfl
  | cons entry rest ih => rw [declaringMembers, ih, List.map_cons]

theorem declaringGroups_eq_map (groups : Members) :
    declaringGroups groups = groups.map fun (tag, fields) => (tag, declaringGroup tag fields) := by
  induction groups with
  | nil => rfl
  | cons entry rest ih => rw [declaringGroups, ih, List.map_cons]

theorem declaringFields_eq_filterMap (tag : String) (fields : Members) :
    declaringFields tag fields = fields.filterMap fun (name, declaration) =>
      (declaringField tag declaration).map (name, ·) := by
  induction fields with
  | nil => rfl
  | cons entry rest ih =>
    obtain ⟨name, declaration⟩ := entry
    rw [declaringFields, ih, List.filterMap_cons]
    dsimp only
    rw [declaringField]
    cases declaration.isNull <;> rfl

theorem lookup_half_declaringMembers (required : Bool) (members : Members) :
    (declaringMembers members).lookup (halfName required) =
      (members.lookup (halfName required)).map declaringHalf := by
  rw [declaringMembers_eq_map, Entries.lookup_mapValues (halfName required) fun key value =>
    if (required? key).isSome then declaringHalf value else value]
  cases required <;> rfl

theorem lookup_declaringGroups (tag : String) (groups : Members) :
    (declaringGroups groups).lookup tag = (groups.lookup tag).map (declaringGroup tag) := by
  rw [declaringGroups_eq_map]
  exact Entries.lookup_mapValues tag declaringGroup groups

theorem declaringHalf_eq_object_iff {value : Json} {members : Members} :
    declaringHalf value = .object members ↔
      ∃ groups, value = .object groups ∧ declaringGroups groups = members := by
  cases value <;> simp [declaringHalf]

theorem declaringGroup_eq_object_iff {tag : String} {value : Json} {members : Members} :
    declaringGroup tag value = .object members ↔
      ∃ fields, value = .object fields ∧ declaringFields tag fields = members := by
  cases value <;> simp [declaringGroup]

theorem declaring_eq_object_iff {value : Json} {members : Members} :
    declaring value = .object members ↔
      ∃ inner, value = .object inner ∧ declaringMembers inner = members := by
  cases value <;> simp [declaring]

theorem membersAt_half_declaringMembers (required : Bool) (members : Members) :
    membersAt (halfName required) (declaringMembers members) =
      declaringGroups (membersAt (halfName required) members) := by
  rw [membersAt, lookup_half_declaringMembers, membersAt]
  cases members.lookup (halfName required) with
  | none => rfl
  | some value => cases value <;> rfl

theorem membersAt_declaringGroups (tag : String) (groups : Members) :
    membersAt tag (declaringGroups groups) = declaringFields tag (membersAt tag groups) := by
  rw [membersAt, lookup_declaringGroups, membersAt]
  cases groups.lookup tag with
  | none => rfl
  | some value => cases value <;> rfl

theorem lookup_declaringMembers {members : Members} {slot : Slot}
    (distinct : Entries.Distinct (slot.fields members)) (name : String) :
    slot.lookup name (declaringMembers members) =
      (slot.lookup name members).bind (declaringField slot.tag) := by
  rw [Slot.lookup, Slot.fields, Slot.half, membersAt_half_declaringMembers,
    membersAt_declaringGroups, declaringFields_eq_filterMap]
  exact Entries.lookup_filterMapValues distinct fun _ => declaringField slot.tag

/-! What can be read. -/

/-- The members can be read as a collection, at some place. -/
def Readable (members : Members) : Prop :=
  ∃ limit path nested read, readHalves limit path nested members = .ok read

theorem Readable.nil : Readable [] := ⟨0, .root, false, _, rfl⟩

section

variable {members : Members}

/-- Halves are objects of groups, which are objects. -/
def Grouped (members : Members) : Prop :=
  ∀ required value, members.lookup (halfName required) = some value →
    ∃ groups, value = .object groups ∧ ∀ tag value, groups.lookup tag = some value →
      ∃ fields, value = .object fields

theorem Readable.grouped (readable : Readable members) : Grouped members := by
  intro required value found
  obtain ⟨limit, path, nested, ⟨collection, others⟩, complete⟩ := readable
  have isHalf : required? (halfName required) ≠ none := by cases required <;> decide
  obtain ⟨groups, rfl, shaped⟩ :=
    (shaped_of_readHalves complete).half _ _ (Entries.mem_of_lookup found) isHalf
  exact ⟨groups, rfl, fun tag value listed => (shaped _ (Entries.mem_of_lookup listed)).2⟩

theorem grouped_of_declaring (grouped : Grouped (declaringMembers members)) : Grouped members := by
  intro required value found
  have image := lookup_half_declaringMembers required members
  rw [found] at image
  obtain ⟨_, same, inner⟩ := grouped required _ image
  obtain ⟨groups, rfl, rfl⟩ := declaringHalf_eq_object_iff.mp same
  refine ⟨groups, rfl, fun tag value listed => ?_⟩
  have image := lookup_declaringGroups tag groups
  rw [listed] at image
  obtain ⟨_, same⟩ := inner tag _ image
  obtain ⟨fields, rfl, -⟩ := declaringGroup_eq_object_iff.mp same
  exact ⟨fields, rfl⟩

theorem distinct_of_lookup {key : String} {value : Json} (distinct : (Json.object members).Distinct)
    (found : members.lookup key = some value) : value.Distinct :=
  Json.distinct_of_mem distinct (Entries.mem_of_lookup found)

theorem Grouped.framed (grouped : Grouped members) (distinct : (Json.object members).Distinct) :
    Framed members := by
  refine ⟨distinct.1, fun required value found => ?_⟩
  obtain ⟨groups, rfl, inner⟩ := grouped required value found
  have distinctGroups := distinct_of_lookup distinct found
  refine ⟨groups, rfl, distinctGroups.1, fun tag value listed => ?_⟩
  obtain ⟨fields, rfl⟩ := inner tag value listed
  exact ⟨fields, rfl, (distinct_of_lookup distinctGroups listed).1⟩

theorem distinct_of_slot {slot : Slot} {name : String} {value : Json}
    (distinct : (Json.object members).Distinct) (found : slot.lookup name members = some value) :
    value.Distinct := by
  obtain ⟨groups, fields, half, group, found⟩ := Slot.lookup_eq_some_iff.mp found
  exact distinct_of_lookup (distinct_of_lookup (distinct_of_lookup distinct half) group) found

/-- A declaration is an object, and below an object's tag it can be read in turn. -/
theorem Readable.entry (readable : Readable members) {slot : Slot} {name : String} {value : Json}
    (found : slot.lookup name members = some value) :
    ∃ inner, value = .object inner ∧ (slot.tag = Tag.object.name → Readable inner) := by
  obtain ⟨limit, path, nested, ⟨collection, others⟩, complete⟩ := readable
  obtain ⟨item, -, read⟩ := ok_of_mapM (readHalves_eq_ok complete).2.2
    (declarationsAt_subset _ _ (mem_declarationsAt_of_lookup found))
  unfold Declaration.read at read
  split at read
  · cases read
  · next type known =>
    obtain ⟨declared, read, -⟩ := map_eq_ok_iff.mp read
    obtain ⟨entries, draft, rfl, -⟩ := ofMember_eq_ok_iff.mp read
    refine ⟨entries, rfl, fun object => ?_⟩
    rw [object] at known
    cases known
  · obtain ⟨object, read, -⟩ := map_eq_ok_iff.mp read
    obtain ⟨inner, collection, others, draft, rfl, -, read, -⟩ := readObject_eq_ok_iff.mp read
    exact ⟨inner, rfl, fun _ => ⟨_, _, _, _, read⟩⟩

end

/-! Levels. -/

/-- The object that is declared under a name. -/
def nested? (name : String) (schema : Members) : Option Members :=
  (((⟨true, Tag.object.name⟩ : Slot).lookup name schema).bind Json.object?).or
    (((⟨false, Tag.object.name⟩ : Slot).lookup name schema).bind Json.object?)

/-- The schema of an object in a schema, given by the names that lead to it. -/
def level? : List String → Members → Option Members
  | [], schema => some schema
  | name :: path, schema => (nested? name schema).bind (level? path)

/-- No level declares a name twice. -/
def Unrepeated (schema : Members) : Prop :=
  ∀ path level, level? path schema = some level → Once level

section

variable {schema inner : Members} {name : String}

theorem Unrepeated.once (unrepeated : Unrepeated schema) : Once schema := unrepeated [] schema rfl

theorem Unrepeated.nested (unrepeated : Unrepeated schema)
    (found : nested? name schema = some inner) : Unrepeated inner := by
  intro path level reached
  refine unrepeated (name :: path) level ?_
  rw [level?, found]
  exact reached

theorem exists_slot_of_nested? (found : nested? name schema = some inner) :
    ∃ slot : Slot, slot.tag = Tag.object.name ∧ slot.lookup name schema = some (.object inner) := by
  have ofSlot : ∀ slot : Slot, (slot.lookup name schema).bind Json.object? = some inner →
      slot.lookup name schema = some (.object inner) := by
    intro slot found
    obtain ⟨value, there, object⟩ := Option.bind_eq_some_iff.mp found
    cases value with
    | object members => cases object; exact there
    | null | bool | number | string | array => cases object
  rcases Option.or_eq_some_iff.mp found with found | ⟨-, found⟩
  · exact ⟨_, rfl, ofSlot _ found⟩
  · exact ⟨_, rfl, ofSlot _ found⟩

theorem nested?_of_slot (once : Once schema) {slot : Slot} (object : slot.tag = Tag.object.name)
    (found : slot.lookup name schema = some (.object inner)) : nested? name schema = some inner := by
  obtain ⟨required, tag⟩ := slot
  change tag = Tag.object.name at object
  subst object
  cases required with
  | true => rw [nested?, found]; rfl
  | false =>
    rw [nested?, found]
    cases other : ((⟨true, Tag.object.name⟩ : Slot).lookup name schema).bind Json.object? with
    | none => rfl
    | some members =>
      obtain ⟨value, there, isObject⟩ := Option.bind_eq_some_iff.mp other
      cases value with
      | object => cases once name _ _ ⟨_, there, rfl⟩ ⟨_, found, rfl⟩
      | null | bool | number | string | array => cases isObject

theorem nested?_eq_none (absent : ∀ slot : Slot, slot.tag = Tag.object.name →
    ∀ inner, slot.lookup name schema ≠ some (.object inner)) : nested? name schema = none := by
  cases found : nested? name schema with
  | none => rfl
  | some inner =>
    obtain ⟨slot, object, there⟩ := exists_slot_of_nested? found
    exact absurd there (absent slot object inner)

end

/-- The objects that a schema declares. -/
def objectsIn (schema : Members) : List Members :=
  (steps schema).filterMap fun declaration =>
    if declaration.tag = Tag.object.name then declaration.value.object? else none

/-- Names are declared once if the list of declarations repeats none. -/
theorem once_of_nodup
    (nodup : (((steps schema).filter (!·.value.isNull)).map Declaration.name).Nodup) :
    Once schema := by
  rintro name slot other ⟨value, found, declared⟩ ⟨value', found', declared'⟩
  have listed : ⟨slot.required, slot.tag, name, value⟩ ∈ (steps schema).filter (!·.value.isNull) :=
    List.mem_filter.mpr ⟨mem_steps_of_lookup found, by simp [declared]⟩
  have listed' : ⟨other.required, other.tag, name, value'⟩ ∈
      (steps schema).filter (!·.value.isNull) :=
    List.mem_filter.mpr ⟨mem_steps_of_lookup found', by simp [declared']⟩
  exact congrArg slotOf (List.inj_on_of_nodup_map nodup listed listed' rfl)

/-- A schema repeats no name if its list of declarations does not, nor any object in it. -/
theorem unrepeated_of_nodup
    (nodup : (((steps schema).filter (!·.value.isNull)).map Declaration.name).Nodup)
    (below : ∀ inner ∈ objectsIn schema, Unrepeated inner) : Unrepeated schema := by
  intro path level reached
  cases path with
  | nil =>
    cases reached
    exact once_of_nodup nodup
  | cons name path =>
    obtain ⟨inner, found, reached⟩ := Option.bind_eq_some_iff.mp reached
    obtain ⟨slot, object, there⟩ := exists_slot_of_nested? found
    have listed : inner ∈ objectsIn schema :=
      List.mem_filterMap.mpr ⟨_, mem_steps_of_lookup there, if_pos object⟩
    exact below inner listed path level reached

/-- A public schema: each of its declarations can be read. -/
structure Public (schema : Members) : Prop where
  readable : Readable schema
  distinct : (Json.object schema).Distinct
  unrepeated : Unrepeated schema

/-- A private schema: what it declares can be read. -/
structure Private (schema : Members) : Prop where
  readable : Readable (declaringMembers schema)
  distinct : (Json.object schema).Distinct
  unrepeated : Unrepeated schema

section

variable {schema inner : Members} {slot : Slot} {name : String} {value : Json}

theorem Unrepeated.nil : Unrepeated [] := by
  intro path level reached
  cases path with
  | nil => cases reached; rintro name slot other ⟨value, found, -⟩; cases found
  | cons => cases reached

theorem Public.nil : Public [] := ⟨.nil, ⟨.nil, trivial⟩, .nil⟩

theorem Private.nil : Private [] := ⟨.nil, ⟨.nil, trivial⟩, .nil⟩

theorem Public.framed (base : Public schema) : Framed schema :=
  base.readable.grouped.framed base.distinct

theorem Private.framed (overlay : Private schema) : Framed schema :=
  (grouped_of_declaring overlay.readable.grouped).framed overlay.distinct

theorem Public.object (base : Public schema) (found : slot.lookup name schema = some value) :
    ∃ inner, value = .object inner := by
  obtain ⟨inner, same, -⟩ := base.readable.entry found
  exact ⟨inner, same⟩

theorem Private.declared (overlay : Private schema) (found : slot.lookup name schema = some value)
    (declared : value.isNull = false) :
    ∃ inner, value = .object inner ∧
      (slot.tag = Tag.object.name → Readable (declaringMembers inner)) := by
  have image := lookup_declaringMembers (overlay.framed.fields slot) name
  rw [found, Option.bind_some, declaringField, declared, if_neg Bool.false_ne_true] at image
  obtain ⟨_, same, readable⟩ := overlay.readable.entry image
  split at same
  · obtain ⟨inner, rfl, rfl⟩ := declaring_eq_object_iff.mp same
    exact ⟨inner, rfl, readable⟩
  · next primitive => exact ⟨_, same, fun object => absurd object primitive⟩

theorem Public.nested (base : Public schema) (found : nested? name schema = some inner) :
    Public inner := by
  obtain ⟨slot, object, there⟩ := exists_slot_of_nested? found
  obtain ⟨_, same, readable⟩ := base.readable.entry there
  cases same
  exact ⟨readable object, distinct_of_slot base.distinct there, base.unrepeated.nested found⟩

theorem Private.nested (overlay : Private schema) (found : nested? name schema = some inner) :
    Private inner := by
  obtain ⟨slot, object, there⟩ := exists_slot_of_nested? found
  obtain ⟨_, same, readable⟩ := overlay.declared there rfl
  cases same
  exact ⟨readable object, distinct_of_slot overlay.distinct there, overlay.unrepeated.nested found⟩

end

end FieldSchema.Overlay
