import FieldSchema.Proofs.Declarations
import FieldSchema.Proofs.Slots

/-! Relocation, declaration by declaration. One step settles where one name is and touches no other;
a whole relocation settles each name that the overlay declares once. -/
namespace FieldSchema.Overlay

open Collection

def slotOf (declaration : Declaration) : Slot := ⟨declaration.required, declaration.tag⟩

def step (schema : Members) (declaration : Declaration) : Members :=
  relocateField (halfName declaration.required) declaration.tag declaration.name schema
    declaration.value

def declarationsAt (required : Bool) (overlay : Members) : List Declaration :=
  declarationsOfHalf required ((overlay.lookup (halfName required)).getD .null)

/-- The declarations of an overlay in the order in which they are relocated. -/
def steps (overlay : Members) : List Declaration :=
  declarationsAt true overlay ++ declarationsAt false overlay

theorem relocateEachField_eq_foldl (required : Bool) (tag : String) (schema fields : Members) :
    relocateEachField (halfName required) tag schema fields =
      (declarationsOfGroup required tag (.object fields)).foldl step schema := by
  induction fields generalizing schema with
  | nil => rfl
  | cons entry rest ih => rw [relocateEachField, ih]; rfl

theorem relocateEachGroup_eq_foldl (required : Bool) (schema groups : Members) :
    relocateEachGroup (halfName required) schema groups =
      (declarationsOfHalf required (.object groups)).foldl step schema := by
  induction groups generalizing schema with
  | nil => rfl
  | cons entry rest ih =>
    obtain ⟨tag, fields⟩ := entry
    have first : relocateFields (halfName required) tag schema fields =
        (declarationsOfGroup required tag fields).foldl step schema := by
      cases fields with
      | object fields => exact relocateEachField_eq_foldl required tag schema fields
      | null | bool | number | string | array => rfl
    rw [relocateEachGroup, ih, first, declarationsOfHalf, declarationsOfHalf, List.flatMap_cons,
      List.foldl_append]

theorem relocateHalf_eq_foldl (required : Bool) (schema overlay : Members) :
    relocateHalf (halfName required) schema overlay =
      (declarationsAt required overlay).foldl step schema := by
  induction overlay with
  | nil => rfl
  | cons entry rest ih =>
    obtain ⟨key, groups⟩ := entry
    rw [relocateHalf, declarationsAt, List.lookup_cons]
    by_cases here : key = halfName required
    · rw [if_pos here, beq_iff_eq.mpr here.symm]
      cases groups with
      | object groups => exact relocateEachGroup_eq_foldl required schema groups
      | null | bool | number | string | array => rfl
    · rw [if_neg here, beq_eq_false_iff_ne.mpr (Ne.symm here)]
      exact ih

/-- Relocation is a run of its steps. -/
theorem relocate_eq_foldl (schema overlay : Members) :
    relocate schema overlay = (steps overlay).foldl step schema := by
  rw [steps, List.foldl_append, ← relocateHalf_eq_foldl, ← relocateHalf_eq_foldl]
  rfl

/-! One step. -/

/-- What a public declaration has become when the private one is laid over it. -/
def carried (tag : String) (declaration lower : Json) : Json :=
  if tag = Tag.object.name then relocated lower declaration else lower

theorem carried_object (nested : Members) :
    carried Tag.object.name (.object nested) = within (relocate · nested) := by
  funext lower
  rw [carried, if_pos rfl]
  cases lower <;> rfl

/-- A step moves its declaration. Below an object both sides go on with what they nest. -/
theorem relocateField_cases (slot : Slot) (name : String) (schema : Members) {declaration : Json}
    (declared : declaration.isNull = false) :
    (relocateField slot.half slot.tag name schema declaration = move slot.half slot.tag name schema ∧
      carried slot.tag declaration = id) ∨
    relocateField slot.half slot.tag name schema declaration =
      updateSlot slot.half slot.tag (Entries.modify name (carried slot.tag declaration))
        (move slot.half slot.tag name schema) := by
  by_cases object : slot.tag = Tag.object.name
  · cases declaration with
    | null => cases declared
    | object nested =>
      right
      rw [relocateField, object, if_pos rfl, carried_object]
      rfl
    | bool | number | string | array =>
      refine .inl ⟨rfl, funext fun lower => ?_⟩
      rw [carried, if_pos object]
      cases lower <;> rfl
  · refine .inl ⟨?_, funext fun lower => if_neg object⟩
    cases declaration with
    | null => cases declared
    | object nested => rw [relocateField]; exact if_neg object
    | bool | number | string | array => rfl

section

variable {schema : Members}

theorem Framed.relocateField (framed : Framed schema) (slot : Slot) (name : String)
    (declaration : Json) :
    Framed (relocateField slot.half slot.tag name schema declaration) := by
  have moved := framed.move slot name
  cases declared : declaration.isNull with
  | true =>
    cases declaration with
    | null => exact framed
    | bool | number | string | array | object => cases declared
  | false =>
    rcases relocateField_cases slot name schema declared with ⟨same, -⟩ | same
    · rwa [same]
    · rw [same]
      exact moved.updateSlot slot fun _ distinct => distinct.modify name _

/-- A name that the overlay declares ends in the slot of the overlay, or nowhere. -/
theorem lookup_relocateField (framed : Framed schema) (slot other : Slot) (name : String)
    {declaration : Json} (declared : declaration.isNull = false) :
    other.lookup name (relocateField slot.half slot.tag name schema declaration) =
      if other = slot then
        ((slot.lookup name schema).or (slot.opposite.lookup name schema)).map
          (carried slot.tag declaration)
      else none := by
  have moved := lookup_move framed slot other name
  rcases relocateField_cases slot name schema declared with ⟨same, unchanged⟩ | same
  · rw [same, moved, unchanged, Option.map_id_fun, id]
  · rw [same, Slot.lookup, fields_updateSlot (framed.move slot name)]
    by_cases here : other = slot
    · subst here
      rw [if_pos rfl] at moved
      rw [if_pos rfl, if_pos rfl, Entries.lookup_modify, if_pos rfl, ← moved]
      rfl
    · rw [if_neg here] at moved
      rw [if_neg here, if_neg here, ← moved]
      rfl

theorem lookup_relocateField_of_ne (framed : Framed schema) (slot other : Slot)
    {name kept : String} (different : kept ≠ name) {declaration : Json} :
    other.lookup kept (relocateField slot.half slot.tag name schema declaration) =
      other.lookup kept schema := by
  have moved := fun other => lookup_move_of_ne framed slot other different
  cases declared : declaration.isNull with
  | true =>
    cases declaration with
    | null => rfl
    | bool | number | string | array | object => cases declared
  | false =>
    rcases relocateField_cases slot name schema declared with ⟨same, -⟩ | same
    · rw [same, moved]
    · rw [same, Slot.lookup, fields_updateSlot (framed.move slot name)]
      split
      · next here => rw [Entries.lookup_modify, if_neg different, here]; exact moved slot
      · exact moved other

/-! A run. -/

/-- Whether a step settles where `name` is. -/
def settles (name : String) (declaration : Declaration) : Bool :=
  decide (declaration.name = name) && !declaration.value.isNull

theorem settles_iff {name : String} {declaration : Declaration} :
    settles name declaration = true ↔ declaration.name = name ∧ declaration.value.isNull = false := by
  simp [settles]

/-- What a step makes of the entries under the name that it settles. -/
def settled (entries : Slot → Option Json) (declaration : Declaration) (slot : Slot) :
    Option Json :=
  if slot = slotOf declaration then
    ((entries (slotOf declaration)).or (entries (slotOf declaration).opposite)).map
      (carried declaration.tag declaration.value)
  else none

theorem Framed.step (framed : Framed schema) (declaration : Declaration) :
    Framed (step schema declaration) :=
  framed.relocateField (slotOf declaration) declaration.name declaration.value

theorem Framed.steps (framed : Framed schema) (declarations : List Declaration) :
    Framed (declarations.foldl Overlay.step schema) := by
  induction declarations generalizing schema with
  | nil => exact framed
  | cons declaration rest ih => exact ih (framed.step declaration)

theorem Framed.relocate (framed : Framed schema) (overlay : Members) :
    Framed (relocate schema overlay) := by
  rw [relocate_eq_foldl]
  exact framed.steps _

theorem lookup_step_of_settles (framed : Framed schema) {declaration : Declaration} {name : String}
    (concerned : settles name declaration = true) (slot : Slot) :
    slot.lookup name (Overlay.step schema declaration) =
      settled (fun slot => slot.lookup name schema) declaration slot := by
  obtain ⟨rfl, declared⟩ := settles_iff.mp concerned
  exact lookup_relocateField framed (slotOf declaration) slot declaration.name declared

theorem lookup_step_of_not_settles (framed : Framed schema) {declaration : Declaration}
    {name : String} (unconcerned : settles name declaration = false) (slot : Slot) :
    slot.lookup name (Overlay.step schema declaration) = slot.lookup name schema := by
  by_cases same : declaration.name = name
  · have isNull : declaration.value.isNull = true := by simpa [settles, same] using unconcerned
    unfold Overlay.step
    cases value : declaration.value with
    | null => rfl
    | bool | number | string | array | object => rw [value] at isNull; cases isNull
  · exact lookup_relocateField_of_ne framed (slotOf declaration) slot (Ne.symm same)

/-- A run settles a name by the steps that concern it, whatever stands between them. -/
theorem lookup_steps (framed : Framed schema) (declarations : List Declaration) (name : String)
    (slot : Slot) : slot.lookup name (declarations.foldl Overlay.step schema) =
      (declarations.filter (settles name)).foldl settled (fun slot => slot.lookup name schema)
        slot := by
  induction declarations generalizing schema with
  | nil => rfl
  | cons declaration rest ih =>
    rw [List.foldl_cons, ih (framed.step declaration), List.filter_cons]
    cases concerned : settles name declaration with
    | true =>
      rw [if_pos rfl, List.foldl_cons, funext (lookup_step_of_settles framed concerned)]
    | false =>
      rw [if_neg Bool.false_ne_true, funext (lookup_step_of_not_settles framed concerned)]

end

/-! The steps of an overlay are what it has in its slots, each once. -/

section

variable {overlay : Members}

theorem declarationsAt_eq (framed : Framed overlay) (required : Bool) :
    declarationsAt required overlay = (membersAt (halfName required) overlay).flatMap fun group =>
      declarationsOfGroup required group.1 group.2 := by
  rw [declarationsAt]
  cases found : overlay.lookup (halfName required) with
  | none => rw [membersAt_of_lookup_none found]; rfl
  | some value =>
    obtain ⟨groups, rfl, -⟩ := framed.half required value found
    rw [membersAt_of_lookup_object found]
    rfl

theorem mem_declarationsAt_of_lookup {slot : Slot} {name : String} {value : Json}
    (found : slot.lookup name overlay = some value) :
    ⟨slot.required, slot.tag, name, value⟩ ∈ declarationsAt slot.required overlay := by
  obtain ⟨groups, fields, half, group, found⟩ := Slot.lookup_eq_some_iff.mp found
  rw [Slot.half] at half
  rw [declarationsAt, half]
  exact List.mem_flatMap.mpr ⟨(slot.tag, .object fields), Entries.mem_of_lookup group,
    List.mem_map.mpr ⟨(name, value), Entries.mem_of_lookup found, rfl⟩⟩

theorem declarationsAt_subset (required : Bool) (overlay : Members) :
    declarationsAt required overlay ⊆ declarations overlay := by
  intro declaration member
  rw [declarationsAt] at member
  cases found : overlay.lookup (halfName required) with
  | none => rw [found] at member; cases member
  | some value =>
    have own : required? (halfName required) = some required := by cases required <;> rfl
    rw [found] at member
    refine List.mem_flatMap.mpr ⟨_, Entries.mem_of_lookup found, ?_⟩
    dsimp only
    rw [own]
    exact member

theorem mem_declarationsAt_iff (framed : Framed overlay) {required : Bool}
    {declaration : Declaration} : declaration ∈ declarationsAt required overlay ↔
      declaration.required = required ∧
        (slotOf declaration).lookup declaration.name overlay = some declaration.value := by
  constructor
  · intro member
    have groups := framed.groups required
    rw [declarationsAt_eq framed, List.mem_flatMap] at member
    obtain ⟨⟨tag, value⟩, listed, member⟩ := member
    have found := (Entries.lookup_eq_some_iff groups.distinct).mpr listed
    obtain ⟨fields, rfl, distinct⟩ := groups.group tag value found
    obtain ⟨⟨name, entry⟩, inside, rfl⟩ := List.mem_map.mp member
    refine ⟨rfl, ?_⟩
    rw [Slot.lookup, Slot.fields, slotOf, Slot.half, membersAt_of_lookup_object found]
    exact (Entries.lookup_eq_some_iff distinct).mpr inside
  · rintro ⟨rfl, found⟩
    exact mem_declarationsAt_of_lookup found

theorem tag_of_mem_group {required : Bool} {tag : String} {value : Json} {declaration : Declaration}
    (member : declaration ∈ declarationsOfGroup required tag value) : declaration.tag = tag := by
  cases value with
  | object fields =>
    obtain ⟨field, -, rfl⟩ := List.mem_map.mp member
    rfl
  | null | bool | number | string | array => cases member

theorem nodup_declarationsAt (framed : Framed overlay) (required : Bool) :
    (declarationsAt required overlay).Nodup := by
  have groups := framed.groups required
  rw [declarationsAt_eq framed, List.nodup_flatMap]
  constructor
  · rintro ⟨tag, value⟩ listed
    obtain ⟨fields, rfl, distinct⟩ := groups.group tag value
      ((Entries.lookup_eq_some_iff groups.distinct).mpr listed)
    refine List.Nodup.of_map Declaration.name ?_
    rw [declarationsOfGroup, List.map_map]
    exact distinct
  · refine (List.pairwise_map.mp groups.distinct).imp fun {a b} different => ?_
    intro declaration inFirst inSecond
    exact different ((tag_of_mem_group inFirst).symm.trans (tag_of_mem_group inSecond))

theorem mem_steps_of_lookup {slot : Slot} {name : String} {value : Json}
    (found : slot.lookup name overlay = some value) :
    ⟨slot.required, slot.tag, name, value⟩ ∈ steps overlay := by
  have listed := mem_declarationsAt_of_lookup found
  obtain ⟨required, tag⟩ := slot
  cases required with
  | true => exact List.mem_append_left _ listed
  | false => exact List.mem_append_right _ listed

theorem mem_steps_iff (framed : Framed overlay) {declaration : Declaration} :
    declaration ∈ steps overlay ↔
      (slotOf declaration).lookup declaration.name overlay = some declaration.value := by
  rw [steps, List.mem_append, mem_declarationsAt_iff framed, mem_declarationsAt_iff framed]
  cases declaration.required <;> simp

theorem nodup_steps (framed : Framed overlay) : (steps overlay).Nodup := by
  refine List.nodup_append.mpr ⟨nodup_declarationsAt framed true, nodup_declarationsAt framed false,
    fun first inFirst second inSecond same => ?_⟩
  have opposite := (mem_declarationsAt_iff framed).mp inFirst
  rw [same, ((mem_declarationsAt_iff framed).mp inSecond).1] at opposite
  cases opposite.1

end

/-! Declaring. -/

/-- The schema has more than a null under the name in the slot. -/
def Slot.Declares (slot : Slot) (name : String) (schema : Members) : Prop :=
  ∃ value, slot.lookup name schema = some value ∧ value.isNull = false

/-- No name is declared in two slots. -/
def Once (schema : Members) : Prop :=
  ∀ (name : String) (slot other : Slot), slot.Declares name schema → other.Declares name schema →
    slot = other

section

variable {schema overlay : Members}

/-- A name that the overlay does not declare stays where it is. -/
theorem lookup_relocate_of_undeclared (framed : Framed schema) (framedOver : Framed overlay)
    {name : String} (undeclared : ∀ slot : Slot, ¬ slot.Declares name overlay) (slot : Slot) :
    slot.lookup name (relocate schema overlay) = slot.lookup name schema := by
  have none : (steps overlay).filter (settles name) = [] := by
    refine List.filter_eq_nil_iff.mpr fun declaration member concerned => ?_
    obtain ⟨rfl, declared⟩ := settles_iff.mp concerned
    exact undeclared _ ⟨_, (mem_steps_iff framedOver).mp member, declared⟩
  rw [relocate_eq_foldl, lookup_steps framed, none]
  rfl

/-- A name that the overlay declares once is settled there. -/
theorem lookup_relocate_of_declared (framed : Framed schema) (framedOver : Framed overlay)
    (once : Once overlay) {slot : Slot} {name : String} {value : Json}
    (found : slot.lookup name overlay = some value) (declared : value.isNull = false)
    (other : Slot) : other.lookup name (relocate schema overlay) =
      if other = slot then
        ((slot.lookup name schema).or (slot.opposite.lookup name schema)).map
          (carried slot.tag value)
      else none := by
  have single : (steps overlay).filter (settles name) =
      [⟨slot.required, slot.tag, name, value⟩] := by
    refine List.perm_singleton.mp ((List.perm_ext_iff_of_nodup
      ((nodup_steps framedOver).filter _) (List.nodup_singleton _)).mpr fun declaration => ?_)
    rw [List.mem_filter, mem_steps_iff framedOver, List.mem_singleton]
    constructor
    · rintro ⟨there, concerned⟩
      obtain ⟨rfl, present⟩ := settles_iff.mp concerned
      have together := once _ _ _ ⟨_, there, present⟩ ⟨_, found, declared⟩
      rw [together, found] at there
      obtain ⟨required, tag, name, entry⟩ := declaration
      cases together
      cases there
      rfl
    · rintro rfl
      exact ⟨found, settles_iff.mpr ⟨rfl, declared⟩⟩
  rw [relocate_eq_foldl, lookup_steps framed, single]
  rfl

end

end FieldSchema.Overlay
