import FieldSchema.Proofs.Levels

/-! Relocation where no declaration is out of place. Nothing moves then; but on the way to the objects
that the overlay declares, their slots are made where they are missing. -/
namespace FieldSchema.Overlay

open Collection

/-- The objects in one half. -/
def objectSlot (required : Bool) : Slot := ⟨required, Tag.object.name⟩

/-- What the overlay declares is in no other slot of the schema. -/
def InPlace (schema overlay : Members) : Prop :=
  ∀ (name : String) (slot other : Slot), slot.Declares name overlay →
    (other.lookup name schema).isSome → other = slot

/-! One change after another in one slot. -/

theorem place_place (key : String) (f g : Members → Members) (members : Members) :
    place key f (place key g members) = place key (fun inner => f (g inner)) members := by
  have made : Entries.has key (Entries.modify key (within g)
      (Entries.ensure key (.object []) members)) = true := by
    rw [Entries.has_modify, ← Entries.mem_names_iff, Entries.names_ensure]
    split
    · next there => exact Entries.mem_names_iff.mpr there
    · simp
  have both : (fun value => within f (within g value)) = within fun inner => f (g inner) := by
    funext value
    cases value <;> rfl
  rw [place, place, Entries.ensure, if_pos made, Entries.modify_modify, both, place]

theorem updateSlot_updateSlot (half tag : String) (f g : Members → Members) (schema : Members) :
    updateSlot half tag f (updateSlot half tag g schema) =
      updateSlot half tag (fun fields => f (g fields)) schema := by
  rw [updateSlot_eq_place, updateSlot_eq_place, place_place, updateSlot_eq_place,
    funext (place_place tag f g)]

theorem names_place (key : String) (f : Members → Members) (members : Members) :
    Entries.names (place key f members) =
      if Entries.has key members then Entries.names members else Entries.names members ++ [key] := by
  rw [place, Entries.names_modify, Entries.names_ensure]

section

variable {schema : Members} {slot : Slot} {name : String}

/-! Nothing moves. -/

theorem eraseInGroups_of_absent {required : Bool} {groups : Members} (framed : GroupsFramed groups)
    (absent : ∀ tag, ⟨required, tag⟩ ≠ slot → (membersAt tag groups).lookup name = none) :
    eraseInGroups slot name required groups = groups := by
  unfold eraseInGroups
  conv_rhs => rw [← List.map_id groups]
  refine List.map_congr_left fun ⟨tag, value⟩ member => ?_
  have found := (Entries.lookup_eq_some_iff framed.distinct).mpr member
  obtain ⟨fields, rfl, -⟩ := framed.group tag value found
  have kept : eraseUnderTag slot name required tag (.object fields) = .object fields := by
    by_cases here : ⟨required, tag⟩ = slot
    · subst here
      simp [eraseUnderTag, Slot.half]
    · have missing := absent tag here
      rw [membersAt_of_lookup_object found, Entries.lookup_eq_none_iff] at missing
      rw [eraseUnderTag, within, Entries.erase_of_absent missing, ite_self]
  exact congrArg (Prod.mk tag) kept

theorem eraseElsewhere_of_absent (framed : Framed schema)
    (absent : ∀ other : Slot, other ≠ slot → other.lookup name schema = none) :
    eraseElsewhere slot.half slot.tag name schema = schema := by
  have left : ∀ required, Entries.modify (halfName required)
      (within (eraseInGroups slot name required)) schema = schema := by
    intro required
    refine Entries.modify_of_fixed fun value found => ?_
    obtain ⟨groups, rfl, inner⟩ := framed.half required value found
    rw [within, eraseInGroups_of_absent inner fun tag elsewhere => ?_]
    have missing := absent ⟨required, tag⟩ elsewhere
    rwa [Slot.lookup, Slot.fields, Slot.half, membersAt_of_lookup_object found] at missing
  rw [eraseElsewhere_eq, left true, left false]

theorem move_of_absent (framed : Framed schema)
    (absent : ∀ other : Slot, other ≠ slot → other.lookup name schema = none) :
    move slot.half slot.tag name schema = schema := by
  have opposite : slot.opposite ≠ slot := by
    obtain ⟨required, tag⟩ := slot
    cases required <;> simp [Slot.opposite]
  have nothing : declaredOpposite slot.half slot.tag name schema = none := by
    rw [declaredOpposite_eq]
    exact absent _ opposite
  rw [move, nothing]
  exact eraseElsewhere_of_absent framed absent

end

/-! One step. -/

/-- Goes on with the fields below an object. -/
def visit (schema : Members) (declaration : Declaration) : Members :=
  updateSlot (halfName declaration.required) Tag.object.name
    (Entries.modify declaration.name (carried Tag.object.name declaration.value)) schema

section

variable {schema : Members} {declaration : Declaration}

theorem step_of_absent (framed : Framed schema)
    (absent : ∀ other : Slot, other ≠ slotOf declaration →
      other.lookup declaration.name schema = none)
    (object : declaration.tag = Tag.object.name → ∃ nested, declaration.value = .object nested) :
    step schema declaration =
      if declaration.tag = Tag.object.name then visit schema declaration else schema := by
  have unmoved := move_of_absent framed absent
  obtain ⟨required, tag, name, value⟩ := declaration
  change move (halfName required) tag name schema = schema at unmoved
  split
  · next isObject =>
    change tag = Tag.object.name at isObject
    obtain ⟨nested, same⟩ := object isObject
    change value = .object nested at same
    subst isObject same
    rw [step, relocateField, if_pos rfl, unmoved, visit, carried_object]
    rfl
  · next isPrimitive =>
    rw [step]
    cases value with
    | null => rfl
    | object nested => exact (if_neg isPrimitive).trans unmoved
    | bool | number | string | array => exact unmoved

theorem fields_visit (framed : Framed schema) (slot : Slot) : slot.fields (visit schema declaration) =
    if slot = objectSlot declaration.required then
      Entries.modify declaration.name (carried Tag.object.name declaration.value)
        ((objectSlot declaration.required).fields schema)
    else slot.fields schema :=
  fields_updateSlot framed (objectSlot declaration.required) slot _

theorem Framed.visit (framed : Framed schema) : Framed (visit schema declaration) :=
  framed.updateSlot (objectSlot declaration.required) fun _ distinct => distinct.modify _ _

theorem lookup_visit_eq_none_iff (framed : Framed schema) (slot : Slot) (name : String) :
    slot.lookup name (Overlay.visit schema declaration) = none ↔ slot.lookup name schema = none := by
  rw [Slot.lookup, Slot.lookup, fields_visit framed]
  split
  · next here =>
    rw [Entries.lookup_modify, here]
    split <;> simp
  · rfl

end

/-! A run. -/

section

variable {schema overlay : Members}

/-- A run goes on below the objects that are declared, and does nothing else. -/
theorem foldl_step_of_absent (framed : Framed schema) (declarations : List Declaration)
    (absent : ∀ declaration ∈ declarations, ∀ other : Slot, other ≠ slotOf declaration →
      other.lookup declaration.name schema = none)
    (objects : ∀ declaration ∈ declarations, declaration.tag = Tag.object.name →
      ∃ nested, declaration.value = .object nested) :
    declarations.foldl step schema =
      (declarations.filter fun declaration => declaration.tag = Tag.object.name).foldl visit
        schema := by
  induction declarations generalizing schema with
  | nil => rfl
  | cons declaration rest ih =>
    obtain ⟨here, later⟩ := List.forall_mem_cons.mp absent
    obtain ⟨object, others⟩ := List.forall_mem_cons.mp objects
    rw [List.foldl_cons, List.filter_cons, step_of_absent framed here object]
    by_cases isObject : declaration.tag = Tag.object.name
    · rw [if_pos isObject, if_pos (decide_eq_true isObject), List.foldl_cons]
      exact ih framed.visit (fun next member other different =>
        (lookup_visit_eq_none_iff framed other next.name).mpr (later next member other different))
        others
    · rw [if_neg isObject, if_neg (by simpa using isObject)]
      exact ih framed later others

/-- Goes on below each of the objects that are declared. -/
def descend (declared fields : Members) : Members :=
  declared.foldl (fun fields (name, declaration) =>
    Entries.modify name (carried Tag.object.name declaration) fields) fields

theorem names_descend (declared fields : Members) :
    Entries.names (descend declared fields) = Entries.names fields := by
  induction declared generalizing fields with
  | nil => rfl
  | cons entry rest ih =>
    rw [descend, List.foldl_cons]
    exact (ih _).trans (Entries.names_modify _)

theorem lookup_descend {declared : Members} (distinct : Entries.Distinct declared)
    (fields : Members) (name : String) : (descend declared fields).lookup name =
      (declared.lookup name).elim (fields.lookup name) fun declaration =>
        (fields.lookup name).map (carried Tag.object.name declaration) := by
  induction declared generalizing fields with
  | nil => rfl
  | cons entry rest ih =>
    obtain ⟨other, declaration⟩ := entry
    obtain ⟨absent, tail⟩ := List.nodup_cons.mp distinct
    rw [descend, List.foldl_cons]
    refine (ih tail _).trans ?_
    rw [Entries.lookup_modify, List.lookup_cons]
    by_cases here : name = other
    · subst here
      rw [Entries.lookup_eq_none_iff.mpr absent, if_pos rfl, beq_self_eq_true]
      rfl
    · rw [if_neg here, beq_eq_false_iff_ne.mpr here]

/-- Opens the slot of objects in a half, if the overlay has any, and goes on below them. -/
def reach (required : Bool) (overlay schema : Members) : Members :=
  if ((objectSlot required).fields overlay).isEmpty then schema
  else
    updateSlot (halfName required) Tag.object.name
      (descend ((objectSlot required).fields overlay)) schema

theorem Framed.reach (framed : Framed schema) (required : Bool) :
    Framed (reach required overlay schema) := by
  unfold Overlay.reach
  split
  · exact framed
  · refine framed.updateSlot (objectSlot required) fun fields distinct => ?_
    rwa [Entries.Distinct, names_descend]

theorem foldl_visit (required : Bool) {declared : Members} (some : declared ≠ [])
    (schema : Members) : (declared.map fun (name, value) =>
        (⟨required, Tag.object.name, name, value⟩ : Declaration)).foldl visit schema =
      updateSlot (halfName required) Tag.object.name (descend declared) schema := by
  induction declared generalizing schema with
  | nil => exact absurd rfl some
  | cons entry rest ih =>
    obtain ⟨name, value⟩ := entry
    rw [List.map_cons, List.foldl_cons]
    cases rest with
    | nil => rfl
    | cons next rest =>
      rw [ih (List.cons_ne_nil _ _), visit, updateSlot_updateSlot]
      rfl

theorem filter_declarationsAt (framed : Framed overlay) (required : Bool) :
    ((declarationsAt required overlay).filter fun declaration =>
        declaration.tag = Tag.object.name) =
      ((objectSlot required).fields overlay).map fun (name, value) =>
        ⟨required, Tag.object.name, name, value⟩ := by
  have groups := framed.groups required
  rw [declarationsAt_eq framed, List.filter_flatMap, Entries.flatMap_of_name groups.distinct]
  · change _ = (membersAt Tag.object.name (membersAt (halfName required) overlay)).map _
    cases found : (membersAt (halfName required) overlay).lookup Tag.object.name with
    | none => rw [membersAt_of_lookup_none found]; rfl
    | some value =>
      obtain ⟨fields, rfl, -⟩ := groups.group _ value found
      rw [membersAt_of_lookup_object found]
      exact List.filter_eq_self.mpr fun declaration member =>
        decide_eq_true (tag_of_mem_group member)
  · intro group _ primitive
    refine List.filter_eq_nil_iff.mpr fun declaration member object => primitive ?_
    rw [← tag_of_mem_group member]
    exact of_decide_eq_true object

theorem foldl_reach (framed : Framed overlay) (required : Bool) (schema : Members) :
    ((declarationsAt required overlay).filter fun declaration =>
      declaration.tag = Tag.object.name).foldl visit schema = reach required overlay schema := by
  rw [filter_declarationsAt framed, reach]
  cases (objectSlot required).fields overlay with
  | nil => rfl
  | cons entry rest => exact foldl_visit required (List.cons_ne_nil _ _) schema

/-- Where nothing is out of place, relocation opens slots of objects, the required ones first. -/
theorem relocate_of_inPlace (framed : Framed schema) (framedOver : Framed overlay)
    (objects : ∀ (slot : Slot) (name : String) (value : Json),
      slot.lookup name overlay = some value → ∃ nested, value = .object nested)
    (inPlace : InPlace schema overlay) :
    relocate schema overlay = reach false overlay (reach true overlay schema) := by
  rw [relocate_eq_foldl, foldl_step_of_absent framed, steps, List.filter_append,
    List.foldl_append, foldl_reach framedOver, foldl_reach framedOver]
  · intro declaration member other different
    have found := (mem_steps_iff framedOver).mp member
    obtain ⟨nested, same⟩ := objects _ _ _ found
    have declares : (slotOf declaration).Declares declaration.name overlay :=
      ⟨_, found, by rw [same]; rfl⟩
    cases there : other.lookup declaration.name schema with
    | none => rfl
    | some value => exact absurd (inPlace _ _ other declares (by rw [there]; rfl)) different
  · intro declaration member _
    exact objects _ _ _ ((mem_steps_iff framedOver).mp member)

end

end FieldSchema.Overlay
