import FieldSchema.Proofs.Agreement
import FieldSchema.Proofs.ObjectSchema
import Mathlib.Data.Set.List

/-! What a description says of an object schema. Each trait of an entry stands under a key of its own, a
type that is written as an array is that of the elements, and a declared hook is told by the fields that
it binds. So a schema that was built from a map is all in its description, but for the options of the map
that neither validation nor the filling in of defaults looks at. -/
namespace FieldSchema

theorem Json.strings_injective : Function.Injective Json.strings := by
  intro ss ts same
  exact List.map_injective_iff.mpr (fun _ _ => Json.string.inj) (Json.array.inj same)

theorem Primitive.name_injective : Function.Injective Primitive.name := by
  intro s t
  cases s <;> cases t <;> simp [name]

theorem Rule.Length.key_injective : Function.Injective Rule.Length.key := by
  intro rule other
  cases rule <;> cases other <;> simp [key, Key.maxLength, Key.exactLength]

namespace Entry

theorem limitValue_injective : Function.Injective limitValue := by
  rintro ⟨rule, n⟩ ⟨other, m⟩ same
  simp only [limitValue, Rule.Limit.limitValue, Json.natural, Json.object.injEq, List.cons.injEq,
    Prod.mk.injEq, Json.string.injEq, Json.number.injEq, Number.natural.injEq, true_and] at same
  obtain ⟨key, rfl, -⟩ := same
  rw [Rule.Length.key_injective key]

/-- Each trait is found under its key. -/
theorem lookup_traitMembers (type : Json) (traits : EntryTraits) :
    let members := traitMembers type traits
    members.lookup "type" = some (if traits.isArray then .array [type] else type) ∧
      members.lookup "required" = some (.bool traits.required) ∧
      members.lookup "default" = traits.default ∧
      members.lookup "enum" = traits.allowed.map .strings ∧
      members.lookup "unique" = traits.unique.map .bool ∧
      (members.lookup "validate").getD (.array []) = .array (traits.limits.map limitValue) := by
  obtain ⟨required, isArray, default, allowed, unique, limits⟩ := traits
  cases default <;> cases allowed <;> cases unique <;> cases limits <;>
    exact ⟨rfl, rfl, rfl, rfl, rfl, rfl⟩

/-- A type is told from an array of it, unless it is written as an array itself. -/
theorem typeValue_inj {s t : Json} {a b : Bool} (single : s.array? = none)
    (singleToo : t.array? = none)
    (same : (if a then Json.array [s] else s) = if b then Json.array [t] else t) :
    s = t ∧ a = b := by
  cases a <;> cases b <;> simp only [Bool.false_eq_true, if_true, if_false] at same
  · exact ⟨same, rfl⟩
  · subst same
    cases single
  · subst same
    cases singleToo
  · exact ⟨(List.cons.inj (Json.array.inj same)).1, rfl⟩

theorem traitMembers_inj {s t : Json} {a b : EntryTraits} (single : s.array? = none)
    (singleToo : t.array? = none) (same : traitMembers s a = traitMembers t b) : s = t ∧ a = b := by
  obtain ⟨type, required, default, allowed, unique, limits⟩ := lookup_traitMembers s a
  obtain ⟨typeToo, requiredToo, defaultToo, allowedToo, uniqueToo, limitsToo⟩ :=
    lookup_traitMembers t b
  rw [same] at type required default allowed unique limits
  obtain ⟨types, arrays⟩ := typeValue_inj single singleToo (Option.some.inj (type.symm.trans typeToo))
  have required : a.required = b.required :=
    Json.bool.inj (Option.some.inj (required.symm.trans requiredToo))
  have default : a.default = b.default := default.symm.trans defaultToo
  have allowed : a.allowed = b.allowed :=
    Option.map_injective Json.strings_injective (allowed.symm.trans allowedToo)
  have unique : a.unique = b.unique :=
    Option.map_injective (fun _ _ => Json.bool.inj) (unique.symm.trans uniqueToo)
  have limits : a.limits = b.limits :=
    List.map_injective_iff.mpr limitValue_injective (Json.array.inj (limits.symm.trans limitsToo))
  refine ⟨types, ?_⟩
  cases a
  cases b
  rw [EntryTraits.mk.injEq]
  exact ⟨required, arrays, default, allowed, unique, limits⟩

theorem schemaValue_inj {fields others : Members} {hooks hooksToo : List Hook}
    (same : schemaValue fields hooks = schemaValue others hooksToo) :
    fields = others ∧ hooks.map Hook.describe = hooksToo.map Hook.describe := by
  have found : ∀ (fields : Members) (hooks : List Hook) (members : Members),
      schemaValue fields hooks = .object members → members.lookup "fields" = some (.object fields) ∧
        (members.lookup "hooks").getD (.array []) = .array (hooks.map Hook.describe) := by
    intro fields hooks members written
    cases written
    cases hooks <;> exact ⟨rfl, rfl⟩
  obtain ⟨inner, hooked⟩ := found fields hooks _ rfl
  obtain ⟨innerToo, hookedToo⟩ := found others hooksToo _ same.symm
  exact ⟨Json.object.inj (Option.some.inj (inner.symm.trans innerToo)),
    Json.array.inj (hooked.symm.trans hookedToo)⟩

end Entry

/-- The hook by which the first of some fields has to be at least as great as the others. -/
def Hook.atLeast (names : List String) : Hook := .cross (Rule.Cross.atLeast.bind names)

theorem Hook.describe_atLeast_injective :
    Function.Injective fun names => (Hook.atLeast names).describe := by
  intro names others same
  simp only [Hook.atLeast, Hook.describe, Rule.Cross.bind, Json.object.injEq, List.cons.injEq,
    Prod.mk.injEq, and_true, true_and] at same
  exact Json.strings_injective same

namespace FieldMap

/-- Maps declare no other hooks. -/
theorem exists_hooks (fields : FieldMap) :
    ∃ bound : List (List String), fields.hooks = bound.map Hook.atLeast := by
  suffices fields.hooks ∈ Set.range (List.map Hook.atLeast) by
    obtain ⟨bound, same⟩ := this
    exact ⟨bound, same.symm⟩
  rw [Set.range_list_map]
  intro hook member
  obtain ⟨check, declared, rfl⟩ := List.mem_map.mp member
  obtain ⟨⟨name, field⟩, -, declared⟩ := List.mem_flatMap.mp declared
  obtain ⟨-, -, references, -, -, rfl⟩ := Field.mem_checks_iff.mp declared
  exact ⟨name :: references, rfl⟩

theorem hooks_inj {fields others : FieldMap}
    (same : fields.hooks.map Hook.describe = others.hooks.map Hook.describe) :
    fields.hooks = others.hooks := by
  obtain ⟨bound, made⟩ := exists_hooks fields
  obtain ⟨boundToo, madeToo⟩ := exists_hooks others
  rw [made, madeToo, List.map_map, List.map_map] at same
  rw [made, madeToo, List.map_injective_iff.mpr Hook.describe_atLeast_injective same]

end FieldMap

namespace Entry

mutual

/-- An entry that a field declares is told by its description. -/
theorem ofField_inj : (field other : Field) →
    describe (ofField field) = describe (ofField other) → ofField field = ofField other
  | .primitive s a, .primitive t b, same => by
    simp only [ofField, describe, Json.object.injEq] at same
    obtain ⟨types, traits⟩ := traitMembers_inj rfl rfl same
    rw [ofField, ofField, Primitive.name_injective (Json.string.inj types), traits]
  | .primitive s a, .object inner b, same => by
    simp only [ofField, describe, Json.object.injEq] at same
    cases (traitMembers_inj rfl rfl same).1
  | .object inner a, .primitive t b, same => by
    simp only [ofField, describe, Json.object.injEq] at same
    cases (traitMembers_inj rfl rfl same).1
  | .object inner a, .object others b, same => by
    simp only [ofField, describe, Json.object.injEq] at same
    obtain ⟨types, traits⟩ := traitMembers_inj rfl rfl same
    obtain ⟨fields, hooks⟩ := schemaValue_inj types
    rw [ofField, ofField, ofFields_inj inner others fields, FieldMap.hooks_inj hooks, traits]

theorem ofFields_inj : (fields others : List (String × Field)) →
    describeFields (ofFields fields) = describeFields (ofFields others) →
      ofFields fields = ofFields others
  | [], [], _ => rfl
  | [], (_, _) :: _, same => by cases same
  | (_, _) :: _, [], same => by cases same
  | (name, field) :: rest, (other, first) :: others, same => by
    simp only [ofFields, describeFields, List.cons.injEq, Prod.mk.injEq] at same ⊢
    exact ⟨⟨same.1.1, ofField_inj field first same.1.2⟩, ofFields_inj rest others same.2⟩

end

end Entry

namespace ObjectSchema

theorem ofFields_inj {map other : FieldMap} (same : (ofFields map).describe = (ofFields other).describe) :
    ofFields map = ofFields other := by
  obtain ⟨fields, hooks⟩ := Entry.schemaValue_inj same
  rw [ofFields, ofFields, Entry.ofFields_inj map other fields, FieldMap.hooks_inj hooks]

/-- A description says all that a schema does. Two schemas that were built from maps and are described
alike report the same of every document, and construct the same from it. -/
theorem same_of_described_alike {settings otherSettings : Settings} {map other : FieldMap}
    {a b : ObjectSchema} (made : ofMap settings map = .ok a)
    (madeToo : ofMap otherSettings other = .ok b) (same : a.describe = b.describe) (document : Json) :
    a.validate document = b.validate document ∧ a.construct document = b.construct document := by
  obtain ⟨-, rfl⟩ := ofMap_eq_ok_iff.mp made
  obtain ⟨-, rfl⟩ := ofMap_eq_ok_iff.mp madeToo
  rw [ofFields_inj same]
  exact ⟨rfl, rfl⟩

/-- An option that the language does not know tells the maps apart, but not their descriptions. -/
theorem same_of_described_alike_of_rows :
    let row (extra : Members) : FieldMap :=
      [("high", .primitive .number
          ⟨false, false, { Options.empty with atLeast := some ["low"], extra := extra }⟩),
        ("low", .primitive .number
          ⟨true, false, { Options.empty with default := some (.natural 1) }⟩)]
    let map (extra : Members) : FieldMap := [("rows", .object (row extra) ⟨true, true, .empty⟩)]
    let document : Json := .object [("rows", .array [.object [("high", .natural 2)]])]
    let result : Json := .object
      [("rows", .array [.object [("high", .natural 2), ("low", .natural 1)]])]
    ∃ a b, ofMap .standard (map [("note", .string "x")]) = .ok a ∧
      ofMap ⟨2, .lastWins, ""⟩ (map []) = .ok b ∧ a.describe = b.describe ∧
      a.construct document = .ok result ∧ b.construct document = .ok result := by
  intro row map document result
  obtain ⟨a, made⟩ : ∃ a, ofMap .standard (map [("note", .string "x")]) = .ok a := ⟨_, rfl⟩
  obtain ⟨b, madeToo⟩ : ∃ b, ofMap ⟨2, .lastWins, ""⟩ (map []) = .ok b := ⟨_, rfl⟩
  have same : a.describe = b.describe := by
    cases made
    cases madeToo
    rfl
  have constructed : a.construct document = .ok result := by
    cases made
    rfl
  refine ⟨a, b, made, madeToo, same, constructed, ?_⟩
  rw [← (same_of_described_alike made madeToo same document).2]
  exact constructed

end ObjectSchema

end FieldSchema
