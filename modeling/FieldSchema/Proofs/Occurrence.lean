import FieldSchema.Json.Value
import Mathlib.Data.List.Basic

/-! What stands inside a value: its elements and members, and theirs, to any depth. -/
namespace FieldSchema.Json

/-- A value is larger than those that it is made of. -/
theorem induction {motive : Json → Prop}
    (array : ∀ items, (∀ item ∈ items, motive item) → motive (.array items))
    (object : ∀ members, (∀ name value, (name, value) ∈ members → motive value) →
      motive (.object members))
    (scalar : ∀ value, value.array? = none → value.object? = none → motive value) :
    ∀ value, motive value
  | .null => scalar _ rfl rfl
  | .bool _ => scalar _ rfl rfl
  | .number _ => scalar _ rfl rfl
  | .string _ => scalar _ rfl rfl
  | .array items => array items fun item _ => induction array object scalar item
  | .object members => object members fun _ value _ => induction array object scalar value
termination_by value => sizeOf value
decreasing_by
  · rename_i inItems
    have := List.sizeOf_lt_of_mem inItems
    simp only [Json.array.sizeOf_spec]
    omega
  · rename_i inMembers
    have := List.sizeOf_lt_of_mem inMembers
    simp only [Prod.mk.sizeOf_spec] at this
    simp only [Json.object.sizeOf_spec]
    omega

theorem distinctItems_iff {items : List Json} :
    DistinctItems items ↔ ∀ item ∈ items, item.Distinct := by
  induction items with
  | nil => simp [DistinctItems]
  | cons item rest ih => rw [DistinctItems, ih, List.forall_mem_cons]

theorem distinctMembers_iff {members : Members} :
    DistinctMembers members ↔ ∀ entry ∈ members, entry.2.Distinct := by
  induction members with
  | nil => simp [DistinctMembers]
  | cons entry rest ih => rw [DistinctMembers, ih, List.forall_mem_cons]

theorem distinct_of_mem {members : Members} (distinct : (Json.object members).Distinct) {key : String}
    {value : Json} (member : (key, value) ∈ members) : value.Distinct :=
  distinctMembers_iff.mp distinct.2 _ member

/-- A value stands in itself and in all that is made of values in which it stands. -/
inductive Occurs (part : Json) : Json → Prop where
  | here : Occurs part part
  | item {items : List Json} {item : Json} : item ∈ items → Occurs part item →
    Occurs part (.array items)
  | member {members : Members} {name : String} {value : Json} : (name, value) ∈ members →
    Occurs part value → Occurs part (.object members)

/-- What stands in an array is the array, or stands in one of its elements. -/
theorem occurs_array_iff {part : Json} {items : List Json} :
    part.Occurs (.array items) ↔ part = .array items ∨ ∃ item ∈ items, part.Occurs item := by
  constructor
  · intro occurs
    cases occurs with
    | here => exact .inl rfl
    | item member occurs => exact .inr ⟨_, member, occurs⟩
  · rintro (rfl | ⟨item, member, occurs⟩)
    · exact .here
    · exact .item member occurs

theorem occurs_object_iff {part : Json} {members : Members} :
    part.Occurs (.object members) ↔ part = .object members ∨ ∃ entry ∈ members, part.Occurs entry.2 := by
  constructor
  · intro occurs
    cases occurs with
    | here => exact .inl rfl
    | member member occurs => exact .inr ⟨_, member, occurs⟩
  · rintro (rfl | ⟨entry, member, occurs⟩)
    · exact .here
    · exact .member member occurs

theorem Occurs.trans {a b c : Json} (first : a.Occurs b) (second : b.Occurs c) : a.Occurs c := by
  induction second with
  | here => exact first
  | item member _ ih => exact .item member ih
  | member member _ ih => exact .member member ih

end FieldSchema.Json
