import FieldSchema.Proofs.Cross

/-! Rules between fields, row by row. What is missing from a row is settled by the policy of the
rule. A null in an array is not missing, though a null alone is: the rule itself gets to see it. -/
namespace FieldSchema.Rule

/-- What a rule accepts of a row: where a value is missing, the policy may settle it. -/
def Cross.Accepts (rule : Cross) (values : List (Option Json)) : Prop :=
  match rule.policy with
  | .pass => none ∈ values ∨ rule.holds values = true
  | .fail => none ∉ values ∧ rule.holds values = true
  | .propagate => rule.holds values = true

theorem Cross.admitsRow_iff {rule : Cross} {values : List (Option Json)} :
    rule.admitsRow values = true ↔ rule.Accepts values := by
  have missing : values.any Option.isNone = true ↔ none ∈ values := by
    rw [List.any_eq_true]
    constructor
    · rintro ⟨value, member, isNone⟩
      rwa [Option.isNone_iff_eq_none.mp isNone] at member
    · exact fun member => ⟨none, member, rfl⟩
  unfold admitsRow Accepts
  cases rule.policy with
  | pass => by_cases absent : none ∈ values <;> simp [missing, absent]
  | fail => by_cases absent : none ∈ values <;> simp [missing, absent]
  | propagate => by_cases absent : none ∈ values <;> simp [missing, absent]

namespace CrossCheck

variable {check : CrossCheck} {members : Members} {fields : List String} {i : Nat}

/-- What a field has in a row: an element of its array, or its single value, which is in every row.
A null alone is no value. -/
def held (members : Members) (i : Nat) (name : String) : Option Json :=
  match members.lookup name with
  | some (.array items) => items[i]?
  | value => value.filter (!·.isNull)

/-- The same, where a null in an array is no value either. -/
def heldNonNull (members : Members) (i : Nat) (name : String) : Option Json :=
  (held members i name).filter (!·.isNull)

/-- There is a row for each element of the longest array, and one if there is no array. -/
def HasRow (members : Members) (fields : List String) (i : Nat) : Prop :=
  (∃ name ∈ fields, ∃ items, members.lookup name = some (.array items) ∧ i < items.length) ∨
    i = 0 ∧ ∀ name ∈ fields, ∀ items, members.lookup name ≠ some (.array items)

theorem cell_present (members : Members) (i : Nat) (name : String) :
    cell i (present members name) = held members i name := by
  unfold present held
  cases members.lookup name with
  | none => rfl
  | some value => cases value <;> rfl

theorem rowCount_eq_none_iff : rowCount (fields.map (present members)) = none ↔
    ∀ name ∈ fields, ∀ items, members.lookup name ≠ some (.array items) := by
  rw [rowCount, List.max?_eq_none_iff, List.eq_nil_iff_forall_not_mem]
  simp only [mem_lengths_iff, not_exists, not_and]
  exact ⟨fun none name member items found => none _ name member items found rfl,
    fun none _ name member items found _ => none name member items found⟩

theorem hasRow_iff : HasRow members fields i ↔
    i < (rowCount (fields.map (present members))).getD 1 := by
  unfold HasRow
  cases count : rowCount (fields.map (present members)) with
  | none =>
    have noArray := rowCount_eq_none_iff.mp count
    rw [Option.getD_none, Nat.lt_one_iff]
    constructor
    · rintro (⟨name, member, items, found, -⟩ | ⟨first, -⟩)
      · exact absurd found (noArray name member items)
      · exact first
    · exact fun first => .inr ⟨first, noArray⟩
  | some n =>
    obtain ⟨longest, bound⟩ := List.max?_eq_some_iff.mp count
    obtain ⟨name, member, items, found, size⟩ := mem_lengths_iff.mp longest
    rw [Option.getD_some]
    constructor
    · rintro (⟨other, listed, others, there, inside⟩ | ⟨-, noArray⟩)
      · exact Nat.lt_of_lt_of_le inside (bound _ (mem_lengths_iff.mpr ⟨_, listed, _, there, rfl⟩))
      · exact absurd found (noArray name member items)
    · exact fun inside => .inl ⟨name, member, items, found, size ▸ inside⟩

/-- A check admits an object exactly if its rule accepts every row. -/
theorem admits_iff_rows : check.admits members = true ↔ ∀ i, HasRow members check.fields i →
    check.rule.Accepts (check.fields.map (held members i)) := by
  have rows : ∀ i, row (check.fields.map (present members)) i =
      check.fields.map (held members i) := by
    intro i
    rw [row, List.map_map]
    exact List.map_congr_left fun name _ => cell_present members i name
  simp only [hasRow_iff]
  unfold admits
  dsimp only
  cases count : rowCount (check.fields.map (present members)) with
  | none =>
    have single : check.fields.map (present members) = check.fields.map (held members 0) := by
      refine List.map_congr_left fun name member => ?_
      have noArray := rowCount_eq_none_iff.mp count name member
      unfold present held
      split
      · next items found => exact absurd found (noArray items)
      · rfl
    simp [Cross.admitsRow_iff, single]
  | some n => simp [rows, Cross.admitsRow_iff]

/-! Nulls. -/

/-- What is missing from a row is absent, or null, or past the end of its array. -/
theorem held_eq_none_iff {name : String} : held members i name = none ↔
    members.lookup name = none ∨ members.lookup name = some .null ∨
      ∃ items, members.lookup name = some (.array items) ∧ items.length ≤ i := by
  unfold held
  cases members.lookup name with
  | none => simp
  | some value => cases value <;> simp [Json.isNull]

theorem held_eq_null_iff {name : String} : held members i name = some .null ↔
    ∃ items, members.lookup name = some (.array items) ∧ items[i]? = some .null := by
  unfold held
  cases members.lookup name with
  | none => simp
  | some value => cases value <;> simp [Json.isNull]

theorem heldNonNull_ne_null (members : Members) (i : Nat) (name : String) :
    heldNonNull members i name ≠ some .null := by
  intro isNull
  have kept := (Option.filter_eq_some_iff.mp isNull).2
  cases kept

/-- Only a null in an array is taken for a value. -/
theorem heldNonNull_eq {name : String} (noNull : held members i name ≠ some .null) :
    heldNonNull members i name = held members i name := by
  unfold heldNonNull
  cases found : held members i name with
  | none => rfl
  | some value =>
    cases value with
    | null => exact absurd found noNull
    | bool | number | string | array | object => rfl

/-- The rule that accepts the rows without a null. -/
def withoutNull : Cross :=
  ⟨"", "", .propagate, fun values => values.all fun value => !value.any Json.isNull⟩

theorem withoutNull_accepts_iff {values : List (Option Json)} :
    withoutNull.Accepts values ↔ some .null ∉ values := by
  unfold withoutNull Cross.Accepts
  dsimp only
  rw [List.all_eq_true]
  constructor
  · intro all member
    cases all _ member
  · intro absent value member
    cases value with
    | none => rfl
    | some value =>
      cases value with
      | null => exact absurd member absent
      | bool | number | string | array | object => rfl

/-- When a null counts as missing. A check goes over its rows, and its policy settles those in
which a field is absent, or null, or an array that has come to its end. A null in an array is given to the
rule as it stands; so nulls are missing for every rule exactly if no field holds such an array. -/
theorem nulls_missing_iff (members : Members) (fields : List String) :
    (∀ rule : Cross, (rule.bind fields).admits members = true ↔ ∀ i, HasRow members fields i →
      rule.Accepts (fields.map (held members i))) ∧
    (∀ i name, held members i name = none ↔ members.lookup name = none ∨
      members.lookup name = some .null ∨
        ∃ items, members.lookup name = some (.array items) ∧ items.length ≤ i) ∧
    ((∀ rule : Cross, (rule.bind fields).admits members = true ↔ ∀ i, HasRow members fields i →
        rule.Accepts (fields.map (heldNonNull members i))) ↔
      ∀ name ∈ fields, ∀ items, members.lookup name = some (.array items) → .null ∉ items) := by
  refine ⟨fun rule => admits_iff_rows, fun i name => held_eq_none_iff, fun documented => ?_,
    fun noNull rule => ?_⟩
  · have admitted : (withoutNull.bind fields).admits members = true := by
      refine (documented withoutNull).mpr fun i _ => withoutNull_accepts_iff.mpr fun member => ?_
      obtain ⟨name, -, isNull⟩ := List.mem_map.mp member
      exact heldNonNull_ne_null members i name isNull
    intro name member items found isNull
    obtain ⟨i, inside, there⟩ := List.mem_iff_getElem.mp isNull
    have hasRow : HasRow members fields i := .inl ⟨name, member, items, found, inside⟩
    refine withoutNull_accepts_iff.mp (admits_iff_rows.mp admitted i hasRow) ?_
    exact List.mem_map.mpr ⟨name, member, held_eq_null_iff.mpr
      ⟨items, found, by rw [List.getElem?_eq_getElem inside, there]⟩⟩
  · rw [admits_iff_rows]
    refine forall₂_congr fun i _ => ?_
    have same : fields.map (heldNonNull members i) = fields.map (held members i) := by
      refine List.map_congr_left fun name member => heldNonNull_eq fun isNull => ?_
      obtain ⟨items, found, there⟩ := held_eq_null_iff.mp isNull
      exact noNull name member items found (List.mem_of_getElem? there)
    rw [same]
    rfl

/-- A rule that has to reject rows with a missing value accepts one whose only element is null. -/
theorem null_element_accepted :
    let check := Cross.bind ⟨"custom", "custom check failed", .fail, fun _ => true⟩ ["a"]
    let members : Members := [("a", .array [.null])]
    check.admits members = true ∧
      ¬ ∀ i, HasRow members check.fields i →
        check.rule.Accepts (check.fields.map (heldNonNull members i)) := by
  intro check members
  refine ⟨rfl, fun documented => ?_⟩
  have hasRow : HasRow members check.fields 0 :=
    .inl ⟨"a", List.mem_singleton_self _, _, rfl, Nat.one_pos⟩
  exact (documented 0 hasRow).1 (List.mem_singleton_self _)

end CrossCheck

end FieldSchema.Rule
