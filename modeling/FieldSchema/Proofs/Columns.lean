import FieldSchema.Proofs.References

/-! When a number is at least as great as its references, said without rows. Each of the fields is a
column: a single number, or an array of numbers, and all arrays are of one length. Arrays that are all
empty ask for nothing, whatever stands beside them. -/
namespace FieldSchema.Rule.CrossCheck

variable {members : Members} {primary name : String} {references others fields : List String}
  {i rows : Nat}

/-- A number, or an array of `rows` numbers. -/
def Column (members : Members) (rows : Nat) (name : String) : Prop :=
  (∃ n, members.lookup name = some (.number n)) ∨
    ∃ items, members.lookup name = some (.array items) ∧ items.length = rows ∧
      ∀ item ∈ items, ∃ n, item = .number n

theorem numberAt_isSome_iff : (numberAt members i name).isSome = true ↔
    (∃ n, members.lookup name = some (.number n)) ∨
      ∃ items n, members.lookup name = some (.array items) ∧ items[i]? = some (.number n) := by
  have isNumber : ∀ value : Option Json, (value.bind Json.number?).isSome = true ↔
      ∃ n, value = some (.number n) := by
    intro value
    cases value with
    | none => simp
    | some value => cases value <;> simp [Json.number?]
  rw [numberAt, Option.isSome_map, isNumber]
  unfold held
  cases members.lookup name with
  | none => simp
  | some value => cases value <;> simp [Json.isNull]

/-- A column has a number in each of its rows. -/
theorem Column.numberAt (column : Column members rows name) (inside : i < rows) :
    (numberAt members i name).isSome = true := by
  rw [numberAt_isSome_iff]
  rcases column with single | ⟨items, found, size, numbers⟩
  · exact .inl single
  · have bound : i < items.length := size.symm ▸ inside
    obtain ⟨n, isNumber⟩ := numbers _ (List.getElem_mem bound)
    exact .inr ⟨items, n, found, by rw [List.getElem?_eq_getElem bound, isNumber]⟩

/-- A field with a number in each row is a column, if the rows go on to the end of its array. -/
theorem column_of_numberAt (positive : 0 < rows)
    (numbers : ∀ i < rows, (numberAt members i name).isSome = true)
    (covered : ∀ items, members.lookup name = some (.array items) → items.length ≤ rows) :
    Column members rows name := by
  rcases numberAt_isSome_iff.mp (numbers 0 positive) with single | ⟨items, -, found, -⟩
  · exact .inl single
  have each : ∀ i < rows, ∃ n, items[i]? = some (.number n) := by
    intro i inside
    rcases numberAt_isSome_iff.mp (numbers i inside) with ⟨n, single⟩ | ⟨_, n, same, there⟩
    · cases found.symm.trans single
    · cases found.symm.trans same
      exact ⟨n, there⟩
  have size : items.length = rows := by
    refine Nat.le_antisymm (covered items found) (Nat.le_of_not_lt fun short => ?_)
    obtain ⟨n, there⟩ := each _ short
    simp at there
  refine .inr ⟨items, found, size, fun item member => ?_⟩
  obtain ⟨i, inside, rfl⟩ := List.mem_iff_getElem.mp member
  obtain ⟨n, there⟩ := each i (size ▸ inside)
  rw [List.getElem?_eq_getElem inside, Option.some.injEq] at there
  exact ⟨n, there⟩

theorem Leads.numberAt (leads : Leads members i primary references)
    (listed : name ∈ primary :: references) : (numberAt members i name).isSome = true := by
  obtain ⟨first, there, each⟩ := leads
  rcases List.mem_cons.mp listed with rfl | listed
  · exact Option.isSome_of_mem there
  · obtain ⟨other, here, -⟩ := each name listed
    exact Option.isSome_of_mem here

theorem lt_of_hasRow (positive : 0 < rows) (columns : ∀ name ∈ fields, Column members rows name)
    (hasRow : HasRow members fields i) : i < rows := by
  rcases hasRow with ⟨name, member, items, found, inside⟩ | ⟨rfl, -⟩
  · rcases columns name member with ⟨n, single⟩ | ⟨_, same, size, -⟩
    · cases found.symm.trans single
    · cases found.symm.trans same
      exact size ▸ inside
  · exact positive

/-- The fields of a check that has rows and leads in each of them are columns. -/
theorem columns_of_leads (hasRow : HasRow members (primary :: references) 0)
    (leads : ∀ i, HasRow members (primary :: references) i → Leads members i primary references) :
    ∃ rows, 0 < rows ∧ (∀ name ∈ primary :: references, Column members rows name) ∧
      ∀ i < rows, Leads members i primary references := by
  obtain ⟨rows, same⟩ : ∃ rows, ∀ i, HasRow members (primary :: references) i ↔ i < rows :=
    ⟨_, fun _ => hasRow_iff⟩
  simp only [same] at hasRow leads
  refine ⟨rows, hasRow, fun name listed => ?_, leads⟩
  refine column_of_numberAt hasRow (fun i inside => (leads i inside).numberAt listed) ?_
  refine fun items found => Nat.le_of_not_lt fun long => ?_
  exact Nat.lt_irrefl rows ((same rows).mp (.inl ⟨name, listed, items, found, long⟩))

/-- When a field is at least as great as its references. Either there are arrays among the fields
and all of them are empty, or the fields are numbers and arrays of numbers, all of one length that is not
zero, and the field leads in every row. So it does not matter in which order the references are named, or
how often. -/
theorem atLeast_admits_iff_columns (members : Members) (primary : String)
    (references : List String) :
    ((Cross.atLeast.bind (primary :: references)).admits members = true ↔
      NoRows members (primary :: references) ∨ ∃ rows, 0 < rows ∧
        (∀ name ∈ primary :: references, Column members rows name) ∧
          ∀ i < rows, Leads members i primary references) ∧
    ∀ others, (∀ name, name ∈ others ↔ name ∈ references) →
      (Cross.atLeast.bind (primary :: others)).admits members =
        (Cross.atLeast.bind (primary :: references)).admits members := by
  have closed : ∀ references, (Cross.atLeast.bind (primary :: references)).admits members = true ↔
      NoRows members (primary :: references) ∨ ∃ rows, 0 < rows ∧
        (∀ name ∈ primary :: references, Column members rows name) ∧
          ∀ i < rows, Leads members i primary references := by
    intro references
    rw [atLeast_admits_iff]
    constructor
    · intro leads
      by_cases noRows : NoRows members (primary :: references)
      · exact .inl noRows
      · exact .inr (columns_of_leads (hasRow_zero_iff.mpr noRows) leads)
    · rintro (noRows | ⟨rows, positive, columns, leads⟩) i hasRow
      · exact absurd noRows (hasRow_zero_iff.mp hasRow.first)
      · exact leads i (lt_of_hasRow positive columns hasRow)
  refine ⟨closed references, fun others same => ?_⟩
  rw [Bool.eq_iff_iff, closed, closed]
  simp only [NoRows, Leads, List.mem_cons, same]

/-- Two columns with a single number between them, named in another order and one of them twice. -/
theorem atLeast_admits_iff_columns_of_rows :
    let members : Members := [("high", .array [.natural 3, .natural 4]), ("floor", .natural 2),
      ("low", .array [.natural 1, .natural 4])]
    (∀ name, name ∈ ["low", "floor", "low"] ↔ name ∈ ["floor", "low"]) ∧
      (Cross.atLeast.bind ["high", "low", "floor", "low"]).admits members = true ∧
      (NoRows members ["high", "floor", "low"] ∨ ∃ rows, 0 < rows ∧
        (∀ name ∈ ["high", "floor", "low"], Column members rows name) ∧
          ∀ i < rows, Leads members i "high" ["floor", "low"]) := by
  intro members
  have same : ∀ name, name ∈ ["low", "floor", "low"] ↔ name ∈ ["floor", "low"] := by
    intro name
    simp only [List.mem_cons, List.not_mem_nil, or_false]
    tauto
  have admitted : (Cross.atLeast.bind ["high", "floor", "low"]).admits members = true := rfl
  obtain ⟨closed, named⟩ := atLeast_admits_iff_columns members "high" ["floor", "low"]
  exact ⟨same, (named _ same).trans admitted, closed.mp admitted⟩

end FieldSchema.Rule.CrossCheck
