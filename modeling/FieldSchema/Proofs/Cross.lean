import FieldSchema.Proofs.FailFast
import FieldSchema.Rule.Cross

/-! What a rule between fields sees of an object: the fields that it names, and the lengths of the
arrays among them. Where one of the fields is missing, a rule that fails on missing values still
holds if there is no row at all. -/
namespace FieldSchema.Rule

theorem numbers?_cons (value : Option Json) (rest : List (Option Json)) :
    numbers? (value :: rest) = ((value.bind Json.number?).map Number.toFloat).bind fun first =>
      (numbers? rest).bind fun others => some (first :: others) := by
  rw [numbers?, List.mapM_cons]
  rfl

namespace CrossCheck

variable {check : CrossCheck}

/-- Some of the fields are arrays, and these are empty. -/
def NoRows (members : Members) (fields : List String) : Prop :=
  (∃ name ∈ fields, members.lookup name = some (.array [])) ∧
    ∀ name ∈ fields, ∀ items, members.lookup name = some (.array items) → items = []

theorem admits_congr {ms ns : Members}
    (same : ∀ name ∈ check.fields, ms.lookup name = ns.lookup name) :
    check.admits ms = check.admits ns := by
  have values : check.fields.map (present ms) = check.fields.map (present ns) :=
    List.map_congr_left fun name member => by rw [present, present, same name member]
  unfold admits
  rw [values]

theorem check_congr {ms ns : Members}
    (same : ∀ name ∈ check.fields, ms.lookup name = ns.lookup name) (path : Path) :
    check.check ms path = check.check ns path := by
  rw [CrossCheck.check, CrossCheck.check, admits_congr same]

theorem present_array_iff {members : Members} {name : String} {items : List Json} :
    present members name = some (.array items) ↔ members.lookup name = some (.array items) := by
  unfold present
  cases members.lookup name with
  | none => simp
  | some value => cases value <;> simp [Json.isNull]

theorem mem_lengths_iff {members : Members} {fields : List String} {n : Nat} :
    n ∈ (fields.map (present members)).filterMap (fun value =>
        (value.bind Json.array?).map List.length) ↔
      ∃ name ∈ fields, ∃ items, members.lookup name = some (.array items) ∧ items.length = n := by
  have isArray : ∀ value : Option Json, (value.bind Json.array?).map List.length = some n ↔
      ∃ items, value = some (.array items) ∧ items.length = n := by
    intro value
    cases value with
    | none => simp
    | some value => cases value <;> simp [Json.array?]
  simp only [List.mem_filterMap, List.mem_map, isArray]
  constructor
  · rintro ⟨_, ⟨name, member, rfl⟩, items, held, size⟩
    exact ⟨name, member, items, present_array_iff.mp held, size⟩
  · rintro ⟨name, member, items, held, size⟩
    exact ⟨_, ⟨name, member, rfl⟩, items, present_array_iff.mpr held, size⟩

theorem rowCount_eq_zero_iff {members : Members} {fields : List String} :
    rowCount (fields.map (present members)) = some 0 ↔ NoRows members fields := by
  rw [rowCount, List.max?_eq_some_iff]
  simp only [mem_lengths_iff, Nat.le_zero]
  constructor
  · rintro ⟨⟨name, member, items, held, size⟩, longest⟩
    refine ⟨⟨name, member, ?_⟩, fun other listed items held => ?_⟩
    · rw [held, List.length_eq_zero_iff.mp size]
    · exact List.length_eq_zero_iff.mp (longest _ ⟨other, listed, items, held, rfl⟩)
  · rintro ⟨⟨name, member, held⟩, others⟩
    refine ⟨⟨name, member, [], held, rfl⟩, ?_⟩
    rintro _ ⟨other, listed, items, held, rfl⟩
    exact List.length_eq_zero_iff.mpr (others other listed items held)

theorem admitsRow_eq_false {rule : Cross} {values : List (Option Json)}
    (policy : rule.policy = .fail) (missing : none ∈ values) : rule.admitsRow values = false := by
  have some : values.any Option.isNone = true := List.any_eq_true.mpr ⟨none, missing, rfl⟩
  rw [Cross.admitsRow, if_pos some, policy]

/-- What is missing is missing from every row. -/
theorem admits_iff_noRows {members : Members} (policy : check.rule.policy = .fail)
    (missing : ∃ name ∈ check.fields, present members name = none) :
    check.admits members = true ↔ NoRows members check.fields := by
  have absent : none ∈ check.fields.map (present members) := List.mem_map.mpr missing
  rw [← rowCount_eq_zero_iff]
  dsimp only [admits]
  cases rowCount (check.fields.map (present members)) with
  | none => simp [admitsRow_eq_false policy absent]
  | some n =>
    cases n with
    | zero => simp
    | succ n =>
      have first : check.rule.admitsRow (row (check.fields.map (present members)) 0) = false :=
        admitsRow_eq_false policy (List.mem_map.mpr ⟨none, absent, rfl⟩)
      have refused : ∃ i, i < n + 1 ∧
          check.rule.admitsRow (row (check.fields.map (present members)) i) = false :=
        ⟨0, by omega, first⟩
      simpa using refused

theorem noRows_cons_of_absent {members : Members} {name : String} {fields : List String}
    (absent : members.lookup name = none) :
    NoRows members (name :: fields) ↔ NoRows members fields := by
  simp [NoRows, absent]

/-- A field that is absent is at least as great as others only where there is no row. -/
theorem atLeast_admits_iff_of_absent {members : Members} {name : String} {references : List String}
    (absent : members.lookup name = none) :
    (Cross.atLeast.bind (name :: references)).admits members = true ↔
      NoRows members references := by
  have missing : present members name = none := by rw [present, absent]; rfl
  rw [admits_iff_noRows rfl ⟨name, List.mem_cons_self .., missing⟩]
  exact noRows_cons_of_absent absent

end CrossCheck

end FieldSchema.Rule
