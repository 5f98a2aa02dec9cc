import FieldSchema.Proofs.Rows

/-! The rule that a number is at least as great as each of its references. All that is named is
compared in the same rows, so a reference that is an empty array may leave no row for the others. -/
namespace FieldSchema.Rule.CrossCheck

variable {members : Members} {primary reference : String} {references fields : List String} {i : Nat}

/-- The number that a field has in a row. -/
def numberAt (members : Members) (i : Nat) (name : String) : Option Float :=
  ((held members i name).bind Json.number?).map Number.toFloat

/-- In a row all are numbers, and the first is at least as great as each of the others. -/
def Leads (members : Members) (i : Nat) (primary : String) (references : List String) : Prop :=
  ∃ first, numberAt members i primary = some first ∧
    ∀ name ∈ references, ∃ other, numberAt members i name = some other ∧ other ≤ first

theorem numbers?_eq_some_iff {ns : List Float} :
    numbers? (fields.map (held members i)) = some ns ↔
      List.Forall₂ (fun name n => numberAt members i name = some n) fields ns := by
  induction fields generalizing ns with
  | nil => simp [numbers?, eq_comm]
  | cons name rest ih =>
    rw [List.map_cons, numbers?_cons, List.forall₂_cons_left_iff]
    simp only [Option.bind_eq_some_iff, Option.some.injEq, ih]
    constructor
    · rintro ⟨n, first, others, rest, rfl⟩
      exact ⟨n, others, first, rest, rfl⟩
    · rintro ⟨n, others, first, rest, rfl⟩
      exact ⟨n, first, others, rest, rfl⟩

theorem atLeast_holds_iff :
    Cross.atLeast.holds ((primary :: references).map (held members i)) = true ↔
      Leads members i primary references := by
  have listed : Cross.atLeast.holds ((primary :: references).map (held members i)) = true ↔
      ∃ ns, numbers? ((primary :: references).map (held members i)) = some ns ∧
        isLeading ns = true := by
    simp [Cross.atLeast, Option.any_eq_true]
  rw [listed]
  simp only [numbers?_eq_some_iff, List.forall₂_cons_left_iff]
  constructor
  · rintro ⟨_, ⟨first, others, there, rest, rfl⟩, leads⟩
    refine ⟨first, there, fun name member => ?_⟩
    obtain ⟨other, listed, here⟩ := exists_of_forall₂ rest member
    exact ⟨other, here, of_decide_eq_true (List.all_eq_true.mp leads other listed)⟩
  · rintro ⟨first, there, each⟩
    obtain ⟨others, rest⟩ := exists_forall₂ each
    refine ⟨first :: others, ⟨first, others, there, rest.imp fun _ _ both => both.1, rfl⟩, ?_⟩
    refine List.all_eq_true.mpr fun other member => decide_eq_true ?_
    obtain ⟨name, -, -, below⟩ := exists_of_forall₂ rest.flip member
    exact below

theorem Leads.present (leads : Leads members i primary references) :
    none ∉ (primary :: references).map (held members i) := by
  obtain ⟨first, there, each⟩ := leads
  have isSome : ∀ {name n}, numberAt members i name = some n → held members i name ≠ none := by
    intro name n found absent
    rw [numberAt, absent] at found
    cases found
  rw [List.mem_map]
  rintro ⟨name, member, absent⟩
  rcases List.mem_cons.mp member with rfl | member
  · exact isSome there absent
  · obtain ⟨other, found, -⟩ := each name member
    exact isSome found absent

/-- What is missing is no number, so it is never left to the policy. -/
theorem atLeast_accepts_iff :
    Cross.atLeast.Accepts ((primary :: references).map (held members i)) ↔
      Leads members i primary references := by
  rw [← atLeast_holds_iff]
  exact and_iff_right_of_imp fun holds => (atLeast_holds_iff.mp holds).present

/-- A field is at least as great as its references exactly if it leads in every row. -/
theorem atLeast_admits_iff : (Cross.atLeast.bind (primary :: references)).admits members = true ↔
    ∀ i, HasRow members (primary :: references) i → Leads members i primary references := by
  rw [admits_iff_rows]
  exact forall₂_congr fun i _ => atLeast_accepts_iff

/-! Rows. -/

theorem HasRow.first (hasRow : HasRow members fields i) : HasRow members fields 0 := by
  rcases hasRow with ⟨name, member, items, found, inside⟩ | ⟨rfl, noArray⟩
  · exact .inl ⟨name, member, items, found, Nat.zero_lt_of_lt inside⟩
  · exact .inr ⟨rfl, noArray⟩

/-- The first row is there unless some of the fields are arrays, and these are empty. -/
theorem hasRow_zero_iff : HasRow members fields 0 ↔ ¬NoRows members fields := by
  rw [hasRow_iff, ← rowCount_eq_zero_iff]
  cases rowCount (fields.map (present members)) with
  | none => simp
  | some n => simp [Nat.pos_iff_ne_zero]

theorem leads_singleton_of_mem (leads : Leads members i primary references)
    (listed : reference ∈ references) : Leads members i primary [reference] := by
  obtain ⟨first, there, each⟩ := leads
  exact ⟨first, there, List.forall_mem_singleton.mpr (each reference listed)⟩

/-- When a reference is heeded beside others. A field that is at least as great as all of its
references is so for each of them alone, as long as there is a row in which they are compared. Where
there is none, since all arrays among the fields are empty, it is so for a reference exactly if one of
the two is an empty array, or if the reference is no greater. -/
theorem atLeast_reference_iff
    (admitted : (Cross.atLeast.bind (primary :: references)).admits members = true) :
    ∀ reference ∈ references, ((Cross.atLeast.bind [primary, reference]).admits members = true ↔
      (NoRows members (primary :: references) →
        (∃ name ∈ [primary, reference], members.lookup name = some (.array [])) ∨
          Leads members 0 primary [reference])) := by
  intro reference listed
  rw [atLeast_admits_iff] at admitted ⊢
  have named : ∀ name ∈ [primary, reference], name ∈ primary :: references := by
    simp [listed]
  constructor
  · intro alone noRows
    by_cases empty : ∃ name ∈ [primary, reference], members.lookup name = some (.array [])
    · exact .inl empty
    · refine .inr (alone 0 (.inr ⟨rfl, fun name member items found => empty ⟨name, member, ?_⟩⟩))
      rw [found, noRows.2 name (named name member) items found]
  · rintro heeded i (⟨name, member, items, found, inside⟩ | ⟨rfl, noArray⟩)
    · exact leads_singleton_of_mem
        (admitted i (.inl ⟨name, named name member, items, found, inside⟩)) listed
    · by_cases noRows : NoRows members (primary :: references)
      · refine (heeded noRows).resolve_left ?_
        rintro ⟨name, member, empty⟩
        exact noArray name member [] empty
      · exact leads_singleton_of_mem (admitted 0 (hasRow_zero_iff.mpr noRows)) listed

/-- Two rows, with a reference that is in both of them. -/
theorem atLeast_reference_iff_of_rows :
    let members : Members := [("high", .array [.natural 3, .natural 4]), ("floor", .natural 2),
      ("low", .array [.natural 1, .natural 4])]
    (Cross.atLeast.bind ["high", "floor", "low"]).admits members = true ∧
      ∀ reference ∈ ["floor", "low"],
        (Cross.atLeast.bind ["high", reference]).admits members = true := by
  intro members
  have admitted : (Cross.atLeast.bind ["high", "floor", "low"]).admits members = true := rfl
  refine ⟨admitted, fun reference listed => ?_⟩
  refine (atLeast_reference_iff admitted reference listed).mpr fun noRows => ?_
  cases noRows.2 "high" (by simp) _ rfl

/-- A number that is less than its reference is refused, but not beside an empty array. -/
theorem atLeast_admits_beside_empty :
    let members : Members := [("p", .natural 1), ("r", .natural 5), ("s", .array [])]
    (Cross.atLeast.bind ["p", "r", "s"]).admits members = true ∧
      (Cross.atLeast.bind ["p", "r"]).admits members = false :=
  ⟨rfl, rfl⟩

end FieldSchema.Rule.CrossCheck
