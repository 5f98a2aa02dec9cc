import FieldSchema.Schema.Field

/-! Objects inside objects. `Nested` leads from a field map to each object below it by the names of
the fields on the way. The depth of a map is the length of the longest such way and one; the depth
of a path, by which levels are guarded, leaves out the names that open with a bracket. -/
namespace FieldSchema

namespace Path

@[simp] theorem depth_nil : Path.depth [] = 0 := rfl

theorem depth_cons (segment : Segment) (path : Path) :
    Path.depth (segment :: path) = Path.depth [segment] + path.depth :=
  @List.countP_append _ Segment.isLevel [segment] path

@[simp] theorem depth_root : Path.root.depth = 0 := rfl

theorem depth_child (path : Path) (name : String) :
    (path.child name).depth = path.depth + Path.depth [.member name] :=
  List.countP_append

@[simp] theorem depth_element (path : Path) (index : Nat) :
    (path.element index).depth = path.depth := by
  simp [element, depth, Segment.isLevel]

/-- The segments that do not count as levels. -/
def uncounted (path : Path) : Nat := List.countP (!·.isLevel) path

theorem depth_add_uncounted (path : Path) : path.depth + path.uncounted = path.length := by
  have := List.length_eq_countP_add_countP Segment.isLevel (l := path)
  simpa [depth, uncounted] using this.symm

end Path

/-- A field map is smaller than those that have it as an object among their fields. -/
theorem FieldMap.induction {motive : FieldMap → Prop}
    (step : ∀ fields : FieldMap, (∀ name inner traits,
      (name, Field.object inner traits) ∈ fields → motive inner) → motive fields)
    (fields : FieldMap) : motive fields :=
  step fields fun _ inner _ _ => FieldMap.induction step inner
termination_by sizeOf fields
decreasing_by
  rename_i member
  have smaller := List.sizeOf_lt_of_mem member
  simp only [Prod.mk.sizeOf_spec, Field.object.sizeOf_spec] at smaller
  omega

/-- The object below `fields` to which the path leads, given by its own fields. -/
inductive Nested : FieldMap → Path → FieldMap → Prop where
  | here {fields : FieldMap} : Nested fields [] fields
  | inside {fields inner deepest : FieldMap} {path : Path} {name : String} {traits : Traits} :
    (name, .object inner traits) ∈ fields → Nested inner path deepest →
      Nested fields (.member name :: path) deepest

/-- What holds of the fields of every object of a map. -/
def FieldMap.Throughout (P : FieldMap → Prop) (map : FieldMap) : Prop :=
  ∀ path inner, Nested map path inner → P inner

/-- The same, one level at a time. -/
theorem FieldMap.throughout_iff {P : FieldMap → Prop} {map : FieldMap} :
    map.Throughout P ↔ P map ∧ ∀ name inner traits, (name, Field.object inner traits) ∈ map →
      FieldMap.Throughout P inner := by
  constructor
  · intro all
    refine ⟨all [] map .here, fun name inner traits member path deepest nested => ?_⟩
    exact all _ _ (.inside member nested)
  · rintro ⟨here, below⟩ path inner nested
    cases nested with
    | here => exact here
    | inside member nested => exact below _ _ _ member _ _ nested

/-- What holds of an object and its depth, for every object of a map that stands at `depth`. -/
def FieldMap.Everywhere (P : Nat → FieldMap → Prop) (depth : Nat) (map : FieldMap) : Prop :=
  ∀ path inner, Nested map path inner → P (depth + path.depth) inner

/-- The same, one level at a time. -/
theorem FieldMap.everywhere_iff {P : Nat → FieldMap → Prop} {depth : Nat} {map : FieldMap} :
    map.Everywhere P depth ↔ P depth map ∧ ∀ name inner traits,
      (name, Field.object inner traits) ∈ map →
        FieldMap.Everywhere P (depth + Path.depth [.member name]) inner := by
  constructor
  · intro all
    refine ⟨all [] map .here, ?_⟩
    intro name inner traits member path deepest nested
    have below := all _ _ (.inside member nested)
    rwa [Path.depth_cons, ← Nat.add_assoc] at below
  · rintro ⟨here, below⟩ path inner nested
    cases nested with
    | here => exact here
    | inside member nested =>
      rw [Path.depth_cons, ← Nat.add_assoc]
      exact below _ _ _ member _ _ nested

theorem FieldMap.Everywhere.mono {P Q : Nat → FieldMap → Prop} {depth : Nat} {map : FieldMap}
    (all : map.Everywhere P depth) (weaker : ∀ depth map, P depth map → Q depth map) :
    map.Everywhere Q depth :=
  fun path inner nested => weaker _ _ (all path inner nested)

theorem FieldMap.Everywhere.throughout {P : Nat → FieldMap → Prop} {Q : FieldMap → Prop}
    {depth : Nat} {map : FieldMap} (all : map.Everywhere P depth)
    (weaker : ∀ depth map, P depth map → Q map) : map.Throughout Q :=
  fun path inner nested => weaker _ _ (all path inner nested)

/-- The guard lets every object pass. -/
abbrev FieldMap.Fits (limit depth : Nat) (map : FieldMap) : Prop :=
  map.Everywhere (fun depth _ => depth < limit) depth

theorem Field.deepest_lt_iff {n : Nat} {fields : FieldMap} :
    Field.deepest fields < n ↔
      0 < n ∧ ∀ name inner traits, (name, Field.object inner traits) ∈ fields →
        1 + Field.deepest inner < n := by
  induction fields with
  | nil => simp [Field.deepest]
  | cons entry rest ih =>
    obtain ⟨name, field⟩ := entry
    rw [Field.deepest, Nat.max_lt, ih]
    cases field with
    | primitive type traits =>
      constructor
      · rintro ⟨_, positive, below⟩
        refine ⟨positive, fun name inner traits member => below name inner traits ?_⟩
        simpa using member
      · rintro ⟨positive, below⟩
        exact ⟨positive, positive, fun name inner traits member =>
          below name inner traits (List.mem_cons_of_mem _ member)⟩
    | object inner traits =>
      rw [Field.levels]
      constructor
      · rintro ⟨first, positive, below⟩
        refine ⟨positive, fun other deeper traits' member => ?_⟩
        rcases List.mem_cons.mp member with same | member
        · cases same; exact first
        · exact below _ _ _ member
      · rintro ⟨positive, below⟩
        exact ⟨below _ _ _ (List.mem_cons_self ..), positive, fun other deeper traits' member =>
          below _ _ _ (List.mem_cons_of_mem _ member)⟩

/-- The depth of a map bounds the ways that lead to its objects, whatever the names on them. -/
theorem FieldMap.depth_le_iff {n : Nat} {map : FieldMap} :
    map.depth ≤ n ↔ ∀ path inner, Nested map path inner → path.length < n := by
  induction map using FieldMap.induction generalizing n with
  | step fields ih =>
    rw [FieldMap.depth, Nat.add_comm, Nat.succ_le_iff, Field.deepest_lt_iff]
    constructor
    · rintro ⟨positive, below⟩ path inner nested
      cases nested with
      | here => exact positive
      | inside member nested =>
        have shallow := below _ _ _ member
        have := (ih _ _ _ member (n := n - 1)).mp (by rw [FieldMap.depth]; omega) _ _ nested
        rw [List.length_cons]
        omega
    · intro all
      refine ⟨all [] fields .here, ?_⟩
      intro name inner traits member
      have : FieldMap.depth inner ≤ n - 1 := (ih _ _ _ member).mpr fun path deepest nested => by
        have := all _ _ (.inside member nested)
        rw [List.length_cons] at this
        omega
      have := all _ _ (.inside member .here)
      simp only [List.length_cons, List.length_nil] at this
      rw [FieldMap.depth] at *
      omega

/-- The guard lets a map of no more than `limit` levels pass, as some names do not count. -/
theorem FieldMap.fits_of_depth_le {limit : Nat} {map : FieldMap} (within : map.depth ≤ limit) :
    map.Fits limit 0 := by
  intro path inner nested
  have := FieldMap.depth_le_iff.mp within path inner nested
  have := path.depth_add_uncounted
  omega

end FieldSchema
