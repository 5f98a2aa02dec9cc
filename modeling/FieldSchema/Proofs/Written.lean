import FieldSchema.Proofs.Normalization
import FieldSchema.Proofs.Options

/-! Written field maps, member by member. Which field a member stands for depends on that member
alone; fields are added in order, so with distinct names the map is the list of what its members
stand for. -/
namespace FieldSchema.Field

variable {limit : Nat} {path : Path} {name : String}

/-- The field of the given type, as the type is written. -/
inductive OfType (limit : Nat) (path : Path) (name : String) (required : Bool) (entry : Members) :
    Json → Field → Prop where
  | primitive {tag : String} {type : Primitive} {draft : Options.Draft} :
    Tag.parse? tag = some (.primitive type) →
    Options.read (some type) (optionEntries entry) = .ok draft →
    OfType limit path name required entry (.string tag) (.primitive type ⟨required, draft.2, draft.1⟩)
  | object {members : Members} {fields : FieldMap} {draft : Options.Draft} :
    level limit (path.child name)
      (fun done => readFields limit (path.child name) done members) = .ok fields →
    Options.read none (optionEntries entry) = .ok draft →
    OfType limit path name required entry (.object members)
      (.object fields ⟨required, draft.2, draft.1⟩)

/-- The field that a member of a written field map stands for. -/
def Written (limit : Nat) (path : Path) (name : String) (value : Json) (field : Field) : Prop :=
  ∃ entry required type, value = .object entry ∧ readRequired path name entry = .ok required ∧
    entry.lookup Key.type = some type ∧ OfType limit path name required entry type field

theorem readTraits_eq_ok_iff {type : Option Primitive} {required : Bool} {entry : Members}
    {traits : Traits} : readTraits type path name required entry = .ok traits ↔
      ∃ draft, Options.read type (optionEntries entry) = .ok draft ∧
        ⟨required, draft.2, draft.1⟩ = traits := by
  rw [readTraits, bind_eq_ok_iff]
  simp only [Options.ofMembers_eq_ok_iff]
  refine exists_congr fun draft => and_congr_right fun _ => ?_
  exact ⟨fun same => by cases same; rfl, fun same => by cases same; rfl⟩

section

variable {required : Bool} {entry : Members} {field : Field}

theorem readPrimitive_eq_ok_iff {tag : String} :
    readPrimitive path name tag required entry = .ok field ↔
      OfType limit path name required entry (.string tag) field := by
  unfold readPrimitive
  constructor
  · intro complete
    split at complete
    · next known =>
      obtain ⟨traits, readTraits, rfl⟩ := map_eq_ok_iff.mp complete
      obtain ⟨draft, read, rfl⟩ := readTraits_eq_ok_iff.mp readTraits
      exact .primitive known read
    · cases complete
    · cases complete
  · rintro ⟨known, read⟩
    rw [known]
    exact map_eq_ok_iff.mpr ⟨_, readTraits_eq_ok_iff.mpr ⟨_, read, rfl⟩, rfl⟩

theorem readNested_eq_ok_iff {members : Members} :
    (do
      let fields ← level limit (path.child name) fun done =>
        readFields limit (path.child name) done members
      return Field.object fields (← readTraits none path name required entry)) = .ok field ↔
      OfType limit path name required entry (.object members) field := by
  simp only [bind_eq_ok_iff]
  constructor
  · rintro ⟨fields, nested, traits, readTraits, same⟩
    obtain ⟨draft, read, rfl⟩ := readTraits_eq_ok_iff.mp readTraits
    cases same
    exact .object nested read
  · rintro (_ | ⟨nested, read⟩)
    exact ⟨_, nested, _, readTraits_eq_ok_iff.mpr ⟨_, read, rfl⟩, rfl⟩

theorem readTyped_eq_ok_iff {rest : Members} :
    readTyped limit path name required entry rest = .ok field ↔
      ∃ type, rest.lookup Key.type = some type ∧ OfType limit path name required entry type field := by
  induction rest with
  | nil => simp [readTyped]
  | cons first rest ih =>
    obtain ⟨key, value⟩ := first
    by_cases isType : key = Key.type
    · subst isType
      simp only [List.lookup_cons_self, Option.some.injEq, exists_eq_left']
      cases value with
      | string tag =>
        rw [readTyped, if_pos rfl]
        exact readPrimitive_eq_ok_iff
      | object members =>
        rw [readTyped, if_pos rfl]
        exact readNested_eq_ok_iff
      | null | bool | number | array =>
        unfold readTyped
        rw [if_pos rfl]
        refine iff_of_false (fun complete => ?_) fun ofType => ?_
        · cases complete
        · cases ofType
    · rw [List.lookup_cons, beq_eq_false_iff_ne.mpr (Ne.symm isType)]
      unfold readTyped
      rw [if_neg isType]
      exact ih

theorem readField_eq_ok_iff {value : Json} :
    readField limit path name value = .ok field ↔ Written limit path name value field := by
  cases value with
  | object entry =>
    rw [readField, bind_eq_ok_iff]
    simp only [readTyped_eq_ok_iff]
    constructor
    · rintro ⟨required, flag, type, found, ofType⟩
      exact ⟨entry, required, type, rfl, flag, found, ofType⟩
    · rintro ⟨_, required, type, same, flag, found, ofType⟩
      cases same
      exact ⟨required, flag, type, found, ofType⟩
  | null | bool | number | string | array => simp [readField, Written]

end

/-- A field that was read is one that is written. -/
theorem mem_readFields {done map : FieldMap} {members : Members}
    (complete : readFields limit path done members = .ok map) {field : Field}
    (member : (name, field) ∈ map) : (name, field) ∈ done ∨
      ∃ value, (name, value) ∈ members ∧ Written limit path name value field := by
  induction members generalizing done with
  | nil =>
    cases complete
    exact .inl member
  | cons entry rest ih =>
    obtain ⟨other, value⟩ := entry
    rw [readFields] at complete
    obtain ⟨added, read, complete⟩ := bind_eq_ok_iff.mp complete
    rcases ih complete with old | ⟨value, listed, written⟩
    · rcases FieldMap.mem_insert old with old | ⟨rfl, rfl⟩
      · exact .inl old
      · exact .inr ⟨value, List.mem_cons_self .., readField_eq_ok_iff.mp read⟩
    · exact .inr ⟨value, List.mem_cons_of_mem _ listed, written⟩

/-- Members with distinct names stand for the fields of the map in their order. -/
theorem readFields_eq_ok_iff {done map : FieldMap} {members : Members}
    (distinct : (Entries.names done ++ Entries.names members).Nodup) :
    readFields limit path done members = .ok map ↔ ∃ fields : FieldMap, map = done ++ fields ∧
      List.Forall₂ (fun entry field => entry.1 = field.1 ∧
        Written limit path entry.1 entry.2 field.2) members fields := by
  induction members generalizing done with
  | nil => simp [readFields, @eq_comm _ _ map]
  | cons entry rest ih =>
    obtain ⟨name, value⟩ := entry
    have absent : name ∉ Entries.names done := fun member =>
      (List.nodup_append.mp distinct).2.2 name member name (by simp) rfl
    have others (field : Field) :
        (Entries.names (done.insert name field) ++ Entries.names rest).Nodup := by
      rw [FieldMap.insert_of_absent absent]
      simpa using distinct
    rw [readFields, bind_eq_ok_iff]
    simp only [List.forall₂_cons_left_iff, ih (others _), readField_eq_ok_iff]
    constructor
    · rintro ⟨field, written, fields, rfl, tail⟩
      refine ⟨(name, field) :: fields, ?_, (name, field), fields, ⟨rfl, written⟩, tail, rfl⟩
      rw [FieldMap.insert_of_absent absent, List.append_assoc, List.singleton_append]
    · rintro ⟨_, rfl, ⟨other, field⟩, fields, ⟨same, written⟩, tail, rfl⟩
      cases same
      refine ⟨field, written, fields, ?_, tail⟩
      rw [FieldMap.insert_of_absent absent, List.append_assoc, List.singleton_append]

end FieldSchema.Field
