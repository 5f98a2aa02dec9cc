import FieldSchema.Compiler
import FieldSchema.Proofs.Flattening

/-! Telling the two forms of a schema apart. Each member of a written field map has a type, and the
members of a half are groups, none of which is called so; only the empty schema has both forms, and
it stands for the same map in both. So a schema that reads as a collection is never taken for a
written field map. -/
namespace FieldSchema

namespace Collection

/-- No tag is the word under which a written field has its type. -/
theorem HalfShaped.lookup_type {value : Json} (shaped : HalfShaped value) {groups : Members}
    (held : value.object? = some groups) : groups.lookup Key.type = none := by
  obtain ⟨_, rfl, each⟩ := shaped
  cases held
  rw [Entries.lookup_eq_none_iff]
  intro member
  obtain ⟨⟨_, fields⟩, listed, rfl⟩ := List.mem_map.mp member
  obtain ⟨⟨tag, known⟩, -⟩ := each _ listed
  cases known

theorem Shaped.not_writtenForm {members : Members} (shaped : Shaped false members)
    (present : members ≠ []) : FieldMap.isWrittenForm members = false := by
  obtain ⟨⟨key, value⟩, member⟩ := List.exists_mem_of_ne_nil members present
  have half : HalfShaped value := by
    refine shaped.half key value member fun own => ?_
    exact absurd (shaped.own key value member own) Bool.false_ne_true
  rw [FieldMap.isWrittenForm, List.all_eq_false]
  refine ⟨_, member, ?_⟩
  dsimp only
  cases held : value.object? with
  | none => simp
  | some groups => simp [Entries.has, half.lookup_type held]

theorem ofMembers_eq_ok_iff {limit : Nat} {members : Members} {collection : Collection} :
    ofMembers limit members = .ok collection ↔ 0 < limit ∧
      ∃ others, readHalves limit .root false members = .ok (collection, others) := by
  rw [ofMembers, bind_eq_ok_iff]
  simp only [guardDepth_eq_ok_iff, bind_eq_ok_iff]
  constructor
  · rintro ⟨_, shallow, ⟨halves, others⟩, read, same⟩
    cases same
    exact ⟨shallow, others, read⟩
  · rintro ⟨shallow, others, read⟩
    exact ⟨(), shallow, _, read, rfl⟩

theorem ofValue_eq_ok_iff {limit : Nat} {schema : Json} {collection : Collection} :
    ofValue limit schema = .ok collection ↔ ∃ members, schema = .object members ∧
      ofMembers limit members = .ok collection := by
  cases schema with
  | object members => simp [ofValue]
  | null | bool | number | string | array => simp [ofValue]

theorem not_writtenForm_of_ofMembers {limit : Nat} {members : Members} {collection : Collection}
    (complete : ofMembers limit members = .ok collection) (present : members ≠ []) :
    FieldMap.isWrittenForm members = false := by
  obtain ⟨-, others, read⟩ := ofMembers_eq_ok_iff.mp complete
  exact (shaped_of_readHalves read).not_writtenForm present

end Collection

namespace Source

section

variable {m : Type → Type} [Monad m] [LawfulMonad m] [MonadExceptOf Fault m]
  (notify : Notice → m Unit) {settings : Settings}

/-- The empty schema is the empty map in either form. -/
theorem normalizeValueNoting_nil (shallow : 0 < settings.maxDepth) :
    normalizeValueNoting notify settings (.object []) =
      Collection.flattenNoting notify settings [] := by
  have guarded : ¬settings.maxDepth ≤ Path.root.depth := by
    rw [Path.depth_root]
    omega
  have read : FieldMap.ofMembers settings.maxDepth [] = .ok .empty :=
    Field.level_eq_ok_iff.mpr ⟨shallow, rfl, by simp [FieldMap.Resolved, FieldMap.empty]⟩
  have resolved : FieldMap.checkReferences .root .empty = .ok () := rfl
  simp only [normalizeValueNoting, FieldMap.isWrittenForm, List.all_nil, if_true, read,
    Collection.flattenNoting, Collection.flattenLevel, Collection.addHalves, if_neg guarded,
    resolved, MonadExcept.ofExcept, pure_bind]

/-- A schema that reads as a collection is flattened as one, with the same notices. -/
theorem normalizeValueNoting_of_ofValue {schema : Json} {collection : Collection}
    (read : Collection.ofValue settings.maxDepth schema = .ok collection) :
    normalizeValueNoting notify settings schema = collection.flattenNoting notify settings := by
  obtain ⟨members, rfl, complete⟩ := Collection.ofValue_eq_ok_iff.mp read
  by_cases none : members = []
  · subst none
    obtain ⟨shallow, others, nothing⟩ := Collection.ofMembers_eq_ok_iff.mp complete
    cases nothing
    exact normalizeValueNoting_nil notify shallow
  · have declared := Collection.not_writtenForm_of_ofMembers complete none
    simp only [normalizeValueNoting, declared, Bool.false_eq_true, if_false, complete,
      MonadExcept.ofExcept, pure_bind]

end

end Source

namespace Compiler

/-- Handing in a schema or the collection that it reads as comes to the same, be it a map or a
fault; and nothing but the empty schema has the form of a written field map and reads as a
collection as well. -/
theorem normalize_written_eq_declared (compiler : Compiler) :
    (∀ schema collection,
      Collection.ofValue compiler.settings.maxDepth schema = .ok collection →
        Source.normalizeValue compiler.settings schema =
          Collection.flatten compiler.settings collection ∧
        compiler.normalize (.written schema) = compiler.normalize (.declared collection)) ∧
    ∀ limit members, members ≠ [] → FieldMap.isWrittenForm members = true →
      ∃ fault, Collection.ofValue limit (.object members) = .error fault := by
  refine ⟨fun schema collection read => ?_, fun limit members present form => ?_⟩
  · have same := @Source.normalizeValueNoting_of_ofValue (Except Fault) _ _ _ Collection.quiet
      compiler.settings schema collection read
    exact ⟨same, same⟩
  · cases read : Collection.ofValue limit (.object members) with
    | error fault => exact ⟨fault, rfl⟩
    | ok collection =>
      have declared := Collection.not_writtenForm_of_ofMembers read present
      rw [form] at declared
      cases declared

/-- Fields that are called as the words of either layout are, and one that is declared again; and a
field called as a half, in a written field map. -/
theorem normalize_written_eq_declared_of_layout_words :
    let schema : Json := .object
      [("optional", .object [("object", .object [("required", .object
          [("required", .object [("string", .object [("type", .object [])])])])]),
        ("string", .object [("type", .object []), ("optional", .object [])])]),
        ("required", .object [("number", .object [("type", .object [])])])]
    let repeated : Fault :=
      .malformedSchema .root (.repeated "type" "optional string" "required number")
    let field : Json := .object [("type", .string "string"), ("required", .bool true)]
    ∃ collection, Collection.ofValue 32 schema = .ok collection ∧
      (Source.normalizeValue .standard schema = Collection.flatten .standard collection ∧
        standard.normalize (.written schema) = standard.normalize (.declared collection)) ∧
      standard.normalize (.declared collection) = .error repeated ∧
      FieldMap.isWrittenForm [("required", field)] = true ∧
      ∃ fault, Collection.ofValue 32 (.object [("required", field)]) = .error fault := by
  intro schema repeated field
  obtain ⟨collection, read⟩ : ∃ collection, Collection.ofValue 32 schema = .ok collection :=
    ⟨_, rfl⟩
  have failed : standard.normalize (.declared collection) = .error repeated := by
    cases read
    rfl
  have form : FieldMap.isWrittenForm [("required", field)] = true := rfl
  have whole := normalize_written_eq_declared standard
  exact ⟨collection, read, whole.1 schema collection read, failed, form,
    whole.2 32 [("required", field)] (List.cons_ne_nil _ _) form⟩

end Compiler

end FieldSchema
