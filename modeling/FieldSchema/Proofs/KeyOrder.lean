import FieldSchema.Proofs.SameDocument

/-! The order of members never decides what is accepted, as long as no field may be declared again:
schemas that are equal up to it are normalized alike, and take the same documents, whether by
extraction or by the object schema. -/
namespace FieldSchema

open Json (SameValue SameMembers)

theorem Json.mapMembers_same {f g : Members → Members} {a b : Json} (same : a.SameValue b)
    (images : ∀ ms ns, SameMembers ms ns → SameMembers (f ms) (g ns)) :
    SameValue (a.mapMembers f) (b.mapMembers g) := by
  cases same.form with
  | object members => exact .object (images _ _ members)
  | null | bool | number | string | array => exact same

theorem Json.mapObjects_same {f g : Members → Members} {a b : Json} (isArray : Bool)
    (same : a.SameValue b) (images : ∀ ms ns, SameMembers ms ns → SameMembers (f ms) (g ns)) :
    SameValue (a.mapObjects isArray f) (b.mapObjects isArray g) := by
  cases isArray with
  | false => exact mapMembers_same same images
  | true =>
    cases same.form with
    | array items =>
      refine .array ?_
      rw [List.forall₂_map_left_iff, List.forall₂_map_right_iff]
      exact items.imp fun _ _ same => mapMembers_same same images
    | null | bool | number | string | object => exact same

namespace Field

theorem names_pickFields_sublist (keep : Field → Bool) (members : Members) (fields : FieldMap) :
    (Entries.names (pickFields keep members fields)).Sublist (Entries.names fields) := by
  induction fields with
  | nil => exact .slnil
  | cons entry rest ih =>
    obtain ⟨name, field⟩ := entry
    rw [pickFields, Entries.names, List.map_append]
    cases members.lookup name with
    | none => exact ih.cons name
    | some value =>
      by_cases kept : keep field = true
      · simpa [kept] using ih
      · simpa [kept] using ih.cons name

/-- What is picked of equal documents is equal, if the maps have the same fields. -/
theorem pickFields_same {fields others : FieldMap} (alike : fields.Alike others)
    (left : fields.Throughout Entries.Distinct) (right : others.Throughout Entries.Distinct)
    {ms ns : Members} (same : SameMembers ms ns) :
    SameMembers (pickFields (fun _ => true) ms fields) (pickFields (fun _ => true) ns others) := by
  induction fields using FieldMap.induction generalizing others ms ns with
  | step fields ih =>
    obtain ⟨leftHere, leftBelow⟩ := FieldMap.throughout_iff.mp left
    obtain ⟨rightHere, rightBelow⟩ := FieldMap.throughout_iff.mp right
    refine Json.sameMembers_of_lookup
      (leftHere.sublist (names_pickFields_sublist _ _ _))
      (rightHere.sublist (names_pickFields_sublist _ _ _)) fun name => ?_
    have related := alike name
    cases found : List.lookup name fields with
    | none =>
      rw [found] at related
      have absent : List.lookup name others = none := by
        generalize List.lookup name others = other at related
        cases related
        rfl
      rw [lookup_pickFields_none (Entries.lookup_eq_none_iff.mp found),
        lookup_pickFields_none (Entries.lookup_eq_none_iff.mp absent)]
      exact .none
    | some field =>
      rw [found] at related
      obtain ⟨other, held, paired⟩ : ∃ other, List.lookup name others = some other ∧
          field.Alike other := by
        generalize List.lookup name others = other at related ⊢
        cases related with
        | some same => exact ⟨_, rfl, same⟩
      have member := Entries.mem_of_lookup found
      have memberToo := Entries.mem_of_lookup held
      rw [lookup_pickFields leftHere member, lookup_pickFields rightHere memberToo, if_pos rfl,
        if_pos rfl]
      have values := same.lookup name
      generalize ms.lookup name = a at values
      generalize ns.lookup name = b at values
      cases values with
      | none => exact .none
      | some values =>
        refine .some ?_
        cases paired with
        | primitive => exact values
        | object fieldsAlike agree =>
          simp only [pick, agree.isArray]
          refine Json.mapObjects_same _ values fun ms ns same => ?_
          exact ih name _ _ member fieldsAlike (leftBelow name _ _ member)
            (rightBelow name _ _ memberToo) same

end Field

theorem FieldMap.pick_same {map other : FieldMap} (alike : map.Alike other)
    (left : map.Throughout Entries.Distinct) (right : other.Throughout Entries.Distinct) {a b : Json}
    (same : a.SameValue b) : SameValue (map.pick (fun _ => true) a) (other.pick (fun _ => true) b) :=
  Json.mapMembers_same same fun _ _ => Field.pickFields_same alike left right

section

variable {settings : Settings} {map other : FieldMap} {document partner extracted : Json}

/-- Extraction takes equal documents alike, and gives equal ones. -/
theorem extractValid_same (alike : map.Alike other)
    (sound : map.Everywhere (FieldMap.Sound settings.maxDepth) 0)
    (soundToo : other.Everywhere (FieldMap.Sound settings.maxDepth) 0)
    (same : document.SameValue partner)
    (accepted : extractValid settings map document = .ok extracted) :
    ∃ result, extractValid settings other partner = .ok result ∧ extracted.SameValue result := by
  have distinct := FieldMap.distinct_of_sound sound
  have distinctToo := FieldMap.distinct_of_sound soundToo
  have closed {map : FieldMap} {document extracted : Json}
      (sound : map.Everywhere (FieldMap.Sound settings.maxDepth) 0)
      (accepted : extractValid settings map document = .ok extracted) :
      map.pick (fun _ => true) document = extracted := by
    rw [extractValid_eq_of_resolved (FieldMap.fits_of_sound sound)
      (FieldMap.distinct_of_sound sound) (FieldMap.resolved_of_sound sound)] at accepted
    exact (failFast_eq_ok_iff.mp accepted).2
  obtain ⟨result, acceptedToo⟩ := (extractValid_isOk_iff soundToo).mpr
    (Audit.document_same Audit.checked_orderless alike distinctToo same
      ((extractValid_isOk_iff sound).mp ⟨extracted, accepted⟩))
  refine ⟨result, acceptedToo, ?_⟩
  rw [← closed sound accepted, ← closed soundToo acceptedToo]
  exact FieldMap.pick_same alike distinct distinctToo same

end

namespace Compiler

variable {compiler : Compiler} {schema other document partner : Json}

/-- What one order of members has accepted, any other has. -/
theorem extractValid_reordered (rejects : compiler.settings.duplicates = .reject)
    (schemas : schema.SameValue other) (documents : document.SameValue partner) {extracted : Json}
    (accepted : compiler.extractValid (.written schema) document = .ok extracted) :
    ∃ result, compiler.extractValid (.written other) partner = .ok result ∧
      extracted.SameValue result := by
  obtain ⟨map, complete, accepted⟩ := bind_eq_ok_iff.mp accepted
  obtain ⟨map', completeToo, alike⟩ := Source.normalizeValue_reordered rejects schemas complete
  obtain ⟨result, acceptedToo, same⟩ := extractValid_same alike
    (Source.normalizeValue_sound complete) (Source.normalizeValue_sound completeToo) documents accepted
  exact ⟨result, bind_eq_ok_iff.mpr ⟨map', completeToo, acceptedToo⟩, same⟩

theorem objectSchema_reordered (rejects : compiler.settings.duplicates = .reject)
    (schemas : schema.SameValue other) (documents : document.SameValue partner)
    {built : ObjectSchema} (complete : compiler.objectSchema (.written schema) = .ok built) :
    ∃ twin, compiler.objectSchema (.written other) = .ok twin ∧
      ((built.validate document).valid = true → (twin.validate partner).valid = true) := by
  obtain ⟨map, complete, made⟩ := bind_eq_ok_iff.mp complete
  obtain ⟨map', completeToo, alike⟩ := Source.normalizeValue_reordered rejects schemas complete
  have soundToo := Source.normalizeValue_sound completeToo
  obtain ⟨-, rfl⟩ := ObjectSchema.ofMap_eq_ok_iff.mp made
  refine ⟨.ofFields map', bind_eq_ok_iff.mpr ⟨map', completeToo,
    ObjectSchema.ofMap_eq_ok_iff.mpr ⟨FieldMap.fits_of_sound soundToo, rfl⟩⟩, ?_⟩
  rw [ObjectSchema.validate_valid_iff, ObjectSchema.validate_valid_iff]
  exact Audit.document_same Audit.hooked_orderless alike (FieldMap.distinct_of_sound soundToo)
    documents

/-- The order of members decides neither whether a schema is normalized, nor which documents are
extracted or what of them, nor which documents the object schema takes. -/
theorem accepts_whatever_order (rejects : compiler.settings.duplicates = .reject)
    (schemas : schema.SameValue other) (documents : document.SameValue partner) :
    ((∃ map, compiler.normalize (.written schema) = .ok map) ↔
      ∃ map, compiler.normalize (.written other) = .ok map) ∧
    (∀ extracted, compiler.extractValid (.written schema) document = .ok extracted →
      ∃ result, compiler.extractValid (.written other) partner = .ok result ∧
        extracted.SameValue result) ∧
    (∀ result, compiler.extractValid (.written other) partner = .ok result →
      ∃ extracted, compiler.extractValid (.written schema) document = .ok extracted ∧
        extracted.SameValue result) ∧
    ((∃ built, compiler.objectSchema (.written schema) = .ok built) ↔
      ∃ twin, compiler.objectSchema (.written other) = .ok twin) ∧
    ∀ built twin, compiler.objectSchema (.written schema) = .ok built →
      compiler.objectSchema (.written other) = .ok twin →
        (built.validate document).valid = (twin.validate partner).valid := by
  refine ⟨⟨?_, ?_⟩, fun extracted => extractValid_reordered rejects schemas documents,
    fun result accepted => ?_, ⟨?_, ?_⟩, fun built twin complete completeToo => ?_⟩
  · rintro ⟨map, complete⟩
    obtain ⟨map', complete, -⟩ := Source.normalizeValue_reordered rejects schemas complete
    exact ⟨map', complete⟩
  · rintro ⟨map, complete⟩
    obtain ⟨map', complete, -⟩ := Source.normalizeValue_reordered rejects schemas.symm complete
    exact ⟨map', complete⟩
  · obtain ⟨extracted, accepted, same⟩ :=
      extractValid_reordered rejects schemas.symm documents.symm accepted
    exact ⟨extracted, accepted, same.symm⟩
  · rintro ⟨built, complete⟩
    obtain ⟨twin, complete, -⟩ := objectSchema_reordered rejects schemas documents complete
    exact ⟨twin, complete⟩
  · rintro ⟨twin, complete⟩
    obtain ⟨built, complete, -⟩ := objectSchema_reordered rejects schemas.symm documents complete
    exact ⟨built, complete⟩
  · obtain ⟨_, again, forward⟩ := objectSchema_reordered rejects schemas documents complete
    cases again.symm.trans completeToo
    obtain ⟨_, again, backward⟩ :=
      objectSchema_reordered rejects schemas.symm documents.symm completeToo
    cases again.symm.trans complete
    exact Bool.eq_iff_iff.mpr ⟨forward, backward⟩

/-- The flag that makes a field an array, before its default and after it; options before the
fields of an object and after them; and a rule between fields that are declared in either order. -/
theorem accepts_whatever_order_of_flags :
    let high : Members := [("default", .array [.natural 1]), ("array", .bool true),
      ("greaterOrEqualTo", .string "low")]
    let low : Members := [("array", .bool true)]
    let inner : Json := .object [("string", .object [("s", .object
      [("enum", .strings ["x"]), ("maxLength", .natural 3)])])]
    let schema : Json := .object [("required", .object
      [("number", .object [("high", .object high), ("low", .object low)]),
        ("object", .object [("o", .object [("note", .null), ("optional", inner)])])])]
    let other : Json := .object [("required", .object
      [("object", .object [("o", .object [("optional", inner), ("note", .null)])]),
        ("number", .object [("low", .object low), ("high", .object high.reverse)])])]
    let document : Json := .object [("high", .array [.natural 2]), ("low", .array [.natural 1]),
      ("o", .object [("s", .string "x"), ("t", .null)])]
    let partner : Json := .object [("o", .object [("t", .null), ("s", .string "x")]),
      ("low", .array [.natural 1]), ("high", .array [.natural 2])]
    standard.settings.duplicates = .reject ∧ schema.SameValue other ∧ document.SameValue partner ∧
      ((∃ map, standard.normalize (.written schema) = .ok map) ↔
        ∃ map, standard.normalize (.written other) = .ok map) ∧
      (∀ extracted, standard.extractValid (.written schema) document = .ok extracted →
        ∃ result, standard.extractValid (.written other) partner = .ok result ∧
          extracted.SameValue result) ∧
      (∀ result, standard.extractValid (.written other) partner = .ok result →
        ∃ extracted, standard.extractValid (.written schema) document = .ok extracted ∧
          extracted.SameValue result) ∧
      ((∃ built, standard.objectSchema (.written schema) = .ok built) ↔
        ∃ twin, standard.objectSchema (.written other) = .ok twin) ∧
      ∀ built twin, standard.objectSchema (.written schema) = .ok built →
        standard.objectSchema (.written other) = .ok twin →
          (built.validate document).valid = (twin.validate partner).valid := by
  intro high low inner schema other document partner
  have schemas : schema.SameValue other := by
    refine ⟨by decide, ?_, ?_⟩ <;>
      simp [schema, other, high, low, inner, Json.Distinct, Json.DistinctMembers, Json.DistinctItems,
        Entries.Distinct, Json.strings, Json.natural]
  have documents : document.SameValue partner := by
    refine ⟨by decide, ?_, ?_⟩ <;>
      simp [document, partner, Json.Distinct, Json.DistinctMembers, Json.DistinctItems,
        Entries.Distinct, Json.natural]
  exact ⟨rfl, schemas, documents, accepts_whatever_order rfl schemas documents⟩

end Compiler

end FieldSchema
