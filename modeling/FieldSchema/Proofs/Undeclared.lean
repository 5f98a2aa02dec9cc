import FieldSchema.Proofs.Agreement
import FieldSchema.Proofs.ObjectSchema

/-! Keys that are not declared never matter. Documents that agree in what a field map declares take
the same way through it, so extraction ends alike in both, and so do the object schema's report and
what it constructs. Only hooks see a whole object, and those of a map name declared fields. -/
namespace FieldSchema

namespace Json

variable {R : Members → Members → Prop} {f : Members → Members} {isArray : Bool} {a b : Json}

theorem Alike.mapMembers_eq (alike : Alike R a b) (same : ∀ ms ns, R ms ns → f ms = f ns) :
    a.mapMembers f = b.mapMembers f := by
  cases alike with
  | same => rfl
  | objects related => exact congrArg Json.object (same _ _ related)

theorem Aligned.mapObjects_eq (aligned : Aligned R isArray a b)
    (same : ∀ ms ns, R ms ns → f ms = f ns) :
    a.mapObjects isArray f = b.mapObjects isArray f := by
  cases aligned with
  | same => rfl
  | single alike => exact alike.mapMembers_eq same
  | elements alike =>
    refine congrArg Json.array ?_
    rw [← List.forall₂_eq_eq_eq, List.forall₂_map_left_iff, List.forall₂_map_right_iff]
    exact alike.imp fun _ _ alike => alike.mapMembers_eq same

theorem alike_of_mapMembers (related : ∀ ms ns, f ms = f ns → R ms ns)
    (same : a.mapMembers f = b.mapMembers f) : Alike R a b := by
  cases a with
  | object ms =>
    cases b with
    | object ns => exact .objects (related _ _ (Json.object.inj same))
    | null | bool | number | string | array => cases same
  | null | bool | number | string | array =>
    cases b with
    | object ns => cases same
    | null | bool | number | string | array => cases same <;> exact .same

theorem aligned_of_mapObjects (related : ∀ ms ns, f ms = f ns → R ms ns)
    (same : a.mapObjects isArray f = b.mapObjects isArray f) : Aligned R isArray a b := by
  cases isArray with
  | false => exact .single (alike_of_mapMembers related same)
  | true =>
    cases a with
    | array xs =>
      cases b with
      | array ys =>
        have mapped := Json.array.inj same
        rw [← List.forall₂_eq_eq_eq, List.forall₂_map_left_iff,
          List.forall₂_map_right_iff] at mapped
        exact .elements (mapped.imp fun _ _ same => alike_of_mapMembers related same)
      | null | bool | number | string | object => cases same
    | null | bool | number | string | object =>
      cases b with
      | array ys => cases same
      | null | bool | number | string | object => cases same <;> exact .same

end Json

namespace Field

variable {ms ns : Members}

/-- Objects agree exactly if they are equal without the keys that are not declared, in the order of
the declarations. -/
theorem fieldsAgree_iff_pickFields {fields : FieldMap}
    (distinct : fields.Throughout Entries.Distinct) : FieldsAgree ms ns fields ↔
      pickFields (fun _ => true) ms fields = pickFields (fun _ => true) ns fields := by
  induction fields using FieldMap.induction generalizing ms ns with
  | step fields ih =>
    obtain ⟨here, below⟩ := FieldMap.throughout_iff.mp distinct
    rw [fieldsAgree_iff]
    constructor
    · intro agree
      rw [pickFields_eq_flatMap, pickFields_eq_flatMap]
      refine List.flatMap_congr fun ⟨name, field⟩ member => ?_
      have related := agree name field member
      dsimp only
      generalize ms.lookup name = a at related
      generalize ns.lookup name = b at related
      cases related with
      | none => rfl
      | some agree =>
        cases field with
        | primitive type traits => cases agree; rfl
        | object inner traits =>
          simp only [Agree] at agree
          simp only [Option.elim_some, if_true, pick, List.cons.injEq, Prod.mk.injEq, true_and,
            and_true]
          exact agree.mapObjects_eq fun ms ns agree =>
            (ih name inner traits member (below name inner traits member)).mp agree
    · intro same name field member
      have picked := congrArg (List.lookup name) same
      rw [lookup_pickFields here member, lookup_pickFields here member, if_pos rfl,
        if_pos rfl] at picked
      generalize ms.lookup name = a at picked
      generalize ns.lookup name = b at picked
      cases a with
      | none =>
        cases b with
        | none => exact .none
        | some => cases picked
      | some a =>
        cases b with
        | none => cases picked
        | some b =>
          refine .some ?_
          cases field with
          | primitive type traits => simpa only [Agree, pick] using Option.some.inj picked
          | object inner traits =>
            have mapped := Option.some.inj picked
            simp only [pick] at mapped
            simp only [Agree]
            exact Json.aligned_of_mapObjects (fun ms ns same =>
              (ih name inner traits member (below name inner traits member)).mpr same) mapped

end Field

namespace Visitor

variable {Out Kind : Type} {visitor : Visitor (Except Fault) Out Kind} {limit : Nat}

/-- The walk goes through two values of an object field alike if it goes so through the objects in
them. A value of the wrong form is the same in both, and so is the fault that prints it. -/
theorem walkField_congr {path : Path} {name : String} {out : Out} {inner : FieldMap}
    {traits : Traits} {R : Members → Members → Prop} {a b : Json}
    (aligned : Json.Aligned R traits.isArray a b)
    (levels : ∀ here ms ns, R ms ns →
      visitor.level limit here (some ms)
          (fun out => visitor.walkFields limit here (some ms) out inner) =
        visitor.level limit here (some ns)
          (fun out => visitor.walkFields limit here (some ns) out inner)) :
    visitor.walkField limit path name out (some a) (.object inner traits) =
      visitor.walkField limit path name out (some b) (.object inner traits) := by
  unfold walkField
  simp only [ofExcept_eq]
  generalize traits.isArray = isArray at aligned
  cases aligned with
  | same => rfl
  | single alike =>
    cases alike with
    | same => rfl
    | objects related =>
      change (visitor.level limit (path.child name) (some _) _ >>= _) =
        (visitor.level limit (path.child name) (some _) _ >>= _)
      rw [levels _ _ _ related]
  | elements alike =>
    change (List.mapM _ (List.zipIdx _) : Except Fault _) >>= _ =
      (List.mapM _ (List.zipIdx _) : Except Fault _) >>= _
    refine congrArg (· >>= _) (mapM_zipIdx_congr alike (fun x y i alike => ?_) 0)
    cases alike with
    | same => rfl
    | objects related => exact levels _ _ _ related

/-- A visitor takes the same way through objects that agree, if the end of an object does not make
it look at the object. -/
theorem walkFields_congr
    (blind : ∀ path out ms ns,
      visitor.finish path out (some ms) = visitor.finish path out (some ns))
    (fields : FieldMap) {path : Path} {out : Out} {ms ns : Members}
    (agree : Field.FieldsAgree ms ns fields) :
    visitor.walkFields limit path (some ms) out fields =
      visitor.walkFields limit path (some ns) out fields := by
  induction fields using FieldMap.induction generalizing path out ms ns with
  | step fields ih =>
    have each : ∀ name field, (name, field) ∈ fields → ∀ a b out, field.Agree a b →
        visitor.walkField limit path name out (some a) field =
          visitor.walkField limit path name out (some b) field := by
      intro name field member a b out agree
      cases field with
      | primitive type traits => cases agree; rfl
      | object inner traits =>
        simp only [Field.Agree] at agree
        refine walkField_congr agree fun here ms ns agree => ?_
        unfold level
        simp only [ih name inner traits member agree, blind here _ ms ns]
    clear ih
    induction fields generalizing out with
    | nil => rfl
    | cons entry rest ih =>
      obtain ⟨name, field⟩ := entry
      rw [Field.FieldsAgree] at agree
      obtain ⟨related, agree⟩ := agree
      have others : ∀ out, visitor.walkFields limit path (some ms) out rest =
          visitor.walkFields limit path (some ns) out rest := fun out =>
        ih agree fun name field member => each name field (List.mem_cons_of_mem _ member)
      rw [walkFields, walkFields]
      simp only [others]
      generalize ms.lookup name = a at related
      generalize ns.lookup name = b at related
      cases related with
      | none => rfl
      | some agree =>
        dsimp only
        rw [each name field (List.mem_cons_self ..) _ _ out agree]

end Visitor

/-- The first broken rule is the same in objects that agree, since rules name declared fields. -/
theorem Audit.hooked_blind {fields : FieldMap} (resolved : fields.Resolved) :
    hooked.Blind fields := by
  intro path ms ns agree
  refine congrArg (List.take 1) (List.flatMap_congr fun ⟨name, field⟩ member => ?_)
  exact Level.broken_congr resolved agree member

/-- Defaults are filled in alike. -/
theorem Entry.fillFields_agree (fields : FieldMap) {ms ns : Members}
    (agree : Field.FieldsAgree ms ns fields) :
    fillFields ms (ofFields fields) = fillFields ns (ofFields fields) := by
  induction fields using FieldMap.induction generalizing ms ns with
  | step fields ih =>
    rw [fillFields_ofFields, fillFields_ofFields]
    refine List.filterMap_congr fun ⟨name, field⟩ member => ?_
    have related := Field.fieldsAgree_iff.mp agree name field member
    dsimp only [Field.filled]
    generalize ms.lookup name = a at related
    generalize ns.lookup name = b at related
    cases related with
    | none => rfl
    | some agree =>
      cases field with
      | primitive type traits => cases agree; rfl
      | object inner traits =>
        simp only [Field.Agree] at agree
        dsimp only
        rw [fill_object, fill_object,
          agree.mapObjects_eq fun ms ns agree => ih name inner traits member agree]

section

variable {settings : Settings} {map : FieldMap} {ms ns : Members}

theorem extractKept_agree (agree : Field.FieldsAgree ms ns map)
    (filter : Option Extraction.Filter) : extractKept settings map (.object ms) filter =
      extractKept settings map (.object ns) filter := by
  have walked : ∀ out,
      (Extraction.extractor filter).walkFields settings.maxDepth .root (some ms) out map =
        (Extraction.extractor filter).walkFields settings.maxDepth .root (some ns) out map :=
    fun out => Visitor.walkFields_congr (fun _ _ _ _ => rfl) map agree
  unfold extractKept Visitor.visit Visitor.walk Visitor.level
  simp only [walked]
  rfl

/-- The second pass sees nothing but what was extracted. -/
theorem extractValid_agree (agree : Field.FieldsAgree ms ns map) :
    extractValid settings map (.object ms) = extractValid settings map (.object ns) := by
  unfold extractValid extract
  rw [extractKept_agree agree]

namespace ObjectSchema

theorem validate_agree (resolved : map.Throughout FieldMap.Resolved)
    (agree : Field.FieldsAgree ms ns map) :
    (ofFields map).validate (.object ms) = (ofFields map).validate (.object ns) := by
  rw [validate_eq, validate_eq, faults_ofFields, faults_ofFields]
  exact congrArg Report.ofFaults (Audit.level_congr map
    (fun path inner nested => Audit.hooked_blind (resolved path inner nested)) agree)

theorem construct_agree (agree : Field.FieldsAgree ms ns map) :
    (ofFields map).construct (.object ms) = (ofFields map).construct (.object ns) := by
  have filled : Entry.fillFields ms (ofFields map).fields =
      Entry.fillFields ns (ofFields map).fields := Entry.fillFields_agree map agree
  simp only [construct, filled]

end ObjectSchema

/-- Objects that agree in what a normalized map declares of them are extracted, validated and
constructed alike: what comes out is the same, and so is every fault. -/
theorem same_outcomes_of_agree {schema : Json}
    (complete : Source.normalizeValue settings schema = .ok map)
    (agree : Field.FieldsAgree ms ns map) :
    (∃ built, ObjectSchema.ofMap settings map = .ok built) ∧ ∀ used : Settings,
      extract used map (.object ms) = extract used map (.object ns) ∧
      extractValid used map (.object ms) = extractValid used map (.object ns) ∧
      ∀ built, ObjectSchema.ofMap used map = .ok built →
        built.validate (.object ms) = built.validate (.object ns) ∧
        built.construct (.object ms) = built.construct (.object ns) := by
  have sound := Source.normalizeValue_sound complete
  refine ⟨⟨_, ObjectSchema.ofMap_eq_ok_iff.mpr ⟨FieldMap.fits_of_sound sound, rfl⟩⟩,
    fun used => ⟨extractKept_agree agree none, extractValid_agree agree, fun built made => ?_⟩⟩
  obtain ⟨-, rfl⟩ := ObjectSchema.ofMap_eq_ok_iff.mp made
  exact ⟨ObjectSchema.validate_agree (FieldMap.resolved_of_sound sound) agree,
    ObjectSchema.construct_agree agree⟩

/-- The rows are in another order of keys, and one has a key that is not declared. A rule is broken
in both documents, and with the same report. -/
theorem same_outcomes_of_agree_rows :
    let schema : Json := .object [("required", .object [("object", .object
      [("rows", .object [("array", .bool true), ("required", .object [("number", .object
        [("low", .object []), ("high", .object [("greaterOrEqualTo", .string "low")])])])])])])]
    let ms : Members := [("note", .string "x"), ("rows", .array
      [.object [("low", .natural 2), ("high", .natural 1)]])]
    let ns : Members := [("rows", .array
      [.object [("high", .natural 1), ("note", .null), ("low", .natural 2)]])]
    ∃ map built, Source.normalizeValue .standard schema = .ok map ∧ Field.FieldsAgree ms ns map ∧
      ObjectSchema.ofMap .standard map = .ok built ∧
      extract .standard map (.object ms) = extract .standard map (.object ns) ∧
      extractValid .standard map (.object ms) = extractValid .standard map (.object ns) ∧
      built.validate (.object ms) = built.validate (.object ns) ∧
      (built.validate (.object ms)).valid = false ∧
      built.construct (.object ms) = built.construct (.object ns) := by
  intro schema ms ns
  obtain ⟨map, complete⟩ : ∃ map, Source.normalizeValue .standard schema = .ok map := ⟨_, rfl⟩
  have distinct := FieldMap.distinct_of_sound (Source.normalizeValue_sound complete)
  have agree : Field.FieldsAgree ms ns map := by
    rw [Field.fieldsAgree_iff_pickFields distinct]
    cases complete
    rfl
  obtain ⟨⟨built, made⟩, same⟩ := same_outcomes_of_agree complete agree
  obtain ⟨extracted, accepted, objects⟩ := same .standard
  obtain ⟨validated, constructed⟩ := objects built made
  have refused : (built.validate (.object ms)).valid = false := by
    cases complete
    cases made
    rfl
  exact ⟨map, built, complete, agree, made, extracted, accepted, validated, refused, constructed⟩

end

end FieldSchema
