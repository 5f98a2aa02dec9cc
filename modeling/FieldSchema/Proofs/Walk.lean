import FieldSchema.Proofs.Audit

/-! The walk as a computation that ends with its first fault. What a visitor makes of the objects
in the value of a field is gathered if each of them is walked without a fault. -/
namespace FieldSchema.Visitor

variable {Out Kind : Type} {visitor : Visitor (Except Fault) Out Kind} {limit : Nat}

theorem level_eq {path : Path} {document : Option Members} {body : Out → Except Fault Out}
    (shallow : path.depth < limit) : visitor.level limit path document body =
      body visitor.empty >>= fun out => visitor.finish path out document := by
  unfold level
  rw [if_neg (by omega)]

/-- The faults of the fields of an object come before those of its end. -/
theorem level_eq_failFast {path : Path} {document : Option Members} {body : Out → Except Fault Out}
    {out result : Out} {first second : List Fault} (shallow : path.depth < limit)
    (walks : body visitor.empty = failFast first out)
    (ends : visitor.finish path out document = failFast second result) :
    visitor.level limit path document body = failFast (first ++ second) result := by
  rw [level_eq shallow, walks]
  exact failFast_bind fun _ => ends

theorem visit_object {map : FieldMap} {members : Members} {out result : Out}
    {first second : List Fault} (shallow : 0 < limit)
    (walks : visitor.walkFields limit .root (some members) visitor.empty map = failFast first out)
    (ends : visitor.finish .root out (some members) = failFast second result) :
    visitor.visit limit map (some (.object members)) = failFast (first ++ second) result := by
  rw [visit, walk]
  exact level_eq_failFast shallow walks ends

theorem level_eq_ok_iff {path : Path} {document : Option Members} {body : Out → Except Fault Out}
    {result : Out} : visitor.level limit path document body = .ok result ↔
      path.depth < limit ∧ ∃ out, body visitor.empty = .ok out ∧
        visitor.finish path out document = .ok result := by
  by_cases shallow : path.depth < limit
  · rw [level_eq shallow, bind_eq_ok_iff]
    simp [shallow]
  · unfold level
    rw [if_pos (by omega)]
    simp [shallow, throw, throwThe, MonadExceptOf.throw, bind, Except.bind]

theorem walkField_of_walkFields {path : Path} {out result : Out} {fields : FieldMap}
    (complete : visitor.walkFields limit path none out fields = .ok result) {name : String}
    {field : Field} (member : (name, field) ∈ fields) :
    ∃ before after, visitor.walkField limit path name before none field = .ok after := by
  induction fields generalizing out with
  | nil => cases member
  | cons entry rest ih =>
    rw [walkFields] at complete
    obtain ⟨next, first, others⟩ := bind_eq_ok_iff.mp complete
    rcases List.mem_cons.mp member with same | member
    · cases same
      exact ⟨out, next, first⟩
    · exact ih others member

/-- Without a document every object of the map is walked, so the guard let all of them pass. -/
theorem fits_of_level (fields : FieldMap) {path : Path} {result : Out}
    (complete : visitor.level limit path none
      (fun out => visitor.walkFields limit path none out fields) = .ok result) :
    fields.Fits limit path.depth := by
  induction fields using FieldMap.induction generalizing path result with
  | step fields ih =>
    obtain ⟨shallow, out, walked, -⟩ := level_eq_ok_iff.mp complete
    refine FieldMap.everywhere_iff.mpr ⟨shallow, fun name inner traits member => ?_⟩
    obtain ⟨before, after, walked⟩ := walkField_of_walkFields walked member
    obtain ⟨child, below, -⟩ := bind_eq_ok_iff.mp walked
    rw [← Path.depth_child]
    exact ih name inner traits member below

/-- What is gathered of the value of an object field. -/
def gathered (isArray : Bool) (gather : Members → Out) (value : Json) : Children Out :=
  let one (item : Json) : Out := gather (item.object?.getD [])
  if isArray then .many ((value.array?.getD []).map one) else .single (one value)

theorem walkField_object {path : Path} {name : String} {out : Out} {value : Json}
    {fields : FieldMap} {traits : Traits} {wrap : Children Out → Out}
    (inner : Path → Members → List Fault) (gather : Members → Out)
    (walks : ∀ here members, Place.Holds ⟨name, path, .object fields traits⟩ value here members →
      visitor.level limit here (some members)
          (fun out => visitor.walkFields limit here (some members) out fields) =
        failFast (inner here members) (gather members))
    (wraps : ∀ children,
      visitor.onObject ⟨name, path, .object fields traits⟩ out children = .ok (wrap children)) :
    visitor.walkField limit path name out (some value) (.object fields traits) =
      failFast (Place.objectFaults ⟨name, path, .object fields traits⟩ inner value)
        (wrap (gathered traits.isArray gather value)) := by
  unfold walkField Place.objectFaults
  simp only [ofExcept_eq, wraps]
  cases isArray : traits.isArray with
  | true =>
    simp only [if_true, Field.isArray, Field.traits, isArray]
    refine orFault_bind fun items read => ?_
    cases Place.elements_eq_ok read
    have each : ∀ entry ∈ items.zipIdx, (do
        let members ← Place.members ⟨name, path, .object fields traits⟩ entry.1
        visitor.level limit ((path.child name).element entry.2) (some members) fun out =>
          visitor.walkFields limit ((path.child name).element entry.2) (some members) out fields) =
        failFast (orFault (Place.members ⟨name, path, .object fields traits⟩ entry.1)
          (inner ((path.child name).element entry.2))) (gather (entry.1.object?.getD [])) := by
      rintro ⟨item, i⟩ member
      refine orFault_bind fun members read => ?_
      rw [walks _ _ (Place.element_holds isArray member read), Place.members_eq_ok read]
      rfl
    have values : (items.zipIdx.map fun entry => gather (entry.1.object?.getD [])) =
        items.map fun item => gather (item.object?.getD []) := by
      conv_rhs => rw [← List.zipIdx_map_fst 0 items, List.map_map]
      rfl
    rw [mapM_eq_failFast _ each, failFast_bind_ok, values]
    rfl
  | false =>
    simp only [Field.isArray, Field.traits, isArray]
    refine orFault_bind fun members read => ?_
    rw [walks _ _ (Place.single_holds isArray read), failFast_bind_ok, Place.members_eq_ok read]
    rfl

theorem walkField_primitive {path : Path} {name : String} {out result : Out} {value : Json}
    {type : Primitive} {traits : Traits} {each : Json → List Fault} (kind : Kind)
    (maps : visitor.mapType type = .ok kind)
    (visits : ∀ found, Place.found ⟨name, path, .primitive type traits⟩ value = .ok found →
      visitor.onPrimitive ⟨name, path, .primitive type traits⟩ out kind (some found) =
        failFast (found.values.flatMap each) result) :
    visitor.walkField limit path name out (some value) (.primitive type traits) =
      failFast (Place.valueFaults ⟨name, path, .primitive type traits⟩ each value) result := by
  unfold walkField Place.valueFaults
  rw [maps]
  simp only [ofExcept_eq]
  exact orFault_bind visits

/-- A visitor that appends something for each field that is there. -/
theorem walkFields_append {β : Type} {visitor : Visitor (Except Fault) (List β) Kind}
    {audit : Audit} {path : Path} {members : Members} (added : String → Field → Json → List β)
    (fields : FieldMap) (out : List β)
    (walks : ∀ name field value out, (name, field) ∈ fields → members.lookup name = some value →
      visitor.walkField limit path name out (some value) field =
        failFast (audit.field path name value field) (out ++ added name field value)) :
    visitor.walkFields limit path (some members) out fields =
      failFast (audit.fields path members fields) (out ++ fields.flatMap fun entry =>
        (members.lookup entry.1).elim [] (added entry.1 entry.2)) := by
  induction fields generalizing out with
  | nil => rw [walkFields, Audit.fields, List.flatMap_nil, List.append_nil]; rfl
  | cons entry rest ih =>
    obtain ⟨name, field⟩ := entry
    have others := fun out => ih out fun name field value out member =>
      walks name field value out (List.mem_cons_of_mem _ member)
    rw [walkFields, Audit.fields, List.flatMap_cons]
    cases found : members.lookup name with
    | some value =>
      dsimp only
      rw [walks name field value out (List.mem_cons_self ..) found, Option.elim_some,
        ← List.append_assoc]
      exact failFast_bind fun _ => others _
    | none =>
      dsimp only
      rw [Option.elim_none, List.nil_append]
      cases field.required with
      | true => rfl
      | false => exact others out

end FieldSchema.Visitor
