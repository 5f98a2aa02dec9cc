import FieldSchema.Proofs.Merging

/-! Patches of objects, member by member. What a patch makes of one name depends on what the two
sides have under that name alone. -/
namespace FieldSchema

namespace Json

mutual

/-- The value without the nulls in it, at any depth. -/
def withoutNulls : Json → Json
  | .array items => .array (itemsWithoutNulls items)
  | .object members => .object (membersWithoutNulls members)
  | scalar => scalar

def itemsWithoutNulls : List Json → List Json
  | [] => []
  | item :: rest =>
    if item.isNull then itemsWithoutNulls rest else withoutNulls item :: itemsWithoutNulls rest

def membersWithoutNulls : Members → Members
  | [] => []
  | (name, value) :: rest =>
    if value.isNull then membersWithoutNulls rest
    else (name, withoutNulls value) :: membersWithoutNulls rest

end

/-- The members of an object; of anything else, and of nothing, there are none. -/
def membersOf (value : Option Json) : Members := (value.bind object?).getD []

theorem holds_membersOf {P : Json → Prop} (empty : P (.object [])) {target : Option Json}
    (all : ∀ value ∈ target, P value) : P (.object (membersOf target)) := by
  cases target with
  | none => exact empty
  | some value =>
    cases value with
    | object members => exact all _ rfl
    | null | bool | number | string | array => exact empty

end Json

namespace Patch

mutual

/-- Where there is nothing, a value is put without its nulls. -/
theorem materialize_ofValue : (value : Json) →
    (ofValue value).materialize = if value.isNull then none else some value.withoutNulls
  | .null => rfl
  | .bool _ => rfl
  | .number _ => rfl
  | .string _ => rfl
  | .array items => by
    rw [ofValue, materialize, if_pos rfl, materialize_ofItems 0 items]
    rfl
  | .object members => by
    rw [ofValue, materialize, if_neg Bool.false_ne_true, materialize_ofMembers members]
    rfl

theorem materialize_ofItems (i : Nat) : (items : List Json) →
    (materializeEntries (ofItems i items)).map Prod.snd = Json.itemsWithoutNulls items
  | [] => rfl
  | item :: rest => by
    rw [ofItems, materializeEntries, List.map_append, materialize_ofItems (i + 1) rest,
      materialize_ofValue item, Json.itemsWithoutNulls]
    cases item.isNull <;> rfl

theorem materialize_ofMembers : (members : Members) →
    materializeEntries (ofMembers members) = Json.membersWithoutNulls members
  | [] => rfl
  | (name, value) :: rest => by
    rw [ofMembers, materializeEntries, materialize_ofMembers rest, materialize_ofValue value,
      Json.membersWithoutNulls]
    cases value.isNull <;> rfl

end

theorem ofMembers_eq_map (members : Members) :
    ofMembers members = members.map fun (name, value) => (name, ofValue value) := by
  induction members with
  | nil => rfl
  | cons entry rest ih => rw [ofMembers, ih, List.map_cons]

theorem materializeEntries_eq_filterMap (entries : List (String × Patch)) :
    materializeEntries entries =
      entries.filterMap fun (name, patch) => patch.materialize.map (name, ·) := by
  induction entries with
  | nil => rfl
  | cons entry rest ih =>
    obtain ⟨name, patch⟩ := entry
    rw [materializeEntries, ih, List.filterMap_cons]
    dsimp only
    cases patch.materialize <;> rfl

/-- A patch that is kept changes nothing. -/
theorem apply_keep (value : Json) : apply .keep value = some value := by
  cases value <;> rfl

/-- The members of an object, each under the patch of its name. -/
def changedMembers (entries : List (String × Patch)) (members : Members) : Members :=
  members.filterMap fun (name, value) => (apply (patchAt entries name) value).map (name, ·)

/-- The members that a patch adds to an object. -/
def newMembers (entries : List (String × Patch)) (members : Members) : Members :=
  materializeEntries (entries.filter fun (name, _) => !Entries.has name members)

theorem lookup_memberChanges (name : String) (members : Members) :
    (memberChanges members).lookup name =
      (members.lookup name).map fun value patch => apply patch value := by
  have each : memberChanges members =
      members.map fun (name, value) => (name, fun patch => apply patch value) := by
    induction members with
    | nil => rfl
    | cons entry rest ih => rw [memberChanges, ih, List.map_cons]
  rw [each]
  exact Entries.lookup_mapValues name (fun _ value patch => apply patch value) members

/-- Objects merge member by member. -/
theorem mergeEntries_memberChanges {entries : List (String × Patch)} {members : Members}
    (distinct : Entries.Distinct members) (patches : Entries.Distinct entries) :
    mergeEntries (Entries.names members) (fun name => (memberChanges members).lookup name) entries =
      changedMembers entries members ++ newMembers entries members := by
  have first : ((Entries.names members).filterMap fun name =>
      (changed ((memberChanges members).lookup name) (patchAt entries name)).map (name, ·)) =
      changedMembers entries members := by
    rw [Entries.names, List.filterMap_map]
    refine List.filterMap_congr fun entry member => ?_
    dsimp only [Function.comp_apply]
    rw [lookup_memberChanges, (Entries.lookup_eq_some_iff distinct).mpr member]
    rfl
  have others : (entries.filter fun (name, _) => !(Entries.names members).contains name) =
      entries.filter fun (name, _) => !Entries.has name members := by
    refine List.filter_congr fun entry _ => ?_
    rw [Bool.eq_iff_iff, Bool.not_eq_true', Bool.not_eq_true', ← Bool.not_eq_true,
      ← Bool.not_eq_true, List.contains_iff_mem, Entries.mem_names_iff]
  have second : ((entries.filter fun (name, _) => !Entries.has name members).filterMap
      fun (name, patch) => (changed ((memberChanges members).lookup name) patch).map (name, ·)) =
      newMembers entries members := by
    rw [newMembers, materializeEntries_eq_filterMap]
    refine List.filterMap_congr fun entry member => ?_
    have absent := (List.mem_filter.mp member).2
    dsimp only at absent ⊢
    rw [Entries.has, Bool.not_eq_true', Option.isSome_eq_false_iff, Option.isNone_iff_eq_none] at absent
    rw [lookup_memberChanges, absent]
    rfl
  rw [mergeEntries_eq distinct patches, first, others, second]

/-- The members of one object laid over those of another. -/
def laidMembers (lower upper : Members) : Members :=
  mergeEntries (Entries.names lower) (fun name => (memberChanges lower).lookup name) (ofMembers upper)

theorem distinct_ofMembers {members : Members} (distinct : Entries.Distinct members) :
    Entries.Distinct (ofMembers members) := by
  rw [ofMembers_eq_map]
  exact distinct.mapValues fun _ => ofValue

theorem laidMembers_eq {lower upper : Members} (distinct : Entries.Distinct lower)
    (distinctOver : Entries.Distinct upper) : laidMembers lower upper =
      changedMembers (ofMembers upper) lower ++ newMembers (ofMembers upper) lower :=
  mergeEntries_memberChanges distinct (distinct_ofMembers distinctOver)

/-- What is laid over a value or over nothing. A null deletes. -/
def laid : Option Json → Option Json → Option Json
  | some lower, some upper => apply (ofValue upper) lower
  | some lower, none => some lower
  | none, some upper => (ofValue upper).materialize
  | none, none => none

theorem apply_object (lower upper : Members) :
    apply (ofValue (.object upper)) (.object lower) = some (.object (laidMembers lower upper)) := by
  rw [ofValue, apply]
  rfl

/-- Only a null deletes what it is laid over. -/
theorem apply_ofValue {upper : Json} (declared : upper.isNull = false) (lower : Json) :
    apply (ofValue upper) lower = some (lower.overlaid upper) := by
  have same : ofOverlay upper = ofValue upper := by cases upper <;> first | rfl | cases declared
  rw [Json.overlaid, same]
  cases upper with
  | null => cases declared
  | bool | number | string => cases lower <;> rfl
  | array items => cases lower <;> simp [ofValue, apply, materialize]
  | object members => cases lower <;> simp [ofValue, apply, materialize]

theorem overlaid_object (lower upper : Members) :
    (Json.object lower).overlaid (.object upper) = .object (laidMembers lower upper) :=
  Option.some.inj ((apply_ofValue rfl _).symm.trans (apply_object _ _))

theorem laid_null (lower : Option Json) : laid lower (some .null) = none := by
  cases lower with
  | none => rfl
  | some value => cases value <;> rfl

theorem laid_none (lower : Option Json) : laid lower none = lower := by
  cases lower <;> rfl

theorem none_laid {upper : Json} (declared : upper.isNull = false) :
    laid none (some upper) = some upper.withoutNulls := by
  rw [laid, materialize_ofValue, declared, if_neg Bool.false_ne_true]

/-- What is neither an array nor an object is replaced. -/
theorem laid_scalar {value : Json} (noArray : value.array? = none) (noObject : value.object? = none)
    (upper : Json) : laid (some value) (some upper) = laid none (some upper) := by
  cases value with
  | array items => cases noArray
  | object members => cases noObject
  | null | bool | number | string => cases upper <;> rfl

/-- What is neither null, nor an array, nor an object replaces all. -/
theorem laid_of_scalar {value : Json} (noArray : value.array? = none) (noObject : value.object? = none)
    (declared : value.isNull = false) (lower : Option Json) :
    laid lower (some value) = some value := by
  cases value with
  | null => cases declared
  | array items => cases noArray
  | object members => cases noObject
  | bool | number | string =>
    cases lower with
    | none => rfl
    | some lower => cases lower <;> rfl

theorem lookup_ofMembers (name : String) (members : Members) :
    (ofMembers members).lookup name = (members.lookup name).map ofValue := by
  rw [ofMembers_eq_map]
  exact Entries.lookup_mapValues name (fun _ => ofValue) members

theorem laidMembers_nil {lower : Members} (distinct : Entries.Distinct lower) :
    laidMembers lower [] = lower := by
  have kept : ∀ name, patchAt [] name = .keep := fun name => rfl
  rw [laidMembers_eq distinct .nil, ofMembers, newMembers, changedMembers]
  simp [kept, apply_keep, materializeEntries]

theorem nil_laidMembers {upper : Members} (distinctOver : Entries.Distinct upper) :
    laidMembers [] upper = Json.membersWithoutNulls upper := by
  have all : ∀ entries : List (String × Patch),
      (entries.filter fun (name, _) => !Entries.has name ([] : Members)) = entries :=
    fun entries => List.filter_eq_self.mpr fun _ _ => rfl
  rw [laidMembers_eq .nil distinctOver, newMembers, all, materialize_ofMembers]
  rfl

theorem laid_object {target : Option Json} (noArray : ∀ items, target ≠ some (.array items))
    {upper : Members} (distinctOver : Entries.Distinct upper) :
    laid target (some (.object upper)) =
      some (.object (laidMembers (Json.membersOf target) upper)) := by
  have alone : laid none (some (.object upper)) = some (.object (laidMembers [] upper)) := by
    rw [none_laid rfl, nil_laidMembers distinctOver, Json.withoutNulls]
  cases target with
  | none => exact alone
  | some value =>
    cases value with
    | object lower => exact apply_object lower upper
    | array items => exact absurd rfl (noArray items)
    | null | bool | number | string => exact (laid_scalar rfl rfl _).trans alone

/-- What becomes of a name depends on what the two sides have under it. -/
theorem lookup_laidMembers {lower upper : Members} (distinct : Entries.Distinct lower)
    (distinctOver : Entries.Distinct upper) (name : String) :
    (laidMembers lower upper).lookup name = laid (lower.lookup name) (upper.lookup name) := by
  have patches := distinct_ofMembers distinctOver
  have changed : (changedMembers (ofMembers upper) lower).lookup name =
      (lower.lookup name).bind (apply (patchAt (ofMembers upper) name)) :=
    Entries.lookup_filterMapValues distinct fun name => apply (patchAt (ofMembers upper) name)
  have added : (newMembers (ofMembers upper) lower).lookup name =
      if Entries.has name lower then none
      else ((upper.lookup name).map ofValue).bind materialize := by
    rw [newMembers, materializeEntries_eq_filterMap,
      Entries.lookup_filterMapValues (patches.filter _) fun _ => materialize,
      Entries.lookup_filterNames name (fun name => !Entries.has name lower), lookup_ofMembers]
    cases Entries.has name lower <;> rfl
  rw [laidMembers_eq distinct distinctOver, List.lookup_append, changed, added, patchAt,
    lookup_ofMembers, Entries.has]
  cases lower.lookup name with
  | none => cases upper.lookup name <;> rfl
  | some present =>
    cases upper.lookup name with
    | none => simp [laid, apply_keep]
    | some value => simp [laid]

/-- Whether laying `upper` over an object takes `name` away. -/
def deletes (upper : Members) (name : String) : Bool := (upper.lookup name).any Json.isNull

/-- Nothing is left exactly where a null is laid. -/
theorem isSome_laid (lower : Option Json) (upper : Json) :
    (laid lower (some upper)).isSome = !upper.isNull := by
  cases isNull : upper.isNull with
  | true =>
    cases upper <;> cases isNull
    rw [laid_null]
    rfl
  | false =>
    cases lower with
    | none => rw [none_laid isNull]; rfl
    | some lower => rw [laid, apply_ofValue isNull]; rfl

/-- The names of the lower object come first, then the new ones of the upper, and those that are
deleted are left out. -/
theorem names_laidMembers {lower upper : Members} (distinct : Entries.Distinct lower)
    (distinctOver : Entries.Distinct upper) :
    Entries.names (laidMembers lower upper) =
      (Entries.names lower ++ (Entries.names upper).filter fun name => !Entries.has name lower).filter
        fun name => !deletes upper name := by
  have changed : Entries.names (changedMembers (ofMembers upper) lower) =
      (Entries.names lower).filter fun name => !deletes upper name := by
    refine Entries.names_filterMapValues (fun name => apply (patchAt (ofMembers upper) name))
      fun name value _ => ?_
    rw [deletes, patchAt, lookup_ofMembers]
    cases upper.lookup name with
    | none => exact congrArg Option.isSome (apply_keep value)
    | some upper => exact isSome_laid (some value) upper
  have added : Entries.names (newMembers (ofMembers upper) lower) =
      ((Entries.names upper).filter fun name => !Entries.has name lower).filter
        fun name => !deletes upper name := by
    have fresh : Entries.names ((ofMembers upper).filter fun (name, _) => !Entries.has name lower) =
        (Entries.names upper).filter fun name => !Entries.has name lower := by
      rw [Entries.names_filterNames (fun name => !Entries.has name lower), ofMembers_eq_map]
      simp [Entries.names, Function.comp_def]
    rw [newMembers, materializeEntries_eq_filterMap, ← fresh]
    refine Entries.names_filterMapValues (fun _ => materialize) fun name patch member => ?_
    have inUpper := List.mem_of_mem_filter member
    rw [ofMembers_eq_map, List.mem_map] at inUpper
    obtain ⟨⟨_, value⟩, declared, same⟩ := inUpper
    cases same
    rw [deletes, (Entries.lookup_eq_some_iff distinctOver).mpr declared]
    exact isSome_laid none value
  rw [laidMembers_eq distinct distinctOver, Entries.names, List.map_append, List.filter_append]
  exact congrArg₂ _ changed added

theorem distinct_laidMembers {lower upper : Members} (distinct : Entries.Distinct lower)
    (distinctOver : Entries.Distinct upper) : Entries.Distinct (laidMembers lower upper) := by
  rw [Entries.Distinct, names_laidMembers distinct distinctOver]
  refine List.Nodup.filter _ (List.nodup_append.mpr ⟨distinct, List.Nodup.filter _ distinctOver, ?_⟩)
  intro name inLower other inUpper same
  subst same
  have fresh := (List.mem_filter.mp inUpper).2
  rw [Entries.mem_names_iff.mp inLower] at fresh
  cases fresh

end Patch

end FieldSchema
