import FieldSchema.Proofs.Descent
import FieldSchema.Proofs.Flattening
import Mathlib.Data.List.Dedup

/-! Which declarations flattening keeps. The fields of a collection are inserted one after the other,
so that the last declaration of each name is left, where it stands among the last ones; the same
holds in every object. The policy for names that are declared again only decides whether there is a
map, and it looks at all collections, those of declarations that are not kept as well. -/
namespace FieldSchema

namespace Entries

variable {α : Type} {entries : List (String × α)}

/-- The entries that no later one of the same name replaces, in their order. -/
def lasting : List (String × α) → List (String × α)
  | [] => []
  | (name, value) :: rest =>
    if name ∈ names rest then lasting rest else (name, value) :: lasting rest

theorem names_lasting (entries : List (String × α)) :
    names (lasting entries) = (names entries).dedup := by
  induction entries with
  | nil => rfl
  | cons entry rest ih =>
    obtain ⟨name, value⟩ := entry
    rw [lasting]
    simp only [names, List.map_cons] at ih ⊢
    split
    · next again => rw [List.dedup_cons_of_mem again, ih]
    · next last => rw [List.dedup_cons_of_notMem last, List.map_cons, ih]

theorem lasting_of_distinct (distinct : Distinct entries) : lasting entries = entries := by
  induction entries with
  | nil => rfl
  | cons entry rest ih =>
    obtain ⟨absent, tail⟩ := List.nodup_cons.mp distinct
    rw [lasting, if_neg absent, ih tail]

/-- An entry makes no difference before a later one of its name. -/
theorem lasting_erase (name : String) (value : α) (before after : List (String × α)) :
    lasting (erase name before ++ (name, value) :: after) =
      lasting (before ++ (name, value) :: after) := by
  induction before with
  | nil => rfl
  | cons entry rest ih =>
    obtain ⟨other, first⟩ := entry
    rw [List.cons_append, lasting]
    by_cases same : other = name
    · subst same
      have again : other ∈ names (rest ++ (other, value) :: after) := by simp
      have gone : erase other ((other, first) :: rest) = erase other rest := by simp [erase]
      rw [if_pos again, gone, ih]
    · have stays : erase name ((other, first) :: rest) = (other, first) :: erase name rest := by
        simp [erase, same]
      have alike : other ∈ names (erase name rest ++ (name, value) :: after) ↔
          other ∈ names (rest ++ (name, value) :: after) := by
        simp [erase, same]
      rw [stays, List.cons_append, lasting, ih]
      simp only [alike]

end Entries

/-- Fields that are inserted one after the other: of those with one name the last is left. -/
theorem FieldMap.foldl_insert {map : FieldMap} (distinct : Entries.Distinct map)
    (fields : List (String × Field)) :
    fields.foldl (fun map entry => map.insert entry.1 entry.2) map =
      Entries.lasting (map ++ fields) := by
  induction fields generalizing map with
  | nil => rw [List.append_nil, Entries.lasting_of_distinct distinct, List.foldl_nil]
  | cons entry rest ih =>
    obtain ⟨name, field⟩ := entry
    rw [List.foldl_cons, ih (FieldMap.distinct_insert distinct name field),
      FieldMap.insert_eq distinct, List.append_assoc, List.singleton_append, Entries.lasting_erase]

namespace Collection

theorem mem_items_iff {collection : Collection} {item : Item} : item ∈ items collection ↔
    ∃ half ∈ collection, ∃ group ∈ half.groups, item ∈ itemsOfGroup half.required group := by
  simp only [items, itemsOfGroups, List.mem_flatMap]

/-- A declaration is smaller than the collection that it stands in. -/
theorem sizeOf_item_lt {collection : Collection} {item : Item} (member : item ∈ items collection) :
    sizeOf item < sizeOf collection := by
  obtain ⟨⟨required, groups⟩, inCollection, group, inGroups, inGroup⟩ := mem_items_iff.mp member
  have ofHalf := List.sizeOf_lt_of_mem inCollection
  have ofGroup := List.sizeOf_lt_of_mem inGroups
  simp only [Half.mk.sizeOf_spec] at ofHalf
  cases group with
  | primitive type fields =>
    obtain ⟨declared, inFields, rfl⟩ := List.mem_map.mp inGroup
    have ofField := List.sizeOf_lt_of_mem inFields
    simp only [Group.primitive.sizeOf_spec] at ofGroup
    simp only [Item.primitive.sizeOf_spec]
    omega
  | object fields =>
    obtain ⟨⟨declared, inner⟩, inFields, rfl⟩ := List.mem_map.mp inGroup
    have ofField := List.sizeOf_lt_of_mem inFields
    simp only [Group.object.sizeOf_spec] at ofGroup
    simp only [Prod.mk.sizeOf_spec] at ofField
    simp only [Item.object.sizeOf_spec]
    omega

/-- The field that a declaration stands for if the last of each name counts, in it as well. -/
def Item.lastField : Item → Field
  | .primitive required type declared => .primitive type (traitsOf required declared)
  | .object required declared inner =>
    .object (Entries.lasting ((items inner).attach.map fun item => (item.1.name, item.1.lastField)))
      (traitsOf required declared)
termination_by item => sizeOf item
decreasing_by
  have := sizeOf_item_lt item.2
  simp only [Item.object.sizeOf_spec]
  omega

/-- One field for each name that is declared, from its last declaration, in the order of these. -/
def lastFields (collection : Collection) : FieldMap :=
  Entries.lasting ((items collection).map fun item => (item.name, item.lastField))

theorem lastField_object (required : Bool) (declared : Declared) (inner : Collection) :
    (Item.object required declared inner).lastField =
      .object (lastFields inner) (traitsOf required declared) := by
  rw [Item.lastField, lastFields]
  conv_rhs => rw [← List.attach_map_subtype_val (items inner), List.map_map]
  rfl

/-- The collection of an object that is declared by the given name. -/
def Holds (collection : Collection) (name : String) (inner : Collection) : Prop :=
  ∃ required declared, declared.name = name ∧ .object required declared inner ∈ items collection

/-- A collection is larger than those of the objects that it declares. -/
theorem induction {motive : Collection → Prop}
    (step : ∀ collection, (∀ name inner, Holds collection name inner → motive inner) →
      motive collection) (collection : Collection) : motive collection :=
  step collection fun _ inner _ => induction step inner
termination_by sizeOf collection
decreasing_by
  rename_i held
  obtain ⟨required, declared, -, member⟩ := held
  have smaller := sizeOf_item_lt member
  simp only [Item.object.sizeOf_spec] at smaller
  omega

/-- What flattening asks of a collection at its depth: the guard lets it pass, each reference is to
a number among the fields that last, and no name is declared twice where that is refused. -/
structure Admitted (settings : Settings) (depth : Nat) (collection : Collection) : Prop where
  shallow : depth < settings.maxDepth
  resolved : (lastFields collection).Resolved
  once : settings.duplicates = .reject → ((items collection).map Item.name).Nodup

section

variable {settings : Settings} {path : Path}

theorem addField_of_lastWins (replaces : settings.duplicates = .lastWins) (map : FieldMap)
    (name : String) (field : Field) :
    addField quiet settings path map name field = .ok (map.insert name field) := by
  unfold addField
  cases map.get? name with
  | none => rfl
  | some earlier => rw [replaces]; rfl

theorem foldlM_addItem_of_lastWins (replaces : settings.duplicates = .lastWins)
    {items : List Item} {map grown : FieldMap} :
    items.foldlM (addItem settings path) map = .ok grown ↔ ∃ fields : List (String × Field),
      items.mapM (fun item => (item.field settings path).map (item.name, ·)) = .ok fields ∧
        grown = fields.foldl (fun map entry => map.insert entry.1 entry.2) map := by
  induction items generalizing map with
  | nil => simp [pure, Except.pure, @eq_comm _ grown]
  | cons item rest ih =>
    rw [List.foldlM_cons, List.mapM_cons]
    simp only [bind_eq_ok_iff, addItem, map_eq_ok_iff, addField_of_lastWins replaces,
      Except.ok.injEq, ih]
    constructor
    · rintro ⟨_, ⟨field, made, rfl⟩, fields, all, rfl⟩
      exact ⟨_, ⟨_, ⟨field, made, rfl⟩, fields, all, rfl⟩, rfl⟩
    · rintro ⟨_, ⟨_, ⟨field, made, rfl⟩, fields, all, same⟩, rfl⟩
      cases same
      exact ⟨_, ⟨field, made, rfl⟩, fields, all, rfl⟩

/-- What is added to an empty map are the fields that last, under either policy. -/
theorem foldlM_addItem_empty {items : List Item} {map : FieldMap} :
    items.foldlM (addItem settings path) .empty = .ok map ↔ ∃ fields : List (String × Field),
      items.mapM (fun item => (item.field settings path).map (item.name, ·)) = .ok fields ∧
        map = Entries.lasting fields ∧
          (settings.duplicates = .reject → Entries.Distinct fields) := by
  have empty : Entries.Distinct FieldMap.empty := List.nodup_nil
  cases policy : settings.duplicates with
  | reject =>
    rw [foldlM_addItem_eq_ok_iff policy empty]
    refine exists_congr fun fields => and_congr_right fun _ => ?_
    constructor
    · rintro ⟨rfl, distinct⟩
      exact ⟨(Entries.lasting_of_distinct distinct).symm, fun _ => distinct⟩
    · rintro ⟨rfl, distinct⟩
      rw [Entries.lasting_of_distinct (distinct rfl)]
      exact ⟨rfl, distinct rfl⟩
  | lastWins =>
    rw [foldlM_addItem_of_lastWins policy]
    refine exists_congr fun fields => and_congr_right fun _ => ?_
    rw [FieldMap.foldl_insert empty]
    simp [FieldMap.empty]

theorem names_declared (collection : Collection) :
    Entries.names ((items collection).map fun item => (item.name, item.lastField)) =
      (items collection).map Item.name := by
  simp [Entries.names, Function.comp_def]

/-- Every name that is declared is there once, where its last declaration is. -/
theorem names_lastFields (collection : Collection) :
    Entries.names (lastFields collection) = ((items collection).map Item.name).dedup := by
  rw [lastFields, Entries.names_lasting, names_declared]

/-- Flattening keeps the last declaration of each name, and succeeds exactly if each collection in
the one that is flattened is admitted, be it in a declaration that is kept or not. -/
theorem flattenLevel_eq_ok_iff (collection : Collection) {map : FieldMap} :
    flattenLevel settings path (fun done => addHalves quiet settings path done collection) =
      .ok map ↔
        map = lastFields collection ∧
          AtEachLevel Holds (Admitted settings) path.depth collection := by
  induction collection using Collection.induction generalizing path map with
  | step collection ih =>
    have each : ∀ item ∈ items collection, ∀ entry,
        (item.field settings path).map (item.name, ·) = .ok entry ↔
          entry = (item.name, item.lastField) ∧ ∀ required declared inner,
            item = .object required declared inner → AtEachLevel Holds (Admitted settings)
              (path.depth + Path.depth [.member item.name]) inner := by
      intro item member entry
      cases item with
      | primitive required type declared =>
        simp [Item.field, Item.lastField, Except.map, @eq_comm _ entry]
      | object required declared inner =>
        have nested := @ih declared.name inner ⟨required, declared, rfl, member⟩
        simp only [Item.field, map_eq_ok_iff, bind_eq_ok_iff, nested, lastField_object,
          Path.depth_child]
        constructor
        · rintro ⟨_, ⟨_, ⟨rfl, below⟩, same⟩, rfl⟩
          cases same
          exact ⟨rfl, fun _ _ _ same => by cases same; exact below⟩
        · rintro ⟨rfl, below⟩
          exact ⟨_, ⟨_, ⟨rfl, below _ _ _ rfl⟩, rfl⟩, rfl⟩
    have names := names_declared collection
    rw [flattenLevel_eq_level, Field.level_eq_ok_iff, addHalves_eq_foldlM, foldlM_addItem_empty,
      atEachLevel_iff]
    simp only [mapM_eq_ok_iff_map each]
    constructor
    · rintro ⟨shallow, ⟨_, ⟨rfl, below⟩, rfl, once⟩, resolved⟩
      refine ⟨rfl, ⟨shallow, resolved, fun refused => names ▸ once refused⟩, ?_⟩
      rintro _ inner ⟨required, declared, rfl, member⟩
      exact below _ member required declared inner rfl
    · rintro ⟨rfl, ⟨shallow, resolved, once⟩, below⟩
      refine ⟨shallow, ⟨_, ⟨rfl, ?_⟩, rfl, fun refused => ?_⟩, resolved⟩
      · rintro _ member required declared inner rfl
        exact below _ inner ⟨required, declared, rfl, member⟩
      · rw [Entries.Distinct, names]
        exact once refused

theorem flatten_eq_ok_iff {collection : Collection} {map : FieldMap} :
    flatten settings collection = .ok map ↔ map = lastFields collection ∧
      ∀ path inner, Descends Holds collection path inner → Admitted settings path.depth inner := by
  have atRoot : flatten settings collection = .ok map ↔
      map = lastFields collection ∧ AtEachLevel Holds (Admitted settings) 0 collection :=
    @flattenLevel_eq_ok_iff settings .root collection map
  simpa only [AtEachLevel, Nat.zero_add] using atRoot

end

/-- The last declaration of each name says of its field whether it is required, its type, whether it
is an array, and its options, and the fields stand in the order of these declarations. Where names
may not be declared again the map is the same, if there is one, and there is one exactly if no
collection repeats a name, however deep inside the others and whether or not it is kept. -/
theorem flatten_keeps_last_declarations (settings : Settings) (collection : Collection)
    (map : FieldMap) :
    Entries.names (lastFields collection) = ((items collection).map Item.name).dedup ∧
    (flatten { settings with duplicates := .lastWins } collection = .ok map ↔
      map = lastFields collection ∧ ∀ path inner, Descends Holds collection path inner →
        path.depth < settings.maxDepth ∧ (lastFields inner).Resolved) ∧
    (flatten { settings with duplicates := .reject } collection = .ok map ↔
      flatten { settings with duplicates := .lastWins } collection = .ok map ∧
        ∀ path inner, Descends Holds collection path inner →
          ((items inner).map Item.name).Nodup) := by
  have lastWins : flatten { settings with duplicates := .lastWins } collection = .ok map ↔
      map = lastFields collection ∧ ∀ path inner, Descends Holds collection path inner →
        path.depth < settings.maxDepth ∧ (lastFields inner).Resolved := by
    rw [flatten_eq_ok_iff]
    refine and_congr_right fun _ => forall₃_congr fun path inner _ => ?_
    constructor
    · rintro ⟨shallow, resolved, -⟩
      exact ⟨shallow, resolved⟩
    · rintro ⟨shallow, resolved⟩
      exact ⟨shallow, resolved, fun refused => by cases refused⟩
  refine ⟨names_lastFields collection, lastWins, ?_⟩
  rw [lastWins, flatten_eq_ok_iff, and_assoc]
  refine and_congr_right fun _ => ?_
  constructor
  · intro admitted
    refine ⟨fun path inner descends => ?_, fun path inner descends => ?_⟩
    · exact ⟨(admitted path inner descends).shallow, (admitted path inner descends).resolved⟩
    · exact (admitted path inner descends).once rfl
  · rintro ⟨passed, once⟩ path inner descends
    obtain ⟨shallow, resolved⟩ := passed path inner descends
    exact ⟨shallow, resolved, fun _ => once path inner descends⟩

/-- A name that is declared again, in a collection that is not kept: only the other policy has a
map, with `a` behind `b`. -/
example :
    let field (name : String) (isArray : Bool) : Declared := ⟨name, isArray, .empty⟩
    let twice : Collection := [⟨true, [.primitive .string [field "x" false]]⟩,
      ⟨false, [.primitive .date [field "x" false]]⟩]
    let collection : Collection :=
      [⟨true, [.object [(field "a" false, twice)], .primitive .string [field "b" false]]⟩,
        ⟨false, [.primitive .number [field "a" true]]⟩]
    flatten ⟨32, .lastWins, "_ref_"⟩ collection =
        .ok [("b", .primitive .string ⟨true, false, .empty⟩),
          ("a", .primitive .number ⟨false, true, .empty⟩)] ∧
      flatten ⟨32, .reject, "_ref_"⟩ collection = .error (.malformedSchema (Path.root.child "a")
        (.repeated "x" "required string" "optional date")) := ⟨rfl, rfl⟩

end Collection

end FieldSchema
