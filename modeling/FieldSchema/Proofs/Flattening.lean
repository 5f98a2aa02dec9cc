import FieldSchema.Proofs.Declarations
import FieldSchema.Proofs.Normalization
import FieldSchema.Schema.Source

/-! Flattening as a list of fields. The fields of an object are added one by one, so that each field
of the map comes from a declaration; and where no field may be declared again the map is the list of
the fields that are declared. -/
namespace FieldSchema

namespace Collection

section

variable {settings : Settings}

namespace Item

/-- The field that an item stands for. -/
def field (settings : Settings) (path : Path) : Item → Except Fault Field
  | .primitive required type declared => .ok (.primitive type (traitsOf required declared))
  | .object required declared inner => do
    let fields ← flattenLevel settings (path.child declared.name) fun done =>
      addHalves quiet settings (path.child declared.name) done inner
    return .object fields (traitsOf required declared)

end Item

def addItem (settings : Settings) (path : Path) (map : FieldMap) (item : Item) :
    Except Fault FieldMap := do
  addField quiet settings path map item.name (← item.field settings path)

theorem addObjects_eq_foldlM (path : Path) (required : Bool) (map : FieldMap)
    (fields : List (Declared × Collection)) : addObjects quiet settings path required map fields =
      (itemsOfGroup required (.object fields)).foldlM (addItem settings path) map := by
  induction fields generalizing map with
  | nil => rfl
  | cons field rest ih =>
    obtain ⟨declared, inner⟩ := field
    rw [addObjects, itemsOfGroup, List.map_cons, List.foldlM_cons, addItem, Item.field]
    cases flattenLevel settings (path.child declared.name) fun done =>
      addHalves quiet settings (path.child declared.name) done inner with
    | error => rfl
    | ok fields => exact congrArg _ (funext fun next => ih next)

theorem addGroup_eq_foldlM (path : Path) (required : Bool) (map : FieldMap) (group : Group) :
    addGroup quiet settings path required map group =
      (itemsOfGroup required group).foldlM (addItem settings path) map := by
  cases group with
  | primitive type fields =>
    rw [addGroup, itemsOfGroup, List.foldlM_map]
    rfl
  | object fields => rw [addGroup, addObjects_eq_foldlM]

theorem addGroups_eq_foldlM (path : Path) (required : Bool) (map : FieldMap) (groups : List Group) :
    addGroups quiet settings path required map groups =
      (itemsOfGroups required groups).foldlM (addItem settings path) map := by
  induction groups generalizing map with
  | nil => rfl
  | cons group rest ih =>
    rw [addGroups, addGroup_eq_foldlM, itemsOfGroups, List.flatMap_cons, List.foldlM_append]
    exact congrArg _ (funext fun next => ih next)

/-- Flattening adds the declared fields one by one. -/
theorem addHalves_eq_foldlM (path : Path) (map : FieldMap) (collection : Collection) :
    addHalves quiet settings path map collection =
      (items collection).foldlM (addItem settings path) map := by
  induction collection generalizing map with
  | nil => rfl
  | cons half rest ih =>
    obtain ⟨required, groups⟩ := half
    rw [addHalves, addGroups_eq_foldlM, items, List.flatMap_cons, List.foldlM_append]
    exact congrArg _ (funext fun next => ih next)

/-- A field that was added is one that is declared. -/
theorem mem_foldlM_addItem {path : Path} {items : List Item} {map grown : FieldMap}
    (complete : items.foldlM (addItem settings path) map = .ok grown) {name : String} {field : Field}
    (member : (name, field) ∈ grown) : (name, field) ∈ map ∨
      ∃ item ∈ items, item.name = name ∧ item.field settings path = .ok field := by
  induction items generalizing map with
  | nil =>
    cases complete
    exact .inl member
  | cons item rest ih =>
    rw [List.foldlM_cons] at complete
    obtain ⟨next, first, complete⟩ := bind_eq_ok_iff.mp complete
    obtain ⟨added, made, first⟩ := bind_eq_ok_iff.mp first
    rcases ih complete with old | ⟨other, listed, found⟩
    · rw [addField_eq_ok first] at old
      rcases FieldMap.mem_insert old with old | ⟨rfl, rfl⟩
      · exact .inl old
      · exact .inr ⟨item, List.mem_cons_self .., rfl, made⟩
    · exact .inr ⟨other, List.mem_cons_of_mem _ listed, found⟩

/-- Where no field may be declared again, the names have to be distinct. -/
theorem addField_eq_ok_iff (rejects : settings.duplicates = .reject) {path : Path}
    {map grown : FieldMap} {name : String} {field : Field} :
    addField quiet settings path map name field = .ok grown ↔
      name ∉ Entries.names map ∧ grown = map ++ [(name, field)] := by
  unfold addField
  rw [← Entries.lookup_eq_none_iff]
  change _ ↔ map.get? name = none ∧ _
  cases found : map.get? name with
  | none =>
    have same : map.insert name field = map ++ [(name, field)] :=
      FieldMap.insert_of_absent (Entries.lookup_eq_none_iff.mp found) field
    simp [pure, Except.pure, same, @eq_comm _ grown]
  | some earlier =>
    simp only [rejects, reduceCtorEq, false_and, iff_false]
    intro complete
    cases complete

theorem foldlM_addItem_eq_ok_iff (rejects : settings.duplicates = .reject) {path : Path}
    {items : List Item} {map grown : FieldMap} (distinct : Entries.Distinct map) :
    items.foldlM (addItem settings path) map = .ok grown ↔ ∃ fields : FieldMap,
      items.mapM (fun item => (item.field settings path).map (item.name, ·)) = .ok fields ∧
        grown = map ++ fields ∧ Entries.Distinct grown := by
  induction items generalizing map with
  | nil =>
    simp only [List.foldlM_nil, List.mapM_nil, pure, Except.pure, Except.ok.injEq]
    constructor
    · rintro rfl
      exact ⟨[], rfl, (List.append_nil map).symm, distinct⟩
    · rintro ⟨_, rfl, rfl, -⟩
      exact (List.append_nil map).symm
  | cons item rest ih =>
    rw [List.foldlM_cons, List.mapM_cons]
    simp only [bind_eq_ok_iff, addItem, map_eq_ok_iff, addField_eq_ok_iff rejects]
    constructor
    · rintro ⟨_, ⟨field, made, absent, rfl⟩, complete⟩
      obtain ⟨fields, all, rfl, distinctAll⟩ :=
        (ih (Entries.distinct_concat.mpr ⟨distinct, absent⟩)).mp complete
      refine ⟨(item.name, field) :: fields, ⟨_, ⟨field, made, rfl⟩, fields, all, rfl⟩, ?_,
        distinctAll⟩
      rw [List.append_assoc, List.singleton_append]
    · rintro ⟨_, ⟨_, ⟨field, made, rfl⟩, fields, all, same⟩, rfl, distinctAll⟩
      cases same
      have joined : map ++ (item.name, field) :: fields = map ++ [(item.name, field)] ++ fields := by
        rw [List.append_assoc, List.singleton_append]
      have distinctNext := (Entries.distinct_append.mp (joined ▸ distinctAll)).1
      exact ⟨_, ⟨field, made, (Entries.distinct_concat.mp distinctNext).2, rfl⟩,
        (ih distinctNext).mpr ⟨fields, all, joined, distinctAll⟩⟩

/-- The members of a schema, or of an object in it, declare the fields of `map`; the others are
options of the object. -/
def Compiles (settings : Settings) (path : Path) (nested : Bool) (members others : Members)
    (map : FieldMap) : Prop :=
  ∃ collection, readHalves settings.maxDepth path nested members = .ok (collection, others) ∧
    flattenLevel settings path (fun done => addHalves quiet settings path done collection) = .ok map

end

end Collection

namespace Declaration

open Collection

/-- The field that is declared in the object at `path`. -/
inductive Declares (settings : Settings) (path : Path) (declaration : Declaration) :
    Field → Prop where
  | primitive {type : Primitive} {entries : Members} {draft : Options.Draft} :
    Tag.parse? declaration.tag = some (.primitive type) → declaration.value = .object entries →
    Options.read (some type) entries = .ok draft →
    Declares settings path declaration (.primitive type ⟨declaration.required, draft.2, draft.1⟩)
  | object {members others : Members} {fields : FieldMap} {draft : Options.Draft} :
    Tag.parse? declaration.tag = some .object → declaration.value = .object members →
    Compiles settings (path.child declaration.name) true members others fields →
    Options.read none others = .ok draft →
    Declares settings path declaration (.object fields ⟨declaration.required, draft.2, draft.1⟩)

variable {settings : Settings} {path : Path}

theorem declares_iff {declaration : Declaration} {field : Field} :
    declaration.Declares settings path field ↔
      ∃ item, declaration.read settings.maxDepth path = .ok item ∧
        item.field settings path = .ok field := by
  constructor
  · rintro (⟨known, held, taken⟩ | ⟨known, held, ⟨inner, read, flat⟩, taken⟩)
    · refine ⟨.primitive declaration.required _ (.ofOptions declaration.name _), ?_, rfl⟩
      rw [Declaration.read, known]
      exact map_eq_ok_iff.mpr ⟨_, ofMember_eq_ok_iff.mpr ⟨_, _, held, taken, rfl⟩, rfl⟩
    · have shallow := (Field.level_eq_ok_iff.mp ((flattenLevel_eq_level _).symm.trans flat)).1
      refine ⟨.object declaration.required (.ofOptions declaration.name _) inner, ?_,
        bind_eq_ok_iff.mpr ⟨_, flat, rfl⟩⟩
      rw [Declaration.read, known]
      exact map_eq_ok_iff.mpr
        ⟨_, readObject_eq_ok_iff.mpr ⟨_, _, _, _, held, shallow, read, taken, rfl⟩, rfl⟩
  · rintro ⟨item, read, made⟩
    unfold Declaration.read at read
    split at read
    · cases read
    · next known =>
      obtain ⟨declared, ofMember, rfl⟩ := map_eq_ok_iff.mp read
      obtain ⟨entries, draft, held, taken, rfl⟩ := ofMember_eq_ok_iff.mp ofMember
      cases made
      exact .primitive known held taken
    · next known =>
      obtain ⟨object, ofObject, rfl⟩ := map_eq_ok_iff.mp read
      obtain ⟨members, inner, others, draft, held, -, nested, taken, rfl⟩ :=
        readObject_eq_ok_iff.mp ofObject
      obtain ⟨fields, flat, made⟩ := bind_eq_ok_iff.mp made
      cases made
      exact .object known held ⟨inner, nested, flat⟩ taken

/-- The field that is declared, with its name. -/
def compile (settings : Settings) (path : Path) (declaration : Declaration) :
    Except Fault (String × Field) := do
  let item ← declaration.read settings.maxDepth path
  (item.field settings path).map (item.name, ·)

theorem compile_eq_ok_iff {declaration : Declaration} {entry : String × Field} :
    declaration.compile settings path = .ok entry ↔
      declaration.name = entry.1 ∧ declaration.Declares settings path entry.2 := by
  rw [declares_iff, compile, bind_eq_ok_iff]
  simp only [map_eq_ok_iff]
  constructor
  · rintro ⟨item, read, field, made, rfl⟩
    exact ⟨(read_lawful read).1.symm, item, read, made⟩
  · rintro ⟨same, item, read, made⟩
    exact ⟨item, read, entry.2, made, by rw [(read_lawful read).1, same]⟩

end Declaration

namespace Collection

variable {settings : Settings} {path : Path} {nested : Bool} {members others : Members}
  {map : FieldMap}

theorem compiles_iff_items : Compiles settings path nested members others map ↔
    Shaped nested members ∧ others = ownOptions members ∧ path.depth < settings.maxDepth ∧
      map.Resolved ∧ ∃ items,
        (declarations members).mapM (Declaration.read settings.maxDepth path) = .ok items ∧
          items.foldlM (addItem settings path) .empty = .ok map := by
  constructor
  · rintro ⟨collection, read, flat⟩
    obtain ⟨shaped, own, all⟩ := readHalves_eq_ok read
    rw [flattenLevel_eq_level, Field.level_eq_ok_iff, addHalves_eq_foldlM] at flat
    exact ⟨shaped, own, flat.1, flat.2.2, _, all, flat.2.1⟩
  · rintro ⟨shaped, rfl, shallow, resolved, items, all, added⟩
    obtain ⟨collection, read, rfl⟩ := readHalves_of_items shaped all
    refine ⟨collection, read, ?_⟩
    rw [flattenLevel_eq_level, Field.level_eq_ok_iff, addHalves_eq_foldlM]
    exact ⟨shallow, added, resolved⟩

/-- Every field of the map is declared. -/
theorem Compiles.declared (compiles : Compiles settings path nested members others map)
    {name : String} {field : Field} (member : (name, field) ∈ map) :
    ∃ declaration ∈ declarations members, declaration.name = name ∧
      declaration.Declares settings path field := by
  obtain ⟨-, -, -, -, items, all, added⟩ := compiles_iff_items.mp compiles
  rcases mem_foldlM_addItem added member with old | ⟨item, listed, named, made⟩
  · cases old
  · obtain ⟨declaration, declared, read⟩ := exists_of_mem_mapM all listed
    exact ⟨declaration, declared, (read_lawful read).1.symm.trans named,
      Declaration.declares_iff.mpr ⟨item, read, made⟩⟩

/-- Where no field may be declared again, the map lists the fields that are declared. -/
theorem compiles_iff (rejects : settings.duplicates = .reject) :
    Compiles settings path nested members others map ↔
      Shaped nested members ∧ others = ownOptions members ∧ path.depth < settings.maxDepth ∧
        map.Resolved ∧ Entries.Distinct map ∧
        List.Forall₂ (fun declaration entry => declaration.name = entry.1 ∧
          declaration.Declares settings path entry.2) (declarations members) map := by
  rw [compiles_iff_items]
  refine and_congr_right fun _ => and_congr_right fun _ => and_congr_right fun _ =>
    and_congr_right fun _ => ?_
  have distinct : Entries.Distinct FieldMap.empty := List.nodup_nil
  have flat (items : List Item) : items.foldlM (addItem settings path) .empty = .ok map ↔
      items.mapM (fun item => (item.field settings path).map (item.name, ·)) = .ok map ∧
        Entries.Distinct map := by
    rw [foldlM_addItem_eq_ok_iff rejects distinct]
    simp [FieldMap.empty]
  simp only [flat, ← and_assoc, exists_and_right]
  rw [mapM_mapM_eq_ok_iff, and_comm]
  refine and_congr_right fun _ => ?_
  rw [mapM_eq_ok_iff]
  change List.Forall₂ (fun declaration entry =>
    Declaration.compile settings path declaration = .ok entry) _ _ ↔ _
  simp only [Declaration.compile_eq_ok_iff]

end Collection

/-- A schema is a written field map, if it has the form of one, or else a collection. -/
theorem Source.normalizeValue_eq_ok_iff {settings : Settings} {schema : Json} {map : FieldMap} :
    normalizeValue settings schema = .ok map ↔ ∃ members, schema = .object members ∧
      if FieldMap.isWrittenForm members then FieldMap.ofMembers settings.maxDepth members = .ok map
      else ∃ others, Collection.Compiles settings .root false members others map := by
  cases schema with
  | object members =>
    simp only [normalizeValue, normalizeValueNoting, ofExcept_eq, Json.object.injEq,
      exists_eq_left']
    split
    · rfl
    · rw [bind_eq_ok_iff]
      constructor
      · rintro ⟨collection, read, flat⟩
        obtain ⟨_, -, read⟩ := bind_eq_ok_iff.mp read
        obtain ⟨⟨halves, others⟩, readHalves, same⟩ := bind_eq_ok_iff.mp read
        cases same
        exact ⟨others, halves, readHalves, flat⟩
      · rintro ⟨others, collection, read, flat⟩
        have shallow :=
          (Field.level_eq_ok_iff.mp ((Collection.flattenLevel_eq_level _).symm.trans flat)).1
        refine ⟨collection, bind_eq_ok_iff.mpr
          ⟨(), Collection.guardDepth_eq_ok_iff.mpr shallow, ?_⟩, flat⟩
        exact bind_eq_ok_iff.mpr ⟨_, read, rfl⟩
  | null | bool | number | string | array =>
    constructor
    · intro complete
      cases complete
    · rintro ⟨_, same, -⟩
      cases same

end FieldSchema
