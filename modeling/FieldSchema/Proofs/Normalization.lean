import FieldSchema.Proofs.Entries
import FieldSchema.Proofs.FailFast
import FieldSchema.Proofs.Nesting
import FieldSchema.Schema.Source

/-! What normalization ensures of every object of the map that it returns, whether the map was
written as such or flattened from a collection: the guard let the object pass, its names are
distinct, and its references name numbers beside them. Both ways build each object by insertion
into an empty map. -/
namespace FieldSchema

namespace FieldMap

/-- Every reference names a number of the same object. -/
def Resolved (map : FieldMap) : Prop :=
  ∀ name field, (name, field) ∈ map → ∀ reference ∈ field.options.atLeast.getD [],
    map.badReference? reference = none

theorem badReference?_eq_none_iff {map : FieldMap} {name : String} :
    map.badReference? name = none ↔ ∃ field, map.get? name = some field ∧ field.isNumber = true := by
  unfold badReference?
  cases map.get? name with
  | none => simp
  | some field => cases number : field.isNumber <;> simp [number]

structure Sound (limit depth : Nat) (map : FieldMap) : Prop where
  shallow : depth < limit
  distinct : Entries.Distinct map
  resolved : map.Resolved

section

variable {limit depth : Nat} {map : FieldMap} (sound : map.Everywhere (Sound limit) depth)

include sound

theorem fits_of_sound : map.Fits limit depth := sound.mono fun _ _ sound => sound.shallow

theorem distinct_of_sound : map.Throughout Entries.Distinct :=
  sound.throughout fun _ _ sound => sound.distinct

theorem resolved_of_sound : map.Throughout Resolved :=
  sound.throughout fun _ _ sound => sound.resolved

end

theorem checkReferences_eq_ok_iff {path : Path} {map : FieldMap} {checked : Unit} :
    map.checkReferences path = .ok checked ↔ map.Resolved := by
  have faults : map.checkReferences path = failFast (map.flatMap fun entry =>
      (entry.2.options.atLeast.getD []).flatMap fun reference =>
        ((map.badReference? reference).map fun problem =>
          Fault.malformedSchema path (.badField entry.1 problem)).toList) () := by
    apply forM_eq_failFast
    rintro ⟨name, field⟩ _
    apply forM_eq_failFast
    intro reference _
    cases map.badReference? reference <;> rfl
  rw [faults, failFast_eq_ok_iff, and_iff_left rfl, List.flatMap_eq_nil_iff]
  constructor
  · intro none name field member reference named
    have ofField := List.flatMap_eq_nil_iff.mp (none _ member) reference named
    simpa using ofField
  · rintro resolved ⟨name, field⟩ member
    refine List.flatMap_eq_nil_iff.mpr fun reference named => ?_
    simpa using resolved name field member reference named

end FieldMap

/-- What is below the field `name` of the object at `path` is sound. -/
def Field.SoundBelow (limit : Nat) (path : Path) (name : String) (field : Field) : Prop :=
  ∀ inner traits, field = .object inner traits →
    FieldMap.Everywhere (FieldMap.Sound limit) (path.child name).depth inner

namespace FieldMap

/-- An object that fields are still added to. -/
structure Growing (limit : Nat) (path : Path) (map : FieldMap) : Prop where
  distinct : Entries.Distinct map
  below : ∀ name field, (name, field) ∈ map → field.SoundBelow limit path name

theorem growing_empty (limit : Nat) (path : Path) : FieldMap.empty.Growing limit path :=
  ⟨List.nodup_nil, by simp [FieldMap.empty]⟩

/-- The field that makes way is the one that was found under the name. -/
theorem exchange_eq {map : FieldMap} (distinct : Entries.Distinct map) (name : String)
    (field : Field) :
    map.exchange name field = (map.get? name, Entries.erase name map ++ [(name, field)]) := by
  have erased := distinct.eraseP name
  rw [List.eraseP_eq_eraseIdx] at erased
  unfold exchange get?
  cases place : List.findIdx? (fun entry => entry.1 = name) map with
  | none =>
    rw [place] at erased
    have absent : name ∉ Entries.names map := by
      intro member
      obtain ⟨entry, listed, named⟩ := List.mem_map.mp member
      simpa [named] using List.findIdx?_eq_none_iff.mp place entry listed
    rw [← erased, Entries.lookup_eq_none_iff.mpr absent]
  | some i =>
    rw [place] at erased
    obtain ⟨inside, named, -⟩ := List.findIdx?_eq_some_iff_getElem.mp place
    have found : map.lookup name = some map[i].2 := by
      refine (Entries.lookup_eq_some_iff distinct).mpr ?_
      rw [← of_decide_eq_true named]
      exact List.getElem_mem inside
    rw [← erased, found]
    dsimp only
    rw [List.getElem?_eq_getElem inside, Option.map_some]

theorem insert_eq {map : FieldMap} (distinct : Entries.Distinct map) (name : String)
    (field : Field) : map.insert name field = Entries.erase name map ++ [(name, field)] := by
  rw [insert, exchange_eq distinct]

theorem insert_of_absent {map : FieldMap} {name : String} (absent : name ∉ Entries.names map)
    (field : Field) : map.insert name field = map ++ [(name, field)] := by
  have missing : List.findIdx? (fun entry => entry.1 = name) map = none := by
    refine List.findIdx?_eq_none_iff.mpr fun entry listed => ?_
    refine decide_eq_false fun named => absent ?_
    exact List.mem_map.mpr ⟨entry, listed, named⟩
  rw [insert, exchange, missing]

theorem mem_insert {map : FieldMap} {name other : String} {field added : Field}
    (member : (other, field) ∈ map.insert name added) :
    (other, field) ∈ map ∨ other = name ∧ field = added := by
  unfold insert exchange at member
  split at member
  · simp only [List.mem_append, List.mem_singleton, Prod.mk.injEq] at member
    exact member.imp_left List.mem_of_mem_eraseIdx
  · simpa using member

theorem distinct_insert {map : FieldMap} (distinct : Entries.Distinct map) (name : String)
    (field : Field) : Entries.Distinct (map.insert name field) := by
  rw [insert_eq distinct]
  refine Entries.distinct_concat.mpr ⟨distinct.filter _, ?_⟩
  simp [Entries.erase]

theorem throughout_distinct_empty : FieldMap.empty.Throughout Entries.Distinct := by
  intro path inner nested
  cases nested with
  | here => exact List.nodup_nil
  | inside member => cases member

/-- Insertion repeats no name in any object, so that no map that is made by it has a name twice. -/
theorem throughout_distinct_insert {map : FieldMap} (distinct : map.Throughout Entries.Distinct)
    (name : String) {field : Field}
    (below : ∀ inner traits, field = .object inner traits →
      FieldMap.Throughout Entries.Distinct inner) :
    (map.insert name field).Throughout Entries.Distinct := by
  obtain ⟨here, inside⟩ := throughout_iff.mp distinct
  refine throughout_iff.mpr ⟨distinct_insert here name field, fun other inner traits member => ?_⟩
  rcases mem_insert member with old | ⟨-, rfl⟩
  · exact inside other inner traits old
  · exact below inner traits rfl

theorem throughout_distinct_insert_primitive {map : FieldMap}
    (distinct : map.Throughout Entries.Distinct) (name : String) (type : Primitive)
    (traits : Traits) : (map.insert name (.primitive type traits)).Throughout Entries.Distinct := by
  apply throughout_distinct_insert distinct
  intro inner other same
  cases same

theorem Growing.insert {limit : Nat} {path : Path} {map : FieldMap} {name : String} {field : Field}
    (growing : map.Growing limit path) (below : field.SoundBelow limit path name) :
    (map.insert name field).Growing limit path := by
  refine ⟨distinct_insert growing.distinct name field, fun other inner member => ?_⟩
  rcases mem_insert member with old | ⟨rfl, rfl⟩
  · exact growing.below _ _ old
  · exact below

/-- An object that is complete: the guard and the references were looked at. -/
theorem Growing.sound {limit : Nat} {path : Path} {map : FieldMap}
    (growing : map.Growing limit path) (shallow : path.depth < limit) (checked : map.Resolved) :
    map.Everywhere (Sound limit) path.depth := by
  refine everywhere_iff.mpr ⟨⟨shallow, growing.distinct, checked⟩, ?_⟩
  intro name inner traits member
  rw [← Path.depth_child]
  exact growing.below _ _ member _ _ rfl

end FieldMap

namespace Field

variable {limit : Nat}

theorem level_eq_ok_iff {path : Path} {read : FieldMap → Except Fault FieldMap} {map : FieldMap} :
    level limit path read = .ok map ↔ path.depth < limit ∧ read .empty = .ok map ∧ map.Resolved := by
  unfold level
  split
  · next deep =>
    exact iff_of_false (fun complete => by cases complete) fun accepted => by omega
  · next shallow =>
    simp only [bind_eq_ok_iff, FieldMap.checkReferences_eq_ok_iff]
    constructor
    · rintro ⟨done, added, _, resolved, same⟩
      cases same
      exact ⟨by omega, added, resolved⟩
    · rintro ⟨-, added, resolved⟩
      exact ⟨map, added, (), resolved, rfl⟩

theorem level_sound {path : Path} {read : FieldMap → Except Fault FieldMap} {map : FieldMap}
    (grows : ∀ done, read .empty = .ok done → done.Growing limit path)
    (complete : level limit path read = .ok map) :
    map.Everywhere (FieldMap.Sound limit) path.depth := by
  obtain ⟨shallow, added, resolved⟩ := level_eq_ok_iff.mp complete
  exact (grows _ added).sound shallow resolved

theorem readPrimitive_soundBelow {path : Path} {name tag : String} {required : Bool}
    {entry : Members} {field : Field} (complete : readPrimitive path name tag required entry = .ok field) :
    field.SoundBelow limit path name := by
  unfold readPrimitive at complete
  split at complete
  · obtain ⟨traits, -, rfl⟩ := map_eq_ok_iff.mp complete
    exact fun _ _ same => by cases same
  · cases complete
  · cases complete

mutual

theorem readFields_growing {path : Path} {done map : FieldMap} (growing : done.Growing limit path) :
    (members : Members) → readFields limit path done members = .ok map → map.Growing limit path
  | [], complete => by
    cases complete
    exact growing
  | (name, entry) :: rest, complete => by
    rw [readFields] at complete
    obtain ⟨field, read, complete⟩ := bind_eq_ok_iff.mp complete
    exact readFields_growing (growing.insert (readField_soundBelow entry read)) rest complete

theorem readField_soundBelow {path : Path} {name : String} {field : Field} :
    (value : Json) → readField limit path name value = .ok field →
      field.SoundBelow limit path name
  | .object entry, complete => by
    rw [readField] at complete
    obtain ⟨required, -, complete⟩ := bind_eq_ok_iff.mp complete
    exact readTyped_soundBelow entry complete
  | .null, complete | .bool _, complete | .number _, complete | .string _, complete
  | .array _, complete => by simp [readField] at complete

theorem readTyped_soundBelow {path : Path} {name : String} {required : Bool} {entry : Members}
    {field : Field} :
    (rest : Members) → readTyped limit path name required entry rest = .ok field →
      field.SoundBelow limit path name
  | [], complete => by simp [readTyped] at complete
  | (key, .string tag) :: rest, complete => by
    unfold readTyped at complete
    split at complete
    · exact readPrimitive_soundBelow complete
    · exact readTyped_soundBelow rest complete
  | (key, .object members) :: rest, complete => by
    unfold readTyped at complete
    split at complete
    · obtain ⟨fields, nested, complete⟩ := bind_eq_ok_iff.mp complete
      obtain ⟨traits, -, complete⟩ := bind_eq_ok_iff.mp complete
      cases complete
      intro inner traits same
      cases same
      refine level_sound (fun done added => ?_) nested
      exact readFields_growing (FieldMap.growing_empty ..) members added
    · exact readTyped_soundBelow rest complete
  | (key, .null) :: rest, complete | (key, .bool _) :: rest, complete
  | (key, .number _) :: rest, complete | (key, .array _) :: rest, complete => by
    unfold readTyped at complete
    split at complete
    · cases complete
    · exact readTyped_soundBelow rest complete

end

end Field

theorem FieldMap.ofMembers_sound {limit : Nat} {members : Members} {map : FieldMap}
    (complete : ofMembers limit members = .ok map) : map.Everywhere (Sound limit) 0 := by
  refine Field.level_sound (fun done added => ?_) complete
  exact Field.readFields_growing (growing_empty ..) members added

namespace Collection

/-- Flattening without notices. -/
abbrev quiet : Notice → Except Fault Unit := fun _ => pure ()

section

variable {settings : Settings}

theorem addField_eq_ok {path : Path} {map grown : FieldMap} {name : String} {field : Field}
    (complete : addField quiet settings path map name field = .ok grown) :
    grown = map.insert name field := by
  unfold addField at complete
  dsimp only at complete
  split at complete
  · cases complete; rfl
  · split at complete
    · cases complete
    · cases complete; rfl

theorem flattenLevel_eq_level {path : Path} (add : FieldMap → Except Fault FieldMap) :
    flattenLevel settings path add = Field.level settings.maxDepth path add := by
  unfold flattenLevel Field.level
  simp only [ofExcept_eq]
  split <;> rfl

theorem flattenLevel_sound {path : Path} {add : FieldMap → Except Fault FieldMap} {map : FieldMap}
    (grows : ∀ done, add .empty = .ok done → done.Growing settings.maxDepth path)
    (complete : flattenLevel settings path add = .ok map) :
    map.Everywhere (FieldMap.Sound settings.maxDepth) path.depth := by
  rw [flattenLevel_eq_level] at complete
  exact Field.level_sound grows complete

theorem addPrimitives_growing {path : Path} {required : Bool} {type : Primitive}
    (fields : List Declared) {map grown : FieldMap} (growing : map.Growing settings.maxDepth path)
    (complete : fields.foldlM (fun map declared => addField quiet settings path map declared.name
      (.primitive type (traitsOf required declared))) map = .ok grown) :
    grown.Growing settings.maxDepth path := by
  induction fields generalizing map with
  | nil => cases complete; exact growing
  | cons declared rest ih =>
    rw [List.foldlM_cons] at complete
    obtain ⟨next, added, complete⟩ := bind_eq_ok_iff.mp complete
    refine ih ?_ complete
    rw [addField_eq_ok added]
    exact growing.insert fun _ _ same => by cases same

mutual

theorem addGroup_growing {path : Path} {required : Bool} {map grown : FieldMap}
    (growing : map.Growing settings.maxDepth path) :
    (group : Group) → addGroup quiet settings path required map group = .ok grown →
      grown.Growing settings.maxDepth path
  | .primitive type fields, complete => by
    rw [addGroup] at complete
    exact addPrimitives_growing fields growing complete
  | .object fields, complete => by
    rw [addGroup] at complete
    exact addObjects_growing growing fields complete

theorem addObjects_growing {path : Path} {required : Bool} {map grown : FieldMap}
    (growing : map.Growing settings.maxDepth path) :
    (fields : List (Declared × List (Half Group))) →
      addObjects quiet settings path required map fields = .ok grown →
      grown.Growing settings.maxDepth path
  | [], complete => by
    cases complete
    exact growing
  | (declared, collection) :: rest, complete => by
    rw [addObjects] at complete
    obtain ⟨inner, nested, complete⟩ := bind_eq_ok_iff.mp complete
    obtain ⟨next, added, complete⟩ := bind_eq_ok_iff.mp complete
    refine addObjects_growing ?_ rest complete
    rw [addField_eq_ok added]
    refine growing.insert fun fields traits same => ?_
    cases same
    refine flattenLevel_sound (fun done added => ?_) nested
    exact addHalves_growing (FieldMap.growing_empty ..) collection added

theorem addHalves_growing {path : Path} {map grown : FieldMap}
    (growing : map.Growing settings.maxDepth path) :
    (halves : List (Half Group)) → addHalves quiet settings path map halves = .ok grown →
      grown.Growing settings.maxDepth path
  | [], complete => by
    cases complete
    exact growing
  | ⟨required, groups⟩ :: rest, complete => by
    rw [addHalves] at complete
    obtain ⟨next, added, complete⟩ := bind_eq_ok_iff.mp complete
    exact addHalves_growing (addGroups_growing growing groups added) rest complete

theorem addGroups_growing {path : Path} {required : Bool} {map grown : FieldMap}
    (growing : map.Growing settings.maxDepth path) :
    (groups : List Group) → addGroups quiet settings path required map groups = .ok grown →
      grown.Growing settings.maxDepth path
  | [], complete => by
    cases complete
    exact growing
  | group :: rest, complete => by
    rw [addGroups] at complete
    obtain ⟨next, added, complete⟩ := bind_eq_ok_iff.mp complete
    exact addGroups_growing (addGroup_growing growing group added) rest complete

end

theorem flatten_sound {collection : Collection} {map : FieldMap}
    (complete : flatten settings collection = .ok map) :
    map.Everywhere (FieldMap.Sound settings.maxDepth) 0 := by
  unfold flatten flattenNoting at complete
  refine flattenLevel_sound (fun done added => ?_) complete
  exact addHalves_growing (FieldMap.growing_empty ..) collection added

end

end Collection

/-- A map that was written or declared is sound at every level. -/
theorem Source.normalizeValue_sound {settings : Settings} {schema : Json} {map : FieldMap}
    (complete : normalizeValue settings schema = .ok map) :
    map.Everywhere (FieldMap.Sound settings.maxDepth) 0 := by
  cases schema with
  | object members =>
    simp only [normalizeValue, normalizeValueNoting] at complete
    split at complete
    · exact FieldMap.ofMembers_sound ((ofExcept_eq _).symm.trans complete)
    · obtain ⟨collection, -, complete⟩ := bind_eq_ok_iff.mp complete
      exact Collection.flatten_sound complete
  | null | bool | number | string | array => cases complete

end FieldSchema
