import FieldSchema.Proofs.Options
import FieldSchema.Schema.Declaration

/-! Schemas as lists of declarations. The halves and groups of a schema say of each field whether it
is required and what its tag is; reading a collection is reading its declarations one by one. -/
namespace FieldSchema

namespace Tag

theorem parse?_eq_some_iff {name : String} {tag : Tag} : parse? name = some tag ↔ tag.name = name := by
  constructor
  · unfold parse?
    split
    all_goals intro same
    all_goals cases same
    all_goals rfl
  · rintro rfl
    cases tag with
    | primitive type => cases type <;> rfl
    | object => rfl

end Tag

/-- A field as a schema declares it. -/
structure Declaration where
  required : Bool
  tag : String
  name : String
  value : Json

namespace Collection

/-- A declared field, with the half and the group that it was read from. -/
inductive Item where
  | primitive (required : Bool) (type : Primitive) (declared : Declared)
  | object (required : Bool) (declared : Declared) (inner : Collection)

namespace Item

def declared : Item → Declared
  | .primitive _ _ declared => declared
  | .object _ declared _ => declared

def name (item : Item) : String := item.declared.name

def type? : Item → Option Primitive
  | .primitive _ type _ => some type
  | .object .. => none

end Item

def itemsOfGroup (required : Bool) : Group → List Item
  | .primitive type fields => fields.map (.primitive required type)
  | .object fields => fields.map fun field => .object required field.1 field.2

def itemsOfGroups (required : Bool) (groups : List Group) : List Item :=
  groups.flatMap (itemsOfGroup required)

def items (collection : Collection) : List Item :=
  List.flatMap (fun half => itemsOfGroups half.required half.groups) collection

/-! Reading. -/

def declarationsOfGroup (required : Bool) (tag : String) : Json → List Declaration
  | .object fields => fields.map fun (name, value) => ⟨required, tag, name, value⟩
  | _ => []

def declarationsOfHalf (required : Bool) : Json → List Declaration
  | .object groups => groups.flatMap fun (tag, value) => declarationsOfGroup required tag value
  | _ => []

/-- The declarations of a schema or of an object in it, in their order. -/
def declarations (members : Members) : List Declaration :=
  members.flatMap fun (key, value) =>
    match required? key with
    | some required => declarationsOfHalf required value
    | none => []

/-- The members of an object in a schema that are its options. -/
def ownOptions (members : Members) : Members :=
  members.filter fun (key, _) => (required? key).isNone

end Collection

namespace Declaration

open Collection

def read (limit : Nat) (path : Path) (declaration : Declaration) : Except Fault Item :=
  match Tag.parse? declaration.tag with
  | none => .error (.unknownType path declaration.tag)
  | some (.primitive type) =>
    (Declared.ofMember type path (declaration.name, declaration.value)).map
      (.primitive declaration.required type)
  | some .object =>
    (readObject limit path declaration.name declaration.value).map fun object =>
      .object declaration.required object.1 object.2

end Declaration

namespace Collection

/-- A group is an object, under the tag of a type. -/
def GroupShaped (entry : String × Json) : Prop :=
  (∃ tag, Tag.parse? entry.1 = some tag) ∧ ∃ fields, entry.2 = .object fields

/-- A half is an object of groups. -/
def HalfShaped (value : Json) : Prop :=
  ∃ groups, value = .object groups ∧ ∀ entry ∈ groups, GroupShaped entry

/-- Beside the halves only an object inside a schema has members. -/
structure Shaped (nested : Bool) (members : Members) : Prop where
  half : ∀ key value, (key, value) ∈ members → required? key ≠ none → HalfShaped value
  own : ∀ key value, (key, value) ∈ members → required? key = none → nested = true

theorem shaped_cons_iff {nested : Bool} {key : String} {value : Json} {rest : Members} :
    Shaped nested ((key, value) :: rest) ↔ ((required? key ≠ none → HalfShaped value) ∧
      (required? key = none → nested = true)) ∧ Shaped nested rest := by
  constructor
  · rintro ⟨half, own⟩
    exact ⟨⟨half key value (List.mem_cons_self ..), own key value (List.mem_cons_self ..)⟩,
      fun key value member => half key value (List.mem_cons_of_mem _ member),
      fun key value member => own key value (List.mem_cons_of_mem _ member)⟩
  · rintro ⟨⟨first, last⟩, half, own⟩
    constructor
    · intro other held member
      rcases List.mem_cons.mp member with same | member
      · cases same; exact first
      · exact half other held member
    · intro other held member
      rcases List.mem_cons.mp member with same | member
      · cases same; exact last
      · exact own other held member

theorem declarations_cons_half {key : String} {value : Json} {rest : Members} {required : Bool}
    (half : required? key = some required) : declarations ((key, value) :: rest) =
      declarationsOfHalf required value ++ declarations rest := by
  simp [declarations, half]

theorem declarations_cons_own {key : String} {value : Json} {rest : Members}
    (own : required? key = none) :
    declarations ((key, value) :: rest) = declarations rest := by
  simp [declarations, own]

section

variable {limit : Nat} {path : Path}

theorem mapM_map_eq {α β γ : Type} (f : α → Except Fault β) (g : β → γ) (xs : List α) :
    xs.mapM (fun x => (f x).map g) = (xs.mapM f).map (List.map g) := by
  induction xs with
  | nil => rfl
  | cons x rest ih =>
    rw [List.mapM_cons, List.mapM_cons, ih]
    cases f x with
    | error => rfl
    | ok b => cases rest.mapM f <;> rfl

theorem readObjects_eq_mapM (members : Members) : readObjects limit path members =
    members.mapM fun (name, value) => readObject limit path name value := by
  induction members with
  | nil => rfl
  | cons entry rest ih =>
    obtain ⟨name, value⟩ := entry
    rw [readObjects, ih, List.mapM_cons]

theorem readGroup_items (required : Bool) {entry : String × Json} (shaped : GroupShaped entry) :
    (readGroup limit path entry.1 entry.2).map (itemsOfGroup required) =
      (declarationsOfGroup required entry.1 entry.2).mapM (Declaration.read limit path) := by
  obtain ⟨tag, value⟩ := entry
  obtain ⟨⟨parsed, known⟩, fields, rfl⟩ := shaped
  dsimp only at known ⊢
  rw [readGroup, known, declarationsOfGroup, List.mapM_map]
  cases parsed with
  | primitive type =>
    have each : Declaration.read limit path ∘ (fun field : String × Json =>
        (⟨required, tag, field.1, field.2⟩ : Declaration)) = fun field =>
          (Declared.ofMember type path field).map (Item.primitive required type) := by
      funext field
      simp [Declaration.read, known]
    rw [each, mapM_map_eq]
    dsimp only
    cases fields.mapM (Declared.ofMember type path) <;> rfl
  | object =>
    have each : Declaration.read limit path ∘ (fun field : String × Json =>
        (⟨required, tag, field.1, field.2⟩ : Declaration)) = fun field =>
          (readObject limit path field.1 field.2).map fun object =>
            Item.object required object.1 object.2 := by
      funext field
      simp [Declaration.read, known]
    rw [each, mapM_map_eq, readObjects_eq_mapM]
    cases fields.mapM fun field => readObject limit path field.1 field.2 <;> rfl

theorem readGroups_items (required : Bool) {groups : Members}
    (shaped : ∀ entry ∈ groups, GroupShaped entry) :
    (readGroups limit path groups).map (itemsOfGroups required) =
      (declarationsOfHalf required (.object groups)).mapM (Declaration.read limit path) := by
  induction groups with
  | nil => rfl
  | cons entry rest ih =>
    obtain ⟨first, others⟩ := List.forall_mem_cons.mp shaped
    have tail := ih others
    rw [declarationsOfHalf] at tail ⊢
    rw [List.flatMap_cons, List.mapM_append, ← tail, ← readGroup_items required first, readGroups]
    cases readGroup limit path entry.1 entry.2 with
    | error => rfl
    | ok group => cases readGroups limit path rest <;> rfl

/-- Reading a collection reads its declarations one by one. -/
theorem readHalves_items {nested : Bool} {members : Members} (shaped : Shaped nested members) :
    (readHalves limit path nested members).map (fun read => (items read.1, read.2)) =
      ((declarations members).mapM (Declaration.read limit path)).map
        fun items => (items, ownOptions members) := by
  induction members with
  | nil => rfl
  | cons entry rest ih =>
    obtain ⟨key, value⟩ := entry
    obtain ⟨⟨here, own⟩, others⟩ := shaped_cons_iff.mp shaped
    have tail := ih others
    cases half : required? key with
    | some required =>
      obtain ⟨groups, rfl, shapedGroups⟩ := here (by simp [half])
      have first := @readGroups_items limit path required groups shapedGroups
      have left : ownOptions ((key, .object groups) :: rest) = ownOptions rest := by
        simp [ownOptions, half]
      rw [declarations_cons_half half, List.mapM_append, ← first, left, readHalves, half]
      dsimp only
      rw [readHalf]
      cases readGroups limit path groups with
      | error => rfl
      | ok groups =>
        have joined := congrArg (Except.map fun read : List Item × Members =>
          (itemsOfGroups required groups ++ read.1, read.2)) tail
        refine Eq.trans ?_ (joined.trans ?_)
        · cases readHalves limit path nested rest <;> rfl
        · cases (declarations rest).mapM (Declaration.read limit path) <;> rfl
    | none =>
      have left : ownOptions ((key, value) :: rest) = (key, value) :: ownOptions rest := by
        simp [ownOptions, half]
      have joined := congrArg (Except.map fun read : List Item × Members =>
        (read.1, (key, value) :: read.2)) tail
      have isNested := own half
      subst isNested
      rw [declarations_cons_own half, left, readHalves, half]
      dsimp only
      rw [if_pos rfl]
      refine Eq.trans ?_ (joined.trans ?_)
      · cases readHalves limit path true rest <;> rfl
      · cases (declarations rest).mapM (Declaration.read limit path) <;> rfl

theorem shaped_of_readGroups {groups : Members} {read : List Group}
    (complete : readGroups limit path groups = .ok read) : ∀ entry ∈ groups, GroupShaped entry := by
  induction groups generalizing read with
  | nil => simp
  | cons entry rest ih =>
    obtain ⟨tag, value⟩ := entry
    rw [readGroups] at complete
    obtain ⟨group, first, complete⟩ := bind_eq_ok_iff.mp complete
    obtain ⟨others, tail, -⟩ := bind_eq_ok_iff.mp complete
    refine List.forall_mem_cons.mpr ⟨?_, ih tail⟩
    cases known : Tag.parse? tag with
    | none => cases value <;> simp [readGroup, known] at first
    | some parsed =>
      refine ⟨⟨parsed, known⟩, ?_⟩
      cases value with
      | object fields => exact ⟨fields, rfl⟩
      | null | bool | number | string | array => simp [readGroup, known] at first

theorem shaped_of_readHalves {nested : Bool} {members : Members} {read : Collection × Members}
    (complete : readHalves limit path nested members = .ok read) : Shaped nested members := by
  induction members generalizing read with
  | nil => exact ⟨by simp, by simp⟩
  | cons entry rest ih =>
    obtain ⟨key, value⟩ := entry
    rw [readHalves] at complete
    refine shaped_cons_iff.mpr ?_
    cases half : required? key with
    | some required =>
      rw [half] at complete
      obtain ⟨groups, first, complete⟩ := bind_eq_ok_iff.mp complete
      obtain ⟨others, tail, -⟩ := bind_eq_ok_iff.mp complete
      refine ⟨⟨fun _ => ?_, fun own => by cases own⟩, ih tail⟩
      cases value with
      | object groups =>
        rw [readHalf] at first
        obtain ⟨_, first, -⟩ := map_eq_ok_iff.mp first
        exact ⟨groups, rfl, shaped_of_readGroups first⟩
      | null | bool | number | string | array => simp [readHalf] at first
    | none =>
      rw [half] at complete
      cases nested with
      | false => cases complete
      | true =>
        obtain ⟨others, tail, -⟩ := bind_eq_ok_iff.mp complete
        exact ⟨⟨fun isHalf => absurd rfl isHalf, fun _ => rfl⟩, ih tail⟩

theorem ofMember_eq_ok_iff {type : Primitive} {name : String} {value : Json} {declared : Declared} :
    Declared.ofMember type path (name, value) = .ok declared ↔ ∃ entries draft,
      value = .object entries ∧ Options.read (some type) entries = .ok draft ∧
        declared = .ofOptions name draft := by
  cases value with
  | object entries =>
    rw [Declared.ofMember, map_eq_ok_iff]
    simp only [Options.ofMembers_eq_ok_iff]
    constructor
    · rintro ⟨draft, read, rfl⟩
      exact ⟨entries, draft, rfl, read, rfl⟩
    · rintro ⟨_, draft, same, read, rfl⟩
      cases same
      exact ⟨draft, read, rfl⟩
  | null | bool | number | string | array => simp [Declared.ofMember]

theorem guardDepth_eq_ok_iff {passed : Unit} :
    guardDepth limit path = .ok passed ↔ path.depth < limit := by
  unfold guardDepth
  split <;> simp <;> omega

theorem readObject_eq_ok_iff {name : String} {value : Json} {object : Declared × Collection} :
    readObject limit path name value = .ok object ↔ ∃ members inner others draft,
      value = .object members ∧ (path.child name).depth < limit ∧
        readHalves limit (path.child name) true members = .ok (inner, others) ∧
        Options.read none others = .ok draft ∧ object = (.ofOptions name draft, inner) := by
  cases value with
  | object members =>
    rw [readObject, bind_eq_ok_iff]
    simp only [bind_eq_ok_iff, guardDepth_eq_ok_iff, Options.ofMembers_eq_ok_iff]
    constructor
    · rintro ⟨_, shallow, ⟨inner, others⟩, read, draft, taken, same⟩
      cases same
      exact ⟨members, inner, others, draft, rfl, shallow, read, taken, rfl⟩
    · rintro ⟨_, inner, others, draft, same, shallow, read, taken, rfl⟩
      cases same
      exact ⟨(), shallow, (inner, others), read, draft, taken, rfl⟩
  | null | bool | number | string | array => simp [readObject]

/-- A schema is read exactly if it has the shape of one and each of its declarations is read. -/
theorem readHalves_eq_ok {nested : Bool} {members : Members} {collection : Collection}
    {others : Members} (complete : readHalves limit path nested members = .ok (collection, others)) :
    Shaped nested members ∧ others = ownOptions members ∧
      (declarations members).mapM (Declaration.read limit path) = .ok collection.items := by
  have shaped := shaped_of_readHalves complete
  have same := @readHalves_items limit path _ _ shaped
  rw [complete] at same
  obtain ⟨items, read, same⟩ := map_eq_ok_iff.mp same.symm
  cases same
  exact ⟨shaped, rfl, read⟩

theorem readHalves_of_items {nested : Bool} {members : Members} {items : List Item}
    (shaped : Shaped nested members)
    (read : (declarations members).mapM (Declaration.read limit path) = .ok items) :
    ∃ collection : Collection, readHalves limit path nested members =
      .ok (collection, ownOptions members) ∧ collection.items = items := by
  have same := @readHalves_items limit path nested members shaped
  rw [read] at same
  obtain ⟨⟨collection, others⟩, complete, same⟩ := map_eq_ok_iff.mp same
  cases same
  exact ⟨collection, complete, rfl⟩

end

/-- Reading keeps the name, and what is read obeys the rules of its type. -/
theorem read_lawful {limit : Nat} {path : Path} {declaration : Declaration} {item : Item}
    (complete : declaration.read limit path = .ok item) : item.name = declaration.name ∧
      Options.Lawful item.type? (item.declared.options, item.declared.isArray) := by
  unfold Declaration.read at complete
  split at complete
  · cases complete
  · obtain ⟨declared, read, rfl⟩ := map_eq_ok_iff.mp complete
    obtain ⟨entries, draft, -, taken, rfl⟩ := ofMember_eq_ok_iff.mp read
    exact ⟨rfl, Options.lawful_of_read taken⟩
  · obtain ⟨object, read, rfl⟩ := map_eq_ok_iff.mp complete
    obtain ⟨members, inner, others, draft, -, -, -, taken, rfl⟩ := readObject_eq_ok_iff.mp read
    exact ⟨rfl, Options.lawful_of_read taken⟩

end Collection

end FieldSchema
