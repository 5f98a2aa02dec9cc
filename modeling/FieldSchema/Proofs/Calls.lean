import FieldSchema.Proofs.Violations
import FieldSchema.Walk

/-! The order in which a walk calls its visitor: the fields of an object as they are declared, all
that is in the objects of a field before the field itself, and the end of an object after its
fields. Where names are distinct no call is made twice. -/
namespace FieldSchema

/-- A call to a visitor. What was gathered below an object field is given by where the objects
stand. -/
inductive Call where
  | primitive (place : Place) (found : Option Found)
  | object (place : Place) (children : Children Path)
  | finish (path : Path) (document : Option Members)

namespace Call

/-- The values that a field is visited with: without a document one visit without a value, and with
one a visit if the field is there. -/
def visits (document : Option Members) (name : String) : Option (Option Json) :=
  match document with
  | none => some none
  | some members => (members.lookup name).map some

/-- The objects that are walked in an object field, and where they stand. -/
def objects (isArray : Bool) (below : Path) : Option Json → List (Path × Option Members)
  | none => [(below, none)]
  | some value => (value.objectsIn isArray below).map fun (here, members) => (here, some members)

/-- Where the objects stand that were gathered in an object field. -/
def sources (isArray : Bool) (below : Path) (value : Option Json) : Children Path :=
  if isArray && value.isSome then .many ((objects isArray below value).map Prod.fst)
  else .single below

mutual

def ofField (path : Path) (name : String) (value : Option Json) : Field → List Call
  | .primitive type traits =>
    [.primitive ⟨name, path, .primitive type traits⟩ (value.map (.ofValue traits.isArray))]
  | .object fields traits =>
    (objects traits.isArray (path.child name) value).flatMap (fun (here, document) =>
      ofFields here document fields ++ [.finish here document]) ++
      [.object ⟨name, path, .object fields traits⟩
        (sources traits.isArray (path.child name) value)]

def ofFields (path : Path) (document : Option Members) : List (String × Field) → List Call
  | [] => []
  | (name, field) :: rest =>
    (match visits document name with
      | some value => ofField path name value field
      | none => []) ++ ofFields path document rest

end

def ofLevel (path : Path) (document : Option Members) (fields : FieldMap) : List Call :=
  ofFields path document fields ++ [.finish path document]

end Call

/-- The calls of a walk. -/
def FieldMap.calls (map : FieldMap) : Option Json → List Call
  | none => Call.ofLevel .root none map
  | some (.object members) => Call.ofLevel .root (some members) map
  | some _ => []

/-- On the way to a place there is one next segment. -/
theorem Path.segment_unique {path last : Path} {segment other : Segment}
    (first : path ++ [segment] <+: last) (second : path ++ [other] <+: last) :
    segment = other := by
  obtain ⟨rest, rfl⟩ := first
  obtain ⟨rest', same⟩ := second
  simp only [List.append_assoc, List.append_cancel_left_eq, List.singleton_append,
    List.cons.injEq] at same
  exact same.1.symm

namespace Call

variable {path below : Path} {name : String} {value : Option Json} {document : Option Members}

/-- Where a call is made: at a field, or at an object that ends. -/
def site : Call → Path
  | .primitive place _ => place.path.child place.name
  | .object place _ => place.path.child place.name
  | .finish path _ => path

def isEnd : Call → Bool
  | .finish .. => true
  | _ => false

/-- What is called for is not called for again. -/
def Apart (a b : Call) : Prop := (a.site, a.isEnd) ≠ (b.site, b.isEnd)

theorem ofFields_eq_flatMap (fields : FieldMap) : ofFields path document fields =
    fields.flatMap fun (name, field) =>
      (visits document name).elim [] fun value => ofField path name value field := by
  induction fields with
  | nil => rfl
  | cons entry rest ih =>
    obtain ⟨name, field⟩ := entry
    rw [ofFields, ih, List.flatMap_cons]
    dsimp only
    cases visits document name <;> rfl

/-- The object that an element of an array is, if it is one. -/
def ofElement (below : Path) (entry : Json × Nat) : List (Path × Option Members) :=
  (entry.1.object?.map fun members => (below.element entry.2, some members)).toList

theorem objects_array (below : Path) (items : List Json) :
    objects true below (some (.array items)) = items.zipIdx.flatMap (ofElement below) := by
  simp only [objects, Json.objectsIn, if_true, Json.array?, Option.getD_some,
    List.filterMap_eq_flatMap_toList, List.map_flatMap]
  refine List.flatMap_congr fun entry _ => ?_
  rw [ofElement]
  cases entry.1.object? <;> rfl

theorem sources_array (below : Path) (items : List Json) :
    sources true below (some (.array items)) =
      .many (items.zipIdx.flatMap fun entry => (ofElement below entry).map Prod.fst) := by
  rw [← List.map_flatMap, ← objects_array]
  rfl

theorem below_of_mem_objects {isArray : Bool} {here : Path × Option Members}
    (member : here ∈ objects isArray below value) : below <+: here.1 := by
  unfold objects Json.objectsIn at member
  split at member
  · simp only [List.mem_singleton] at member
    exact member ▸ List.prefix_rfl
  · obtain ⟨⟨stands, members⟩, found, rfl⟩ := List.mem_map.mp member
    split at found
    · obtain ⟨⟨item, i⟩, -, object⟩ := List.mem_filterMap.mp found
      obtain ⟨_, -, same⟩ := Option.map_eq_some_iff.mp object
      cases same
      exact List.prefix_append ..
    · obtain ⟨_, -, same⟩ := Option.map_eq_some_iff.mp (Option.mem_toList.mp found)
      cases same
      exact List.prefix_rfl

/-- Nothing stands in two of the objects in a field. -/
theorem objects_apart (isArray : Bool) (below : Path) (value : Option Json) :
    (objects isArray below value).Pairwise fun a b =>
      ∀ path : Path, a.1 <+: path → ¬b.1 <+: path := by
  unfold objects Json.objectsIn
  split
  · exact List.pairwise_singleton ..
  · next value =>
    rw [List.pairwise_map]
    cases isArray with
    | false => cases value.object? <;> simp
    | true =>
      have indices : (value.array?.getD []).zipIdx.Pairwise fun a b => a.2 ≠ b.2 := by
        rw [← List.pairwise_map, List.zipIdx_map_snd]
        exact List.nodup_range' _
      rw [if_pos rfl, List.pairwise_filterMap]
      refine indices.imp fun {a b} different => ?_
      intro first isFirst second isSecond path inFirst inSecond
      obtain ⟨_, -, rfl⟩ := Option.map_eq_some_iff.mp isFirst
      obtain ⟨_, -, rfl⟩ := Option.map_eq_some_iff.mp isSecond
      exact different (Segment.element.inj (Path.segment_unique inFirst inSecond))

mutual

theorem site_ofField {path : Path} {name : String} {value : Option Json} {call : Call} :
    (field : Field) → call ∈ ofField path name value field → path.child name <+: call.site
  | .primitive type traits, member => by
    rw [ofField, List.mem_singleton] at member
    exact member ▸ List.prefix_rfl
  | .object fields traits, member => by
    rw [ofField] at member
    rcases List.mem_append.mp member with inside | last
    · obtain ⟨⟨here, document⟩, among, inside⟩ := List.mem_flatMap.mp inside
      refine (below_of_mem_objects among).trans ?_
      rcases List.mem_append.mp inside with inside | last
      · obtain ⟨name, -, found⟩ := site_ofFields fields inside
        exact (List.prefix_append ..).trans found
      · exact List.mem_singleton.mp last ▸ List.prefix_rfl
    · exact List.mem_singleton.mp last ▸ List.prefix_rfl

theorem site_ofFields {path : Path} {document : Option Members} {call : Call} :
    (fields : List (String × Field)) → call ∈ ofFields path document fields →
      ∃ name ∈ Entries.names fields, path.child name <+: call.site
  | [], member => by
    rw [ofFields] at member
    cases member
  | (name, field) :: rest, member => by
    rw [ofFields] at member
    rcases List.mem_append.mp member with first | later
    · split at first
      · exact ⟨name, List.mem_cons_self .., site_ofField field first⟩
      · cases first
    · obtain ⟨name, among, found⟩ := site_ofFields rest later
      exact ⟨name, List.mem_cons_of_mem _ among, found⟩

end

variable {fields : FieldMap} {call : Call}

/-- What is called for the fields of an object is called below it. -/
theorem length_lt_of_mem_ofFields (member : call ∈ ofFields path document fields) :
    path.length < call.site.length := by
  obtain ⟨name, -, found⟩ := site_ofFields fields member
  have := found.length_le
  simp only [Path.child, List.length_append, List.length_singleton] at this
  omega

theorem site_ofLevel (member : call ∈ ofLevel path document fields) : path <+: call.site := by
  rcases List.mem_append.mp member with inside | last
  · obtain ⟨name, -, found⟩ := site_ofFields fields inside
    exact (List.prefix_append ..).trans found
  · exact List.mem_singleton.mp last ▸ List.prefix_rfl

theorem apart_ofField {field : Field} (inner : ∀ fields traits, field = .object fields traits →
    ∀ here document, (ofLevel here document fields).Pairwise Apart) :
    (ofField path name value field).Pairwise Apart := by
  cases field with
  | primitive type traits => exact List.pairwise_singleton ..
  | object fields traits =>
    rw [ofField, List.pairwise_append, List.pairwise_flatMap]
    refine ⟨⟨?_, ?_⟩, List.pairwise_singleton .., ?_⟩
    · rintro ⟨here, document⟩ -
      exact inner fields traits rfl here document
    · refine (objects_apart _ _ _).imp fun {a b} apart first inFirst second inSecond same => ?_
      have stands : a.1 <+: second.site := (Prod.mk.inj same).1 ▸ site_ofLevel inFirst
      exact apart second.site stands (site_ofLevel inSecond)
    · intro call inside last isLast
      cases List.mem_singleton.mp isLast
      obtain ⟨⟨here, document⟩, among, inside⟩ := List.mem_flatMap.mp inside
      have below : (path.child name).length ≤ here.length := (below_of_mem_objects among).length_le
      intro same
      rcases List.mem_append.mp inside with inside | ended
      · have deeper := length_lt_of_mem_ofFields inside
        rw [(Prod.mk.inj same).1] at deeper
        exact absurd deeper (Nat.not_lt.mpr below)
      · cases List.mem_singleton.mp ended
        cases (Prod.mk.inj same).2

theorem apart_ofLevel (fields : FieldMap) (distinct : fields.Throughout Entries.Distinct)
    (path : Path) (document : Option Members) :
    (ofLevel path document fields).Pairwise Apart := by
  induction fields using FieldMap.induction generalizing path document with
  | step fields ih =>
    obtain ⟨here, below⟩ := FieldMap.throughout_iff.mp distinct
    rw [ofLevel, List.pairwise_append]
    refine ⟨?_, List.pairwise_singleton .., ?_⟩
    · rw [ofFields_eq_flatMap, List.pairwise_flatMap]
      constructor
      · rintro ⟨name, field⟩ member
        dsimp only
        cases visits document name with
        | none => exact List.Pairwise.nil
        | some value =>
          refine apart_ofField fun inner traits same => ?_
          subst same
          exact ih name inner traits member (below name inner traits member)
      · refine (List.pairwise_map.mp here).imp ?_
        intro a b different first inFirst second inSecond same
        have named {entry : String × Field} {call : Call}
            (member : call ∈ (visits document entry.1).elim []
              fun value => ofField path entry.1 value entry.2) :
            path.child entry.1 <+: call.site := by
          cases visited : visits document entry.1 with
          | none => simp [visited] at member
          | some value =>
            rw [visited] at member
            exact site_ofField entry.2 member
        have stands : path.child a.1 <+: second.site := (Prod.mk.inj same).1 ▸ named inFirst
        exact different (Segment.member.inj (Path.segment_unique stands (named inSecond)))
    · intro call inside last isLast same
      cases List.mem_singleton.mp isLast
      have deeper := length_lt_of_mem_ofFields inside
      rw [(Prod.mk.inj same).1] at deeper
      exact Nat.lt_irrefl _ deeper

end Call

/-- Nothing but the end of the whole document is called at its root. -/
theorem FieldMap.isRoot_site_iff {map : FieldMap} {document : Option Json} {call : Call}
    (member : call ∈ map.calls document) :
    call.site.isRoot = true ↔ ∃ members, call = .finish .root members := by
  obtain ⟨members, member⟩ : ∃ members, call ∈ Call.ofLevel .root members map := by
    unfold calls at member
    split at member
    · exact ⟨_, member⟩
    · exact ⟨_, member⟩
    · cases member
  rw [Path.isRoot, List.isEmpty_iff_length_eq_zero]
  constructor
  · intro atRoot
    rcases List.mem_append.mp member with inside | last
    · have deeper := Call.length_lt_of_mem_ofFields inside
      omega
    · exact ⟨members, List.mem_singleton.mp last⟩
  · rintro ⟨_, rfl⟩
    rfl

/-- No field is called for twice, and no object ends twice. -/
theorem FieldMap.calls_apart {map : FieldMap} (distinct : map.Throughout Entries.Distinct)
    (document : Option Json) : (map.calls document).Pairwise Call.Apart := by
  unfold calls
  split
  · exact Call.apart_ofLevel map distinct ..
  · exact Call.apart_ofLevel map distinct ..
  · exact List.Pairwise.nil

end FieldSchema
