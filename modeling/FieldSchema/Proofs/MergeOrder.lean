import FieldSchema.Proofs.Grammar
import FieldSchema.Proofs.Openings
import FieldSchema.Proofs.Placement
import FieldSchema.Proofs.Unmoved

/-! The order of keys in one schema laid over another where nothing moves. Relocation still opens the
slots of the objects that the private side declares, so these come first among what is added; the
outcome is that of laying one over the other, up to the order of keys. -/
namespace FieldSchema.Overlay

open Patch (laidMembers)

/-- The objects that a schema declares in one half. -/
def objectsUnder (half : String) (schema : Members) : Members :=
  membersAt Tag.object.name (membersAt half schema)

/-- The halves in which a schema declares objects. -/
def objectHalves (schema : Members) : List String :=
  halves.filter fun half => !(objectsUnder half schema).isEmpty

/-- The slots of objects that the overlay needs come first among what it adds: the halves, that of
required fields before the other, and the group of objects in each. -/
structure InOrder (lower upper : Members) : Prop where
  halves : OpensFirst (objectHalves upper) lower upper
  groups : ∀ half ∈ objectHalves upper,
    OpensFirst [Tag.object.name] (membersAt half lower) (membersAt half upper)

/-- An object that two schemas declare in one slot. -/
def Shared (sides : Members × Members) (name : String) (inner : Members × Members) : Prop :=
  ∃ required, (objectSlot required).lookup name sides.1 = some (.object inner.1) ∧
    (objectSlot required).lookup name sides.2 = some (.object inner.2)

/-! What relocation reaches: halves, in these the group of objects, and in this the objects. -/

section

variable {schema overlay : Members}

theorem mem_objectHalves_iff {required : Bool} : halfName required ∈ objectHalves overlay ↔
    (objectSlot required).fields overlay ≠ [] := by
  have isHalf : halfName required ∈ halves := by cases required <;> decide
  rw [objectHalves, List.mem_filter, and_iff_right isHalf, Bool.not_eq_true', List.isEmpty_eq_false_iff]
  rfl

theorem exists_of_mem_objectHalves {half : String} (member : half ∈ objectHalves overlay) :
    ∃ required, half = halfName required := by
  have isHalf := List.mem_of_mem_filter member
  rcases List.mem_cons.mp isHalf with rfl | isHalf
  · exact ⟨true, rfl⟩
  · exact ⟨false, List.mem_singleton.mp isHalf⟩

theorem lookup_reach (framed : Framed schema) (required : Bool) (key : String) :
    (reach required overlay schema).lookup key =
      if key = halfName required ∧ key ∈ objectHalves overlay then
        some (.object
          (place Tag.object.name (descend (objectsUnder key overlay)) (membersAt key schema)))
      else schema.lookup key := by
  unfold Overlay.reach
  by_cases here : key = halfName required
  · subst here
    by_cases empty : (objectSlot required).fields overlay = []
    · have closed : halfName required ∉ objectHalves overlay := fun member =>
        mem_objectHalves_iff.mp member empty
      rw [if_pos (List.isEmpty_iff.mpr empty), if_neg fun both => closed both.2]
    · rw [if_neg (List.isEmpty_iff.not.mpr empty), if_pos ⟨rfl, mem_objectHalves_iff.mpr empty⟩,
        updateSlot_eq_place, lookup_place (framed.half required), if_pos rfl]
      rfl
  · have elsewhere : ¬(key = halfName required ∧ key ∈ objectHalves overlay) :=
      fun both => here both.1
    rw [if_neg elsewhere]
    split
    · rfl
    · rw [updateSlot_eq_place, lookup_place (framed.half required), if_neg here]

theorem names_reach (required : Bool) (schema overlay : Members) :
    Entries.names (Overlay.reach required overlay schema) = Entries.names schema ++
      ([halfName required].filter fun half => !(objectsUnder half overlay).isEmpty).filter
        fun half => !Entries.has half schema := by
  have same : (objectSlot required).fields overlay = objectsUnder (halfName required) overlay := rfl
  rw [Overlay.reach, same]
  cases empty : (objectsUnder (halfName required) overlay).isEmpty with
  | true => simp [empty]
  | false =>
    rw [if_neg Bool.false_ne_true, updateSlot_eq_place, names_place]
    cases there : Entries.has (halfName required) schema <;> simp [empty, there]

end

/-- A schema that can be read. -/
structure Legible (schema : Members) : Prop where
  readable : Readable schema
  distinct : (Json.object schema).Distinct

namespace Legible

variable {schema : Members} (legible : Legible schema)

include legible

theorem framed : Framed schema := legible.readable.grouped.framed legible.distinct

theorem object (slot : Slot) (name : String) (value : Json)
    (found : slot.lookup name schema = some value) : ∃ inner, value = .object inner := by
  obtain ⟨inner, same, -⟩ := legible.readable.entry found
  exact ⟨inner, same⟩

theorem nested {required : Bool} {name : String} {inner : Members}
    (found : (objectSlot required).lookup name schema = some (.object inner)) : Legible inner := by
  obtain ⟨_, same, readable⟩ := legible.readable.entry found
  cases same
  exact ⟨readable rfl, distinct_of_slot legible.distinct found⟩

end Legible

section

variable {lower upper : Members}

theorem lookup_reach_other (framed : Framed lower) (required : Bool) :
    (reach required upper lower).lookup (halfName !required) = lower.lookup (halfName !required) := by
  have other : ¬(halfName !required) = halfName required := by cases required <;> decide
  rw [lookup_reach framed, if_neg fun both => other both.1]

theorem names_relocate (legible : Legible lower) (legibleOver : Legible upper)
    (inPlace : InPlace lower upper) : Entries.names (relocate lower upper) = Entries.names lower ++
      (objectHalves upper).filter fun half => !Entries.has half lower := by
  have unopened : Entries.has (halfName false) (reach true upper lower) =
      Entries.has (halfName false) lower :=
    congrArg Option.isSome (lookup_reach_other legible.framed true)
  have inTurn : objectHalves upper =
      ([halfName true].filter fun half => !(objectsUnder half upper).isEmpty) ++
        [halfName false].filter fun half => !(objectsUnder half upper).isEmpty :=
    List.filter_append [halfName true] [halfName false]
  rw [relocate_of_inPlace legible.framed legibleOver.framed legibleOver.object inPlace, names_reach,
    names_reach, inTurn, List.filter_append, List.append_assoc]
  refine congrArg _ (congrArg _ (List.filter_congr fun half member => ?_))
  rw [List.mem_singleton.mp (List.mem_of_mem_filter member), unopened]

theorem lookup_relocate (legible : Legible lower) (legibleOver : Legible upper)
    (inPlace : InPlace lower upper) (key : String) : (relocate lower upper).lookup key =
      if key ∈ objectHalves upper then
        some (.object
          (place Tag.object.name (descend (objectsUnder key upper)) (membersAt key lower)))
      else lower.lookup key := by
  rw [relocate_of_inPlace legible.framed legibleOver.framed legibleOver.object inPlace,
    lookup_reach (legible.framed.reach true)]
  by_cases member : key ∈ objectHalves upper
  · rw [if_pos member]
    obtain ⟨required, rfl⟩ := exists_of_mem_objectHalves member
    cases required with
    | true =>
      have unopened : ¬(halfName true = halfName false ∧ halfName true ∈ objectHalves upper) :=
        fun both => absurd both.1 (by decide)
      rw [if_neg unopened, lookup_reach legible.framed, if_pos (And.intro rfl member)]
    | false =>
      have unopened : membersAt (halfName false) (reach true upper lower) =
          membersAt (halfName false) lower := by
        rw [membersAt, membersAt]
        exact congrArg (fun value => (value.bind Json.object?).getD [])
          (lookup_reach_other legible.framed true)
      rw [if_pos (And.intro rfl member), unopened]
  · rw [if_neg member, if_neg fun both => member both.2, lookup_reach legible.framed,
      if_neg fun both => member both.2]

/-! The three layers of a level: its halves, in each of these the group of objects, and the objects. -/

theorem exists_object_of_ne_nil {P : Members → Prop} {members : Members} {key : String}
    (objects : ∀ value, members.lookup key = some value → Holds P value)
    (some : membersAt key members ≠ []) :
    ∃ inner, members.lookup key = Option.some (.object inner) ∧ P inner := by
  cases found : members.lookup key with
  | none => exact absurd (membersAt_of_lookup_none found) some
  | some value =>
    obtain ⟨inner, rfl, holds⟩ := objects value found
    exact ⟨inner, rfl, holds⟩

theorem reached_halves (legible : Legible lower) (legibleOver : Legible upper)
    (inPlace : InPlace lower upper) :
    Reached (objectHalves upper) lower (relocate lower upper) upper where
  distinct := legible.framed.distinct
  distinctAfter := (legible.framed.relocate upper).distinct
  distinctOver := legibleOver.framed.distinct
  names := names_relocate legible legibleOver inPlace
  others key other := by rw [lookup_relocate legible legibleOver inPlace, if_neg other]
  objects key member := by
    rw [lookup_relocate legible legibleOver inPlace, if_pos member]
    obtain ⟨required, rfl⟩ := exists_of_mem_objectHalves member
    obtain ⟨inner, found, framed⟩ := exists_object_of_ne_nil (legibleOver.framed.half required)
      fun empty => mem_objectHalves_iff.mp member (congrArg (membersAt Tag.object.name) empty)
    refine ⟨⟨inner, found, framed.distinct⟩, ⟨_, rfl⟩, fun value found => ?_⟩
    · obtain ⟨groups, same, -⟩ := legible.framed.half required value found
      exact ⟨groups, same⟩

theorem reached_group {groups groupsOver : Members} {f : Members → Members}
    (framed : GroupsFramed groups) (framedOver : GroupsFramed groupsOver)
    (declared : membersAt Tag.object.name groupsOver ≠ []) :
    Reached [Tag.object.name] groups (place Tag.object.name f groups) groupsOver where
  distinct := framed.distinct
  distinctAfter := place_distinct framed.distinct
  distinctOver := framedOver.distinct
  names := by
    rw [names_place]
    cases there : Entries.has Tag.object.name groups <;> simp [there]
  others key other := by
    rw [lookup_place (framed.group _), if_neg fun same => other (List.mem_singleton.mpr same)]
  objects key member := by
    rw [List.mem_singleton.mp member, lookup_place (framed.group _), if_pos rfl]
    refine ⟨exists_object_of_ne_nil (framedOver.group _) declared, ⟨_, rfl⟩, fun value found => ?_⟩
    obtain ⟨fields, same, -⟩ := framed.group _ value found
    exact ⟨fields, same⟩

/-- The names of the objects that two groups of objects have in common. -/
def common (fields fieldsOver : Members) : List String :=
  (Entries.names fieldsOver).filter fun name => Entries.has name fields

section

variable {fields fieldsOver : Members}

theorem mem_common_iff {name : String} : name ∈ common fields fieldsOver ↔
    (∃ value, fields.lookup name = some value) ∧ ∃ value, fieldsOver.lookup name = some value := by
  rw [common, List.mem_filter, Entries.mem_names_iff, Entries.has, Entries.has,
    Option.isSome_iff_exists, Option.isSome_iff_exists, and_comm]

theorem filter_common (fields fieldsOver : Members) :
    (common fields fieldsOver).filter (fun name => !Entries.has name fields) = [] := by
  rw [common, List.filter_filter]
  exact List.filter_eq_nil_iff.mpr fun name _ => by simp

theorem lookup_descend_of_common (distinctOver : Entries.Distinct fieldsOver) {name : String}
    {inner innerOver : Members} (here : fields.lookup name = some (.object inner))
    (there : fieldsOver.lookup name = some (.object innerOver)) :
    (descend fieldsOver fields).lookup name = some (.object (relocate inner innerOver)) := by
  rw [lookup_descend distinctOver, there, here, Option.elim_some, Option.map_some, carried_object]
  rfl

theorem reached_objects (distinct : Entries.Distinct fields)
    (distinctOver : Entries.Distinct fieldsOver)
    (objects : ∀ name value, fields.lookup name = some value → ∃ inner, value = .object inner)
    (objectsOver : ∀ name value, fieldsOver.lookup name = some value →
      ∃ inner, value = .object inner ∧ Entries.Distinct inner) :
    Reached (common fields fieldsOver) fields (descend fieldsOver fields) fieldsOver where
  distinct := distinct
  distinctAfter := by rwa [Entries.Distinct, names_descend]
  distinctOver := distinctOver
  names := by rw [names_descend, filter_common, List.append_nil]
  others name other := by
    rw [lookup_descend distinctOver]
    cases there : fieldsOver.lookup name with
    | none => rfl
    | some declaration =>
      cases here : fields.lookup name with
      | none => rfl
      | some value => exact absurd (mem_common_iff.mpr ⟨⟨value, here⟩, declaration, there⟩) other
  objects name member := by
    obtain ⟨⟨value, here⟩, declaration, there⟩ := mem_common_iff.mp member
    obtain ⟨inner, rfl⟩ := objects name value here
    obtain ⟨innerOver, rfl, distinctInner⟩ := objectsOver name declaration there
    exact ⟨⟨innerOver, there, distinctInner⟩,
      ⟨_, lookup_descend_of_common distinctOver here there⟩, objects name⟩

end

end

/-! One level. -/

section

variable {lower upper : Members} (legible : Legible lower) (legibleOver : Legible upper)
  (inPlace : InPlace lower upper)

include legible legibleOver inPlace

section

variable {half : String} (member : half ∈ objectHalves upper)

include member

theorem membersAt_relocate : membersAt half (relocate lower upper) =
    place Tag.object.name (descend (objectsUnder half upper)) (membersAt half lower) := by
  refine membersAt_of_lookup_object ?_
  rw [lookup_relocate legible legibleOver inPlace, if_pos member]

theorem reached_group_of_mem : Reached [Tag.object.name] (membersAt half lower)
    (membersAt half (relocate lower upper)) (membersAt half upper) := by
  rw [membersAt_relocate legible legibleOver inPlace member]
  obtain ⟨required, rfl⟩ := exists_of_mem_objectHalves member
  exact reached_group (legible.framed.groups required) (legibleOver.framed.groups required)
    (mem_objectHalves_iff.mp member)

theorem objectsUnder_relocate : objectsUnder half (relocate lower upper) =
    descend (objectsUnder half upper) (objectsUnder half lower) := by
  rw [objectsUnder, membersAt_relocate legible legibleOver inPlace member]
  obtain ⟨required, rfl⟩ := exists_of_mem_objectHalves member
  rw [membersAt_place ((legible.framed.groups required).group _), if_pos rfl]
  rfl

/-- Below an object that both sides have in the half, both go on. -/
theorem membersAt_object_relocate {name : String} {inner innerOver : Members}
    (here : (objectsUnder half lower).lookup name = some (.object inner))
    (there : (objectsUnder half upper).lookup name = some (.object innerOver)) :
    membersAt name (objectsUnder half (relocate lower upper)) = relocate inner innerOver := by
  rw [objectsUnder_relocate legible legibleOver inPlace member]
  obtain ⟨required, rfl⟩ := exists_of_mem_objectHalves member
  exact membersAt_of_lookup_object
    (lookup_descend_of_common (legibleOver.framed.fields (objectSlot required)) here there)

theorem reached_objects_of_mem : Reached (common (objectsUnder half lower) (objectsUnder half upper))
    (objectsUnder half lower) (objectsUnder half (relocate lower upper))
    (objectsUnder half upper) := by
  rw [objectsUnder_relocate legible legibleOver inPlace member]
  obtain ⟨required, rfl⟩ := exists_of_mem_objectHalves member
  refine reached_objects (legible.framed.fields (objectSlot required))
    (legibleOver.framed.fields (objectSlot required)) (legible.object (objectSlot required))
    fun name value found => ?_
  obtain ⟨inner, rfl⟩ := legibleOver.object (objectSlot required) name value found
  exact ⟨inner, rfl, (legibleOver.nested found).distinct.1⟩

/-- A half is left as it is exactly if its group of objects is in order, and so are the objects that
both sides have in it. -/
theorem laid_half_iff : laidMembers (membersAt half (relocate lower upper)) (membersAt half upper) =
      laidMembers (membersAt half lower) (membersAt half upper) ↔
    OpensFirst [Tag.object.name] (membersAt half lower) (membersAt half upper) ∧
      ∀ name ∈ common (objectsUnder half lower) (objectsUnder half upper),
        laidMembers (membersAt name (objectsUnder half (relocate lower upper)))
            (membersAt name (objectsUnder half upper)) =
          laidMembers (membersAt name (objectsUnder half lower))
            (membersAt name (objectsUnder half upper)) := by
  have present : OpensFirst (common (objectsUnder half lower) (objectsUnder half upper))
      (objectsUnder half lower) (objectsUnder half upper) := by
    rw [OpensFirst, filter_common]
    exact List.nil_prefix
  have objects := (reached_objects_of_mem legible legibleOver inPlace member).laidMembers_eq_iff
  rw [and_iff_right present] at objects
  rw [(reached_group_of_mem legible legibleOver inPlace member).laidMembers_eq_iff,
    List.forall_mem_singleton]
  exact and_congr_right fun _ => objects

end

/-- What holds of the objects that two schemas share holds of them half by half. -/
theorem forall_shared_iff {P : Members → Members → Members → Prop} :
    (∀ name inner, Shared (lower, upper) name inner → P (relocate inner.1 inner.2) inner.1 inner.2) ↔
      ∀ half ∈ objectHalves upper, ∀ name ∈ common (objectsUnder half lower) (objectsUnder half upper),
        P (membersAt name (objectsUnder half (relocate lower upper)))
          (membersAt name (objectsUnder half lower)) (membersAt name (objectsUnder half upper)) := by
  constructor
  · intro below half member name shared
    obtain ⟨required, rfl⟩ := exists_of_mem_objectHalves member
    obtain ⟨⟨value, here⟩, declaration, there⟩ := mem_common_iff.mp shared
    obtain ⟨inner, rfl⟩ := legible.object (objectSlot required) name value here
    obtain ⟨innerOver, rfl⟩ := legibleOver.object (objectSlot required) name declaration there
    rw [membersAt_object_relocate legible legibleOver inPlace member here there,
      membersAt_of_lookup_object here, membersAt_of_lookup_object there]
    exact below name (inner, innerOver) ⟨required, here, there⟩
  · rintro below name ⟨inner, innerOver⟩ ⟨required, here, there⟩
    change (objectsUnder (halfName required) lower).lookup name = some (.object inner) at here
    change (objectsUnder (halfName required) upper).lookup name = some (.object innerOver) at there
    have declared : objectsUnder (halfName required) upper ≠ [] := by
      intro none
      rw [none] at there
      cases there
    have member := mem_objectHalves_iff.mpr declared
    have holds := below _ member name (mem_common_iff.mpr ⟨⟨_, here⟩, _, there⟩)
    rwa [membersAt_object_relocate legible legibleOver inPlace member here there,
      membersAt_of_lookup_object here, membersAt_of_lookup_object there] at holds

/-- One level is left as it is exactly if its slots are in order, and all the levels below are. -/
theorem laid_relocate_iff : laidMembers (relocate lower upper) upper = laidMembers lower upper ↔
    InOrder lower upper ∧ ∀ name inner, Shared (lower, upper) name inner →
      laidMembers (relocate inner.1 inner.2) inner.2 = laidMembers inner.1 inner.2 := by
  rw [(reached_halves legible legibleOver inPlace).laidMembers_eq_iff,
    forall_shared_iff legible legibleOver inPlace (P := fun after before upper =>
      laidMembers after upper = laidMembers before upper)]
  constructor
  · rintro ⟨opened, halves⟩
    have inHalf := fun half member =>
      (laid_half_iff legible legibleOver inPlace member).mp (halves half member)
    exact ⟨⟨opened, fun half member => (inHalf half member).1⟩,
      fun half member => (inHalf half member).2⟩
  · rintro ⟨⟨opened, groups⟩, below⟩
    exact ⟨opened, fun half member => (laid_half_iff legible legibleOver inPlace member).mpr
      ⟨groups half member, below half member⟩⟩

/-- One level is left as it is but for the order of keys, if all the levels below are. -/
theorem reshuffled_relocate (below : ∀ name inner, Shared (lower, upper) name inner →
      Reshuffled (.object (laidMembers (relocate inner.1 inner.2) inner.2))
        (.object (laidMembers inner.1 inner.2))) :
    Reshuffled (.object (laidMembers (relocate lower upper) upper))
      (.object (laidMembers lower upper)) := by
  refine (reached_halves legible legibleOver inPlace).reshuffled fun half member => ?_
  refine (reached_group_of_mem legible legibleOver inPlace member).reshuffled
    (List.forall_mem_singleton.mpr ?_)
  refine (reached_objects_of_mem legible legibleOver inPlace member).reshuffled ?_
  exact (forall_shared_iff legible legibleOver inPlace (P := fun after before upper =>
    Reshuffled (.object (laidMembers after upper)) (.object (laidMembers before upper)))).mp below
      half member

end

/-! All levels. -/

theorem Shared.declaresObject {sides inner : Members × Members} {name : String}
    (shared : Shared sides name inner) :
    Collection.DeclaresObject sides.2 name inner.2 := by
  obtain ⟨required, -, there⟩ := shared
  exact ⟨_, declarationsAt_subset _ _ (mem_declarationsAt_of_lookup there), rfl, rfl, rfl⟩

/-- Two readable schemas, and below them those of the objects that they share. -/
theorem legible_of_shared {sides inner : Members × Members} {name : String}
    (shared : Shared sides name inner) (legible : Legible sides.1) (legibleOver : Legible sides.2) :
    Legible inner.1 ∧ Legible inner.2 := by
  obtain ⟨required, here, there⟩ := shared
  exact ⟨legible.nested here, legibleOver.nested there⟩

/-- Where nothing is out of place at any level, laying one schema over another after relocation is
laying it over without, exactly if the slots are in order at every level. -/
theorem laid_relocate_iff_inOrder (upper : Members) : ∀ lower, Legible lower → Legible upper →
    (∀ path inner, Descends Shared (lower, upper) path inner → InPlace inner.1 inner.2) →
      (laidMembers (relocate lower upper) upper = laidMembers lower upper ↔
        ∀ path inner, Descends Shared (lower, upper) path inner → InOrder inner.1 inner.2) := by
  induction upper using Collection.membersInduction with
  | step upper ih =>
    intro lower legible legibleOver inPlace
    obtain ⟨here, below⟩ := forall_descends_iff.mp inPlace
    rw [laid_relocate_iff legible legibleOver here, forall_descends_iff]
    refine and_congr_right fun _ => forall₂_congr fun name inner => forall_congr' fun shared => ?_
    obtain ⟨legibleInner, legibleOverInner⟩ := legible_of_shared shared legible legibleOver
    exact ih name inner.2 shared.declaresObject inner.1 legibleInner legibleOverInner
      (below name inner shared)

theorem reshuffled_of_inPlace (upper : Members) : ∀ lower, Legible lower → Legible upper →
    (∀ path inner, Descends Shared (lower, upper) path inner → InPlace inner.1 inner.2) →
      Reshuffled (.object (laidMembers (relocate lower upper) upper))
        (.object (laidMembers lower upper)) := by
  induction upper using Collection.membersInduction with
  | step upper ih =>
    intro lower legible legibleOver inPlace
    obtain ⟨here, below⟩ := forall_descends_iff.mp inPlace
    refine reshuffled_relocate legible legibleOver here fun name inner shared => ?_
    obtain ⟨legibleInner, legibleOverInner⟩ := legible_of_shared shared legible legibleOver
    exact ih name inner.2 shared.declaresObject inner.1 legibleInner legibleOverInner
      (below name inner shared)

theorem inPlace_of_steps {schema overlay : Members} (same : ∀ declaration ∈ steps overlay,
    ∀ other ∈ steps schema, other.name = declaration.name → slotOf other = slotOf declaration) :
    InPlace schema overlay := by
  rintro name slot other ⟨value, found, -⟩ present
  obtain ⟨lower, there⟩ := Option.isSome_iff_exists.mp present
  exact same _ (mem_steps_of_lookup found) _ (mem_steps_of_lookup there) rfl

/-- What holds of two schemas, and below any two of their objects, holds at every level. -/
theorem forall_descends_of_objectsIn {P : Members × Members → Prop} {lower upper : Members}
    (here : P (lower, upper)) (below : ∀ left ∈ objectsIn lower, ∀ right ∈ objectsIn upper,
      ∀ path inner, Descends Shared (left, right) path inner → P inner) :
    ∀ path inner, Descends Shared (lower, upper) path inner → P inner := by
  refine forall_descends_iff.mpr ⟨here, ?_⟩
  rintro name inner ⟨required, left, right⟩
  exact below inner.1 (List.mem_filterMap.mpr ⟨_, mem_steps_of_lookup left, rfl⟩) inner.2
    (List.mem_filterMap.mpr ⟨_, mem_steps_of_lookup right, rfl⟩)

/-- Relocation where nothing is out of place at any level changes at most the order of keys. It
keeps that as well exactly if at every level the slots of objects that the private side needs come
first among what it adds: the halves, that of required fields before the other, and the group of
objects in each. -/
theorem merge_eq_overlaid_iff {limit limitOver : Nat} {base overlay : Json}
    {read readOver : Collection} (complete : Collection.ofValue limit base = .ok read)
    (completeOver : Collection.ofValue limitOver overlay = .ok readOver)
    (distinct : base.Distinct) (distinctOver : overlay.Distinct)
    (inPlace : ∀ lower upper, base = .object lower → overlay = .object upper →
      ∀ path inner, Descends Shared (lower, upper) path inner → InPlace inner.1 inner.2) :
    ∃ lower upper, base = .object lower ∧ overlay = .object upper ∧
      Reshuffled (merge base overlay) (base.overlaid overlay) ∧
      (merge base overlay = base.overlaid overlay ↔
        ∀ path inner, Descends Shared (lower, upper) path inner → InOrder inner.1 inner.2) := by
  obtain ⟨lower, rfl, readable⟩ := public_of_read complete
  obtain ⟨upper, rfl, readableOver⟩ := public_of_read completeOver
  have legible : Legible lower := ⟨readable, distinct⟩
  have legibleOver : Legible upper := ⟨readableOver, distinctOver⟩
  have unmoved := inPlace lower upper rfl rfl
  refine ⟨lower, upper, rfl, rfl, ?_, ?_⟩
  · rw [merge_object, Patch.overlaid_object]
    exact reshuffled_of_inPlace upper lower legible legibleOver unmoved
  · rw [merge_object, Patch.overlaid_object, Json.object.injEq]
    exact laid_relocate_iff_inOrder upper lower legible legibleOver unmoved

/-- Both sides have an object in a half that they share; below it, and beside it, the private side
adds a half that opens with objects. -/
theorem merge_eq_overlaid_of_order :
    let base : Members := [("required", .object [("object", .object [("o", .object
      [("required", .object [("string", .object [("a", .object [])])])])])])]
    let overlay : Members := [("required", .object [("object", .object [("o", .object
        [("optional", .object [("object", .object [("p", .object [])]),
          ("number", .object [("n", .object [])])])])])]),
      ("optional", .object [("object", .object [("q", .object [])])])]
    (∃ read, Collection.ofValue 3 (.object base) = .ok read) ∧
      (∃ read, Collection.ofValue 3 (.object overlay) = .ok read) ∧
      (Json.object base).Distinct ∧ (Json.object overlay).Distinct ∧
      (∀ path inner, Descends Shared (base, overlay) path inner → InPlace inner.1 inner.2) ∧
      Reshuffled (merge (.object base) (.object overlay))
        ((Json.object base).overlaid (.object overlay)) ∧
      merge (.object base) (.object overlay) = (Json.object base).overlaid (.object overlay) ∧
      ∀ path inner, Descends Shared (base, overlay) path inner → InOrder inner.1 inner.2 := by
  intro base overlay
  have read : Collection.ofValue 3 (.object base) = .ok _ := rfl
  have readOver : Collection.ofValue 3 (.object overlay) = .ok _ := rfl
  have distinct : (Json.object base).Distinct := by
    simp [base, Json.Distinct, Json.DistinctMembers, Entries.Distinct]
  have distinctOver : (Json.object overlay).Distinct := by
    simp [overlay, Json.Distinct, Json.DistinctMembers, Entries.Distinct]
  have inPlace : ∀ path inner, Descends Shared (base, overlay) path inner →
      InPlace inner.1 inner.2 := by
    refine forall_descends_of_objectsIn (inPlace_of_steps (by decide)) ?_
    refine List.forall_mem_singleton.mpr
      (List.forall_mem_cons.mpr ⟨?_, List.forall_mem_singleton.mpr ?_⟩)
    · exact forall_descends_of_objectsIn (inPlace_of_steps (by decide)) fun _ none => by cases none
    · exact forall_descends_of_objectsIn (inPlace_of_steps (by decide)) fun _ none => by cases none
  have outcome : merge (.object base) (.object overlay) =
      (Json.object base).overlaid (.object overlay) := by cbv
  obtain ⟨_, _, same, sameOver, reshuffled, ordered⟩ := merge_eq_overlaid_iff read readOver distinct
    distinctOver fun lower upper same sameOver => by cases same; cases sameOver; exact inPlace
  cases same
  cases sameOver
  exact ⟨⟨_, read⟩, ⟨_, readOver⟩, distinct, distinctOver, inPlace, reshuffled, outcome,
    ordered.mp outcome⟩

/-- The group of objects comes first after relocation, and otherwise after that of numbers. -/
theorem objects_ahead_of_numbers :
    let base : Members := [("required", .object [("string", .object [("s", .object [])])])]
    let overlay : Members := [("required", .object [("number", .object [("n", .object [])]),
      ("object", .object [("o", .object [])])])]
    (∃ read, Collection.ofValue 2 (.object base) = .ok read) ∧
      (∃ read, Collection.ofValue 2 (.object overlay) = .ok read) ∧
      (Json.object base).Distinct ∧ (Json.object overlay).Distinct ∧
      (∀ path inner, Descends Shared (base, overlay) path inner → InPlace inner.1 inner.2) ∧
      merge (.object base) (.object overlay) = .object [("required", .object
        [("string", .object [("s", .object [])]), ("object", .object [("o", .object [])]),
          ("number", .object [("n", .object [])])])] ∧
      (Json.object base).overlaid (.object overlay) = .object [("required", .object
        [("string", .object [("s", .object [])]), ("number", .object [("n", .object [])]),
          ("object", .object [("o", .object [])])])] ∧
      merge (.object base) (.object overlay) ≠ (Json.object base).overlaid (.object overlay) := by
  intro base overlay
  have inPlace : ∀ path inner, Descends Shared (base, overlay) path inner →
      InPlace inner.1 inner.2 :=
    forall_descends_of_objectsIn (inPlace_of_steps (by decide)) fun _ none => by cases none
  have merged : merge (.object base) (.object overlay) = .object [("required", .object
      [("string", .object [("s", .object [])]), ("object", .object [("o", .object [])]),
        ("number", .object [("n", .object [])])])] := by cbv
  have overlaid : (Json.object base).overlaid (.object overlay) = .object [("required", .object
      [("string", .object [("s", .object [])]), ("number", .object [("n", .object [])]),
        ("object", .object [("o", .object [])])])] := by cbv
  refine ⟨⟨_, rfl⟩, ⟨_, rfl⟩, ?_, ?_, inPlace, merged, overlaid, ?_⟩
  · simp [base, Json.Distinct, Json.DistinctMembers, Entries.Distinct]
  · simp [overlay, Json.Distinct, Json.DistinctMembers, Entries.Distinct]
  · rw [merged, overlaid]
    simp

end FieldSchema.Overlay
