import FieldSchema.Proofs.Elements
import FieldSchema.Proofs.Occurrence

/-! Laying a value over another one twice. An overlay without nulls deletes nothing, so all that it
says stands after it was laid once, and laying it again changes nothing. An array takes an overlay that
is an array element by element, an object takes it as an object whose names are the indices. -/
namespace FieldSchema

namespace Json

/-- No null is anywhere in the value. -/
def NullFree (value : Json) : Prop := ¬ Json.null.Occurs value

namespace NullFree

theorem isNull {value : Json} (free : value.NullFree) : value.isNull = false := by
  cases value with
  | null => exact absurd .here free
  | bool | number | string | array | object => rfl

theorem of_occurs {value part : Json} (free : value.NullFree) (occurs : part.Occurs value) :
    part.NullFree := fun inside => free (inside.trans occurs)

end NullFree

theorem nullFree_array_iff {items : List Json} :
    (Json.array items).NullFree ↔ ∀ item ∈ items, item.NullFree := by
  simp [NullFree, occurs_array_iff]

theorem nullFree_object_iff {members : Members} :
    (Json.object members).NullFree ↔ ∀ entry ∈ members, entry.2.NullFree := by
  simp [NullFree, occurs_object_iff]

namespace NullFree

theorem of_item {items : List Json} (free : (Json.array items).NullFree) {item : Json}
    (member : item ∈ items) : item.NullFree := nullFree_array_iff.mp free item member

theorem of_member {members : Members} (free : (Json.object members).NullFree) {name : String}
    {value : Json} (member : (name, value) ∈ members) : value.NullFree :=
  nullFree_object_iff.mp free _ member

end NullFree

theorem itemsWithoutNulls_eq_self {items : List Json}
    (each : ∀ item ∈ items, item.isNull = false ∧ item.withoutNulls = item) :
    itemsWithoutNulls items = items := by
  induction items with
  | nil => rfl
  | cons item rest ih =>
    obtain ⟨⟨declared, same⟩, others⟩ := List.forall_mem_cons.mp each
    rw [itemsWithoutNulls, declared, if_neg Bool.false_ne_true, same, ih others]

theorem membersWithoutNulls_eq_self {members : Members}
    (each : ∀ entry ∈ members, entry.2.isNull = false ∧ entry.2.withoutNulls = entry.2) :
    membersWithoutNulls members = members := by
  induction members with
  | nil => rfl
  | cons entry rest ih =>
    obtain ⟨name, value⟩ := entry
    obtain ⟨⟨declared, same⟩, others⟩ := List.forall_mem_cons.mp each
    rw [membersWithoutNulls, declared, if_neg Bool.false_ne_true, same, ih others]

theorem NullFree.withoutNulls_eq {value : Json} (free : value.NullFree) :
    value.withoutNulls = value := by
  induction value using Json.induction with
  | array items ih =>
    rw [withoutNulls, itemsWithoutNulls_eq_self fun item member =>
      ⟨(free.of_item member).isNull, ih item member (free.of_item member)⟩]
  | object members ih =>
    rw [withoutNulls, membersWithoutNulls_eq_self fun entry member =>
      ⟨(free.of_member member).isNull, ih _ _ member (free.of_member member)⟩]
  | scalar value noArray noObject =>
    cases value with
    | array items => cases noArray
    | object members => cases noObject
    | null | bool | number | string => rfl

/-- Somewhere an object of the second value is laid over an array of the first. -/
inductive ObjectOverArray : Json → Json → Prop where
  | here {items : List Json} {members : Members} : ObjectOverArray (.array items) (.object members)
  | member {lower upper : Members} {name : String} {a b : Json} : lower.lookup name = some a →
    upper.lookup name = some b → ObjectOverArray a b → ObjectOverArray (.object lower) (.object upper)
  | element {lower upper : List Json} {i : Nat} {a b : Json} : lower[i]? = some a →
    upper[i]? = some b → ObjectOverArray a b → ObjectOverArray (.array lower) (.array upper)
  | index {lower : Members} {upper : List Json} {i : Nat} {a b : Json} :
    lower.lookup (toString i) = some a → upper[i]? = some b → ObjectOverArray a b →
      ObjectOverArray (.object lower) (.array upper)

/-- Over what is neither an array nor an object, no object meets an array. -/
theorem apart_scalar {lower upper : Json} (noArray : lower.array? = none)
    (noObject : lower.object? = none) : ¬ ObjectOverArray lower upper := by
  intro clash
  cases clash with
  | here | element => cases noArray
  | member | index => cases noObject

/-- Two objects are apart if all members of the lower one are. -/
theorem apart_objects {lower upper : Members}
    (each : ∀ entry ∈ lower, ∀ b, upper.lookup entry.1 = some b → ¬ ObjectOverArray entry.2 b) :
    ¬ ObjectOverArray (.object lower) (.object upper) := by
  intro clash
  cases clash with
  | member held found clash => exact each _ (Entries.mem_of_lookup held) _ found clash

theorem apart_arrays {lower upper : List Json}
    (each : ∀ pair ∈ lower.zip upper, ¬ ObjectOverArray pair.1 pair.2) :
    ¬ ObjectOverArray (.array lower) (.array upper) := by
  intro clash
  cases clash with
  | @element _ _ i a b held found clash =>
    refine each (a, b) (List.mem_of_getElem? (i := i) ?_) clash
    rw [List.getElem?_zip_eq_some]
    exact ⟨held, found⟩

theorem apart_object_array {lower : Members} {upper : List Json}
    (each : ∀ entry ∈ lower, ∀ b ∈ upper, ¬ ObjectOverArray entry.2 b) :
    ¬ ObjectOverArray (.object lower) (.array upper) := by
  intro clash
  cases clash with
  | index held found clash =>
    exact each _ (Entries.mem_of_lookup held) _ (List.mem_of_getElem? found) clash

/-- The elements of an array as members, each under the text of its index. -/
def indexed (items : List Json) : Members := items.zipIdx.map fun (item, i) => (toString i, item)

theorem mem_indexed_iff {items : List Json} {name : String} {value : Json} :
    (name, value) ∈ indexed items ↔ ∃ i : Nat, name = toString i ∧ items[i]? = some value := by
  simp only [indexed, List.mem_map, Prod.exists, Prod.mk.injEq, List.mem_zipIdx_iff_getElem?]
  constructor
  · rintro ⟨_, i, held, rfl, rfl⟩
    exact ⟨i, rfl, held⟩
  · rintro ⟨i, rfl, held⟩
    exact ⟨value, i, held, rfl, rfl⟩

theorem distinct_indexed (items : List Json) : Entries.Distinct (indexed items) := by
  have texts : Entries.names (indexed items) = (items.zipIdx.map Prod.snd).map fun i => toString i := by
    rw [Entries.names, indexed, List.map_map, List.map_map]
    rfl
  rw [Entries.Distinct, texts, List.zipIdx_map_snd]
  exact List.Nodup.map (fun _ _ => Text.toString_inj.mp) List.nodup_range'

theorem lookup_indexed (items : List Json) (i : Nat) :
    (indexed items).lookup (toString i) = items[i]? := by
  cases held : items[i]? with
  | none =>
    refine Entries.lookup_eq_none_iff.mpr fun member => ?_
    obtain ⟨⟨_, value⟩, member, same⟩ := List.mem_map.mp member
    obtain ⟨j, rfl, held'⟩ := mem_indexed_iff.mp member
    cases Text.toString_inj.mp same
    rw [held] at held'
    cases held'
  | some value =>
    exact (Entries.lookup_eq_some_iff (distinct_indexed items)).mpr
      (mem_indexed_iff.mpr ⟨i, rfl, held⟩)

end Json

namespace Patch

theorem ofItems_eq_ofMembers (items : List Json) : ofItems 0 items = ofMembers (Json.indexed items) := by
  have each : ∀ start, ofItems start items =
      (items.zipIdx start).map fun (item, i) => (toString i, ofValue item) := by
    intro start
    induction items generalizing start with
    | nil => rfl
    | cons item rest ih => rw [ofItems, ih, List.zipIdx_cons, List.map_cons]
  rw [each, ofMembers_eq_map, Json.indexed, List.map_map]
  rfl

theorem patchAt_indexed (upper : List Json) (i : Nat) (item : Json) :
    apply (patchAt (ofItems 0 upper) (toString i)) item = laid (some item) upper[i]? := by
  rw [ofItems_eq_ofMembers, patchAt, lookup_ofMembers, Json.lookup_indexed]
  cases upper[i]? with
  | none => exact apply_keep item
  | some value => rfl

theorem distinct_ofItems (upper : List Json) : Entries.Distinct (ofItems 0 upper) := by
  rw [ofItems_eq_ofMembers]
  exact distinct_ofMembers (Json.distinct_indexed upper)

/-- The keys of a patch that comes from an array are decimal texts. -/
theorem copies_indexed (upper : List Json) (n : Nat) (item : Json) (i : Nat) :
    copies (ofItems 0 upper) n item i = [] := by
  rw [ofItems_eq_ofMembers, ofMembers_eq_map]
  refine copies_eq_nil_iff.mpr fun key patch member spelled other => ?_
  obtain ⟨⟨_, value⟩, inside, same⟩ := List.mem_map.mp member
  cases same
  obtain ⟨j, rfl, -⟩ := Json.mem_indexed_iff.mp inside
  rw [index?_toString] at spelled
  split at spelled
  · cases spelled
    exact absurd rfl other
  · cases spelled

theorem elements_indexed {upper : List Json} (free : (Json.array upper).NullFree)
    (lower : List Json) : (lower.zipIdx.flatMap fun (item, i) =>
      (apply (patchAt (ofItems 0 upper) (toString i)) item).toList ++
        copies (ofItems 0 upper) lower.length item i) =
      lower.zipIdx.map fun (item, i) => (upper[i]?).elim item item.overlaid := by
  rw [flatMap_toList_append_eq_iff.mpr fun entry _ => copies_indexed upper ..,
    ← List.filterMap_eq_map']
  refine List.filterMap_congr fun entry _ => ?_
  obtain ⟨item, i⟩ := entry
  dsimp only
  rw [patchAt_indexed]
  cases held : upper[i]? with
  | none => exact laid_none _
  | some value => exact apply_ofValue (free.of_item (List.mem_of_getElem? held)).isNull item

theorem filter_zipIdx_le {α : Type} (values : List α) (n start : Nat) :
    (((values.zipIdx start).map Prod.swap).filter fun (i, _) => n ≤ i).map Prod.snd =
      values.drop (n - start) := by
  induction values generalizing start with
  | nil => simp
  | cons value rest ih =>
    rw [List.zipIdx_cons, List.map_cons, List.filter_cons]
    by_cases reached : n ≤ start
    · have here : n - start = 0 := by omega
      have next : n - (start + 1) = 0 := by omega
      simpa [reached, here, next] using ih (start + 1)
    · have here : n - start = n - (start + 1) + 1 := by omega
      simpa [reached, here] using ih (start + 1)

/-- Values with their indices, from some index on, are sorted already. -/
theorem sorted_indices {α : Type} (values : List α) (n : Nat) :
    ((((values.zipIdx.map Prod.swap).filter fun (i, _) => n ≤ i).mergeSort
      fun a b => a.1 ≤ b.1).map Prod.snd) = values.drop n := by
  have ascending : values.zipIdx.Pairwise fun a b => a.2 < b.2 := by
    rw [← List.pairwise_map (f := Prod.snd) (R := (· < ·)), List.zipIdx_map_snd]
    exact List.pairwise_lt_range'
  have sorted : ((values.zipIdx.map Prod.swap).filter fun (i, _) => n ≤ i).Pairwise
      fun a b => decide (a.1 ≤ b.1) = true := by
    apply List.Pairwise.filter
    apply List.pairwise_map.mpr
    refine ascending.imp fun {a b} less => ?_
    simpa using Nat.le_of_lt less
  rw [List.mergeSort_of_pairwise sorted]
  exact filter_zipIdx_le values n 0

theorem filterMap_zipIdx_lt {α : Type} (values : List α) (bound start : Nat) :
    ((values.zipIdx start).filterMap fun entry => if entry.2 < bound then some entry.swap else none) =
      ((values.take (bound - start)).zipIdx start).map Prod.swap := by
  induction values generalizing start with
  | nil => simp
  | cons value rest ih =>
    rw [List.zipIdx_cons, List.filterMap_cons]
    by_cases inside : start < bound
    · have here : bound - start = bound - (start + 1) + 1 := by omega
      simp [inside, here, ih (start + 1)]
    · have here : bound - start = 0 := by omega
      have next : bound - (start + 1) = 0 := by omega
      simpa [inside, here, next] using ih (start + 1)

theorem newItems_indexed {upper : List Json} (free : (Json.array upper).NullFree) (n : Nat) :
    newItems (ofItems 0 upper) n = (upper.take (max n UInt64.size)).drop n := by
  have whole : materializeEntries (ofItems 0 upper) = Json.indexed upper := by
    rw [ofItems_eq_ofMembers, materialize_ofMembers]
    refine Json.membersWithoutNulls_eq_self fun entry member => ?_
    obtain ⟨i, -, held⟩ := Json.mem_indexed_iff.mp member
    have freeItem := free.of_item (List.mem_of_getElem? held)
    exact ⟨freeItem.isNull, freeItem.withoutNulls_eq⟩
  have read : (Json.indexed upper).filterMap (fun entry => (index? n entry.1).map (·, entry.2)) =
      upper.zipIdx.filterMap fun entry =>
        if entry.2 < max n UInt64.size then some entry.swap else none := by
    rw [Json.indexed, List.filterMap_map]
    refine List.filterMap_congr fun entry _ => ?_
    simp only [Function.comp_apply, index?_toString]
    split <;> rfl
  rw [newItems, whole, read, filterMap_zipIdx_lt, Nat.sub_zero]
  exact sorted_indices _ n

/-- The elements of one array laid over those of another. -/
def laidItems (lower upper : List Json) : List Json :=
  (lower.zipIdx.map fun (item, i) => (upper[i]?).elim item item.overlaid) ++
    (upper.take (max lower.length UInt64.size)).drop lower.length

theorem laid_arrays {upper : List Json} (free : (Json.array upper).NullFree) (lower : List Json) :
    laid (some (.array lower)) (some (.array upper)) = some (.array (laidItems lower upper)) := by
  rw [laid, ofValue, apply_array (distinct_ofItems upper), elements_indexed free,
    newItems_indexed free, laidItems]

/-- An object takes the elements of an array as members. -/
theorem laid_object_array (lower : Members) (upper : List Json) :
    laid (some (.object lower)) (some (.array upper)) =
      some (.object (laidMembers lower (Json.indexed upper))) := by
  rw [laid, ofValue, apply, ofItems_eq_ofMembers]
  rfl

theorem none_laid_of_nullFree {value : Json} (free : value.NullFree) :
    laid none (some value) = some value := by
  rw [none_laid free.isNull, free.withoutNulls_eq]

theorem length_laidItems (lower upper : List Json) : (laidItems lower upper).length =
    max lower.length (min upper.length (max lower.length UInt64.size)) := by
  simp only [laidItems, List.length_append, List.length_map, List.length_zipIdx, List.length_drop,
    List.length_take]
  omega

/-- Elements with the same index are laid over each other; behind them only a number of 64 bits is an
index. -/
theorem getElem?_laidItems {upper : List Json} (free : (Json.array upper).NullFree)
    (lower : List Json) (i : Nat) : (laidItems lower upper)[i]? =
      if i < max lower.length UInt64.size then laid lower[i]? upper[i]? else none := by
  rw [laidItems]
  by_cases inside : i < lower.length
  · rw [if_pos (by omega), List.getElem?_append_left (by simpa using inside), List.getElem?_map,
      List.getElem?_zipIdx, List.getElem?_eq_getElem inside]
    cases held : upper[i]? with
    | none => simp [held, laid_none]
    | some value =>
      have declared := (free.of_item (List.mem_of_getElem? held)).isNull
      simp [held, laid, apply_ofValue declared]
  · have behind : lower.length ≤ i := by omega
    have absent : lower[i]? = none := List.getElem?_eq_none behind
    have index : lower.length + (i - lower.length) = i := by omega
    rw [List.getElem?_append_right (by simpa using behind), List.length_map, List.length_zipIdx,
      List.getElem?_drop, index, List.getElem?_take, absent]
    split
    · cases held : upper[i]? with
      | none => rfl
      | some value => rw [none_laid_of_nullFree (free.of_item (List.mem_of_getElem? held))]
    · rfl

/-- Nothing is deleted: the new names follow those that are there. -/
theorem names_laidMembers_of_nullFree {lower upper : Members} (distinct : Entries.Distinct lower)
    (distinctOver : Entries.Distinct upper) (free : (Json.object upper).NullFree) :
    Entries.names (laidMembers lower upper) = Entries.names lower ++
      (Entries.names upper).filter fun name => !Entries.has name lower := by
  have kept : ∀ name, deletes upper name = false := by
    intro name
    unfold deletes
    cases found : upper.lookup name with
    | none => rfl
    | some value => exact (free.of_member (Entries.mem_of_lookup found)).isNull
  rw [names_laidMembers distinct distinctOver]
  exact List.filter_eq_self.mpr fun name _ => by rw [kept]; rfl

/-- Objects take on nothing when the same is laid over them again, if their members do not. -/
theorem laidMembers_laidMembers {lower upper : Members} (distinct : Entries.Distinct lower)
    (distinctOver : Entries.Distinct upper) (free : (Json.object upper).NullFree)
    (each : ∀ name value, (name, value) ∈ upper →
      laid (laid (lower.lookup name) (some value)) (some value) =
        laid (lower.lookup name) (some value)) :
    laidMembers (laidMembers lower upper) upper = laidMembers lower upper := by
  have once := distinct_laidMembers distinct distinctOver
  refine (distinct_laidMembers once distinctOver).ext ?_ fun name => ?_
  · have named : ∀ name ∈ Entries.names upper, Entries.has name (laidMembers lower upper) = true := by
      intro name member
      rw [← Entries.mem_names_iff, names_laidMembers_of_nullFree distinct distinctOver free,
        List.mem_append, List.mem_filter]
      cases present : Entries.has name lower with
      | true => exact .inl (Entries.mem_names_iff.mpr present)
      | false => exact .inr ⟨member, rfl⟩
    have none : ((Entries.names upper).filter fun name =>
        !Entries.has name (laidMembers lower upper)) = [] :=
      List.filter_eq_nil_iff.mpr fun name member => by rw [named name member]; exact Bool.false_ne_true
    rw [names_laidMembers_of_nullFree once distinctOver free, none, List.append_nil]
  · rw [lookup_laidMembers once distinctOver, lookup_laidMembers distinct distinctOver]
    cases found : upper.lookup name with
    | none => rw [laid_none, laid_none]
    | some value => exact each name value (Entries.mem_of_lookup found)

theorem laidItems_laidItems {lower upper : List Json} (free : (Json.array upper).NullFree)
    (each : ∀ (i : Nat) value, upper[i]? = some value →
      laid (laid lower[i]? (some value)) (some value) = laid lower[i]? (some value)) :
    laidItems (laidItems lower upper) upper = laidItems lower upper := by
  have reach : max (laidItems lower upper).length UInt64.size = max lower.length UInt64.size := by
    rw [length_laidItems]
    omega
  refine List.ext_getElem? fun i => ?_
  rw [getElem?_laidItems free, reach, getElem?_laidItems free]
  by_cases reached : i < max lower.length UInt64.size
  · rw [if_pos reached, if_pos reached]
    cases held : upper[i]? with
    | none => rw [laid_none, laid_none]
    | some value => exact each i value held
  · rw [if_neg reached, if_neg reached]

theorem laidItems_self {items : List Json} (free : (Json.array items).NullFree)
    (each : ∀ item ∈ items, laid (some item) (some item) = some item) :
    laidItems items items = items := by
  refine List.ext_getElem? fun i => ?_
  rw [getElem?_laidItems free]
  cases held : items[i]? with
  | none => simp [laid]
  | some item =>
    obtain ⟨inside, -⟩ := List.getElem?_eq_some_iff.mp held
    rw [if_pos (by omega), each item (List.mem_of_getElem? held)]

/-- Laying the value a second time changes nothing. -/
def Stable (value : Json) : Prop :=
  ∀ target : Option Json, (∀ lower ∈ target, lower.Distinct) →
    (∀ lower ∈ target, ¬ Json.ObjectOverArray lower value) →
      laid (laid target (some value)) (some value) = laid target (some value)

theorem Stable.self {value : Json} (stable : Stable value) (free : value.NullFree) :
    laid (some value) (some value) = some value := by
  have again := stable none (by simp) (by simp)
  rwa [none_laid_of_nullFree free] at again

theorem stable_scalar {value : Json} (noArray : value.array? = none) (noObject : value.object? = none)
    (declared : value.isNull = false) : Stable value := by
  intro target _ _
  rw [laid_of_scalar noArray noObject declared, laid_of_scalar noArray noObject declared]

theorem stable_object {upper : Members} (distinctOver : Entries.Distinct upper)
    (free : (Json.object upper).NullFree)
    (each : ∀ name value, (name, value) ∈ upper → Stable value) : Stable (.object upper) := by
  intro target distinct apart
  have noArray : ∀ items, target ≠ some (.array items) := fun items same => apart _ same .here
  have lowerDistinct := Json.holds_membersOf ⟨.nil, trivial⟩ distinct
  have lowerApart : ¬ Json.ObjectOverArray (.object (Json.membersOf target)) (.object upper) :=
    Json.holds_membersOf (P := fun lower => ¬ Json.ObjectOverArray lower (.object upper))
      (by rintro ⟨⟩; contradiction) apart
  rw [laid_object noArray distinctOver, laid, apply_object]
  refine congrArg (some ∘ Json.object)
    (laidMembers_laidMembers lowerDistinct.1 distinctOver free fun name value member => ?_)
  have found := (Entries.lookup_eq_some_iff distinctOver).mpr member
  apply each name value member
  · intro lower held
    exact Json.distinct_of_mem lowerDistinct (Entries.mem_of_lookup held)
  · intro lower held clash
    exact lowerApart (.member held found clash)

/-- An array may be laid over an array, over an object, or over what it replaces. -/
theorem stable_array {upper : List Json} (free : (Json.array upper).NullFree)
    (each : ∀ item ∈ upper, Stable item) : Stable (.array upper) := by
  intro target distinct apart
  have self : laid (some (.array upper)) (some (.array upper)) = some (.array upper) := by
    rw [laid_arrays free, laidItems_self free fun item member =>
      (each item member).self (free.of_item member)]
  cases target with
  | none => rw [none_laid_of_nullFree free, self]
  | some lower =>
    cases lower with
    | null | bool | number | string =>
      rw [laid_scalar rfl rfl, none_laid_of_nullFree free, self]
    | array items =>
      rw [laid_arrays free, laid_arrays free, laidItems_laidItems free fun i value held => ?_]
      apply each value (List.mem_of_getElem? held)
      · intro lower found
        exact Json.distinctItems_iff.mp (distinct _ rfl) lower (List.mem_of_getElem? found)
      · intro lower found clash
        exact apart _ rfl (.element found held clash)
    | object members =>
      have freeIndexed : (Json.object (Json.indexed upper)).NullFree := by
        refine Json.nullFree_object_iff.mpr fun entry member => ?_
        obtain ⟨i, -, held⟩ := Json.mem_indexed_iff.mp member
        exact free.of_item (List.mem_of_getElem? held)
      rw [laid_object_array, laid_object_array, laidMembers_laidMembers (distinct _ rfl).1
        (Json.distinct_indexed upper) freeIndexed fun name value member => ?_]
      obtain ⟨i, rfl, held⟩ := Json.mem_indexed_iff.mp member
      apply each value (List.mem_of_getElem? held)
      · intro lower found
        exact Json.distinct_of_mem (distinct _ rfl) (Entries.mem_of_lookup found)
      · intro lower found clash
        exact apart _ rfl (.index found held clash)

theorem stable_of_nullFree {value : Json} (distinct : value.Distinct) (free : value.NullFree) :
    Stable value := by
  induction value using Json.induction with
  | scalar value noArray noObject => exact stable_scalar noArray noObject free.isNull
  | object members ih =>
    refine stable_object distinct.1 free fun name value member => ?_
    exact ih name value member (Json.distinct_of_mem distinct member) (free.of_member member)
  | array items ih =>
    refine stable_array free fun item member => ?_
    exact ih item member (Json.distinctItems_iff.mp distinct item member) (free.of_item member)

/-- What both sides have is laid over each other, and what only one of them has is kept. -/
theorem laid_eq_merge {lower upper : Option Json} (free : ∀ value ∈ upper, value.NullFree) :
    laid lower upper = Option.merge Json.overlaid lower upper := by
  cases upper with
  | none => rw [laid_none]; cases lower <;> rfl
  | some value =>
    have freeValue := free value rfl
    cases lower with
    | none => exact none_laid_of_nullFree freeValue
    | some lower => exact apply_ofValue freeValue.isNull lower

end Patch

namespace Json

/-- An overlay without nulls changes nothing when it is laid over a value again, unless one of its
objects meets an array of the value; and over itself it stays what it is. Two arrays are laid over each
other element by element, and the elements that only one of them has are kept. (An index is a number of
64 bits.) -/
theorem overlaid_overlaid {base overlay : Json} (distinct : base.Distinct)
    (distinctOver : overlay.Distinct) (free : overlay.NullFree)
    (apart : ¬ ObjectOverArray base overlay) :
    (base.overlaid overlay).overlaid overlay = base.overlaid overlay ∧
      overlay.overlaid overlay = overlay ∧
      ∀ lower upper : List Json, (Json.array upper).Occurs overlay → upper.length ≤ UInt64.size →
        ∃ merged, (Json.array lower).overlaid (.array upper) = .array merged ∧
          merged.length = max lower.length upper.length ∧
          ∀ i : Nat, merged[i]? = Option.merge overlaid lower[i]? upper[i]? := by
  have stable := Patch.stable_of_nullFree distinctOver free
  have applied : ∀ lower : Json, Patch.laid (some lower) (some overlay) = some (lower.overlaid overlay) :=
    Patch.apply_ofValue free.isNull
  refine ⟨?_, ?_, fun lower upper occurs short => ?_⟩
  · have again := stable (some base) (by rintro _ ⟨⟩; exact distinct) (by rintro _ ⟨⟩; exact apart)
    rw [applied, applied] at again
    exact Option.some.inj again
  · exact Option.some.inj ((applied overlay).symm.trans (stable.self free))
  · have freeUpper : (Json.array upper).NullFree := free.of_occurs occurs
    have merged : (Json.array lower).overlaid (.array upper) = .array (Patch.laidItems lower upper) :=
      Option.some.inj ((Patch.apply_ofValue freeUpper.isNull _).symm.trans
        (Patch.laid_arrays freeUpper lower))
    refine ⟨_, merged, ?_, fun i => ?_⟩
    · rw [Patch.length_laidItems]
      omega
    · rw [Patch.getElem?_laidItems freeUpper, Patch.laid_eq_merge fun value held =>
        freeUpper.of_item (List.mem_of_getElem? held)]
      split
      · rfl
      · have short : upper.length ≤ i := by omega
        rw [List.getElem?_eq_none (by omega : lower.length ≤ i), List.getElem?_eq_none short]
        rfl

/-- An array of rows that grows, and an object that takes an array under its indices. -/
theorem overlaid_overlaid_of_rows :
    let base : Json := .object [("rows", .array [.object [("n", .natural 1)], .null]),
      ("byIndex", .object [("1", .string "b")])]
    let overlay : Json := .object [("rows", .array [.object [("m", .natural 2)], .natural 3, .bool true]),
      ("byIndex", .array [.string "x", .string "y"])]
    let once : Json := .object [
      ("rows", .array [.object [("n", .natural 1), ("m", .natural 2)], .natural 3, .bool true]),
      ("byIndex", .object [("1", .string "y"), ("0", .string "x")])]
    base.Distinct ∧ overlay.Distinct ∧ overlay.NullFree ∧ ¬ ObjectOverArray base overlay ∧
      base.overlaid overlay = once ∧ once.overlaid overlay = once ∧
        overlay.overlaid overlay = overlay := by
  intro base overlay once
  have distinct : base.Distinct := by
    simp [base, Json.Distinct, Json.DistinctMembers, Json.DistinctItems, Entries.Distinct, Json.natural]
  have distinctOver : overlay.Distinct := by
    simp [overlay, Json.Distinct, Json.DistinctMembers, Json.DistinctItems, Entries.Distinct,
      Json.natural]
  have free : overlay.NullFree := by
    simp only [overlay, nullFree_object_iff, nullFree_array_iff, List.forall_mem_cons, List.not_mem_nil,
      false_imp_iff, implies_true, and_true]
    refine ⟨⟨?_, ?_, ?_⟩, ?_, ?_⟩ <;> rintro ⟨⟩
  have apart : ¬ ObjectOverArray base overlay := by
    refine apart_objects ?_
    intro entry member b found
    rcases List.mem_pair.mp member with rfl | rfl
    · cases found
      refine apart_arrays ?_
      intro pair member
      rcases List.mem_pair.mp member with rfl | rfl
      · refine apart_objects ?_
        intro entry member b found
        cases List.mem_singleton.mp member
        cases found
      · exact apart_scalar rfl rfl
    · cases found
      refine apart_object_array ?_
      intro entry member b _
      cases List.mem_singleton.mp member
      exact apart_scalar rfl rfl
  have outcome : base.overlaid overlay = once := by cbv
  obtain ⟨again, self, -⟩ := overlaid_overlaid distinct distinctOver free apart
  rw [outcome] at again
  exact ⟨distinct, distinctOver, free, apart, outcome, again, self⟩

end Json

end FieldSchema
