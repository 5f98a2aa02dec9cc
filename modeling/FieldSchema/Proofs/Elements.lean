import FieldSchema.Proofs.Patch
import FieldSchema.Proofs.StableSort
import Mathlib

/-! Patches of arrays. A patch is kept under the text of an index, and the element takes the one under
its decimal text. A key that spells the index of an element in another way stands for one more copy of
it: an array is patched in place exactly if each of these copies is deleted. -/
namespace FieldSchema

namespace Text

theorem decimal_toDigits (n : Nat) : decimal (Nat.toDigits 10 n) = n := by
  have read := Nat.ofDigitChars_toDigits (b := 10) (n := n) (by decide) (by decide)
  rw [Nat.ofDigitChars_eq_foldl] at read
  simp only [Nat.mul_comm 10] at read
  exact read

theorem natural?_of_digits {s : String} (limit : Nat) (written : s.toList ≠ [])
    (digits : ∀ c ∈ s.toList, isDigit c = true) : natural? limit s =
      if decimal s.toList < limit then some (decimal s.toList) else none := by
  unfold natural?
  generalize s.toList = cs at written digits
  have unsigned : ∀ rest, cs ≠ '+' :: rest := by
    rintro rest rfl
    exact absurd (digits '+' (List.mem_cons_self ..)) (by decide)
  split
  · exact absurd rfl (unsigned _)
  · have all : cs.all isDigit = true := List.all_eq_true.mpr digits
    simp [all, written]

/-- A number below the limit is read back from its decimal text. -/
theorem natural?_toString (limit n : Nat) :
    natural? limit (toString n) = if n < limit then some n else none := by
  have text : (toString n).toList = Nat.toDigits 10 n := by
    rw [Nat.toString_eq_repr, Nat.toList_repr]
  have written : (toString n).toList ≠ [] := by rw [text]; exact Nat.toDigits_ne_nil
  have digits : ∀ c ∈ (toString n).toList, isDigit c = true := by
    intro c member
    rw [text] at member
    exact Nat.isDigit_of_mem_toDigits (by decide) (by decide) member
  rw [natural?_of_digits limit written digits, text, decimal_toDigits]

theorem toString_inj {m n : Nat} : toString m = toString n ↔ m = n := by
  refine ⟨fun same => ?_, fun same => same ▸ rfl⟩
  have texts := congrArg String.toList same
  rw [Nat.toString_eq_repr, Nat.toString_eq_repr, Nat.toList_repr, Nat.toList_repr] at texts
  rw [← decimal_toDigits m, texts, decimal_toDigits]

end Text

/-- Each element gives one value at most and some more; it gives just the one where there are no more. -/
theorem flatMap_toList_append_eq_iff {α β : Type} {f : α → Option β} {more : α → List β}
    {xs : List α} : (xs.flatMap fun x => (f x).toList ++ more x) = xs.filterMap f ↔
      ∀ x ∈ xs, more x = [] := by
  have counted : (xs.flatMap fun x => (f x).toList ++ more x).length =
      (xs.filterMap f).length + (xs.flatMap more).length := by
    induction xs with
    | nil => rfl
    | cons x rest ih =>
      simp only [List.flatMap_cons, List.filterMap_eq_flatMap_toList, List.length_append] at ih ⊢
      omega
  constructor
  · intro same
    have none : (xs.flatMap more).length = 0 := by rw [same] at counted; omega
    exact List.flatMap_eq_nil_iff.mp (List.length_eq_zero_iff.mp none)
  · intro none
    rw [List.filterMap_eq_flatMap_toList]
    exact List.flatMap_congr fun x member => by rw [none x member, List.append_nil]

namespace Patch

variable {entries : List (String × Patch)} {items : List Json}

/-- The elements in their order, each under the patch that its index has in decimal digits. -/
def inPlace (entries : List (String × Patch)) (items : List Json) : List Json :=
  items.zipIdx.filterMap fun (item, i) => apply (patchAt entries (toString i)) item

/-- What the keys that spell an index in another way make of its element, in a list of `n`. -/
def copies (entries : List (String × Patch)) (n : Nat) (item : Json) (i : Nat) : List Json :=
  entries.filterMap fun (key, patch) =>
    if key ≠ toString i ∧ index? n key = some i then apply patch item else none

/-- The elements that a patch adds behind the `n` that are there, in the order of their indices. -/
def newItems (entries : List (String × Patch)) (n : Nat) : List Json :=
  let indexed := (materializeEntries entries).filterMap fun (key, value) =>
    (index? n key).map (·, value)
  ((indexed.filter fun (i, _) => n ≤ i).mergeSort fun a b => a.1 ≤ b.1).map Prod.snd

theorem index?_toString (n i : Nat) :
    index? n (toString i) = if i < max n UInt64.size then some i else none := Text.natural?_toString ..

/-- In a list that is no longer than there are numbers of 64 bits, an index is one of them. -/
theorem index?_eq_natural? {n : Nat} (fits : n ≤ UInt64.size) (key : String) :
    index? n key = Text.natural? UInt64.size key := by
  rw [index?, Nat.max_eq_right fits]

theorem index?_toString_of_lt {n i : Nat} (inside : i < n) : index? n (toString i) = some i := by
  rw [index?_toString, if_pos (by omega)]

theorem getElem?_itemChanges (items : List Json) (i : Nat) :
    (itemChanges items)[i]? = items[i]?.map fun item patch => apply patch item := by
  induction items generalizing i with
  | nil => rfl
  | cons item rest ih =>
    cases i with
    | zero => rfl
    | succ i => exact ih i

/-- The texts of the indices below `n`. -/
def indexKeys (n : Nat) : List String := (List.range n).map toString

theorem mem_indexKeys_iff {n : Nat} {key : String} : key ∈ indexKeys n ↔ ∃ i < n, toString i = key := by
  simp only [indexKeys, List.mem_map, List.mem_range]

theorem nodup_indexKeys (n : Nat) : (indexKeys n).Nodup :=
  List.Nodup.map (fun _ _ => Text.toString_inj.mp) List.nodup_range

/-- What each element becomes, with its index. -/
def indexedElements (entries : List (String × Patch)) (items : List Json) : List (Nat × Json) :=
  (List.range items.length).flatMap fun i =>
    ((items[i]?.bind (apply (patchAt entries (toString i)))).map (i, ·)).toList

/-- What the other keys make, with the indices that they spell. -/
def indexedOthers (entries : List (String × Patch)) (items : List Json) : List (Nat × Json) :=
  (entries.filter fun (key, _) => !(indexKeys items.length).contains key).filterMap
    fun (key, patch) => (index? items.length key).bind fun i =>
      (changed (items[i]?.map fun item patch => apply patch item) patch).map (i, ·)

theorem bind_index? (n : Nat) (key : String) (made : Option Json) :
    ((made.map (key, ·)).bind fun (key, value) => (index? n key).map (·, value)) =
      (index? n key).bind fun i => made.map (i, ·) := by
  cases spelled : index? n key <;> cases made <;> simp [spelled]

/-- Merging leaves the elements in their order and, behind them, what the other keys make. -/
theorem indexed_mergeEntries (distinct : Entries.Distinct entries) (items : List Json) :
    ((mergeEntries (indexKeys items.length)
      (fun key => (index? items.length key).bind fun i => (itemChanges items)[i]?) entries).filterMap
        fun (key, value) => (index? items.length key).map (·, value)) =
      indexedElements entries items ++ indexedOthers entries items := by
  simp only [mergeEntries_eq (nodup_indexKeys _) distinct, List.filterMap_append,
    List.filterMap_filterMap, bind_index?]
  refine congrArg₂ _ ?_ (List.filterMap_congr fun entry _ => ?_)
  · rw [indexKeys, List.filterMap_map, indexedElements, List.filterMap_eq_flatMap_toList]
    refine List.flatMap_congr fun i inside => ?_
    have held := List.getElem?_eq_getElem (List.mem_range.mp inside)
    dsimp only [Function.comp_apply]
    rw [index?_toString_of_lt (List.mem_range.mp inside), Option.bind_some, Option.bind_some,
      getElem?_itemChanges, held]
    rfl
  · obtain ⟨key, patch⟩ := entry
    dsimp only
    cases index? items.length key with
    | none => rfl
    | some i => rw [Option.bind_some, Option.bind_some, getElem?_itemChanges, Option.bind_some]

theorem filter_indexed (p : Nat → Bool) (i : Nat) (made : Option Json) :
    ((made.map (i, ·)).filter fun entry => p entry.1) = if p i then made.map (i, ·) else none := by
  cases made <;> cases holds : p i <;> simp [Option.filter, holds]

/-- Of the elements, one has the index. -/
theorem class_indexedElements {item : Json} {i : Nat} (held : items[i]? = some item) :
    ((indexedElements entries items).filter (·.1 = i)).map Prod.snd =
      (apply (patchAt entries (toString i)) item).toList := by
  obtain ⟨inside, -⟩ := List.getElem?_eq_some_iff.mp held
  rw [indexedElements, List.filter_flatMap,
    flatMap_of_mem List.nodup_range (List.mem_range.mpr inside) fun j _ other => ?_, held]
  · rw [Option.bind_some]
    generalize apply (patchAt entries (toString i)) item = made
    cases made <;> simp
  · generalize items[j]?.bind (apply (patchAt entries (toString j))) = made
    cases made <;> simp [other]

/-- The other keys that spell the index make copies of its element. -/
theorem class_indexedOthers {item : Json} {i : Nat} (held : items[i]? = some item) :
    ((indexedOthers entries items).filter (·.1 = i)).map Prod.snd =
      copies entries items.length item i := by
  obtain ⟨inside, -⟩ := List.getElem?_eq_some_iff.mp held
  rw [indexedOthers, List.filterMap_filter, List.filter_filterMap, List.map_filterMap, copies]
  refine List.filterMap_congr fun entry _ => ?_
  obtain ⟨key, patch⟩ := entry
  dsimp only
  by_cases named : key ∈ indexKeys items.length
  · obtain ⟨j, less, rfl⟩ := mem_indexKeys_iff.mp named
    have plain : ¬(toString j ≠ toString i ∧ some j = some i) := by
      rintro ⟨other, same⟩
      exact other (congrArg toString (Option.some.inj same))
    rw [if_neg (by simpa using named), index?_toString_of_lt less, if_neg plain]
    rfl
  · have other : key ≠ toString i := fun same =>
      named (mem_indexKeys_iff.mpr ⟨i, inside, same.symm⟩)
    rw [if_pos (by simpa using named)]
    cases index? items.length key with
    | none => rw [if_neg (by simp)]; rfl
    | some j =>
      rw [Option.bind_some, filter_indexed fun j => decide (j = i)]
      by_cases same : j = i
      · subst same
        rw [held, if_pos (decide_eq_true rfl), if_pos ⟨other, rfl⟩, Option.map_map]
        exact congrFun Option.map_id _
      · rw [if_neg (by simpa using same), if_neg (by simp [same])]
        rfl

theorem rest_indexedElements (entries : List (String × Patch)) (items : List Json) :
    (indexedElements entries items).filter (items.length ≤ ·.1) = [] := by
  refine List.filter_eq_nil_iff.mpr fun entry member => ?_
  obtain ⟨i, inside, made⟩ := List.mem_flatMap.mp member
  obtain ⟨value, -, rfl⟩ := Option.map_eq_some_iff.mp (Option.mem_toList.mp made)
  simpa using List.mem_range.mp inside

/-- Behind the elements there is nothing to change, and an index there has no key among the texts. -/
theorem rest_indexedOthers (entries : List (String × Patch)) (items : List Json) :
    (indexedOthers entries items).filter (items.length ≤ ·.1) =
      ((materializeEntries entries).filterMap fun (key, value) =>
        (index? items.length key).map (·, value)).filter fun (i, _) => items.length ≤ i := by
  rw [indexedOthers, List.filterMap_filter, List.filter_filterMap, materializeEntries_eq_filterMap,
    List.filterMap_filterMap, List.filter_filterMap]
  refine List.filterMap_congr fun entry _ => ?_
  obtain ⟨key, patch⟩ := entry
  dsimp only
  rw [bind_index?]
  by_cases named : key ∈ indexKeys items.length
  · obtain ⟨i, less, rfl⟩ := mem_indexKeys_iff.mp named
    rw [if_neg (by simpa using named), index?_toString_of_lt less, Option.bind_some,
      filter_indexed fun i => decide (items.length ≤ i), if_neg (by simpa using less)]
    rfl
  · rw [if_pos (by simpa using named)]
    cases index? items.length key with
    | none => rfl
    | some i =>
      rw [Option.bind_some, Option.bind_some, filter_indexed fun i => decide (items.length ≤ i),
        filter_indexed fun i => decide (items.length ≤ i)]
      by_cases beyond : items.length ≤ i
      · rw [List.getElem?_eq_none beyond, Option.map_none, changed]
      · rw [if_neg (by simpa using beyond), if_neg (by simpa using beyond)]

/-- How an array merges: its elements in their order, each under the patch of its decimal text and with
copies of it for the other keys that spell its index; and behind them what is added. -/
theorem apply_array (distinct : Entries.Distinct entries) (isList : Bool) (items : List Json) :
    apply (.merge entries isList) (.array items) = some (.array
      ((items.zipIdx.flatMap fun (item, i) => (apply (patchAt entries (toString i)) item).toList ++
        copies entries items.length item i) ++ newItems entries items.length)) := by
  have elements : ((List.range items.length).flatMap fun i => ((indexedElements entries items ++
      indexedOthers entries items).filter (·.1 = i)).map Prod.snd) =
      items.zipIdx.flatMap fun (item, i) => (apply (patchAt entries (toString i)) item).toList ++
        copies entries items.length item i := by
    rw [List.range_eq_range', ← List.zipIdx_map_snd, List.flatMap_map]
    refine List.flatMap_congr fun entry member => ?_
    have held := List.mem_zipIdx_iff_getElem?.mp member
    rw [List.filter_append, List.map_append, class_indexedElements held, class_indexedOthers held]
  have added : (((indexedElements entries items ++ indexedOthers entries items).filter
      (items.length ≤ ·.1)).mergeSort fun a b => a.1 ≤ b.1).map Prod.snd =
      newItems entries items.length := by
    rw [List.filter_append, rest_indexedElements, rest_indexedOthers, List.nil_append, newItems]
  rw [apply]
  dsimp only
  rw [inIndexOrder]
  dsimp only
  rw [← indexKeys, indexed_mergeEntries distinct, mergeSort_eq_classes items.length, List.map_append,
    List.map_flatMap, elements, added]

theorem copies_eq_nil_iff {n : Nat} {item : Json} {i : Nat} : copies entries n item i = [] ↔
    ∀ key patch, (key, patch) ∈ entries → index? n key = some i → key ≠ toString i →
      apply patch item = none := by
  rw [copies, List.filterMap_eq_nil_iff, Prod.forall]
  refine forall₂_congr fun key patch => ?_
  rw [ite_eq_right_iff, and_imp]
  exact ⟨fun all member spelled other => all member other spelled,
    fun all member other spelled => all member spelled other⟩

/-- What is added behind `n` elements comes from the keys that spell an index from there on. -/
theorem mem_newItems_iff {n : Nat} {value : Json} : value ∈ newItems entries n ↔
    ∃ key patch i, (key, patch) ∈ entries ∧ index? n key = some i ∧ n ≤ i ∧
      patch.materialize = some value := by
  unfold newItems
  rw [materializeEntries_eq_filterMap]
  simp only [List.mem_map, List.mem_mergeSort, List.mem_filter, List.mem_filterMap,
    Option.map_eq_some_iff, decide_eq_true_eq]
  constructor
  · rintro ⟨⟨i, _⟩, ⟨⟨_, ⟨⟨key, patch⟩, member, made, rest, rfl⟩, j, spelled, same⟩, beyond⟩, rfl⟩
    cases same
    exact ⟨key, patch, i, member, spelled, beyond, rest⟩
  · rintro ⟨key, patch, i, member, spelled, beyond, made⟩
    exact ⟨(i, value), ⟨⟨(key, value), ⟨(key, patch), member, value, made, rfl⟩, i, spelled, rfl⟩,
      beyond⟩, rfl⟩

theorem newItems_eq_nil {n : Nat} (kept : ∀ entry ∈ entries, entry.2 = .keep) :
    newItems entries n = [] := by
  refine List.eq_nil_iff_forall_not_mem.mpr fun value added => ?_
  obtain ⟨key, patch, i, member, -, -, made⟩ := mem_newItems_iff.mp added
  cases kept _ member
  cases made

theorem inPlace_of_kept (kept : ∀ entry ∈ entries, entry.2 = .keep) :
    inPlace entries items = items := by
  have none : ∀ key, patchAt entries key = .keep := by
    intro key
    unfold patchAt
    cases found : entries.lookup key with
    | none => rfl
    | some patch =>
      obtain ⟨before, after, rfl, -⟩ := List.lookup_eq_some_iff.mp found
      exact kept (key, patch) (by simp)
  have each : (fun entry : Json × Nat => apply (patchAt entries (toString entry.2)) entry.1) =
      fun entry => some entry.1 := by
    funext entry
    rw [none, apply_keep]
  rw [inPlace, each, List.filterMap_eq_map', List.zipIdx_map_fst]

/-- When an array is patched in place: its elements in their order, each under the patch of its
decimal text, then the values of the keys that spell an index behind them, in the order of the indices.
This is so exactly if whatever else spells the index of an element deletes; in particular an array is
kept by patches that keep exactly if nothing else spells the index of one of its elements. -/
theorem apply_array_iff (distinct : Entries.Distinct entries) (isList : Bool) (items : List Json) :
    (apply (.merge entries isList) (.array items) =
        some (.array (inPlace entries items ++ newItems entries items.length)) ↔
      ∀ key patch i item, (key, patch) ∈ entries → index? items.length key = some i →
        items[i]? = some item → key ≠ toString i → apply patch item = none) ∧
    (∀ value ∈ newItems entries items.length, ∃ key patch, (key, patch) ∈ entries ∧
      (∀ i < items.length, key ≠ toString i) ∧ patch.materialize = some value) ∧
    ((∀ entry ∈ entries, entry.2 = .keep) →
      (apply (.merge entries isList) (.array items) = some (.array items) ↔
        ∀ key ∈ Entries.names entries, ∀ i < items.length, index? items.length key = some i →
          key = toString i)) := by
  have inPlaceIff : apply (.merge entries isList) (.array items) =
      some (.array (inPlace entries items ++ newItems entries items.length)) ↔
      ∀ key patch i item, (key, patch) ∈ entries → index? items.length key = some i →
        items[i]? = some item → key ≠ toString i → apply patch item = none := by
    rw [apply_array distinct, Option.some.injEq, Json.array.injEq, List.append_left_inj, inPlace,
      flatMap_toList_append_eq_iff]
    simp only [Prod.forall, copies_eq_nil_iff, List.mem_zipIdx_iff_getElem?]
    exact ⟨fun all key patch i item member spelled held => all item i held key patch member spelled,
      fun all item i held key patch member spelled => all key patch i item member spelled held⟩
  refine ⟨inPlaceIff, fun value added => ?_, fun kept => ?_⟩
  · obtain ⟨key, patch, j, member, spelled, beyond, made⟩ := mem_newItems_iff.mp added
    refine ⟨key, patch, member, fun i inside same => ?_, made⟩
    rw [same, index?_toString_of_lt inside] at spelled
    cases spelled
    omega
  · rw [inPlace_of_kept kept, newItems_eq_nil kept, List.append_nil] at inPlaceIff
    rw [inPlaceIff]
    constructor
    · intro deleted key named i inside spelled
      by_contra other
      obtain ⟨⟨_, patch⟩, member, rfl⟩ := List.mem_map.mp named
      cases kept _ member
      have gone := deleted _ _ i _ member spelled (List.getElem?_eq_getElem inside) other
      rw [apply_keep] at gone
      cases gone
    · intro plain key patch i item member spelled held other
      obtain ⟨inside, -⟩ := List.getElem?_eq_some_iff.mp held
      exact absurd (plain key (List.mem_map_of_mem member) i inside spelled) other

/-- A second spelling of an index that deletes, an element that is deleted, and two values that are
added, the later index first. -/
theorem apply_array_iff_of_spellings :
    let entries : List (String × Patch) := [("4", .override (.string "z")), ("1", .delete),
      ("01", .delete), ("+3", .override (.string "y")), ("x", .override .null)]
    let items : List Json := [.string "a", .string "b", .string "c"]
    Entries.Distinct entries ∧
      (∀ key patch i item, (key, patch) ∈ entries → index? items.length key = some i →
        items[i]? = some item → key ≠ toString i → apply patch item = none) ∧
      apply (.merge entries false) (.array items) =
        some (.array [.string "a", .string "c", .string "y", .string "z"]) := by
  intro entries items
  have distinct : Entries.Distinct entries := by simp [entries, Entries.Distinct]
  have outcome : inPlace entries items ++ newItems entries items.length =
      [.string "a", .string "c", .string "y", .string "z"] := by cbv
  have done := (apply_array_iff distinct false items).1
  rw [outcome] at done
  exact ⟨distinct, done.mp (by cbv), by cbv⟩

/-- A zero in front of an index makes a second copy of the element, though nothing is changed. -/
theorem kept_element_doubled :
    let kept : Patch := .merge [("01", .keep)] false
    apply kept (.array [.string "a", .string "b"]) =
        some (.array [.string "a", .string "b", .string "b"]) ∧
      apply kept (.array [.string "a", .string "b"]) ≠
        some (.array [.string "a", .string "b"]) := by
  intro kept
  have doubled : apply kept (.array [.string "a", .string "b"]) =
      some (.array [.string "a", .string "b", .string "b"]) := by cbv
  refine ⟨doubled, fun unchanged => ?_⟩
  cases doubled.symm.trans unchanged

end Patch

end FieldSchema
