import FieldSchema.Proofs.Levels
import Mathlib

/-! Where the fields of a private schema laid over a public one are. Each level of the outcome is
again one schema laid over another, over nothing, or left as it is. -/
namespace FieldSchema.Overlay

/-- One level of the outcome: both sides have one, or only the private side does. -/
inductive Outcome : Members → Members → Members → Prop where
  | both (base overlay : Members) :
      Outcome base overlay (Patch.laidMembers (relocate base overlay) overlay)
  | alone (overlay : Members) : Outcome [] overlay (Patch.laidMembers [] overlay)

/-- What becomes of a private declaration, given the public one under the same tag. -/
def combined (tag : String) (declaration : Json) : Option Json → Json
  | none => declaration.withoutNulls
  | some lower =>
    if tag = Tag.object.name then merge lower declaration else lower.overlaid declaration

theorem laid_carried {declaration : Json} (declared : declaration.isNull = false) (tag : String)
    (lower : Option Json) : Patch.laid (lower.map (carried tag declaration)) (some declaration) =
      some (combined tag declaration lower) := by
  cases lower with
  | none => exact Patch.none_laid declared
  | some lower =>
    rw [Option.map_some, Patch.laid, Patch.apply_ofValue declared, combined, carried]
    split <;> rfl

theorem lookup_of_undeclared {slot : Slot} {name : String} {schema : Members}
    (undeclared : ¬ slot.Declares name schema) :
    slot.lookup name schema = none ∨ slot.lookup name schema = some .null := by
  cases found : slot.lookup name schema with
  | none => exact .inl rfl
  | some value =>
    cases value with
    | null => exact .inr rfl
    | bool | number | string | array | object => exact absurd ⟨_, found, rfl⟩ undeclared

theorem laid_none_undeclared {slot : Slot} {name : String} {overlay : Members}
    (undeclared : ¬ slot.Declares name overlay) :
    Patch.laid none (slot.lookup name overlay) = none := by
  rcases lookup_of_undeclared undeclared with absent | isNull
  · rw [absent]; rfl
  · rw [isNull, Patch.laid_null]

theorem Slot.eq_or_eq_opposite {slot other : Slot} (tag : other.tag = slot.tag) :
    other = slot ∨ other = slot.opposite := by
  obtain ⟨required, _⟩ := slot
  obtain ⟨otherRequired, _⟩ := other
  cases tag
  cases required <;> cases otherRequired <;> simp [Slot.opposite]

section

variable {base overlay merged : Members} {name : String}

theorem Outcome.lookup_undeclared (outcome : Outcome base overlay merged) (lower : Public base)
    (upper : Private overlay) (undeclared : ∀ slot : Slot, ¬ slot.Declares name overlay)
    (slot : Slot) : slot.lookup name merged =
      Patch.laid (slot.lookup name base) (slot.lookup name overlay) := by
  cases outcome with
  | both =>
    rw [lookup_laidMembers (lower.framed.relocate overlay) upper.framed,
      lookup_relocate_of_undeclared lower.framed upper.framed undeclared]
  | alone => exact lookup_laidMembers .nil upper.framed slot name

theorem Outcome.lookup_declared (outcome : Outcome base overlay merged) (lower : Public base)
    (upper : Private overlay) {slot : Slot} {value : Json}
    (found : slot.lookup name overlay = some value) (declared : value.isNull = false)
    (other : Slot) : other.lookup name merged = if other = slot then
      some (combined slot.tag value
        ((slot.lookup name base).or (slot.opposite.lookup name base))) else none := by
  have once := upper.unrepeated.once
  have elsewhere : other ≠ slot → ¬ other.Declares name overlay :=
    fun different declares => different (once name _ _ declares ⟨_, found, declared⟩)
  cases outcome with
  | both =>
    rw [lookup_laidMembers (lower.framed.relocate overlay) upper.framed,
      lookup_relocate_of_declared lower.framed upper.framed once found declared]
    split
    · next same => rw [same, found, laid_carried declared]
    · next different => exact laid_none_undeclared (elsewhere different)
  | alone =>
    rw [lookup_laidMembers .nil upper.framed]
    split
    · next same => rw [same, found]; exact laid_carried declared slot.tag none
    · next different => exact laid_none_undeclared (elsewhere different)

/-! What the public side has under the tag of the private one. -/

theorem Public.declares (lower : Public base) {slot : Slot} {value : Json}
    (found : slot.lookup name base = some value) : slot.Declares name base := by
  obtain ⟨inner, rfl⟩ := lower.object found
  exact ⟨_, found, rfl⟩

theorem Public.lookup_either (lower : Public base) {slot other : Slot} (tag : other.tag = slot.tag)
    {value : Json} (found : other.lookup name base = some value) :
    (slot.lookup name base).or (slot.opposite.lookup name base) = some value := by
  rcases Slot.eq_or_eq_opposite tag with rfl | rfl
  · rw [found, Option.some_or]
  · cases here : slot.lookup name base with
    | none => rwa [Option.none_or]
    | some present =>
      have same := lower.unrepeated.once name _ _ (lower.declares here) (lower.declares found)
      rw [← same, here] at found
      rwa [Option.some_or]

theorem Public.lookup_eq_none (lower : Public base) {slot : Slot}
    (undeclared : ¬ slot.Declares name base) : slot.lookup name base = none := by
  cases found : slot.lookup name base with
  | none => rfl
  | some value => exact absurd (lower.declares found) undeclared

theorem lookup_neither {slot : Slot}
    (absent : ∀ other : Slot, other.tag = slot.tag → other.lookup name base = none) :
    (slot.lookup name base).or (slot.opposite.lookup name base) = none := by
  rw [absent slot rfl, absent slot.opposite rfl, Option.none_or]

end

/-- Where the fields of one level are, and what is declared there. -/
structure Placement (base overlay merged : Members) : Prop where
  once : ∀ (name : String) (slot other : Slot), (slot.lookup name merged).isSome →
    (other.lookup name merged).isSome → slot = other
  /-- The public side loses the names that the private one sets to null where they are. -/
  names : ∀ name : String, (∃ slot : Slot, (slot.lookup name merged).isSome) ↔
    (∃ slot : Slot, slot.Declares name overlay) ∨
      ∃ slot : Slot, slot.Declares name base ∧ slot.lookup name overlay ≠ some .null
  slotOfOverlay : ∀ (name : String) (slot : Slot), slot.Declares name overlay →
    (slot.lookup name merged).isSome
  slotOfBase : ∀ (name : String) (slot : Slot), (∀ other : Slot, ¬ other.Declares name overlay) →
    (slot.lookup name merged).isSome → slot.Declares name base
  kept : ∀ (name : String) (slot : Slot) (lower : Json),
    (∀ other : Slot, ¬ other.Declares name overlay) → slot.lookup name base = some lower →
      slot.lookup name overlay ≠ some .null → slot.lookup name merged = some lower
  added : ∀ (name : String) (slot : Slot) (upper : Json), slot.lookup name overlay = some upper →
    upper.isNull = false → (∀ other : Slot, other.tag = slot.tag → ¬ other.Declares name base) →
      slot.lookup name merged = some upper.withoutNulls
  primitive : ∀ (name : String) (slot other : Slot) (lower upper : Json),
    slot.lookup name overlay = some upper → upper.isNull = false → other.tag = slot.tag →
      other.lookup name base = some lower → slot.tag ≠ Tag.object.name →
        slot.lookup name merged = some (lower.overlaid upper)
  object : ∀ (name : String) (slot other : Slot) (lower upper : Json),
    slot.lookup name overlay = some upper → upper.isNull = false → other.tag = slot.tag →
      other.lookup name base = some lower → slot.tag = Tag.object.name →
        slot.lookup name merged = some (merge lower upper)

section

variable {base overlay merged : Members} {name : String}

/-! Names that the private side does not declare. -/

theorem Outcome.lookup_kept (outcome : Outcome base overlay merged) (lower : Public base)
    (upper : Private overlay) (undeclared : ∀ other : Slot, ¬ other.Declares name overlay)
    {slot : Slot} {value : Json} (found : slot.lookup name base = some value)
    (lives : slot.lookup name overlay ≠ some .null) : slot.lookup name merged = some value := by
  have absent := (lookup_of_undeclared (undeclared slot)).resolve_right lives
  rw [outcome.lookup_undeclared lower upper undeclared, found, absent]
  rfl

theorem Outcome.declares_of_undeclared (outcome : Outcome base overlay merged)
    (lower : Public base) (upper : Private overlay)
    (undeclared : ∀ other : Slot, ¬ other.Declares name overlay) {slot : Slot}
    (present : (slot.lookup name merged).isSome) :
    slot.Declares name base ∧ slot.lookup name overlay ≠ some .null := by
  rw [outcome.lookup_undeclared lower upper undeclared] at present
  rcases lookup_of_undeclared (undeclared slot) with absent | isNull
  · rw [absent, Patch.laid_none] at present
    obtain ⟨value, found⟩ := Option.isSome_iff_exists.mp present
    exact ⟨lower.declares found, by simp [absent]⟩
  · rw [isNull, Patch.laid_null] at present
    cases present

/-! Names that it declares. -/

theorem Outcome.slot_of_declares (outcome : Outcome base overlay merged) (lower : Public base)
    (upper : Private overlay) {own slot : Slot} (declares : own.Declares name overlay)
    (present : (slot.lookup name merged).isSome) : slot = own := by
  obtain ⟨value, found, declared⟩ := declares
  rw [outcome.lookup_declared lower upper found declared] at present
  by_contra different
  rw [if_neg different] at present
  cases present

theorem Outcome.isSome_of_declares (outcome : Outcome base overlay merged) (lower : Public base)
    (upper : Private overlay) {slot : Slot} (declares : slot.Declares name overlay) :
    (slot.lookup name merged).isSome := by
  obtain ⟨value, found, declared⟩ := declares
  rw [outcome.lookup_declared lower upper found declared, if_pos rfl]
  rfl

theorem Outcome.lookup_added (outcome : Outcome base overlay merged) (lower : Public base)
    (upper : Private overlay) {slot : Slot} {value : Json}
    (found : slot.lookup name overlay = some value) (declared : value.isNull = false)
    (fresh : ∀ other : Slot, other.tag = slot.tag → ¬ other.Declares name base) :
    slot.lookup name merged = some value.withoutNulls := by
  rw [outcome.lookup_declared lower upper found declared, if_pos rfl,
    lookup_neither fun other tag => lower.lookup_eq_none (fresh other tag)]
  rfl

theorem Outcome.lookup_shared (outcome : Outcome base overlay merged) (lower : Public base)
    (upper : Private overlay) {slot other : Slot} {value declaration : Json}
    (found : slot.lookup name overlay = some declaration) (declared : declaration.isNull = false)
    (tag : other.tag = slot.tag) (present : other.lookup name base = some value) :
    slot.lookup name merged = some (combined slot.tag declaration (some value)) := by
  rw [outcome.lookup_declared lower upper found declared, if_pos rfl,
    lower.lookup_either tag present]

theorem Outcome.placement (outcome : Outcome base overlay merged) (lower : Public base)
    (upper : Private overlay) : Placement base overlay merged where
  once name slot other here there := by
    by_cases declared : ∃ slot : Slot, slot.Declares name overlay
    · obtain ⟨own, declares⟩ := declared
      rw [outcome.slot_of_declares lower upper declares here,
        outcome.slot_of_declares lower upper declares there]
    · have undeclared := not_exists.mp declared
      exact lower.unrepeated.once name _ _
        (outcome.declares_of_undeclared lower upper undeclared here).1
        (outcome.declares_of_undeclared lower upper undeclared there).1
  names name := by
    constructor
    · rintro ⟨slot, present⟩
      by_cases declared : ∃ slot : Slot, slot.Declares name overlay
      · exact .inl declared
      · exact .inr ⟨slot,
          outcome.declares_of_undeclared lower upper (not_exists.mp declared) present⟩
    · intro either
      by_cases declared : ∃ slot : Slot, slot.Declares name overlay
      · obtain ⟨slot, declares⟩ := declared
        exact ⟨slot, outcome.isSome_of_declares lower upper declares⟩
      · obtain ⟨slot, ⟨value, found, -⟩, lives⟩ := either.resolve_left declared
        have kept := outcome.lookup_kept lower upper (not_exists.mp declared) found lives
        exact ⟨slot, Option.isSome_iff_exists.mpr ⟨value, kept⟩⟩
  slotOfOverlay name slot declares := outcome.isSome_of_declares lower upper declares
  slotOfBase name slot undeclared present :=
    (outcome.declares_of_undeclared lower upper undeclared present).1
  kept name slot value undeclared found lives :=
    outcome.lookup_kept lower upper undeclared found lives
  added name slot value found declared fresh :=
    outcome.lookup_added lower upper found declared fresh
  primitive name slot other value declaration found declared tag present primitive := by
    rw [outcome.lookup_shared lower upper found declared tag present, combined, if_neg primitive]
  object name slot other value declaration found declared tag present object := by
    rw [outcome.lookup_shared lower upper found declared tag present, combined, if_pos object]

end

section

variable {base overlay merged : Members}

theorem merge_object (base overlay : Members) : merge (.object base) (.object overlay) =
    .object (Patch.laidMembers (relocate base overlay) overlay) := by
  rw [merge, relocated, Patch.overlaid_object]

/-- A level is left as it is where the private side has none. -/
theorem Outcome.left (distinct : Entries.Distinct base) : Outcome base [] base := by
  have outcome : Outcome base [] (Patch.laidMembers base []) := .both base []
  rwa [Patch.laidMembers_nil distinct] at outcome

/-- Below an object of the private side there is one schema laid over another, or over nothing. -/
theorem Outcome.nested_of_declares (outcome : Outcome base overlay merged) (lower : Public base)
    (upper : Private overlay) {name : String} {slot : Slot} (object : slot.tag = Tag.object.name)
    {members inner : Members} (there : slot.lookup name overlay = some (.object members))
    (inside : slot.lookup name merged = some (.object inner)) :
    Outcome ((nested? name base).getD []) members inner := by
  by_cases present : ∃ other : Slot, other.tag = slot.tag ∧ other.Declares name base
  · obtain ⟨other, tag, value, listed, -⟩ := present
    obtain ⟨fields, rfl⟩ := lower.object listed
    rw [outcome.lookup_shared lower upper there rfl tag listed, combined, if_pos object,
      merge_object] at inside
    cases inside
    rw [nested?_of_slot lower.unrepeated.once (tag.trans object) listed]
    exact .both fields members
  · have fresh : ∀ other : Slot, other.tag = slot.tag → ¬ other.Declares name base :=
      fun other tag declares => present ⟨other, tag, declares⟩
    have nested := upper.nested (nested?_of_slot upper.unrepeated.once object there)
    rw [outcome.lookup_added lower upper there rfl fresh, Json.withoutNulls,
      ← Patch.nil_laidMembers nested.distinct.1] at inside
    cases inside
    rw [nested?_eq_none fun other tag inner listed =>
      fresh other (tag.trans object.symm) ⟨_, listed, rfl⟩]
    exact .alone members

/-- Below a level of the outcome there is an outcome again. -/
theorem Outcome.nested (outcome : Outcome base overlay merged) (lower : Public base)
    (upper : Private overlay) {name : String} {inner : Members}
    (found : nested? name merged = some inner) :
    Outcome ((nested? name base).getD []) ((nested? name overlay).getD []) inner := by
  obtain ⟨place, object, inside⟩ := exists_slot_of_nested? found
  have present : (place.lookup name merged).isSome := by rw [inside]; rfl
  by_cases declared : ∃ slot : Slot, slot.Declares name overlay
  · obtain ⟨slot, declares⟩ := declared
    obtain rfl := outcome.slot_of_declares lower upper declares present
    obtain ⟨value, there, isDeclared⟩ := declares
    obtain ⟨members, rfl, -⟩ := upper.declared there isDeclared
    rw [nested?_of_slot upper.unrepeated.once object there]
    exact outcome.nested_of_declares lower upper object there inside
  · have undeclared := not_exists.mp declared
    obtain ⟨⟨value, listed, -⟩, lives⟩ :=
      outcome.declares_of_undeclared lower upper undeclared present
    rw [outcome.lookup_kept lower upper undeclared listed lives] at inside
    cases inside
    have nested := nested?_of_slot lower.unrepeated.once object listed
    rw [nested?_eq_none fun other _ inner listed => undeclared other ⟨_, listed, rfl⟩, nested]
    exact .left (lower.nested nested).distinct.1

theorem getD_level?_cons (name : String) (path : List String) (schema : Members) :
    (level? (name :: path) schema).getD [] =
      (level? path ((nested? name schema).getD [])).getD [] := by
  rw [level?]
  cases nested? name schema with
  | none => cases path <;> rfl
  | some inner => rfl

theorem Public.getD_nested (lower : Public base) (name : String) :
    Public ((nested? name base).getD []) := by
  cases found : nested? name base with
  | none => exact .nil
  | some inner => exact lower.nested found

theorem Private.getD_nested (upper : Private overlay) (name : String) :
    Private ((nested? name overlay).getD []) := by
  cases found : nested? name overlay with
  | none => exact .nil
  | some inner => exact upper.nested found

/-- What holds of one level of an outcome holds of all. -/
theorem Outcome.placement_at (outcome : Outcome base overlay merged) (lower : Public base)
    (upper : Private overlay) (path : List String) {level : Members}
    (reached : level? path merged = some level) :
    Placement ((level? path base).getD []) ((level? path overlay).getD []) level := by
  induction path generalizing base overlay merged with
  | nil =>
    cases reached
    exact outcome.placement lower upper
  | cons name path ih =>
    obtain ⟨inner, found, reached⟩ := Option.bind_eq_some_iff.mp reached
    rw [getD_level?_cons, getD_level?_cons]
    exact ih (outcome.nested lower upper found) (lower.getD_nested name) (upper.getD_nested name)
      reached

end

/-! What a reader accepts. -/

theorem public_of_read {limit : Nat} {base : Json} {read : Collection}
    (complete : Collection.ofValue limit base = .ok read) :
    ∃ schema, base = .object schema ∧ Readable schema := by
  cases base with
  | object schema =>
    obtain ⟨_, -, complete⟩ := bind_eq_ok_iff.mp complete
    obtain ⟨result, complete, -⟩ := bind_eq_ok_iff.mp complete
    exact ⟨schema, rfl, _, _, _, _, complete⟩
  | null | bool | number | string | array => cases complete

/-- Private placement wins, at every level and whatever the order of the halves, groups and
fields. Both sides can be read, the private one with its null declarations left out, and neither
declares a name twice at a level. -/
theorem merge_places_fields {limit limitOver : Nat} {base overlay : Json}
    {read readOver : Collection} (complete : Collection.ofValue limit base = .ok read)
    (completeOver : Collection.ofValue limitOver (declaring overlay) = .ok readOver)
    (distinct : base.Distinct) (distinctOver : overlay.Distinct)
    (unrepeated : ∀ schema, base = .object schema → Unrepeated schema)
    (unrepeatedOver : ∀ schema, overlay = .object schema → Unrepeated schema) :
    ∃ lower upper merged, base = .object lower ∧ overlay = .object upper ∧
      merge base overlay = .object merged ∧
        ∀ path level, level? path merged = some level →
          Placement ((level? path lower).getD []) ((level? path upper).getD []) level := by
  obtain ⟨lower, rfl, readable⟩ := public_of_read complete
  obtain ⟨_, same, readableOver⟩ := public_of_read completeOver
  obtain ⟨upper, rfl, rfl⟩ := declaring_eq_object_iff.mp same
  have isPublic : Public lower := ⟨readable, distinct, unrepeated lower rfl⟩
  have isPrivate : Private upper := ⟨readableOver, distinctOver, unrepeatedOver upper rfl⟩
  exact ⟨lower, upper, _, rfl, rfl, merge_object lower upper,
    fun path _ reached => (Outcome.both lower upper).placement_at isPublic isPrivate path reached⟩

/-- Fields that move to the other half, alone and inside an object that moves with them; one whose
type changes, one that is deleted, and one that only the private side has. -/
theorem merge_places_fields_of_moves :
    let base : Members := [("required", .object
      [("string", .object [("name", .object []), ("secret", .object [("maxLength", .natural 9)]),
          ("code", .object [("maxLength", .natural 3)]), ("gone", .object [])]),
        ("object", .object [("o", .object [("hint", .bool true),
          ("required", .object [("number", .object [("n", .object []), ("m", .object [])])])])])])]
    let overlay : Members := [("required", .object
        [("string", .object [("gone", .null), ("secret", .null)]),
          ("number", .object [("code", .object [])])]),
      ("optional", .object
        [("object", .object [("o", .object [("hint", .null), ("optional", .object
            [("number", .object [("n", .object [("note", .null)])])])])]),
          ("string", .object [("secret", .object [("exactLength", .natural 3)]),
            ("fresh", .object [("enum", .strings ["x"]), ("note", .null)])])])]
    let merged : Members := [("required", .object
        [("string", .object [("name", .object [])]), ("object", .object []),
          ("number", .object [("code", .object [])])]),
      ("optional", .object
        [("object", .object [("o", .object [("required", .object
            [("number", .object [("m", .object [])])]),
              ("optional", .object [("number", .object [("n", .object [])])])])]),
          ("string", .object [("secret", .object [("maxLength", .natural 9),
              ("exactLength", .natural 3)]),
            ("fresh", .object [("enum", .strings ["x"])])])])]
    (∃ read, Collection.ofValue 2 (.object base) = .ok read) ∧
      (∃ read, Collection.ofValue 2 (declaring (.object overlay)) = .ok read) ∧
      (Json.object base).Distinct ∧ (Json.object overlay).Distinct ∧
      Unrepeated base ∧ Unrepeated overlay ∧
      merge (.object base) (.object overlay) = .object merged ∧
      ∀ path level, level? path merged = some level →
        Placement ((level? path base).getD []) ((level? path overlay).getD []) level := by
  intro base overlay merged
  have read : Collection.ofValue 2 (.object base) = .ok _ := rfl
  have readOver : Collection.ofValue 2 (declaring (.object overlay)) = .ok _ := rfl
  have distinct : (Json.object base).Distinct := by
    simp [base, Json.Distinct, Json.DistinctMembers, Entries.Distinct, Json.natural]
  have distinctOver : (Json.object overlay).Distinct := by
    simp [overlay, Json.Distinct, Json.DistinctMembers, Json.DistinctItems, Entries.Distinct,
      Json.strings, Json.natural]
  have outcome : merge (.object base) (.object overlay) = .object merged := by cbv
  have unrepeated : Unrepeated base :=
    unrepeated_of_nodup (by decide) (List.forall_mem_singleton.mpr
      (unrepeated_of_nodup (by decide) fun _ none => by cases none))
  have unrepeatedOver : Unrepeated overlay :=
    unrepeated_of_nodup (by decide) (List.forall_mem_singleton.mpr
      (unrepeated_of_nodup (by decide) fun _ none => by cases none))
  obtain ⟨_, _, _, same, sameOver, sameMerged, placed⟩ := merge_places_fields read readOver distinct
    distinctOver (fun schema same => by cases same; exact unrepeated)
    fun schema same => by cases same; exact unrepeatedOver
  cases same
  cases sameOver
  cases outcome.symm.trans sameMerged
  exact ⟨⟨_, read⟩, ⟨_, readOver⟩, distinct, distinctOver, unrepeated, unrepeatedOver, outcome,
    placed⟩

end FieldSchema.Overlay
