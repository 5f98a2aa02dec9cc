import FieldSchema.Proofs.Occurrence
import FieldSchema.Proofs.Patch

/-! Laying one value over another as a merge patch: the members of the overlay are gone through one
by one, a null takes a name away, and any other value is merged with what stands under its name. A
patch is laid over a value in another way, all members of the value first and the new ones after
them, but where there are no arrays the outcome is the same, with the same order of names. -/
namespace FieldSchema

namespace Json

mutual

/-- The merge patch of a target, which may be absent. An object goes through its members one by one,
on the target if that is an object and on an empty one if not; anything else takes its place. -/
def mergePatch (target : Option Json) : Json → Json
  | .object members => .object (patchMembers (membersOf target) members)
  | value => value

/-- A null takes its name away; any other value patches what stands under its name, where it stands,
or at the end if nothing does. -/
def patchMembers (target : Members) : Members → Members
  | [] => target
  | (name, value) :: rest =>
    patchMembers
      (if value.isNull then Entries.erase name target
        else Entries.set name (mergePatch (target.lookup name) value) target)
      rest

end

/-- No array is anywhere in the value. -/
def ArrayFree (value : Json) : Prop := ∀ items, ¬ (Json.array items).Occurs value

theorem arrayFree_object_iff {members : Members} :
    (Json.object members).ArrayFree ↔ ∀ entry ∈ members, entry.2.ArrayFree := by
  simp only [ArrayFree, occurs_object_iff, reduceCtorEq, false_or, not_exists, not_and]
  exact ⟨fun all entry member items => all items entry member,
    fun all items entry member => all entry member items⟩

theorem ArrayFree.of_mem {members : Members} (free : (Json.object members).ArrayFree) {name : String}
    {value : Json} (member : (name, value) ∈ members) : value.ArrayFree :=
  arrayFree_object_iff.mp free _ member

/-- What stands under a way of names, the outermost first. -/
def at? : List String → Json → Option Json
  | [], value => some value
  | name :: path, .object members => (members.lookup name).bind (at? path)
  | _ :: _, _ => none

theorem distinct_at? {path : List String} {value found : Json} (distinct : value.Distinct)
    (reached : value.at? path = some found) : found.Distinct := by
  induction path generalizing value with
  | nil => cases reached; exact distinct
  | cons name path ih =>
    cases value with
    | null | bool | number | string | array => cases reached
    | object members =>
      obtain ⟨inner, held, reached⟩ := Option.bind_eq_some_iff.mp reached
      exact ih (distinct_of_mem distinct (Entries.mem_of_lookup held)) reached

end Json

namespace Patch

/-- One name of an object changes to what is laid over it. -/
def settle (name : String) (members : Members) : Option Json → Members
  | none => Entries.erase name members
  | some value => Entries.set name value members

theorem lookup_settle (name other : String) (members : Members) (result : Option Json) :
    (settle other members result).lookup name =
      if name = other then result else members.lookup name := by
  cases result with
  | none => exact Entries.lookup_erase name other members
  | some value => exact Entries.lookup_set name other value members

theorem distinct_settle {members : Members} (distinct : Entries.Distinct members) (name : String)
    (result : Option Json) : Entries.Distinct (settle name members result) := by
  cases result with
  | none => exact distinct.filter _
  | some value => exact distinct.set name value

theorem deletes_cons (name key : String) (value : Json) (rest : Members) :
    deletes ((name, value) :: rest) key = if key = name then value.isNull else deletes rest key := by
  unfold deletes
  by_cases here : key = name
  · simp [here]
  · simp [here, List.lookup_cons, beq_eq_false_iff_ne.mpr here]

/-- A null takes its own name away beside those that the others take away. -/
theorem filter_deletes_null {name : String} {value : Json} {rest : Members}
    (isNull : value.isNull = true) (keys : List String) :
    (keys.filter fun key => !deletes ((name, value) :: rest) key) =
      (keys.filter fun key => decide (key ≠ name)).filter fun key => !deletes rest key := by
  rw [List.filter_filter]
  refine List.filter_congr fun key _ => ?_
  by_cases here : key = name <;> simp [deletes_cons, isNull, here]

theorem deletes_cons_of_declared {name : String} {value : Json} {rest : Members}
    (declared : value.isNull = false) (missing : rest.lookup name = none) :
    deletes ((name, value) :: rest) = deletes rest := by
  funext key
  rw [deletes_cons]
  by_cases here : key = name
  · simp [here, declared, deletes, missing]
  · rw [if_neg here]

/-- To settle a name first puts no name in another place. -/
theorem names_laidMembers_cons {lower rest : Members} {name : String} {value : Json}
    (distinct : Entries.Distinct lower) (distinctOver : Entries.Distinct ((name, value) :: rest)) :
    Entries.names (laidMembers lower ((name, value) :: rest)) =
      Entries.names (laidMembers (settle name lower (laid (lower.lookup name) (some value))) rest) := by
  obtain ⟨absent, others⟩ := List.nodup_cons.mp distinctOver
  have missing : rest.lookup name = none := Entries.lookup_eq_none_iff.mpr absent
  have unlike : ∀ key ∈ Entries.names rest, key ≠ name := by
    intro key member same
    exact absent (same ▸ member)
  have fresh : (Entries.names rest).filter (fun key => !Entries.has key
      (settle name lower (laid (lower.lookup name) (some value)))) =
      (Entries.names rest).filter fun key => !Entries.has key lower := by
    refine List.filter_congr fun key member => ?_
    rw [Entries.has, Entries.has, lookup_settle, if_neg (unlike key member)]
  have settled := distinct_settle distinct name (laid (lower.lookup name) (some value))
  rw [names_laidMembers distinct distinctOver, names_laidMembers settled others, fresh]
  have shown := isSome_laid (lower.lookup name) value
  cases made : laid (lower.lookup name) (some value) with
  | none =>
    have isNull : value.isNull = true := by simpa [made] using shown
    have others : (Entries.names rest).filter (fun key => decide (key ≠ name)) =
        Entries.names rest := List.filter_eq_self.mpr fun key member => by simp [unlike key member]
    have erased : Entries.names (Entries.erase name lower) =
        (Entries.names lower).filter fun key => decide (key ≠ name) :=
      Entries.names_filterNames (fun key => decide (key ≠ name)) lower
    rw [filter_deletes_null isNull, settle, erased, List.filter_append, List.filter_comm,
      Entries.names_cons, List.filter_cons_of_neg (by simp), others]
  | some result =>
    have declared : value.isNull = false := by simpa [made] using shown
    rw [deletes_cons_of_declared declared missing, settle, Entries.names_set]
    by_cases present : name ∈ Entries.names lower
    · rw [if_pos present, Entries.names_cons, List.filter_cons_of_neg]
      simp [Entries.mem_names_iff.mp present]
    · rw [if_neg present, Entries.names_cons, List.filter_cons_of_pos, List.append_assoc,
        List.singleton_append]
      simpa [Entries.mem_names_iff] using present

/-- The members of an object may be laid over another one at a time. -/
theorem laidMembers_cons {lower rest : Members} {name : String} {value : Json}
    (distinct : Entries.Distinct lower) (distinctOver : Entries.Distinct ((name, value) :: rest)) :
    laidMembers lower ((name, value) :: rest) =
      laidMembers (settle name lower (laid (lower.lookup name) (some value))) rest := by
  obtain ⟨absent, others⟩ := List.nodup_cons.mp distinctOver
  have settled := distinct_settle distinct name (laid (lower.lookup name) (some value))
  refine (distinct_laidMembers distinct distinctOver).ext
    (names_laidMembers_cons distinct distinctOver) ?_
  intro key
  rw [lookup_laidMembers distinct distinctOver, lookup_laidMembers settled others, lookup_settle]
  by_cases here : key = name
  · subst here
    have missing : rest.lookup key = none := Entries.lookup_eq_none_iff.mpr absent
    simp [missing, laid_none]
  · simp [here, List.lookup_cons, beq_eq_false_iff_ne.mpr here]

/-- Members are patched one by one by what is laid over each. -/
theorem laidMembers_eq_patchMembers {lower upper : Members} (distinct : Entries.Distinct lower)
    (distinctOver : Entries.Distinct upper)
    (each : ∀ name value, (name, value) ∈ upper → value.isNull = false →
      laid (lower.lookup name) (some value) = some (value.mergePatch (lower.lookup name))) :
    laidMembers lower upper = Json.patchMembers lower upper := by
  induction upper generalizing lower with
  | nil => rw [laidMembers_nil distinct, Json.patchMembers]
  | cons entry rest ih =>
    obtain ⟨name, value⟩ := entry
    obtain ⟨absent, others⟩ := List.nodup_cons.mp distinctOver
    have first : settle name lower (laid (lower.lookup name) (some value)) =
        if value.isNull then Entries.erase name lower
        else Entries.set name (value.mergePatch (lower.lookup name)) lower := by
      cases isNull : value.isNull with
      | true => cases value <;> cases isNull; rw [laid_null, settle, if_pos rfl]
      | false =>
        rw [each name value (List.mem_cons_self ..) isNull, settle, if_neg Bool.false_ne_true]
    rw [laidMembers_cons distinct distinctOver, Json.patchMembers, ← first]
    refine ih (distinct_settle distinct ..) others fun key later member declared => ?_
    have unlike : key ≠ name := by
      rintro rfl
      exact absent (List.mem_map.mpr ⟨_, member, rfl⟩)
    rw [lookup_settle, if_neg unlike]
    exact each key later (List.mem_cons_of_mem _ member) declared

/-- Where no array is, laying one value over another is to merge it as a patch. -/
theorem laid_eq_mergePatch {value : Json} (distinctOver : value.Distinct) (freeOver : value.ArrayFree)
    (declared : value.isNull = false) {target : Option Json}
    (distinct : ∀ lower ∈ target, lower.Distinct) (free : ∀ lower ∈ target, lower.ArrayFree) :
    laid target (some value) = some (value.mergePatch target) := by
  induction value using Json.induction generalizing target with
  | array items _ => exact absurd .here (freeOver items)
  | scalar value noArray noObject =>
    have replaced : value.mergePatch target = value := by
      cases value <;> first | rfl | cases noObject
    rw [replaced, laid_of_scalar noArray noObject declared]
  | object upper ih =>
    have noArray : ∀ items, target ≠ some (.array items) := fun items same => free _ same items .here
    rw [laid_object noArray distinctOver.1, Json.mergePatch]
    have lowerDistinct := Json.holds_membersOf ⟨.nil, trivial⟩ distinct
    have lowerFree := Json.holds_membersOf (Json.arrayFree_object_iff.mpr (by simp)) free
    refine congrArg (some ∘ Json.object)
      (laidMembers_eq_patchMembers lowerDistinct.1 distinctOver.1 fun name value member declared => ?_)
    refine ih name value member (Json.distinct_of_mem distinctOver member) (freeOver.of_mem member)
      declared ?_ ?_
    · intro lower held
      exact Json.distinct_of_mem lowerDistinct (Entries.mem_of_lookup held)
    · intro lower held
      exact lowerFree.of_mem (Entries.mem_of_lookup held)

/-- What is laid over a value at the end of a way is laid over what stands there. -/
theorem at?_laid {path : List String} {overlay : Json} {upper : Members}
    (reached : overlay.at? path = some (.object upper)) (distinctOver : overlay.Distinct)
    {target : Option Json} (distinct : ∀ lower ∈ target, lower.Distinct)
    (free : ∀ lower ∈ target, lower.ArrayFree) :
    (laid target (some overlay)).bind (Json.at? path) =
      some (.object (laidMembers (Json.membersOf (target.bind (Json.at? path))) upper)) := by
  have noArray : ∀ items, target ≠ some (.array items) := fun items same => free _ same items .here
  induction path generalizing overlay target with
  | nil =>
    cases reached
    have here : target.bind (Json.at? []) = target := by cases target <;> rfl
    rw [laid_object noArray distinctOver.1, here]
    rfl
  | cons name path ih =>
    cases overlay with
    | null | bool | number | string | array => cases reached
    | object members =>
      obtain ⟨value, found, reached⟩ := Option.bind_eq_some_iff.mp reached
      have below : target.bind (Json.at? (name :: path)) =
          ((Json.membersOf target).lookup name).bind (Json.at? path) := by
        cases target with
        | none => rfl
        | some lower => cases lower <;> rfl
      have lowerDistinct := Json.holds_membersOf ⟨.nil, trivial⟩ distinct
      have lowerFree := Json.holds_membersOf (Json.arrayFree_object_iff.mpr (by simp)) free
      rw [laid_object noArray distinctOver.1, below, Option.bind_some, Json.at?,
        lookup_laidMembers lowerDistinct.1 distinctOver.1, found]
      have freeBelow : ∀ lower ∈ (Json.membersOf target).lookup name, lower.ArrayFree :=
        fun lower held => lowerFree.of_mem (Entries.mem_of_lookup held)
      refine ih reached (Json.distinct_of_mem distinctOver (Entries.mem_of_lookup found)) ?_ freeBelow ?_
      · exact fun lower held => Json.distinct_of_mem lowerDistinct (Entries.mem_of_lookup held)
      · exact fun items same => freeBelow _ same items .here

end Patch

namespace Json

/-- Values without arrays are laid over each other as merge patches. At the end of every way on
which the overlay has an object, the names that the base has there keep their order, and the new ones
follow in the order of the overlay; where the base has no object there, the overlay loses its nulls at
every depth. -/
theorem overlaid_eq_mergePatch {base overlay : Json} (distinct : base.Distinct)
    (distinctOver : overlay.Distinct) (free : base.ArrayFree) (freeOver : overlay.ArrayFree)
    (declared : overlay.isNull = false) :
    base.overlaid overlay = overlay.mergePatch (some base) ∧
      ∀ path upper, overlay.at? path = some (.object upper) →
        let lower := membersOf (base.at? path)
        ∃ merged, (base.overlaid overlay).at? path = some (.object merged) ∧
          Entries.names merged =
            ((Entries.names lower ++ (Entries.names upper).filter fun name => !Entries.has name lower).filter
              fun name => !Patch.deletes upper name) ∧
          ((base.at? path).bind object? = none → merged = membersWithoutNulls upper) := by
  have applied : Patch.laid (some base) (some overlay) = some (base.overlaid overlay) :=
    Patch.apply_ofValue declared base
  have here : ∀ lower ∈ some base, lower.Distinct := by rintro _ ⟨⟩; exact distinct
  have noArrays : ∀ lower ∈ some base, lower.ArrayFree := by rintro _ ⟨⟩; exact free
  constructor
  · have patched := Patch.laid_eq_mergePatch distinctOver freeOver declared here noArrays
    exact Option.some.inj (applied.symm.trans patched)
  · intro path upper reached
    have laid := Patch.at?_laid reached distinctOver here noArrays
    rw [applied] at laid
    have upperDistinct := (distinct_at? distinctOver reached).1
    have lowerDistinct : (object (membersOf (base.at? path))).Distinct :=
      holds_membersOf ⟨.nil, trivial⟩ fun lower found => distinct_at? distinct found
    refine ⟨_, laid, Patch.names_laidMembers lowerDistinct.1 upperDistinct, fun noObject => ?_⟩
    rw [Option.bind_some, membersOf, noObject, Option.getD_none, Patch.nil_laidMembers upperDistinct]

/-- Names that are kept, changed, deleted and added, at two depths, and an object in place of a flag. -/
theorem overlaid_eq_mergePatch_of_settings :
    let base : Json := .object [("theme", .string "dark"),
      ("editor", .object [("font", .string "mono"), ("size", .natural 12),
        ("ruler", .object [("at", .natural 80)])]), ("tabs", .bool true)]
    let overlay : Json := .object [("tabs", .object [("width", .natural 4), ("stop", .null)]),
      ("editor", .object [("wrap", .null), ("size", .null), ("zoom", .natural 2),
        ("ruler", .object [("color", .string "red"), ("at", .null)])]),
      ("theme", .null), ("keys", .object [("mode", .object [("old", .null), ("new", .string "vi")])])]
    let merged : Json := .object [
      ("editor", .object [("font", .string "mono"), ("ruler", .object [("color", .string "red")]),
        ("zoom", .natural 2)]),
      ("tabs", .object [("width", .natural 4)]),
      ("keys", .object [("mode", .object [("new", .string "vi")])])]
    base.Distinct ∧ overlay.Distinct ∧ base.ArrayFree ∧ overlay.ArrayFree ∧ overlay.isNull = false ∧
      base.overlaid overlay = merged ∧ overlay.mergePatch (some base) = merged ∧
      ∀ path upper, overlay.at? path = some (.object upper) →
        let lower := membersOf (base.at? path)
        ∃ level, merged.at? path = some (.object level) ∧
          Entries.names level =
            ((Entries.names lower ++ (Entries.names upper).filter fun name => !Entries.has name lower).filter
              fun name => !Patch.deletes upper name) ∧
          ((base.at? path).bind object? = none → level = membersWithoutNulls upper) := by
  intro base overlay merged
  have distinct : base.Distinct := by
    simp [base, Json.Distinct, Json.DistinctMembers, Entries.Distinct, Json.natural]
  have distinctOver : overlay.Distinct := by
    simp [overlay, Json.Distinct, Json.DistinctMembers, Entries.Distinct, Json.natural]
  have free : base.ArrayFree := by
    simp only [base, arrayFree_object_iff, List.forall_mem_cons, List.not_mem_nil, false_imp_iff,
      implies_true, and_true]
    refine ⟨?_, ⟨?_, ?_, ?_⟩, ?_⟩ <;> rintro _ ⟨⟩
  have freeOver : overlay.ArrayFree := by
    simp only [overlay, arrayFree_object_iff, List.forall_mem_cons, List.not_mem_nil, false_imp_iff,
      implies_true, and_true]
    refine ⟨⟨?_, ?_⟩, ⟨?_, ?_, ?_, ?_, ?_⟩, ?_, ?_, ?_⟩ <;> rintro _ ⟨⟩
  have outcome : base.overlaid overlay = merged := rfl
  obtain ⟨patched, ordered⟩ := overlaid_eq_mergePatch distinct distinctOver free freeOver rfl
  rw [outcome] at patched ordered
  exact ⟨distinct, distinctOver, free, freeOver, rfl, outcome, patched.symm, ordered⟩

end Json

end FieldSchema
