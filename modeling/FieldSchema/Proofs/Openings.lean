import FieldSchema.Proofs.Slots

/-! Keys opened in an object before another is laid over it. What the object lacks of these keys comes
first then among what is added, in their own order; but for that nothing changes, as long as nothing
changes below the keys. -/
namespace FieldSchema.Overlay

open Patch (laid laidMembers)

/-- Equal values, but for the order of keys. -/
inductive Reshuffled : Json → Json → Prop where
  | same {value : Json} : Reshuffled value value
  | object {ms ns : Members} : (Entries.names ms).Perm (Entries.names ns) →
    (∀ name a b, ms.lookup name = some a → ns.lookup name = some b → Reshuffled a b) →
      Reshuffled (.object ms) (.object ns)

/-- The names that an overlay adds to an object, in their order. -/
def added (lower upper : Members) : List String :=
  (Entries.names upper).filter fun name => !Entries.has name lower && !Patch.deletes upper name

/-- What the object lacks of these keys comes first among what the overlay adds. -/
def OpensFirst (keys : List String) (lower upper : Members) : Prop :=
  (keys.filter fun key => !Entries.has key lower) <+: added lower upper

/-- Under some keys, which the overlay has as well, an object has become another; the keys that it did
not have stand at its end. -/
structure Reached (keys : List String) (before after upper : Members) : Prop where
  distinct : Entries.Distinct before
  distinctAfter : Entries.Distinct after
  distinctOver : Entries.Distinct upper
  names : Entries.names after =
    Entries.names before ++ keys.filter fun key => !Entries.has key before
  others : ∀ key, key ∉ keys → after.lookup key = before.lookup key
  objects : ∀ key ∈ keys,
    (∃ inner, upper.lookup key = some (.object inner) ∧ Entries.Distinct inner) ∧
      (∃ inner, after.lookup key = some (.object inner)) ∧
      ∀ value, before.lookup key = some value → ∃ inner, value = .object inner

theorem append_filter_eq_iff {opened new : List String} (nodup : new.Nodup) :
    opened ++ new.filter (fun name => decide (name ∉ opened)) = new ↔ opened <+: new := by
  constructor
  · exact fun same => ⟨_, same⟩
  · rintro ⟨rest, rfl⟩
    have apart := List.disjoint_of_nodup_append nodup
    have others : rest.filter (fun name => decide (name ∉ opened)) = rest :=
      List.filter_eq_self.mpr fun name member => decide_eq_true fun first => apart first member
    rw [List.filter_append, List.filter_eq_nil_iff.mpr (by simp), List.nil_append, others]

namespace Reached

variable {keys : List String} {before after upper : Members}
  (reached : Reached keys before after upper)

include reached

theorem names_laid : Entries.names (laidMembers after upper) =
    (Entries.names before).filter (fun name => !Patch.deletes upper name) ++
      ((keys.filter fun key => !Entries.has key before) ++
        (added before upper).filter fun name =>
          decide (name ∉ keys.filter fun key => !Entries.has key before)) := by
  have kept : ∀ key ∈ keys.filter (fun key => !Entries.has key before),
      (!Patch.deletes upper key) = true := by
    intro key member
    obtain ⟨⟨inner, found, -⟩, -⟩ := reached.objects key (List.mem_of_mem_filter member)
    rw [Patch.deletes, found]
    rfl
  have has : ∀ name, Entries.has name after = true ↔ Entries.has name before = true ∨
      name ∈ keys.filter fun key => !Entries.has key before := by
    intro name
    rw [← Entries.mem_names_iff, reached.names, List.mem_append, Entries.mem_names_iff]
  have fresh : ((Entries.names upper).filter fun name => !Entries.has name after).filter
      (fun name => !Patch.deletes upper name) = (added before upper).filter fun name =>
        decide (name ∉ keys.filter fun key => !Entries.has key before) := by
    rw [added, List.filter_filter, List.filter_filter]
    refine List.filter_congr fun name _ => ?_
    rw [Bool.eq_iff_iff]
    simp only [Bool.and_eq_true, Bool.not_eq_true', ← Bool.not_eq_true, has, decide_eq_true_eq,
      not_or]
    tauto
  rw [Patch.names_laidMembers reached.distinctAfter reached.distinctOver, reached.names,
    List.append_assoc, List.filter_append, List.filter_append, List.filter_eq_self.mpr kept, fresh]

theorem names_eq_iff : Entries.names (laidMembers after upper) =
    Entries.names (laidMembers before upper) ↔ OpensFirst keys before upper := by
  have alone : Entries.names (laidMembers before upper) =
      (Entries.names before).filter (fun name => !Patch.deletes upper name) ++
        added before upper := by
    rw [Patch.names_laidMembers reached.distinct reached.distinctOver, List.filter_append,
      List.filter_filter, added]
    refine congrArg _ (List.filter_congr fun name _ => Bool.and_comm ..)
  rw [reached.names_laid, alone, List.append_right_inj]
  exact append_filter_eq_iff (List.Nodup.filter _ reached.distinctOver)

theorem lookup_laid {key : String} (member : key ∈ keys) :
    (laidMembers after upper).lookup key = some (.object
        (laidMembers (membersAt key after) (membersAt key upper))) ∧
      (laidMembers before upper).lookup key = some (.object
        (laidMembers (membersAt key before) (membersAt key upper))) := by
  obtain ⟨⟨inner, found, innerDistinct⟩, ⟨below, there⟩, lower⟩ := reached.objects key member
  rw [Patch.lookup_laidMembers reached.distinctAfter reached.distinctOver,
    Patch.lookup_laidMembers reached.distinct reached.distinctOver, found,
    membersAt_of_lookup_object found]
  refine ⟨Patch.laid_object (fun items isArray => ?_) innerDistinct,
    Patch.laid_object (fun items isArray => ?_) innerDistinct⟩
  · rw [there] at isArray
    cases isArray
  · obtain ⟨_, isObject⟩ := lower _ isArray
    cases isObject

theorem lookup_laid_of_not_mem {key : String} (other : key ∉ keys) :
    (laidMembers after upper).lookup key = (laidMembers before upper).lookup key := by
  rw [Patch.lookup_laidMembers reached.distinctAfter reached.distinctOver,
    Patch.lookup_laidMembers reached.distinct reached.distinctOver, reached.others key other]

/-- Nothing is changed exactly if the keys are opened in order and nothing is changed below them. -/
theorem laidMembers_eq_iff : laidMembers after upper = laidMembers before upper ↔
    OpensFirst keys before upper ∧ ∀ key ∈ keys,
      laidMembers (membersAt key after) (membersAt key upper) =
        laidMembers (membersAt key before) (membersAt key upper) := by
  rw [← reached.names_eq_iff]
  constructor
  · refine fun same => ⟨congrArg Entries.names same, fun key member => ?_⟩
    obtain ⟨left, right⟩ := reached.lookup_laid member
    rw [same, right] at left
    exact (Json.object.inj (Option.some.inj left)).symm
  · rintro ⟨names, below⟩
    refine (Patch.distinct_laidMembers reached.distinctAfter reached.distinctOver).ext names
      fun key => ?_
    by_cases member : key ∈ keys
    · obtain ⟨left, right⟩ := reached.lookup_laid member
      rw [left, right, below key member]
    · exact reached.lookup_laid_of_not_mem member

/-- Whatever the order in which keys are opened, nothing is changed but that. -/
theorem reshuffled (below : ∀ key ∈ keys, Reshuffled
      (.object (laidMembers (membersAt key after) (membersAt key upper)))
      (.object (laidMembers (membersAt key before) (membersAt key upper)))) :
    Reshuffled (.object (laidMembers after upper)) (.object (laidMembers before upper)) := by
  have related : ∀ key, Option.Rel Reshuffled ((laidMembers after upper).lookup key)
      ((laidMembers before upper).lookup key) := by
    intro key
    by_cases member : key ∈ keys
    · obtain ⟨left, right⟩ := reached.lookup_laid member
      rw [left, right]
      exact .some (below key member)
    · rw [reached.lookup_laid_of_not_mem member]
      cases (laidMembers before upper).lookup key with
      | none => exact .none
      | some value => exact .some .same
  refine .object ((List.perm_ext_iff_of_nodup
    (Patch.distinct_laidMembers reached.distinctAfter reached.distinctOver)
    (Patch.distinct_laidMembers reached.distinct reached.distinctOver)).mpr fun name => ?_)
    fun name a b left right => ?_
  · rw [← not_iff_not, ← Entries.lookup_eq_none_iff, ← Entries.lookup_eq_none_iff]
    have here := related name
    generalize (laidMembers after upper).lookup name = a at here
    generalize (laidMembers before upper).lookup name = b at here
    cases here <;> simp
  · have here := related name
    rw [left, right] at here
    cases here with
    | some same => exact same

end Reached

end FieldSchema.Overlay
