import FieldSchema.Proofs.LastDeclarations
import FieldSchema.Proofs.RoundTrip
import Mathlib.Data.Finset.Card

/-! Field maps as they come about, by one insertion after the other. Whatever was inserted before,
a map has each name once, in the order of the last insertions. -/
namespace FieldSchema

/-- What lasts under a name is its last entry. -/
theorem Entries.lookup_lasting {α : Type} (entries : List (String × α)) (name : String) :
    (lasting entries).lookup name = entries.reverse.lookup name := by
  induction entries with
  | nil => rfl
  | cons entry rest ih =>
    obtain ⟨other, value⟩ := entry
    rw [lasting, List.reverse_cons, List.lookup_append, ← ih, lookup_singleton]
    by_cases again : other ∈ names rest
    · rw [if_pos again]
      by_cases same : other = name
      · have stays : name ∈ names (lasting rest) := by
          rw [names_lasting]
          exact List.mem_dedup.mpr (same ▸ again)
        obtain ⟨last, found⟩ := Option.isSome_iff_exists.mp (mem_names_iff.mp stays)
        rw [found, Option.some_or]
      · rw [if_neg same, Option.or_none]
    · rw [if_neg again, List.lookup_cons]
      by_cases same : other = name
      · subst same
        have missing : (lasting rest).lookup other = none := by
          rw [lookup_eq_none_iff, names_lasting]
          exact fun member => again (List.mem_dedup.mp member)
        rw [beq_self_eq_true, missing, if_pos rfl, Option.none_or]
      · rw [beq_eq_false_iff_ne.mpr (Ne.symm same), if_neg same, Option.or_none]

namespace FieldMap

/-- The map after a history of insertions, the first of them into the empty map. -/
def ofHistory (history : List (String × Field)) : FieldMap :=
  history.foldl (fun map entry => map.insert entry.1 entry.2) .empty

theorem ofHistory_eq (history : List (String × Field)) :
    ofHistory history = Entries.lasting history :=
  foldl_insert Entries.Distinct.nil history

theorem ofHistory_concat (history : List (String × Field)) (name : String) (field : Field) :
    ofHistory (history ++ [(name, field)]) = (ofHistory history).insert name field := by
  rw [ofHistory, List.foldl_append]
  rfl

theorem names_ofHistory (history : List (String × Field)) :
    Entries.names (ofHistory history) = (Entries.names history).dedup := by
  rw [ofHistory_eq, Entries.names_lasting]

/-- An insertion into a map without repeated names leaves one, so every history does. -/
theorem distinct_ofHistory (history : List (String × Field)) :
    Entries.Distinct (ofHistory history) := by
  induction history using List.reverseRecOn with
  | nil => exact Entries.Distinct.nil
  | append_singleton before entry ih =>
    obtain ⟨name, field⟩ := entry
    rw [ofHistory_concat]
    exact distinct_insert ih name field

/-- After every history the names are distinct and in the order of their last insertions, each has
the field that was inserted last, and the next insertion returns what was there under its name. What
is written of the map has the same names in the same order. -/
theorem ordered_by_last_insertion (history : List (String × Field)) :
    Entries.Distinct (ofHistory history) ∧
    Entries.names (ofHistory history) = (Entries.names history).dedup ∧
    (∀ name, (ofHistory history).get? name = history.reverse.lookup name) ∧
    (∀ name field, (ofHistory history).exchange name field =
      ((ofHistory history).get? name, ofHistory (history ++ [(name, field)]))) ∧
    (ofHistory history).length = (Entries.names history).toFinset.card ∧
    ∃ members, (ofHistory history).toValue = .object members ∧
      Entries.names members = Entries.names (ofHistory history) := by
  refine ⟨distinct_ofHistory history, names_ofHistory history, fun name => ?_,
    fun name field => ?_, ?_, _, rfl, ?_⟩
  · rw [get?, ofHistory_eq, Entries.lookup_lasting]
  · have distinct := distinct_ofHistory history
    rw [ofHistory_concat, insert_eq distinct, exchange_eq distinct]
  · rw [List.card_toFinset, ← names_ofHistory, List.length_map]
  · rw [Field.toMembers_eq_map, Entries.names, List.map_map]
    rfl

/-- A name that is inserted again moves to the end. -/
example : Entries.names (ofHistory [("a", .primitive .string ⟨true, false, .empty⟩),
    ("b", .primitive .number ⟨true, false, .empty⟩),
    ("a", .primitive .string ⟨false, false, .empty⟩)]) = ["b", "a"] := rfl

end FieldMap

end FieldSchema
