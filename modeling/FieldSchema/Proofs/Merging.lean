import FieldSchema.Patch
import FieldSchema.Proofs.Entries
import Mathlib.Data.List.Nodup

/-! Merging key by key, in closed form. A key is a key of the target or another key of the patch, and
comes once; so what is written under the keys, one after another, is what they make in their order. -/
namespace FieldSchema.Patch

variable {entries : List (String × Patch)} {targetKeys : List String}
  {find? : String → Option (Patch → Option Json)}

/-- Giving a key a patch leaves the keys of a patch apart. -/
theorem distinct_set (distinct : Entries.Distinct entries) (key : String) (patch : Patch) :
    Entries.Distinct (set key patch entries) := by
  rw [set, Entries.distinct_concat]
  refine ⟨distinct.filter _, fun member => ?_⟩
  obtain ⟨_, inside, same⟩ := List.mem_map.mp member
  have other := (List.mem_filter.mp inside).2
  rw [decide_eq_true_eq] at other
  exact other same

theorem patchAt_of_mem (distinct : Entries.Distinct entries) {key : String} {patch : Patch}
    (member : (key, patch) ∈ entries) : patchAt entries key = patch := by
  rw [patchAt, (Entries.lookup_eq_some_iff distinct).mpr member]
  rfl

theorem mergeKeys_eq (distinct : Entries.Distinct entries) : mergeKeys targetKeys entries =
    targetKeys ++ (Entries.names entries).filter fun key => !targetKeys.contains key := by
  induction entries generalizing targetKeys with
  | nil => exact (List.append_nil _).symm
  | cons entry rest ih =>
    obtain ⟨key, patch⟩ := entry
    obtain ⟨absent, others⟩ := List.nodup_cons.mp distinct
    have next : mergeKeys targetKeys ((key, patch) :: rest) =
        mergeKeys (if targetKeys.contains key then targetKeys else targetKeys ++ [key]) rest := rfl
    rw [next, ih others, Entries.names_cons]
    cases there : targetKeys.contains key with
    | true => rw [if_pos rfl, List.filter_cons_of_neg (by rw [there]; exact Bool.false_ne_true)]
    | false =>
      have unlike : ∀ other ∈ Entries.names rest, other ≠ key := by
        rintro other member rfl
        exact absent member
      have fresh : (Entries.names rest).filter (fun other => !(targetKeys ++ [key]).contains other) =
          (Entries.names rest).filter fun other => !targetKeys.contains other :=
        List.filter_congr fun other member => by simp [unlike other member]
      rw [if_neg Bool.false_ne_true, fresh, List.filter_cons_of_pos (by rw [there]; rfl),
        List.append_assoc, List.singleton_append]

theorem nodup_mergeKeys (nodup : targetKeys.Nodup) (distinct : Entries.Distinct entries) :
    (mergeKeys targetKeys entries).Nodup := by
  rw [mergeKeys_eq distinct]
  refine List.nodup_append.mpr ⟨nodup, List.Nodup.filter _ distinct, ?_⟩
  rintro key there _ other rfl
  simp [there] at other

/-- What is written under keys that do not repeat stands in their order. -/
theorem mergeEntries_eq_filterMap (nodup : (mergeKeys targetKeys entries).Nodup) :
    mergeEntries targetKeys find? entries = (mergeKeys targetKeys entries).filterMap fun key =>
      (changed (find? key) (patchAt entries key)).map (key, ·) := by
  unfold mergeEntries
  generalize mergeKeys targetKeys entries = keys at nodup
  have distinct : Entries.Distinct (keys.filterMap fun key =>
      (changed (find? key) (patchAt entries key)).map (key, ·)) := by
    rw [Entries.Distinct, Entries.names, List.map_filterMap]
    refine nodup.filterMap fun key other name here there => ?_
    simp only [Option.map_map, Option.mem_def, Option.map_eq_some_iff, Function.comp_apply]
      at here there
    obtain ⟨_, _, rfl⟩ := here
    obtain ⟨_, _, rfl⟩ := there
    rfl
  have written := @Entries.foldl_set_of_distinct _ [] _ distinct
  rw [List.nil_append] at written
  rw [← written, List.foldl_filterMap]
  refine congrArg (fun step => keys.foldl step []) (funext₂ fun out key => ?_)
  cases changed (find? key) (patchAt entries key) <;> rfl

/-- The keys of the target come first, then the keys of the patch that are new. -/
theorem mergeEntries_eq (nodup : targetKeys.Nodup) (distinct : Entries.Distinct entries) :
    mergeEntries targetKeys find? entries =
      (targetKeys.filterMap fun key =>
        (changed (find? key) (patchAt entries key)).map (key, ·)) ++
      (entries.filter fun (key, _) => !targetKeys.contains key).filterMap fun (key, patch) =>
        (changed (find? key) patch).map (key, ·) := by
  have added : ((Entries.names entries).filter fun key => !targetKeys.contains key).filterMap
      (fun key => (changed (find? key) (patchAt entries key)).map (key, ·)) =
      (entries.filter fun (key, _) => !targetKeys.contains key).filterMap fun (key, patch) =>
        (changed (find? key) patch).map (key, ·) := by
    rw [← Entries.names_filterNames (fun key => !targetKeys.contains key), Entries.names,
      List.filterMap_map]
    refine List.filterMap_congr fun entry member => ?_
    dsimp only [Function.comp_apply]
    rw [patchAt_of_mem distinct (List.mem_of_mem_filter member)]
  rw [mergeEntries_eq_filterMap (nodup_mergeKeys nodup distinct), mergeKeys_eq distinct,
    List.filterMap_append, added]

end FieldSchema.Patch
