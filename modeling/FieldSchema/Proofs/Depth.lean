import FieldSchema.Proofs.Normalization

/-! How deep a normalized map may be. The guard on the way to an object counts the names that lead
to it, but for those that open with a bracket, which are written like indices. So a map that was
let through stays within the limit as long as such names are not what makes it deep. -/
namespace FieldSchema.Source

theorem normalize_normalized (settings : Settings) (map : FieldMap) :
    normalize settings (.normalized map) =
      if settings.maxDepth < map.depth then .error (.tooDeep .root settings.maxDepth)
      else .ok map := by
  simp only [normalize, normalizeNoting]
  split <;> rfl

theorem normalize_normalized_iff {settings : Settings} {map : FieldMap} :
    normalize settings (.normalized map) = .ok map ↔ map.depth ≤ settings.maxDepth := by
  rw [normalize_normalized]
  split <;> simp <;> omega

/-- The guard keeps the counted names on the way to every object below the limit. A map is within
the limit, and normalizes to itself, exactly if the names that the guard does not count fit into
what the others leave; with no such name on any way it always does. -/
theorem normalized_within_limit_iff {settings : Settings} {schema : Json} {map : FieldMap}
    (complete : normalizeValue settings schema = .ok map) :
    (∀ path inner, Nested map path inner → path.depth < settings.maxDepth) ∧
    (map.depth ≤ settings.maxDepth ∧ normalize settings (.normalized map) = .ok map ↔
      ∀ path inner, Nested map path inner →
        path.uncounted < settings.maxDepth - path.depth) ∧
    ((∀ path inner, Nested map path inner → path.uncounted = 0) →
      map.depth ≤ settings.maxDepth) := by
  have guarded : ∀ path inner, Nested map path inner → path.depth < settings.maxDepth := by
    intro path inner nested
    simpa using (normalizeValue_sound complete path inner nested).shallow
  have bounded : map.depth ≤ settings.maxDepth ↔ ∀ path inner, Nested map path inner →
      path.uncounted < settings.maxDepth - path.depth := by
    rw [FieldMap.depth_le_iff]
    refine forall_congr' fun path => forall_congr' fun inner => imp_congr_right fun nested => ?_
    have := path.depth_add_uncounted
    have := guarded path inner nested
    omega
  refine ⟨guarded, ?_, fun plain => bounded.mpr fun path inner nested => ?_⟩
  · rw [normalize_normalized_iff, and_self, bounded]
  · have := guarded path inner nested
    rw [plain path inner nested]
    omega

/-- A name that opens with a bracket costs nothing and is paid for by the room that is left. -/
theorem bracketed_name_within_limit :
    ∃ map, normalizeValue ⟨2, .reject, "_ref_"⟩
        (.object [("required", .object [("object", .object [("[a", .object [])])])]) = .ok map ∧
      (∀ path inner, Nested map path inner → path.depth < 2) ∧
      (map.depth ≤ 2 ∧ normalize ⟨2, .reject, "_ref_"⟩ (.normalized map) = .ok map ↔
        ∀ path inner, Nested map path inner → path.uncounted < 2 - path.depth) ∧
      ((∀ path inner, Nested map path inner → path.uncounted = 0) → map.depth ≤ 2) := by
  have complete : normalizeValue ⟨2, .reject, "_ref_"⟩
      (.object [("required", .object [("object", .object [("[a", .object [])])])]) =
        .ok [("[a", .object [] ⟨true, false, .empty⟩)] := rfl
  exact ⟨_, complete, normalized_within_limit_iff complete⟩

/-- One level is allowed, the map has two, and it is not taken back. -/
theorem bracketed_name_beyond_limit :
    ∃ map, normalizeValue ⟨1, .reject, "_ref_"⟩
        (.object [("required", .object [("object", .object [("[a", .object [])])])]) = .ok map ∧
      map.depth = 2 ∧
      normalize ⟨1, .reject, "_ref_"⟩ (.normalized map) = .error (.tooDeep .root 1) :=
  ⟨[("[a", .object [] ⟨true, false, .empty⟩)], rfl, rfl, rfl⟩

end FieldSchema.Source
