import FieldSchema.Entries
import Mathlib.Data.List.Nodup

/-! Ordered entries as finite maps. What is found under a name is all that matters of entries whose
names are distinct, but for their order; and changing the value of one name leaves the others. -/
namespace FieldSchema.Entries

variable {α : Type} {entries : List (String × α)} {name : String}

theorem lookup_eq_none_iff : entries.lookup name = none ↔ name ∉ names entries := by
  simp only [List.lookup_eq_none_iff, List.mem_map, not_exists, not_and]
  constructor
  · rintro absent entry member rfl
    simpa using absent entry member
  · intro absent entry member
    exact bne_iff_ne.mpr fun same => absent entry member same.symm

theorem names_cons (name : String) (value : α) (rest : List (String × α)) :
    names ((name, value) :: rest) = name :: names rest := rfl

theorem mem_names_iff : name ∈ names entries ↔ has name entries = true := by
  unfold has
  rw [Option.isSome_iff_ne_none, Ne, lookup_eq_none_iff, not_not]

theorem mem_of_lookup {value : α} (found : entries.lookup name = some value) :
    (name, value) ∈ entries := by
  obtain ⟨before, after, rfl, -⟩ := List.lookup_eq_some_iff.mp found
  simp

theorem lookup_eq_some_iff (distinct : Distinct entries) {value : α} :
    entries.lookup name = some value ↔ (name, value) ∈ entries := by
  refine ⟨mem_of_lookup, fun member => ?_⟩
  induction entries with
  | nil => cases member
  | cons entry rest ih =>
    obtain ⟨other, first⟩ := entry
    obtain ⟨absent, distinct⟩ := List.nodup_cons.mp distinct
    rcases List.mem_cons.mp member with same | later
    · cases same
      simp
    · have different : (name == other) = false := by
        rw [beq_eq_false_iff_ne]
        rintro rfl
        exact absent (List.mem_map.mpr ⟨_, later, rfl⟩)
      rw [List.lookup_cons, different]
      exact ih distinct later

/-- Entries whose names are distinct are determined by these, in their order, and by what is found
under each. -/
theorem Distinct.ext {others : List (String × α)} (distinct : Distinct entries)
    (same : names entries = names others)
    (found : ∀ name, entries.lookup name = others.lookup name) : entries = others := by
  induction entries generalizing others with
  | nil =>
    simp only [names, List.map_nil, List.nil_eq, List.map_eq_nil_iff] at same
    exact same.symm
  | cons entry rest ih =>
    obtain ⟨name, value⟩ := entry
    cases others with
    | nil => simp [names] at same
    | cons other more =>
      obtain ⟨again, held⟩ := other
      simp only [names, List.map_cons, List.cons.injEq] at same
      obtain ⟨rfl, same⟩ := same
      obtain ⟨absent, distinct⟩ := List.nodup_cons.mp distinct
      have first := found name
      simp only [List.lookup_cons_self, Option.some.injEq] at first
      subst first
      have missing : name ∉ names more := by rwa [names, ← same]
      rw [ih distinct same]
      intro key
      by_cases here : key = name
      · subst here
        rw [lookup_eq_none_iff.mpr absent, lookup_eq_none_iff.mpr missing]
      · have later := found key
        simpa [List.lookup_cons, beq_eq_false_iff_ne.mpr here] using later

theorem lookup_singleton (other : String) (value : α) :
    [(other, value)].lookup name = if other = name then some value else none := by
  by_cases same : other = name
  · simp [same]
  · rw [List.lookup_cons, beq_eq_false_iff_ne.mpr (Ne.symm same), if_neg same]
    rfl

/-- An entry at the end counts only if its name is new. -/
theorem lookup_concat {other : String} (absent : other ∉ names entries) (value : α) :
    (entries ++ [(other, value)]).lookup name =
      if other = name then some value else entries.lookup name := by
  rw [List.lookup_append, lookup_singleton]
  by_cases same : other = name
  · subst same
    simp [lookup_eq_none_iff.mpr absent]
  · simp [same]

theorem set_of_absent {value : α} (absent : name ∉ names entries) :
    set name value entries = entries ++ [(name, value)] := by
  induction entries with
  | nil => rfl
  | cons entry rest ih =>
    obtain ⟨other, first⟩ := entry
    simp only [names, List.map_cons, List.mem_cons, not_or] at absent
    rw [set, if_neg (Ne.symm absent.1), ih absent.2, List.cons_append]

theorem lookup_set (name other : String) (value : α) (entries : List (String × α)) :
    (set other value entries).lookup name =
      if name = other then some value else entries.lookup name := by
  induction entries with
  | nil => rw [set, lookup_singleton]; simp [eq_comm]
  | cons entry rest ih =>
    obtain ⟨first, old⟩ := entry
    rw [set]
    by_cases here : first = other
    · subst here
      by_cases same : name = first
      · simp [same]
      · simp [same, List.lookup_cons, beq_eq_false_iff_ne.mpr same]
    · rw [if_neg here, List.lookup_cons, List.lookup_cons, ih]
      by_cases same : name = first
      · simp [same, here]
      · rw [beq_eq_false_iff_ne.mpr same]

theorem names_set (value : α) : names (set name value entries) =
    if name ∈ names entries then names entries else names entries ++ [name] := by
  induction entries with
  | nil => rfl
  | cons entry rest ih =>
    obtain ⟨other, first⟩ := entry
    rw [set]
    by_cases same : other = name
    · simp [same]
    · rw [if_neg same]
      simp only [names, List.map_cons] at ih ⊢
      rw [ih]
      by_cases member : name ∈ rest.map Prod.fst <;> simp [member, Ne.symm same]

theorem mem_names_set {value : α} {other : String} :
    other ∈ names (set name value entries) ↔ other ∈ names entries ∨ other = name := by
  rw [names_set]
  split
  · next member => exact ⟨.inl, fun either => either.elim id fun same => same ▸ member⟩
  · simp

theorem Distinct.nil : Distinct ([] : List (String × α)) := List.nodup_nil

theorem Distinct.set (distinct : Distinct entries) (name : String) (value : α) :
    Distinct (set name value entries) := by
  rw [Distinct, names_set]
  split
  · exact distinct
  · next absent =>
    refine List.nodup_append.mpr ⟨distinct, List.nodup_singleton _, ?_⟩
    rintro a member b same rfl
    exact absent (List.mem_singleton.mp same ▸ member)

theorem distinct_append {first second : List (String × α)} :
    Distinct (first ++ second) ↔ Distinct first ∧ Distinct second ∧
      ∀ name ∈ names first, name ∉ names second := by
  rw [Distinct, names, List.map_append, List.nodup_append]
  refine and_congr_right fun _ => and_congr_right fun _ => ?_
  exact ⟨fun apart name inFirst inSecond => apart name inFirst name inSecond rfl,
    fun apart name inFirst other inSecond same => apart name inFirst (same ▸ inSecond)⟩

theorem distinct_concat {other : String} {value : α} :
    Distinct (entries ++ [(other, value)]) ↔ Distinct entries ∧ other ∉ names entries := by
  rw [distinct_append]
  simp only [names, List.map_cons, List.map_nil, List.mem_singleton]
  refine and_congr_right fun _ => ⟨fun apart member => apart.2 other member rfl, fun absent => ?_⟩
  refine ⟨List.nodup_singleton _, ?_⟩
  rintro name member rfl
  exact absent member

/-- New entries are written at the end. -/
theorem foldl_set_of_distinct {out added : List (String × α)} (distinct : Distinct (out ++ added)) :
    added.foldl (fun out (name, value) => set name value out) out = out ++ added := by
  induction added generalizing out with
  | nil => exact (List.append_nil out).symm
  | cons entry rest ih =>
    obtain ⟨name, value⟩ := entry
    have joined : out ++ (name, value) :: rest = out ++ [(name, value)] ++ rest := by
      rw [List.append_assoc, List.singleton_append]
    rw [joined] at distinct ⊢
    have absent := (distinct_concat.mp (distinct_append.mp distinct).1).2
    rw [List.foldl_cons]
    dsimp only
    rw [set_of_absent absent]
    exact ih distinct

theorem erase_of_absent (absent : name ∉ names entries) : erase name entries = entries := by
  refine List.filter_eq_self.mpr fun entry member => ?_
  have : entry.1 ≠ name := by
    rintro rfl
    exact absent (List.mem_map_of_mem member)
  simpa using this

/-- Of distinct names only one can be erased. -/
theorem Distinct.eraseP (distinct : Distinct entries) (name : String) :
    entries.eraseP (fun entry => entry.1 = name) = erase name entries := by
  induction entries with
  | nil => rfl
  | cons entry rest ih =>
    obtain ⟨other, value⟩ := entry
    obtain ⟨absent, tail⟩ := List.nodup_cons.mp distinct
    by_cases same : other = name
    · subst same
      have gone : erase other ((other, value) :: rest) = erase other rest := by simp [erase]
      rw [gone, erase_of_absent absent]
      exact List.eraseP_cons_of_pos (by simp)
    · have stays : erase name ((other, value) :: rest) = (other, value) :: erase name rest := by
        simp [erase, same]
      rw [stays, ← ih tail]
      exact List.eraseP_cons_of_neg (by simp [same])

theorem Distinct.filter (distinct : Distinct entries) (keep : String × α → Bool) :
    Distinct (entries.filter keep) :=
  distinct.sublist (List.filter_sublist.map Prod.fst)

/-- Where only one name counts, its value does. -/
theorem flatMap_of_name {β : Type} (distinct : Distinct entries) {f : String × α → List β}
    (others : ∀ entry ∈ entries, entry.1 ≠ name → f entry = []) :
    entries.flatMap f = (entries.lookup name).elim [] fun value => f (name, value) := by
  induction entries with
  | nil => rfl
  | cons entry rest ih =>
    obtain ⟨other, value⟩ := entry
    obtain ⟨absent, tail⟩ := List.nodup_cons.mp distinct
    obtain ⟨first, later⟩ := List.forall_mem_cons.mp others
    rw [List.flatMap_cons, ih tail later]
    by_cases here : other = name
    · subst here
      rw [List.lookup_cons_self, lookup_eq_none_iff.mpr absent]
      exact List.append_nil _
    · rw [first here, List.lookup_cons, beq_eq_false_iff_ne.mpr (Ne.symm here)]
      rfl

/-! What the other changes do to what is found, and that they repeat no name. -/

theorem lookup_modify (name other : String) (f : α → α) (entries : List (String × α)) :
    (modify other f entries).lookup name =
      if name = other then (entries.lookup name).map f else entries.lookup name := by
  induction entries with
  | nil => simp [modify]
  | cons entry rest ih =>
    obtain ⟨first, value⟩ := entry
    rw [modify]
    by_cases here : first = other
    · subst here
      by_cases same : name = first
      · simp [same]
      · rw [if_pos rfl, if_neg same, List.lookup_cons, List.lookup_cons,
          beq_eq_false_iff_ne.mpr same]
    · rw [if_neg here, List.lookup_cons, List.lookup_cons, ih]
      by_cases same : name = first
      · simp [same, here]
      · rw [beq_eq_false_iff_ne.mpr same]

theorem names_modify (f : α → α) : names (modify name f entries) = names entries := by
  induction entries with
  | nil => rfl
  | cons entry rest ih =>
    obtain ⟨other, value⟩ := entry
    simp only [names] at ih
    rw [modify]
    split <;> simp [names, ih]

theorem Distinct.modify (distinct : Distinct entries) (name : String) (f : α → α) :
    Distinct (modify name f entries) := by
  rwa [Distinct, names_modify]

theorem modify_of_fixed {f : α → α}
    (fixed : ∀ value, entries.lookup name = some value → f value = value) :
    modify name f entries = entries := by
  induction entries with
  | nil => rfl
  | cons entry rest ih =>
    obtain ⟨other, value⟩ := entry
    rw [modify]
    by_cases here : other = name
    · subst here
      rw [if_pos rfl, fixed value List.lookup_cons_self]
    · rw [if_neg here, ih fun value found => fixed value ?_]
      rwa [List.lookup_cons, beq_eq_false_iff_ne.mpr (Ne.symm here)]

theorem modify_modify (f g : α → α) (entries : List (String × α)) :
    modify name f (modify name g entries) = modify name (fun value => f (g value)) entries := by
  induction entries with
  | nil => rfl
  | cons entry rest ih =>
    obtain ⟨other, value⟩ := entry
    by_cases here : other = name
    · simp [modify, here]
    · simp [modify, here, ih]

theorem has_modify (f : α → α) (other : String) :
    has other (modify name f entries) = has other entries := by
  rw [Bool.eq_iff_iff, ← mem_names_iff, ← mem_names_iff, names_modify]

theorem names_ensure (value : α) : names (ensure name value entries) =
    if has name entries then names entries else names entries ++ [name] := by
  unfold ensure
  split
  · rfl
  · exact List.map_append

theorem lookup_ensure (name other : String) (value : α) (entries : List (String × α)) :
    (ensure other value entries).lookup name =
      if name = other then some ((entries.lookup name).getD value) else entries.lookup name := by
  unfold ensure has
  cases found : entries.lookup other with
  | some present =>
    rw [Option.isSome_some, if_pos rfl]
    by_cases same : name = other
    · subst same
      simp [found]
    · rw [if_neg same]
  | none =>
    rw [Option.isSome_none, if_neg Bool.false_ne_true, lookup_concat (lookup_eq_none_iff.mp found)]
    by_cases same : name = other
    · subst same
      simp [found]
    · rw [if_neg (Ne.symm same), if_neg same]

theorem Distinct.ensure (distinct : Distinct entries) (name : String) (value : α) :
    Distinct (ensure name value entries) := by
  unfold Entries.ensure has
  cases found : entries.lookup name with
  | some present => exact distinct
  | none => exact distinct_concat.mpr ⟨distinct, lookup_eq_none_iff.mp found⟩

/-- Entries are kept or left out by their names. -/
theorem lookup_filterNames (name : String) (keep : String → Bool) (entries : List (String × α)) :
    (entries.filter fun (name, _) => keep name).lookup name =
      if keep name then entries.lookup name else none := by
  induction entries with
  | nil => simp
  | cons entry rest ih =>
    obtain ⟨first, value⟩ := entry
    rw [List.filter_cons, List.lookup_cons]
    dsimp only
    by_cases same : name = first
    · subst same
      by_cases kept : keep name = true
      · simp [kept]
      · simpa [kept] using ih
    · rw [beq_eq_false_iff_ne.mpr same]
      by_cases kept : keep first = true
      · rw [if_pos kept, List.lookup_cons, beq_eq_false_iff_ne.mpr same]
        exact ih
      · rw [if_neg kept]
        exact ih

theorem names_filterNames (keep : String → Bool) (entries : List (String × α)) :
    names (entries.filter fun (name, _) => keep name) = (names entries).filter keep := by
  rw [names, List.filter_map]
  rfl

theorem lookup_erase (name other : String) (entries : List (String × α)) :
    (erase other entries).lookup name = if name = other then none else entries.lookup name := by
  rw [erase, lookup_filterNames name (fun name => decide (name ≠ other)) entries]
  by_cases same : name = other <;> simp [same]

/-- Values may be rewritten with their names in view. -/
theorem lookup_mapValues {β : Type} (name : String) (f : String → α → β)
    (entries : List (String × α)) :
    (entries.map fun (name, value) => (name, f name value)).lookup name =
      (entries.lookup name).map (f name) := by
  induction entries with
  | nil => rfl
  | cons entry rest ih =>
    obtain ⟨first, value⟩ := entry
    rw [List.map_cons, List.lookup_cons, List.lookup_cons, ih]
    by_cases same : name = first
    · simp [same]
    · rw [beq_eq_false_iff_ne.mpr same]

theorem Distinct.mapValues {β : Type} (distinct : Distinct entries) (f : String → α → β) :
    Distinct (entries.map fun (name, value) => (name, f name value)) := by
  have same : names (entries.map fun (name, value) => (name, f name value)) = names entries := by
    simp [names, Function.comp_def]
  rwa [Distinct, same]

/-- Values may be rewritten, and left out with their names. -/
theorem lookup_filterMapValues {β : Type} (distinct : Distinct entries) (f : String → α → Option β) :
    (entries.filterMap fun (name, value) => (f name value).map (name, ·)).lookup name =
      (entries.lookup name).bind (f name) := by
  induction entries with
  | nil => rfl
  | cons entry rest ih =>
    obtain ⟨first, value⟩ := entry
    obtain ⟨absent, tail⟩ := List.nodup_cons.mp distinct
    have others := ih tail
    rw [List.filterMap_cons, List.lookup_cons]
    dsimp only
    by_cases same : name = first
    · subst same
      rw [beq_self_eq_true]
      cases made : f name value with
      | none =>
        rw [Option.map_none]
        dsimp only
        rw [others, lookup_eq_none_iff.mpr absent, Option.bind_none, Option.bind_some, made]
      | some result => simp [made]
    · rw [beq_eq_false_iff_ne.mpr same]
      cases made : f first value with
      | none => exact others
      | some result =>
        rw [Option.map_some, List.lookup_cons, beq_eq_false_iff_ne.mpr same]
        exact others

/-- Values are rewritten, and left out by their names. -/
theorem names_filterMapValues {β : Type} (f : String → α → Option β) {keep : String → Bool}
    (kept : ∀ name value, (name, value) ∈ entries → (f name value).isSome = keep name) :
    names (entries.filterMap fun (name, value) => (f name value).map (name, ·)) =
      (names entries).filter keep := by
  induction entries with
  | nil => rfl
  | cons entry rest ih =>
    obtain ⟨name, value⟩ := entry
    have others := ih fun name value member => kept name value (List.mem_cons_of_mem _ member)
    have here := kept name value (List.mem_cons_self ..)
    simp only [names] at others ⊢
    rw [List.filterMap_cons, List.map_cons, List.filter_cons]
    dsimp only
    cases made : f name value with
    | none => simpa [made, ← here] using others
    | some result => simpa [made, ← here] using others

end FieldSchema.Entries
