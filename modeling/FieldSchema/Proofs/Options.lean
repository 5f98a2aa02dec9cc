import FieldSchema.Proofs.Entries
import FieldSchema.Proofs.FailFast
import FieldSchema.Schema.Options
import Mathlib.Data.List.Induction

/-! Options in closed form. Whether an option is taken in depends on it and the type of the field
alone, and what is read of options with distinct keys follows from the value of each key. What was
read obeys the rules of its type, and it is read back from what is written of it. -/
namespace FieldSchema.Options

/-- The keys that are not kept among the other options. -/
def reservedKeys : List String := [Key.type, Key.required, Key.array] ++ knownKeys

/-- Whether an option may stand in a field of the given type. -/
def accepts (type : Option Primitive) : String × Json → Bool
  | (key, value) =>
    if key = Key.array then value.bool?.isSome
    else if key = Key.allowed then type = some .string && value.strings?.isSome
    else if key = Key.maxLength then type = some .string && value.natural?.isSome
    else if key = Key.exactLength then type = some .string && value.natural?.isSome
    else if key = Key.atLeast then type = some .number && (references? value).isSome
    else if key = Key.default then true
    else if key = Key.unique then value.bool?.isSome
    else !(key = Key.type ∨ key = Key.required)

/-- What becomes of the options with one more that is accepted. -/
def put : Draft → String × Json → Draft
  | (options, isArray), (key, value) =>
    if key = Key.array then (options, value.bool?.getD false)
    else if key = Key.allowed then ({ options with allowed := value.strings? }, isArray)
    else if key = Key.maxLength then ({ options with maxLength := value.natural? }, isArray)
    else if key = Key.exactLength then ({ options with exactLength := value.natural? }, isArray)
    else if key = Key.atLeast then ({ options with atLeast := references? value }, isArray)
    else if key = Key.default then ({ options with default := some value }, isArray)
    else if key = Key.unique then ({ options with unique := value.bool? }, isArray)
    else ({ options with extra := Entries.set key value options.extra }, isArray)

def others (entries : Members) : Members := entries.filter fun entry => entry.1 ∉ reservedKeys

/-- What options with distinct keys amount to. -/
def gathered (entries : Members) : Draft :=
  (⟨(entries.lookup Key.allowed).bind Json.strings?, (entries.lookup Key.maxLength).bind Json.natural?,
    (entries.lookup Key.exactLength).bind Json.natural?, (entries.lookup Key.atLeast).bind references?,
    entries.lookup Key.default, (entries.lookup Key.unique).bind Json.bool?, others entries⟩,
    ((entries.lookup Key.array).bind Json.bool?).getD false)

/-- An object takes no default, and a primitive field one of its type. -/
def DefaultSuits (type : Option Primitive) : Draft → Prop
  | (options, isArray) => ∀ value, options.default = some value → suits type isArray value = true

theorem checkDefault_eq_ok_iff {type : Option Primitive} {draft checked : Draft} :
    checkDefault type draft = .ok checked ↔ checked = draft ∧ DefaultSuits type draft := by
  obtain ⟨options, isArray⟩ := draft
  simp only [checkDefault, DefaultSuits]
  cases options.default with
  | none => simp [@eq_comm _ checked]
  | some value => cases fits : suits type isArray value <;> simp [fits, @eq_comm _ checked]

theorem demand_eq_ok_iff {α : Type} {problem : FieldProblem} {read : Option α}
    {f : α → Draft} {draft : Draft} (g : Option α → Draft) (same : ∀ a, f a = g (some a)) :
    (demand problem read).map f = .ok draft ↔ read.isSome = true ∧ draft = g read := by
  cases read with
  | none => simp [demand, Except.map]
  | some a => simp [demand, Except.map, same, @eq_comm _ draft]

/-- The same for an option that only fields of the type `wanted` have. -/
theorem demandFor_eq_ok_iff {α : Type} {type : Option Primitive} {wanted : Primitive}
    {problem wrong : FieldProblem} {read : Option α} {f : α → Draft} {draft : Draft}
    (g : Option α → Draft) (same : ∀ a, f a = g (some a)) :
    (if type = some wanted then (demand problem read).map f else .error wrong) = .ok draft ↔
      (type = some wanted && read.isSome) = true ∧ draft = g read := by
  by_cases fits : type = some wanted
  · simp [fits, demand_eq_ok_iff g same]
  · simp [fits]

theorem branch_eq_ok_iff {c : Prop} [Decidable c] {a b : Except FieldProblem Draft} {p q : Bool}
    {x y draft : Draft} (yes : a = .ok draft ↔ p = true ∧ draft = x)
    (no : b = .ok draft ↔ q = true ∧ draft = y) :
    (if c then a else b) = .ok draft ↔
      (if c then p else q) = true ∧ draft = if c then x else y := by
  by_cases holds : c <;> simp [holds, yes, no]

theorem step_eq_ok_iff {type : Option Primitive} {draft next : Draft} {entry : String × Json} :
    step type draft entry = .ok next ↔ accepts type entry = true ∧ next = put draft entry := by
  obtain ⟨options, isArray⟩ := draft
  refine branch_eq_ok_iff
    (demand_eq_ok_iff (fun flag => (options, flag.getD false)) fun _ => rfl) ?_
  refine branch_eq_ok_iff
    (demandFor_eq_ok_iff (fun names => ({ options with allowed := names }, isArray)) fun _ => rfl) ?_
  refine branch_eq_ok_iff
    (demandFor_eq_ok_iff (fun n => ({ options with maxLength := n }, isArray)) fun _ => rfl) ?_
  refine branch_eq_ok_iff
    (demandFor_eq_ok_iff (fun n => ({ options with exactLength := n }, isArray)) fun _ => rfl) ?_
  refine branch_eq_ok_iff
    (demandFor_eq_ok_iff (fun names => ({ options with atLeast := names }, isArray)) fun _ => rfl) ?_
  refine branch_eq_ok_iff (by simp [@eq_comm _ next]) ?_
  refine branch_eq_ok_iff
    (demand_eq_ok_iff (fun flag => ({ options with unique := flag }, isArray)) fun _ => rfl) ?_
  by_cases implied : entry.1 = Key.type ∨ entry.1 = Key.required
  · simp [implied]
  · simp [implied, @eq_comm _ next]

theorem foldlM_step_eq_ok_iff {type : Option Primitive} {entries : Members} {draft last : Draft} :
    entries.foldlM (step type) draft = .ok last ↔
      (∀ entry ∈ entries, accepts type entry = true) ∧ last = entries.foldl put draft := by
  induction entries generalizing draft with
  | nil => simp [pure, Except.pure, @eq_comm _ last]
  | cons entry rest ih =>
    rw [List.foldlM_cons, bind_eq_ok_iff, List.foldl_cons, List.forall_mem_cons]
    constructor
    · rintro ⟨next, taken, others⟩
      obtain ⟨accepted, rfl⟩ := step_eq_ok_iff.mp taken
      obtain ⟨all, same⟩ := ih.mp others
      exact ⟨⟨accepted, all⟩, same⟩
    · rintro ⟨⟨accepted, all⟩, same⟩
      exact ⟨_, step_eq_ok_iff.mpr ⟨accepted, rfl⟩, ih.mpr ⟨all, same⟩⟩

/-- One more option, whose key is not there yet. -/
theorem gathered_concat {type : Option Primitive} {entries : Members} {key : String} {value : Json}
    (accepted : accepts type (key, value) = true) (absent : key ∉ Entries.names entries) :
    gathered (entries ++ [(key, value)]) = put (gathered entries) (key, value) := by
  have found : ∀ name, (entries ++ [(key, value)]).lookup name =
      if key = name then some value else entries.lookup name :=
    fun name => Entries.lookup_concat absent value
  by_cases reserved : key ∈ reservedKeys
  · have kept : others (entries ++ [(key, value)]) = others entries := by
      simp [others, List.filter_append, reserved]
    simp only [gathered, found, kept]
    simp only [reservedKeys, knownKeys, List.mem_append, List.mem_cons, List.not_mem_nil,
      or_false] at reserved
    rcases reserved with (rfl | rfl | rfl) | rfl | rfl | rfl | rfl | rfl | rfl
    · simp [accepts, Key.type, Key.required, Key.array, Key.allowed, Key.maxLength,
        Key.exactLength, Key.atLeast, Key.default, Key.unique] at accepted
    · simp [accepts, Key.type, Key.required, Key.array, Key.allowed, Key.maxLength,
        Key.exactLength, Key.atLeast, Key.default, Key.unique] at accepted
    all_goals simp [put, Key.array, Key.allowed, Key.maxLength, Key.exactLength, Key.atLeast,
        Key.default, Key.unique]
  · have kept : others (entries ++ [(key, value)]) = Entries.set key value (others entries) := by
      rw [Entries.set_of_absent fun member => absent ?_]
      · simp [others, List.filter_append, reserved]
      · exact (List.filter_sublist.map Prod.fst).subset member
    simp only [gathered, found, kept]
    simp only [reservedKeys, knownKeys, List.mem_append, List.mem_cons, List.not_mem_nil,
      or_false, not_or] at reserved
    simp [put, reserved]

theorem foldl_put_eq_gathered {type : Option Primitive} {entries : Members}
    (accepted : ∀ entry ∈ entries, accepts type entry = true) (distinct : Entries.Distinct entries) :
    entries.foldl put (empty, false) = gathered entries := by
  induction entries using List.reverseRecOn with
  | nil => rfl
  | append_singleton before entry ih =>
    obtain ⟨key, value⟩ := entry
    obtain ⟨earlier, absent⟩ := Entries.distinct_concat.mp distinct
    rw [List.foldl_concat, ih (fun entry member => accepted entry (List.mem_append_left _ member))
      earlier]
    exact (gathered_concat (accepted _ (by simp)) absent).symm

theorem read_eq_ok_iff {type : Option Primitive} {entries : Members} {draft : Draft}
    (distinct : Entries.Distinct entries) : read type entries = .ok draft ↔
      (∀ entry ∈ entries, accepts type entry = true) ∧ DefaultSuits type (gathered entries) ∧
        draft = gathered entries := by
  simp only [read, bind_eq_ok_iff, foldlM_step_eq_ok_iff, checkDefault_eq_ok_iff]
  constructor
  · rintro ⟨_, ⟨accepted, rfl⟩, rfl, suited⟩
    rw [foldl_put_eq_gathered accepted distinct] at suited ⊢
    exact ⟨accepted, suited, rfl⟩
  · rintro ⟨accepted, suited, rfl⟩
    exact ⟨_, ⟨accepted, (foldl_put_eq_gathered accepted distinct).symm⟩, rfl, suited⟩

theorem ofMembers_eq_ok_iff {type : Option Primitive} {path : Path} {name : String}
    {entries : Members} {draft : Draft} :
    ofMembers type path name entries = .ok draft ↔ read type entries = .ok draft := by
  unfold ofMembers
  cases read type entries <;> simp [Except.mapError]

/-! The rules of a type. -/

structure Typed (type : Option Primitive) (options : Options) : Prop where
  allowed : options.allowed ≠ none → type = some .string
  maxLength : options.maxLength ≠ none → type = some .string
  exactLength : options.exactLength ≠ none → type = some .string
  atLeast : options.atLeast ≠ none → type = some .number
  named : options.atLeast ≠ some []
  distinct : Entries.Distinct options.extra
  unreserved : ∀ key ∈ Entries.names options.extra, key ∉ reservedKeys

/-- What reading ensures of the options of a field, with the flag that makes it an array. -/
structure Lawful (type : Option Primitive) (draft : Draft) : Prop where
  typed : Typed type draft.1
  suited : DefaultSuits type draft

theorem typed_empty (type : Option Primitive) : Typed type empty := by
  constructor <;> simp [empty, Entries.Distinct]

theorem references?_ne_nil {value : Json} : references? value ≠ some [] := by
  unfold references?
  split
  · simp
  · intro same
    obtain ⟨-, nonempty⟩ := Option.filter_eq_some_iff.mp same
    cases nonempty

/-- Taking in one more option keeps the rules. -/
theorem Typed.put {type : Option Primitive} {draft : Draft} {entry : String × Json}
    (typed : Typed type draft.1) (accepted : accepts type entry = true) :
    Typed type (put draft entry).1 := by
  obtain ⟨options, isArray⟩ := draft
  obtain ⟨key, value⟩ := entry
  simp only [accepts] at accepted
  simp only [Options.put]
  split_ifs at accepted ⊢ with isArray allowed maxLength exactLength atLeast default unique
  · exact typed
  · exact { typed with allowed := fun _ => by simp_all }
  · exact { typed with maxLength := fun _ => by simp_all }
  · exact { typed with exactLength := fun _ => by simp_all }
  · exact { typed with atLeast := fun _ => by simp_all, named := references?_ne_nil }
  · exact { typed with }
  · exact { typed with }
  · have unreserved : key ∉ reservedKeys := by
      simp only [Bool.not_eq_true', decide_eq_false_iff_not, not_or] at accepted
      simp [reservedKeys, knownKeys, *]
    refine { typed with distinct := typed.distinct.set key value, unreserved := ?_ }
    intro other member
    rcases Entries.mem_names_set.mp member with old | rfl
    · exact typed.unreserved other old
    · exact unreserved

theorem Typed.foldl_put {type : Option Primitive} {entries : Members} {draft : Draft}
    (typed : Typed type draft.1) (accepted : ∀ entry ∈ entries, accepts type entry = true) :
    Typed type (entries.foldl Options.put draft).1 := by
  induction entries generalizing draft with
  | nil => exact typed
  | cons entry rest ih =>
    exact ih (typed.put (accepted entry (List.mem_cons_self ..)))
      fun entry member => accepted entry (List.mem_cons_of_mem _ member)

theorem lawful_of_read {type : Option Primitive} {entries : Members} {draft : Draft}
    (complete : read type entries = .ok draft) : Lawful type draft := by
  obtain ⟨last, taken, checked⟩ := bind_eq_ok_iff.mp complete
  obtain ⟨accepted, rfl⟩ := foldlM_step_eq_ok_iff.mp taken
  obtain ⟨rfl, suited⟩ := checkDefault_eq_ok_iff.mp checked
  exact ⟨(typed_empty type).foldl_put accepted, suited⟩

/-! Writing. -/

theorem strings?_strings (ss : List String) : (Json.strings ss).strings? = some ss := by
  rw [Json.strings, Json.strings?]
  induction ss with
  | nil => rfl
  | cons s rest ih => simp [Json.string?, ih]

theorem references?_referencesValue {names : List String} (named : names ≠ []) :
    references? (referencesValue names) = some names := by
  match names with
  | [] => exact absurd rfl named
  | [name] => rfl
  | first :: second :: rest =>
    change (Json.strings (first :: second :: rest)).strings?.filter _ = _
    rw [strings?_strings]
    rfl

/-- What is written of the options of a field, but for its type and whether it is required. -/
def written : Draft → Members
  | (options, isArray) =>
    (if isArray then [(Key.array, .bool true)] else []) ++ (options.known ++ options.extra)

theorem lookup_known (options : Options) (key : String) :
    options.known.lookup key = if key ∈ knownKeys then options.get key else none := by
  unfold known
  induction knownKeys with
  | nil => rfl
  | cons first rest ih =>
    rw [List.filterMap_cons]
    by_cases same : key = first
    · subst same
      cases found : options.get key with
      | none => simp [ih, found]
      | some value => simp
    · have different : (key == first) = false := beq_eq_false_iff_ne.mpr same
      cases options.get first with
      | none => simp [ih, same]
      | some value => simp [ih, same, List.lookup_cons, different]

theorem names_known (options : Options) :
    Entries.names options.known = knownKeys.filter fun key => (options.get key).isSome := by
  unfold known
  induction knownKeys with
  | nil => rfl
  | cons first rest ih => cases found : options.get first <;> simp [found, ih]

theorem distinct_known (options : Options) : Entries.Distinct options.known := by
  rw [Entries.Distinct, names_known]
  exact List.Nodup.filter _ (by decide)

theorem known_of_mem_names {options : Options} {key : String}
    (member : key ∈ Entries.names options.known) : key ∈ knownKeys :=
  (List.mem_filter.mp (names_known options ▸ member)).1

theorem mem_known_iff {options : Options} {key : String} {value : Json} :
    (key, value) ∈ options.known ↔ key ∈ knownKeys ∧ options.get key = some value := by
  rw [← Entries.lookup_eq_some_iff (distinct_known options), lookup_known]
  split <;> simp [*]

theorem reserved_of_known {key : String} (known : key ∈ knownKeys) : key ∈ reservedKeys :=
  List.mem_append_right _ known

section

variable {type : Option Primitive} {options : Options} {isArray : Bool}

theorem mem_flag {key : String} {value : Json}
    (member : (key, value) ∈ if isArray then [(Key.array, Json.bool true)] else []) :
    key = Key.array ∧ value = .bool true := by
  cases isArray with
  | false => cases member
  | true => simpa using member

theorem array_of_flag {key : String}
    (member : key ∈ Entries.names (if isArray then [(Key.array, Json.bool true)] else [])) :
    key = Key.array := by
  obtain ⟨⟨_, value⟩, flag, rfl⟩ := List.mem_map.mp member
  exact (mem_flag flag).1

theorem lookup_flag {key : String} (other : key ≠ Key.array) :
    (if isArray then [(Key.array, Json.bool true)] else []).lookup key = none :=
  Entries.lookup_eq_none_iff.mpr fun member => other (array_of_flag member)

theorem array_not_known : Key.array ∉ knownKeys := by decide

theorem Typed.lookup_extra (typed : Typed type options) {key : String}
    (reserved : key ∈ reservedKeys) : options.extra.lookup key = none :=
  Entries.lookup_eq_none_iff.mpr fun member => typed.unreserved key member reserved

theorem Typed.distinct_written (typed : Typed type options) :
    Entries.Distinct (written (options, isArray)) := by
  have apart : Entries.Distinct (options.known ++ options.extra) :=
    Entries.distinct_append.mpr ⟨distinct_known options, typed.distinct, fun key known extra =>
      typed.unreserved key extra (reserved_of_known (known_of_mem_names known))⟩
  rw [written]
  refine Entries.distinct_append.mpr ⟨?_, apart, fun key flag => ?_⟩
  · cases isArray <;> simp [Entries.Distinct]
  · cases array_of_flag flag
    rw [← Entries.lookup_eq_none_iff, List.lookup_append, lookup_known, if_neg array_not_known,
      typed.lookup_extra (by decide), Option.or_none]

theorem Typed.accepts_known (typed : Typed type options) {key : String} {value : Json}
    (member : (key, value) ∈ options.known) : accepts type (key, value) = true := by
  obtain ⟨known, found⟩ := mem_known_iff.mp member
  simp only [knownKeys, List.mem_cons, List.not_mem_nil, or_false] at known
  rcases known with rfl | rfl | rfl | rfl | rfl | rfl
  · obtain ⟨names, some, rfl⟩ := Option.map_eq_some_iff.mp found
    have string := typed.allowed (by simp [some])
    subst string
    simp [accepts, Key.allowed, Key.array, strings?_strings]
  · obtain ⟨n, some, rfl⟩ := Option.map_eq_some_iff.mp found
    have string := typed.maxLength (by simp [some])
    subst string
    rfl
  · obtain ⟨n, some, rfl⟩ := Option.map_eq_some_iff.mp found
    have string := typed.exactLength (by simp [some])
    subst string
    rfl
  · obtain ⟨names, some, rfl⟩ := Option.map_eq_some_iff.mp found
    have number := typed.atLeast (by simp [some])
    have named : names ≠ [] := fun nil => typed.named (nil ▸ some)
    subst number
    simp [accepts, Key.allowed, Key.array, Key.maxLength, Key.exactLength, Key.atLeast,
      references?_referencesValue named]
  · rfl
  · obtain ⟨flag, some, rfl⟩ := Option.map_eq_some_iff.mp found
    rfl

theorem Typed.accepts_written (typed : Typed type options) :
    ∀ entry ∈ written (options, isArray), accepts type entry = true := by
  rintro ⟨key, value⟩ member
  rcases List.mem_append.mp member with flag | member
  · obtain ⟨rfl, rfl⟩ := mem_flag flag
    rfl
  · rcases List.mem_append.mp member with known | extra
    · exact typed.accepts_known known
    · have unreserved := typed.unreserved key (List.mem_map.mpr ⟨_, extra, rfl⟩)
      simp only [reservedKeys, knownKeys, List.mem_append, List.mem_cons, List.not_mem_nil,
        or_false, not_or] at unreserved
      simp [accepts, unreserved]

theorem Typed.lookup_written (typed : Typed type options) {key : String} (known : key ∈ knownKeys) :
    (written (options, isArray)).lookup key = options.get key := by
  have notFlag : key ≠ Key.array := fun same => array_not_known (same ▸ known)
  rw [written, List.lookup_append, lookup_flag notFlag, List.lookup_append, lookup_known, if_pos known,
    typed.lookup_extra (reserved_of_known known), Option.or_none, Option.none_or]

/-- What is written of a field beside its options is not among them. -/
theorem Typed.own_not_written (typed : Typed type options) {key : String}
    (own : key = Key.type ∨ key = Key.required) :
    key ∉ Entries.names (written (options, isArray)) := by
  have kinds : key ≠ Key.array ∧ key ∉ knownKeys ∧ key ∈ reservedKeys := by
    rcases own with rfl | rfl <;> decide
  rw [← Entries.lookup_eq_none_iff, written, List.lookup_append, lookup_flag kinds.1,
    List.lookup_append, lookup_known, if_neg kinds.2.1, typed.lookup_extra kinds.2.2]
  rfl

theorem Typed.lookup_array (typed : Typed type options) :
    (written (options, isArray)).lookup Key.array = if isArray then some (.bool true) else none := by
  rw [written, List.lookup_append, List.lookup_append, lookup_known, if_neg array_not_known,
    typed.lookup_extra (by decide)]
  cases isArray <;> rfl

theorem Typed.others_written (typed : Typed type options) :
    others (written (options, isArray)) = options.extra := by
  have flag : others (if isArray then [(Key.array, Json.bool true)] else []) = [] := by
    cases isArray <;> rfl
  have known : others options.known = [] := List.filter_eq_nil_iff.mpr fun entry member => by
    simpa using reserved_of_known (known_of_mem_names (List.mem_map_of_mem member))
  have extra : others options.extra = options.extra := List.filter_eq_self.mpr fun entry member => by
    simpa using typed.unreserved entry.1 (List.mem_map_of_mem member)
  simp only [others] at flag known extra ⊢
  rw [written, List.filter_append, List.filter_append, flag, known, extra, List.nil_append,
    List.nil_append]

theorem Typed.gathered_written (typed : Typed type options) :
    gathered (written (options, isArray)) = (options, isArray) := by
  have found := fun key => @Typed.lookup_written type options isArray typed key
  have allowed : ((written (options, isArray)).lookup Key.allowed).bind Json.strings? =
      options.allowed := by
    rw [found _ (by decide), get, if_pos rfl]
    cases options.allowed with
    | none => rfl
    | some names => exact strings?_strings names
  have atLeast : ((written (options, isArray)).lookup Key.atLeast).bind references? =
      options.atLeast := by
    rw [found _ (by decide)]
    change (options.atLeast.map referencesValue).bind references? = _
    cases references : options.atLeast with
    | none => rfl
    | some names => exact references?_referencesValue fun nil => typed.named (nil ▸ references)
  have length : ∀ n : Option UInt64, (n.map Json.natural).bind Json.natural? = n := by
    rintro (_ | n) <;> rfl
  have flag : ∀ flag : Option Bool, (flag.map Json.bool).bind Json.bool? = flag := by
    rintro (_ | flag) <;> rfl
  have maxLength : ((written (options, isArray)).lookup Key.maxLength).bind Json.natural? =
      options.maxLength := by
    rw [found _ (by decide)]
    exact length _
  have exactLength : ((written (options, isArray)).lookup Key.exactLength).bind Json.natural? =
      options.exactLength := by
    rw [found _ (by decide)]
    exact length _
  have unique : ((written (options, isArray)).lookup Key.unique).bind Json.bool? =
      options.unique := by
    rw [found _ (by decide)]
    exact flag _
  have default : (written (options, isArray)).lookup Key.default = options.default :=
    found _ (by decide)
  have array : (((written (options, isArray)).lookup Key.array).bind Json.bool?).getD false =
      isArray := by
    rw [typed.lookup_array]
    cases isArray <;> rfl
  rw [gathered, allowed, maxLength, exactLength, atLeast, default, unique, typed.others_written, array]

/-- Options that obey the rules are read back from what is written of them. -/
theorem read_written (lawful : Lawful type (options, isArray)) :
    read type (written (options, isArray)) = .ok (options, isArray) := by
  refine (read_eq_ok_iff lawful.typed.distinct_written).mpr ⟨lawful.typed.accepts_written, ?_, ?_⟩
  · rw [lawful.typed.gathered_written]
    exact lawful.suited
  · rw [lawful.typed.gathered_written]

end

end FieldSchema.Options
