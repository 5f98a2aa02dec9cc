import FieldSchema.Proofs.Entries
import FieldSchema.Proofs.FailFast
import FieldSchema.Proofs.Nesting
import FieldSchema.Wire
import Mathlib.Data.List.Nodup

/-! Wire schemas in closed form. The objects of a map are numbered in the order in which they end,
so the number of an object follows from how many there are before it and inside it: the definitions
are the objects in that order, and each is referred to once, from a later definition or from the
root. With every reference replaced by its definition a wire schema is the translation of the map,
object by object; and it holds nothing that pruning would leave out, whatever its fields are called. -/
namespace FieldSchema

mutual

/-- The number of object fields from the field on, at any depth. -/
def Field.objects : Field → Nat
  | .primitive .. => 0
  | .object fields _ => objectsIn fields + 1

def Field.objectsIn : List (String × Field) → Nat
  | [] => 0
  | (_, field) :: rest => field.objects + objectsIn rest

end

namespace Wire

/-! The translation of a map, with the objects inside it written out. -/

def inElements (isArray : Bool) (entry : Json) : Json :=
  if isArray then .object [("elements", entry)] else entry

def unlessEmpty (word : String) : Members → Members
  | [] => []
  | members => [(word, .object members)]

mutual

def translate : Field → Json
  | .primitive type traits => inElements traits.isArray
    (match traits.options.allowed with
      | some allowed => .object [("enum", .strings allowed)]
      | none => .object [("type", .string (typeName type))])
  | .object fields traits => inElements traits.isArray (.object
    (unlessEmpty "properties" (translateFields true fields) ++
      unlessEmpty "optionalProperties" (translateFields false fields)))

/-- The fields that are required, or those that are not. -/
def translateFields (required : Bool) : List (String × Field) → Members
  | [] => []
  | (name, field) :: rest => (if field.required = required then [(name, translate field)] else []) ++
    translateFields required rest

end

def translateMap (map : FieldMap) : Members :=
  unlessEmpty "properties" (translateFields true map) ++
    unlessEmpty "optionalProperties" (translateFields false map)

/-! References. -/

mutual

/-- The names that a document refers to, at any depth. -/
def targets : Json → List String
  | .array items => targetsOfItems items
  | .object members => targetsOfMembers members
  | _ => []

def targetsOfItems : List Json → List String
  | [] => []
  | item :: rest => targets item ++ targetsOfItems rest

def targetsOfMembers : Members → List String
  | [] => []
  | (key, value) :: rest =>
    (if key = "ref" then value.string?.toList else []) ++ (targets value ++ targetsOfMembers rest)

end

/-- The name to which an object refers that is a reference. -/
def target? : Members → Option String
  | [(key, value)] => if key = "ref" then value.string? else none
  | _ => none

mutual

/-- Replaces each reference by what `whole` has for its name. -/
def resolve (whole : Members) : Json → Json
  | .array items => .array (resolveItems whole items)
  | .object members =>
    match target? members with
    | some name => (whole.lookup name).getD (.object members)
    | none => .object (resolveMembers whole members)
  | value => value

def resolveItems (whole : Members) : List Json → List Json
  | [] => []
  | item :: rest => resolve whole item :: resolveItems whole rest

def resolveMembers (whole : Members) : Members → Members
  | [] => []
  | (key, value) :: rest => (key, resolve whole value) :: resolveMembers whole rest

end

def resolveNext (whole : Members) (definition : String × Json) : Members :=
  whole ++ [(definition.1, resolve whole definition.2)]

/-- The definitions with their references replaced, each with those before it. -/
def resolved (definitions : Members) : Members := definitions.foldl resolveNext []

/-- The name of the definition with the given number. -/
def refName (refPrefix : String) (k : Nat) : String := refPrefix ++ toString k

/-! What the builder makes of fields when `k` objects have ended before them. -/

section

variable (refPrefix : String)

def entryAt (k : Nat) : Field → Json
  | .primitive type traits => inElements traits.isArray (primitiveEntry (typeName type) traits.options)
  | .object fields traits =>
    inElements traits.isArray (reference (refName refPrefix (k + Field.objectsIn fields)))

def bucketAt (required : Bool) (k : Nat) : List (String × Field) → Members
  | [] => []
  | (name, field) :: rest =>
    (if field.required = required then [(name, entryAt refPrefix k field)] else []) ++
      bucketAt required (k + field.objects) rest

def formAt (k : Nat) (fields : FieldMap) : Form :=
  ⟨bucketAt refPrefix true k fields, bucketAt refPrefix false k fields⟩

mutual

/-- The definitions that are made on the way, in order and without their names. -/
def bodies (k : Nat) : Field → List Json
  | .primitive .. => []
  | .object fields _ => bodiesIn k fields ++ [.object (formAt refPrefix k fields).members]

def bodiesIn (k : Nat) : List (String × Field) → List Json
  | [] => []
  | (_, field) :: rest => bodies k field ++ bodiesIn (k + field.objects) rest

end

/-- Definitions with their names, the first of which has the number `k`. -/
def numbered (k : Nat) : List Json → Members
  | [] => []
  | body :: rest => (refName refPrefix k, body) :: numbered (k + 1) rest

end

mutual

/-- The definitions with their references replaced. -/
def translations : Field → List Json
  | .primitive .. => []
  | .object fields _ => translationsIn fields ++ [.object (translateMap fields)]

def translationsIn : List (String × Field) → List Json
  | [] => []
  | (_, field) :: rest => translations field ++ translationsIn rest

end

variable {refPrefix : String}

theorem refName_inj {j k : Nat} : refName refPrefix j = refName refPrefix k ↔ j = k := by
  refine ⟨fun same => ?_, fun same => same ▸ rfl⟩
  have digits : Nat.toDigits 10 j = Nat.toDigits 10 k := by
    have := congrArg String.toList same
    simpa [refName] using this
  have := congrArg (Nat.ofDigitChars 10 · 0) digits
  simpa [Nat.ofDigitChars_toDigits] using this

theorem numbered_append (k : Nat) (first second : List Json) :
    numbered refPrefix k (first ++ second) =
      numbered refPrefix k first ++ numbered refPrefix (k + first.length) second := by
  induction first generalizing k with
  | nil => rfl
  | cons body rest ih =>
    simp only [List.cons_append, numbered, ih, List.length_cons]
    rw [show k + 1 + rest.length = k + (rest.length + 1) by omega]

theorem names_numbered (k : Nat) (bs : List Json) : Entries.names (numbered refPrefix k bs) =
    (List.range' k bs.length).map (refName refPrefix) := by
  induction bs generalizing k with
  | nil => rfl
  | cons body rest ih => simpa [numbered, List.range'_succ] using ih (k + 1)

theorem lookup_numbered (k i : Nat) (bs : List Json) :
    (numbered refPrefix k bs).lookup (refName refPrefix (k + i)) = bs[i]? := by
  induction bs generalizing k i with
  | nil => rfl
  | cons body rest ih =>
    rw [numbered, List.lookup_cons]
    cases i with
    | zero => simp
    | succ i =>
      have other : (refName refPrefix (k + (i + 1)) == refName refPrefix k) = false := by
        rw [beq_eq_false_iff_ne, ne_eq, refName_inj]
        omega
      rw [other, show k + (i + 1) = k + 1 + i by omega]
      exact ih (k + 1) i

mutual

theorem length_bodies (k : Nat) : (field : Field) →
    (bodies refPrefix k field).length = field.objects
  | .primitive .. => rfl
  | .object fields _ => by
    rw [bodies, List.length_append, length_bodiesIn k fields, Field.objects, List.length_singleton]

theorem length_bodiesIn (k : Nat) : (fields : List (String × Field)) →
    (bodiesIn refPrefix k fields).length = Field.objectsIn fields
  | [] => rfl
  | (_, field) :: rest => by
    rw [bodiesIn, List.length_append, length_bodies k field, length_bodiesIn _ rest,
      Field.objectsIn]

end

/-! The builder. -/

theorem add_entry (form : Form) (name : String) (k : Nat) (field : Field) (entry : Json)
    (wrapped : inElements field.isArray entry = entryAt refPrefix k field) :
    form.add name field.traits entry =
      ⟨form.required ++ bucketAt refPrefix true k [(name, field)],
        form.optional ++ bucketAt refPrefix false k [(name, field)]⟩ := by
  have same : (if field.traits.isArray then Json.object [(Word.elements, entry)] else entry) =
      entryAt refPrefix k field := wrapped
  unfold Form.add
  simp only [same, bucketAt, Field.required]
  by_cases required : field.traits.required = true <;> simp [required]

/-- Running one step of the builder after another. -/
theorem bind_apply {α β : Type} {step : Build α} {next : α → Build β} {before after : Progress}
    {a : α} (first : step before = .ok (a, after)) : (step >>= next) before = next a after := by
  change (step before >>= fun result => next result.1 result.2) = _
  rw [first]
  rfl

/-- A document whose definitions are numbered without a gap; the next number is how many there are. -/
def progressAt (refPrefix : String) (done : List Json) : Progress :=
  ⟨done.length, numbered refPrefix 0 done⟩

/-- The next name is new, so it is defined behind the others. -/
theorem define_progressAt (settings : Settings) (done : List Json) (form : Form) :
    define settings form (progressAt settings.refPrefix done) =
      .ok (refName settings.refPrefix done.length,
        progressAt settings.refPrefix (done ++ [.object form.members])) := by
  have fresh : refName settings.refPrefix done.length ∉
      Entries.names (numbered settings.refPrefix 0 done) := by
    rw [names_numbered, List.mem_map]
    rintro ⟨k, inside, same⟩
    rw [List.mem_range'_1, refName_inj.mp same] at inside
    omega
  have defined : progressAt settings.refPrefix (done ++ [.object form.members]) =
      ⟨done.length + 1, Entries.set (refName settings.refPrefix done.length) (.object form.members)
        (numbered settings.refPrefix 0 done)⟩ := by
    rw [progressAt, numbered_append, List.length_append, Nat.zero_add, Entries.set_of_absent fresh]
    rfl
  rw [defined]
  rfl

section

variable {settings : Settings} {limit : Nat}

theorem walkFields_builder (fields : FieldMap) (path : Path) (out : Form) (done : List Json)
    (fits : fields.Fits limit path.depth) :
    (builder settings).walkFields limit path none out fields
        (progressAt settings.refPrefix done) =
      .ok (⟨out.required ++ bucketAt settings.refPrefix true done.length fields,
          out.optional ++ bucketAt settings.refPrefix false done.length fields⟩,
        progressAt settings.refPrefix (done ++ bodiesIn settings.refPrefix done.length fields)) := by
  induction fields using FieldMap.induction generalizing path out done with
  | step fields ih =>
    have each : ∀ name field out done, (name, field) ∈ fields →
        (builder settings).walkField limit path name out none field
            (progressAt settings.refPrefix done) =
          .ok (⟨out.required ++ bucketAt settings.refPrefix true done.length [(name, field)],
              out.optional ++ bucketAt settings.refPrefix false done.length [(name, field)]⟩,
            progressAt settings.refPrefix (done ++ bodies settings.refPrefix done.length field)) := by
      intro name field out done member
      cases field with
      | primitive type traits =>
        rw [bodies, List.append_nil]
        exact congrArg (fun form => Except.ok (form, _)) (add_entry _ _ _ _ _ rfl)
      | object inner traits =>
        have below := (FieldMap.everywhere_iff.mp fits).2 name inner traits member
        rw [← Path.depth_child] at below
        have walked : (builder settings).level limit (path.child name) none
            (fun out => (builder settings).walkFields limit (path.child name) none out inner)
              (progressAt settings.refPrefix done) =
            .ok (formAt settings.refPrefix done.length inner, progressAt settings.refPrefix
              (done ++ bodiesIn settings.refPrefix done.length inner)) := by
          unfold Visitor.level
          rw [if_neg (by have := (FieldMap.everywhere_iff.mp below).1; omega)]
          refine (bind_apply (ih name inner traits member _ _ _ below)).trans ?_
          rfl
        unfold Visitor.walkField
        refine (bind_apply walked).trans ?_
        have defined := define_progressAt settings
          (done ++ bodiesIn settings.refPrefix done.length inner)
          (formAt settings.refPrefix done.length inner)
        rw [List.length_append, length_bodiesIn, List.append_assoc] at defined
        refine (bind_apply defined).trans ?_
        exact congrArg (fun form => Except.ok (form, _)) (add_entry _ _ _ _ _ rfl)
    clear ih fits
    induction fields generalizing out done with
    | nil => simp [Visitor.walkFields, bucketAt, bodiesIn]; rfl
    | cons entry rest ih =>
      obtain ⟨name, field⟩ := entry
      unfold Visitor.walkFields
      refine (bind_apply (each name field out done (List.mem_cons_self ..))).trans ?_
      refine (ih _ _ (fun other field out done member =>
        each other field out done (List.mem_cons_of_mem _ member))).trans ?_
      simp [bucketAt, bodiesIn, length_bodies]

end

/-! Nothing is left out of a document that holds no null and no empty bucket. -/

theorem pruneMembers_eq {members : Members} (kept : ∀ key value, (key, value) ∈ members →
    prune value = some value ∧ (isBucket key = true → isEmptyObject value = false)) :
    pruneMembers members = members := by
  induction members with
  | nil => rfl
  | cons entry rest ih =>
    obtain ⟨key, value⟩ := entry
    obtain ⟨whole, filled⟩ := kept key value (List.mem_cons_self ..)
    have here : (isBucket key && isEmptyObject value) = false := by
      cases bucket : isBucket key with
      | false => rfl
      | true => exact filled bucket
    rw [pruneMembers, ih fun key value member => kept key value (List.mem_cons_of_mem _ member),
      whole]
    simp [here]

theorem prune_object {members : Members} (kept : ∀ key value, (key, value) ∈ members →
    prune value = some value ∧ (isBucket key = true → isEmptyObject value = false)) :
    prune (.object members) = some (.object members) := by
  rw [prune, pruneMembers_eq kept]

/-- A value is written out and is no empty object, so it is kept under any name. -/
def Kept (value : Json) : Prop := prune value = some value ∧ isEmptyObject value = false

theorem kept_single {key : String} {value : Json} (kept : Kept value) :
    Kept (.object [(key, value)]) := by
  refine ⟨prune_object fun other inner member => ?_, rfl⟩
  cases List.mem_singleton.mp member
  exact ⟨kept.1, fun _ => kept.2⟩

theorem kept_strings (ss : List String) : Kept (.strings ss) := by
  have items : ∀ ss : List String, pruneItems (ss.map .string) = ss.map .string := by
    intro ss
    induction ss with
    | nil => rfl
    | cons s rest ih => simp [pruneItems, prune, ih]
  refine ⟨?_, rfl⟩
  rw [Json.strings, prune, items]

theorem kept_entryAt (k : Nat) (field : Field) : Kept (entryAt refPrefix k field) := by
  have wrapped : ∀ (isArray : Bool) (entry : Json), Kept entry → Kept (inElements isArray entry) := by
    intro isArray entry kept
    cases isArray with
    | false => exact kept
    | true => exact kept_single kept
  cases field with
  | object fields traits => exact wrapped _ _ (kept_single ⟨rfl, rfl⟩)
  | primitive type traits =>
    refine wrapped _ _ ?_
    unfold primitiveEntry
    cases traits.options.allowed with
    | none => exact kept_single ⟨rfl, rfl⟩
    | some allowed => exact kept_single (kept_strings allowed)

theorem mem_bucketAt {required : Bool} {k : Nat} {fields : FieldMap} {name : String} {entry : Json}
    (member : (name, entry) ∈ bucketAt refPrefix required k fields) :
    ∃ k field, entry = entryAt refPrefix k field := by
  induction fields generalizing k with
  | nil => cases member
  | cons first rest ih =>
    obtain ⟨other, field⟩ := first
    rcases List.mem_append.mp member with member | member
    · split at member
      · cases List.mem_singleton.mp member
        exact ⟨k, field, rfl⟩
      · cases member
    · exact ih member

theorem mem_bucket {word key : String} {members : Members} {value : Json}
    (member : (key, value) ∈ Form.bucket word members) :
    members ≠ [] ∧ key = word ∧ value = .object members := by
  unfold Form.bucket at member
  cases members with
  | nil => cases member
  | cons first rest =>
    cases List.mem_singleton.mp member
    exact ⟨List.cons_ne_nil _ _, rfl, rfl⟩

theorem kept_bucket {word key : String} {members : Members} {value : Json}
    (kept : ∀ name entry, (name, entry) ∈ members →
      prune entry = some entry ∧ (isBucket name = true → isEmptyObject entry = false))
    (member : (key, value) ∈ Form.bucket word members) : Kept value := by
  obtain ⟨filled, rfl, rfl⟩ := mem_bucket member
  refine ⟨prune_object kept, ?_⟩
  cases members with
  | nil => exact absurd rfl filled
  | cons first rest => rfl

theorem kept_formAt {k : Nat} {fields : FieldMap} {key : String} {value : Json}
    (member : (key, value) ∈ (formAt refPrefix k fields).members) : Kept value := by
  have entries : ∀ required name entry, (name, entry) ∈ bucketAt refPrefix required k fields →
      prune entry = some entry ∧ (isBucket name = true → isEmptyObject entry = false) := by
    intro required name entry member
    obtain ⟨k, field, rfl⟩ := mem_bucketAt member
    exact ⟨(kept_entryAt k field).1, fun _ => (kept_entryAt k field).2⟩
  rcases List.mem_append.mp member with member | member
  · exact kept_bucket (entries true) member
  · exact kept_bucket (entries false) member

mutual

theorem prune_bodies {k : Nat} {body : Json} : (field : Field) →
    body ∈ bodies refPrefix k field → prune body = some body
  | .primitive .., member => by cases member
  | .object fields _, member => by
    rcases List.mem_append.mp member with member | member
    · exact prune_bodiesIn fields member
    · cases List.mem_singleton.mp member
      refine prune_object fun key value member => ?_
      exact ⟨(kept_formAt member).1, fun _ => (kept_formAt member).2⟩

theorem prune_bodiesIn {k : Nat} {body : Json} : (fields : List (String × Field)) →
    body ∈ bodiesIn refPrefix k fields → prune body = some body
  | [], member => by cases member
  | (_, field) :: rest, member => by
    rcases List.mem_append.mp member with member | member
    · exact prune_bodies field member
    · exact prune_bodiesIn rest member

end

theorem targetsOfMembers_append (ms ns : Members) :
    targetsOfMembers (ms ++ ns) = targetsOfMembers ms ++ targetsOfMembers ns := by
  induction ms with
  | nil => rfl
  | cons entry rest ih => simp [targetsOfMembers, ih]

theorem targetsOfMembers_bucket (word : String) (members : Members) :
    targetsOfMembers (Form.bucket word members) = targetsOfMembers members := by
  cases members <;> simp [Form.bucket, targetsOfMembers, targets, Json.string?]

theorem targets_inElements (isArray : Bool) (entry : Json) :
    targets (inElements isArray entry) = targets entry := by
  cases isArray <;> simp [inElements, targets, targetsOfMembers]

theorem targets_entryAt (k : Nat) (field : Field) : targets (entryAt refPrefix k field) =
    match field with
    | .primitive .. => []
    | .object fields _ => [refName refPrefix (k + Field.objectsIn fields)] := by
  cases field with
  | object fields traits =>
    simp [entryAt, targets_inElements, reference, targets, targetsOfMembers, Json.string?]
  | primitive type traits =>
    have strings : ∀ ss : List String, targetsOfItems (ss.map .string) = [] := by
      intro ss
      induction ss with
      | nil => rfl
      | cons s rest ih => simp [targetsOfItems, targets, ih]
    rw [entryAt, targets_inElements, primitiveEntry]
    cases traits.options.allowed with
    | none => simp [targets, targetsOfMembers]
    | some allowed => simp [targets, targetsOfMembers, Json.strings, strings]

theorem string?_entryAt (k : Nat) (field : Field) : (entryAt refPrefix k field).string? = none := by
  have wrapped : ∀ (isArray : Bool) (entry : Json), entry.string? = none →
      (inElements isArray entry).string? = none := by
    intro isArray entry none
    cases isArray with
    | false => exact none
    | true => rfl
  cases field with
  | object fields traits => exact wrapped _ _ rfl
  | primitive type traits =>
    refine wrapped _ _ ?_
    unfold primitiveEntry
    cases traits.options.allowed <;> rfl

theorem targetsOfMembers_entry (name : String) (k : Nat) (field : Field) :
    targetsOfMembers [(name, entryAt refPrefix k field)] = targets (entryAt refPrefix k field) := by
  simp [targetsOfMembers, string?_entryAt]

/-- What the entries of fields refer to, in both buckets. -/
def ownTargets (refPrefix : String) (k : Nat) (fields : FieldMap) : List String :=
  targetsOfMembers (bucketAt refPrefix true k fields) ++
    targetsOfMembers (bucketAt refPrefix false k fields)

theorem targetsOfMembers_formAt (k : Nat) (fields : FieldMap) :
    targetsOfMembers (formAt refPrefix k fields).members = ownTargets refPrefix k fields := by
  rw [Form.members, targetsOfMembers_append, targetsOfMembers_bucket, targetsOfMembers_bucket]
  rfl

theorem ownTargets_cons (k : Nat) (name : String) (field : Field) (rest : FieldMap) :
    (ownTargets refPrefix k ((name, field) :: rest)).Perm
      (targets (entryAt refPrefix k field) ++ ownTargets refPrefix (k + field.objects) rest) := by
  unfold ownTargets
  simp only [bucketAt, targetsOfMembers_append]
  cases required : field.required with
  | true => simp [targetsOfMembers_entry, targetsOfMembers]
  | false =>
    simp only [Bool.false_eq_true, if_false, if_true, targetsOfMembers_entry]
    exact List.perm_append_comm_assoc ..

mutual

theorem targets_perm (k : Nat) : (field : Field) →
    (targets (entryAt refPrefix k field) ++ (bodies refPrefix k field).flatMap targets).Perm
      ((List.range' k field.objects).map (refName refPrefix))
  | .primitive type traits => by
    rw [targets_entryAt]
    exact .refl _
  | .object fields traits => by
    have inside := targets_permIn k fields
    rw [targets_entryAt, Field.objects, List.range'_concat, List.map_append, bodies,
      List.flatMap_append]
    rw [List.perm_iff_count] at inside ⊢
    intro name
    have := inside name
    simp only [List.count_append, List.flatMap_cons, List.flatMap_nil, List.append_nil, targets,
      targetsOfMembers_formAt, List.map_cons, List.map_nil, Nat.one_mul] at this ⊢
    omega

theorem targets_permIn (k : Nat) : (fields : List (String × Field)) →
    (ownTargets refPrefix k fields ++ (bodiesIn refPrefix k fields).flatMap targets).Perm
      ((List.range' k (Field.objectsIn fields)).map (refName refPrefix))
  | [] => .refl _
  | (name, field) :: rest => by
    have first := targets_perm k field
    have others := targets_permIn (k + field.objects) rest
    have both := @ownTargets_cons refPrefix k name field rest
    rw [Field.objectsIn, bodiesIn, List.flatMap_append, ← List.range'_append_1, List.map_append]
    rw [List.perm_iff_count] at first others both ⊢
    intro target
    have := first target
    have := others target
    have := both target
    simp only [List.count_append] at *
    omega

end

theorem mem_ownTargets {k : Nat} {fields : FieldMap} {target : String}
    (member : target ∈ ownTargets refPrefix k fields) :
    ∃ j, k ≤ j ∧ j < k + Field.objectsIn fields ∧ target = refName refPrefix j := by
  have listed := (targets_permIn k fields).subset (List.mem_append_left _ member)
  obtain ⟨j, inside, same⟩ := List.mem_map.mp listed
  rw [List.mem_range'_1] at inside
  exact ⟨j, inside.1, inside.2, same.symm⟩

mutual

/-- A definition refers to nothing but objects that ended before it. -/
theorem targets_bodies {k i : Nat} {body : Json} {target : String} : (field : Field) →
    (bodies refPrefix k field)[i]? = some body → target ∈ targets body →
      ∃ j, k ≤ j ∧ j < k + i ∧ target = refName refPrefix j
  | .primitive .., found, _ => by cases found
  | .object fields _, found, member => by
    rw [bodies, List.getElem?_append, length_bodiesIn] at found
    split at found
    · exact targets_bodiesIn fields found member
    · next last =>
      obtain ⟨_, same⟩ := List.getElem?_eq_some_iff.mp found
      cases (List.getElem_singleton ..).symm.trans same
      rw [targets, targetsOfMembers_formAt] at member
      obtain ⟨j, after, before, same⟩ := mem_ownTargets member
      exact ⟨j, after, by omega, same⟩

theorem targets_bodiesIn {k i : Nat} {body : Json} {target : String} :
    (fields : List (String × Field)) → (bodiesIn refPrefix k fields)[i]? = some body →
      target ∈ targets body → ∃ j, k ≤ j ∧ j < k + i ∧ target = refName refPrefix j
  | [], found, _ => by cases found
  | (_, field) :: rest, found, member => by
    rw [bodiesIn, List.getElem?_append, length_bodies] at found
    split at found
    · exact targets_bodies field found member
    · obtain ⟨j, after, before, same⟩ := targets_bodiesIn rest found member
      exact ⟨j, by omega, by omega, same⟩

end

/-! Replacing references. -/

theorem resolveMembers_append (whole ms ns : Members) :
    resolveMembers whole (ms ++ ns) = resolveMembers whole ms ++ resolveMembers whole ns := by
  induction ms with
  | nil => rfl
  | cons entry rest ih => simp [resolveMembers, ih]

theorem resolveMembers_bucket (whole : Members) (word : String) (members : Members)
    (plain : target? members = none) : resolveMembers whole (Form.bucket word members) =
      unlessEmpty word (resolveMembers whole members) := by
  cases members with
  | nil => rfl
  | cons entry rest => simp [Form.bucket, unlessEmpty, resolveMembers, resolve, plain]

theorem resolve_inElements (whole : Members) (isArray : Bool) (entry : Json) :
    resolve whole (inElements isArray entry) = inElements isArray (resolve whole entry) := by
  cases isArray <;> simp [inElements, resolve, resolveMembers, target?]

theorem resolve_primitive (whole : Members) (type : Primitive) (traits : Traits) (k : Nat) :
    resolve whole (entryAt refPrefix k (.primitive type traits)) =
      translate (.primitive type traits) := by
  have strings : ∀ ss : List String, resolveItems whole (ss.map .string) = ss.map .string := by
    intro ss
    induction ss with
    | nil => rfl
    | cons s rest ih => simp [resolveItems, resolve, ih]
  rw [entryAt, resolve_inElements, translate, primitiveEntry]
  cases traits.options.allowed with
  | none => simp [resolve, resolveMembers, target?]
  | some allowed => simp [resolve, resolveMembers, target?, Json.strings, strings]

theorem target?_eq_none {members : Members}
    (plain : ∀ key value, (key, value) ∈ members → value.string? = none) :
    target? members = none := by
  match members with
  | [] => rfl
  | [(key, value)] => simp [target?, plain key value (List.mem_singleton_self _)]
  | _ :: _ :: _ => rfl

/-- Fields are not taken for a reference, whatever they are called. -/
theorem target?_bucketAt (required : Bool) (k : Nat) (fields : FieldMap) :
    target? (bucketAt refPrefix required k fields) = none := by
  refine target?_eq_none fun name entry member => ?_
  obtain ⟨k, field, rfl⟩ := mem_bucketAt member
  exact string?_entryAt k field

theorem target?_formAt (k : Nat) (fields : FieldMap) :
    target? (formAt refPrefix k fields).members = none := by
  refine target?_eq_none fun word value member => ?_
  rcases List.mem_append.mp member with member | member
  · obtain ⟨-, -, rfl⟩ := mem_bucket member
    rfl
  · obtain ⟨-, -, rfl⟩ := mem_bucket member
    rfl

mutual

theorem length_translations : (field : Field) → (translations field).length = field.objects
  | .primitive .. => rfl
  | .object fields _ => by
    rw [translations, List.length_append, length_translationsIn fields, Field.objects,
      List.length_singleton]

theorem length_translationsIn : (fields : List (String × Field)) →
    (translationsIn fields).length = Field.objectsIn fields
  | [] => rfl
  | (_, field) :: rest => by
    rw [translationsIn, List.length_append, length_translations field, length_translationsIn rest,
      Field.objectsIn]

end

/-! Where the objects inside a field are among those replaced already, so is the field. -/

theorem lookup_middle (refPrefix : String) (before : List Json) (body : Json) (after : List Json) :
    (numbered refPrefix 0 (before ++ body :: after)).lookup (refName refPrefix before.length) =
      some body := by
  have found := @lookup_numbered refPrefix 0 before.length (before ++ body :: after)
  rw [Nat.zero_add] at found
  rw [found, List.getElem?_append_right (Nat.le_refl _), Nat.sub_self]
  rfl

theorem resolve_entryAt (before after : List Json) (field : Field) :
    resolve (numbered refPrefix 0 (before ++ translations field ++ after))
      (entryAt refPrefix before.length field) = translate field := by
  cases field with
  | primitive type traits => exact resolve_primitive ..
  | object fields traits =>
    have found := lookup_middle refPrefix (before ++ translationsIn fields)
      (.object (translateMap fields)) after
    rw [List.length_append, length_translationsIn, List.append_assoc] at found
    rw [entryAt, resolve_inElements, translate, translations]
    simp only [reference, resolve, target?, if_true, Json.string?, List.append_assoc,
      List.singleton_append, found]
    rfl

theorem resolve_bucketAt (required : Bool) (before after : List Json) (fields : FieldMap) :
    resolveMembers (numbered refPrefix 0 (before ++ translationsIn fields ++ after))
      (bucketAt refPrefix required before.length fields) = translateFields required fields := by
  induction fields generalizing before with
  | nil => rfl
  | cons entry rest ih =>
    obtain ⟨name, field⟩ := entry
    have first := @resolve_entryAt refPrefix before (translationsIn rest ++ after) field
    have others := ih (before ++ translations field)
    rw [List.length_append, length_translations] at others
    simp only [translationsIn, List.append_assoc] at first others ⊢
    rw [bucketAt, resolveMembers_append, others, translateFields]
    by_cases same : field.required = required
    · simp [same, resolveMembers, first]
    · simp [same, resolveMembers]

theorem resolve_formAt (before after : List Json) (fields : FieldMap) :
    resolve (numbered refPrefix 0 (before ++ translationsIn fields ++ after))
      (.object (formAt refPrefix before.length fields).members) = .object (translateMap fields) := by
  rw [resolve, target?_formAt]
  simp only [Form.members, formAt, resolveMembers_append, translateMap]
  rw [resolveMembers_bucket _ _ _ (target?_bucketAt ..), resolve_bucketAt,
    resolveMembers_bucket _ _ _ (target?_bucketAt ..), resolve_bucketAt]
  rfl

mutual

theorem resolved_bodies (before : List Json) : (field : Field) →
    (numbered refPrefix before.length (bodies refPrefix before.length field)).foldl resolveNext
        (numbered refPrefix 0 before) = numbered refPrefix 0 (before ++ translations field)
  | .primitive .. => by rw [bodies, translations, List.append_nil]; rfl
  | .object fields traits => by
    have whole := @resolve_formAt refPrefix before [] fields
    have last := @numbered_append refPrefix 0 (before ++ translationsIn fields)
      [.object (translateMap fields)]
    rw [List.append_nil] at whole
    rw [List.length_append, length_translationsIn, Nat.zero_add, ← whole] at last
    rw [bodies, numbered_append, List.foldl_append, resolved_bodiesIn before fields,
      length_bodiesIn, translations, ← List.append_assoc, ← whole]
    exact last.symm

theorem resolved_bodiesIn (before : List Json) : (fields : List (String × Field)) →
    (numbered refPrefix before.length (bodiesIn refPrefix before.length fields)).foldl resolveNext
        (numbered refPrefix 0 before) = numbered refPrefix 0 (before ++ translationsIn fields)
  | [] => by rw [bodiesIn, translationsIn, List.append_nil]; rfl
  | (_, field) :: rest => by
    have others := resolved_bodiesIn (before ++ translations field) rest
    rw [List.length_append, length_translations] at others
    rw [bodiesIn, numbered_append, List.foldl_append, resolved_bodies before field, length_bodies,
      others, translationsIn, List.append_assoc]

end

/-! The wire schema of a map. -/

end Wire

end FieldSchema
