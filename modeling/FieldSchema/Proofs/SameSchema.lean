import FieldSchema.Proofs.Flattening
import FieldSchema.Proofs.Reordering
import FieldSchema.Proofs.Written

/-! Schemas that are equal up to the order of members. Where no field may be declared again, both
are normalized or neither is, and the maps have the same fields, in whatever order, with the same
rules. -/
namespace FieldSchema

open Json (SameValue SameMembers)

/-- What the options say of the values of a field. -/
structure Options.Agree (a b : Options) : Prop where
  allowed : a.allowed = b.allowed
  maxLength : a.maxLength = b.maxLength
  exactLength : a.exactLength = b.exactLength
  atLeast : a.atLeast = b.atLeast

structure Traits.Agree (a b : Traits) : Prop where
  required : a.required = b.required
  isArray : a.isArray = b.isArray
  options : a.options.Agree b.options

/-- Fields that ask the same of a value: objects have the same fields, in whatever order. -/
inductive Field.Alike : Field → Field → Prop where
  | primitive {type : Primitive} {a b : Traits} : a.Agree b →
    Alike (.primitive type a) (.primitive type b)
  | object {fields others : FieldMap} {a b : Traits} :
    (∀ name, Option.Rel Alike (List.lookup name fields) (List.lookup name others)) → a.Agree b →
    Alike (.object fields a) (.object others b)

def FieldMap.Alike (fields others : FieldMap) : Prop :=
  ∀ name, Option.Rel Field.Alike (List.lookup name fields) (List.lookup name others)

/-! Options. -/

namespace Options

variable {type : Option Primitive}

theorem references?_congr {a b : Json} (values : a.SameValue b) : references? a = references? b := by
  cases values.form with
  | array items => simp only [references?, values.strings?]
  | null | bool | number | string | object => rfl

theorem accepts_congr {a b : String × Json} (same : SameName SameValue a b) :
    accepts type a = accepts type b := by
  obtain ⟨key, a⟩ := a
  obtain ⟨_, b⟩ := b
  obtain ⟨rfl, values⟩ := same
  simp only [accepts, values.bool?, values.strings?, values.natural?, references?_congr values]

theorem holds_congr {a b : Json} (values : a.SameValue b) (type : Primitive) :
    type.holds a = type.holds b := by
  cases values.form <;> cases type <;> rfl

theorem all_holds_congr {xs ys : List Json} (items : List.Forall₂ SameValue xs ys) (type : Primitive) :
    xs.all type.holds = ys.all type.holds := by
  induction items with
  | nil => rfl
  | cons first _ ih => rw [List.all_cons, List.all_cons, holds_congr first, ih]

theorem suits_congr {a b : Json} (values : a.SameValue b) (isArray : Bool) :
    suits type isArray a = suits type isArray b := by
  cases type with
  | none => rfl
  | some type =>
    have items : a.array?.any (·.all type.holds) = b.array?.any (·.all type.holds) := by
      have items := values.array?
      generalize a.array? = xs at items
      generalize b.array? = ys at items
      cases items with
      | some items => exact all_holds_congr items type
      | none => rfl
    simp only [suits, holds_congr values, items]

variable {entries others : Members}

theorem bind_lookup_congr {α : Type} {read : Json → Option α} (same : SameMembers entries others)
    (congr : ∀ a b : Json, a.SameValue b → read a = read b) (key : String) :
    (entries.lookup key).bind read = (others.lookup key).bind read := by
  have values := same.lookup key
  generalize entries.lookup key = a at values
  generalize others.lookup key = b at values
  cases values with
  | some values => exact congr _ _ values
  | none => rfl

theorem gathered_agree (same : SameMembers entries others) :
    (gathered entries).1.Agree (gathered others).1 ∧ (gathered entries).2 = (gathered others).2 := by
  refine ⟨⟨?_, ?_, ?_, ?_⟩, ?_⟩
  · exact bind_lookup_congr same (fun _ _ values => values.strings?) _
  · exact bind_lookup_congr same (fun _ _ values => values.natural?) _
  · exact bind_lookup_congr same (fun _ _ values => values.natural?) _
  · exact bind_lookup_congr same (fun _ _ values => references?_congr values) _
  · exact congrArg (Option.getD · false)
      (bind_lookup_congr same (fun _ _ values => values.bool?) _)

theorem defaultSuits_reordered (same : SameMembers entries others)
    (suited : DefaultSuits type (gathered entries)) : DefaultSuits type (gathered others) := by
  intro value default
  have values := same.lookup Key.default
  rw [show others.lookup Key.default = some value from default] at values
  cases found : entries.lookup Key.default with
  | none =>
    rw [found] at values
    cases values
  | some own =>
    rw [found] at values
    cases values with
    | some values =>
      change suits type (gathered others).2 value = true
      rw [← (gathered_agree same).2, ← suits_congr values]
      exact suited own found

/-- Options are read whatever their order. -/
theorem read_reordered (same : SameMembers entries others) {draft : Draft}
    (complete : read type entries = .ok draft) :
    ∃ other : Draft, read type others = .ok other ∧ draft.1.Agree other.1 ∧ draft.2 = other.2 := by
  obtain ⟨accepted, suited, rfl⟩ := (read_eq_ok_iff same.distinct).mp complete
  refine ⟨gathered others, (read_eq_ok_iff same.symm.distinct).mpr ⟨fun entry member => ?_,
    defaultSuits_reordered same suited, rfl⟩, gathered_agree same⟩
  obtain ⟨own, inEntries, named⟩ := same.reordered.exists_left member
  exact (accepts_congr named).symm.trans (accepted own inEntries)

end Options

/-! Declarations. -/

/-- Declarations of the same field with the same value. -/
structure Declaration.Same (a b : Declaration) : Prop where
  required : a.required = b.required
  tag : a.tag = b.tag
  name : a.name = b.name
  value : a.value.SameValue b.value

namespace Collection

variable {a b : Json}

theorem declarationsOfGroup_reordered (required : Bool) (tag : String) (values : a.SameValue b) :
    Reordered Declaration.Same (declarationsOfGroup required tag a)
      (declarationsOfGroup required tag b) := by
  cases values.form with
  | object members => exact members.reordered.map fun _ _ same => ⟨rfl, rfl, same.1, same.2⟩
  | null | bool | number | string | array => exact .nil

theorem declarationsOfHalf_reordered (required : Bool) (values : a.SameValue b) :
    Reordered Declaration.Same (declarationsOfHalf required a) (declarationsOfHalf required b) := by
  cases values.form with
  | object members =>
    refine members.reordered.flatMap fun (tag, a) (_, b) same => ?_
    cases same.1
    exact declarationsOfGroup_reordered required tag same.2
  | null | bool | number | string | array => exact .nil

theorem groupShaped_congr {a b : String × Json} (same : SameName SameValue a b)
    (shaped : GroupShaped a) : GroupShaped b := by
  obtain ⟨⟨tag, known⟩, fields, isObject⟩ := shaped
  obtain ⟨others, isObject, -⟩ := same.2.object_left isObject
  exact ⟨⟨tag, same.1 ▸ known⟩, others, isObject⟩

variable {ms ns : Members} (same : SameMembers ms ns)

include same

theorem declarations_reordered :
    Reordered Declaration.Same (declarations ms) (declarations ns) := by
  refine same.reordered.flatMap fun (key, a) (_, b) same => ?_
  cases same.1
  dsimp only
  cases required? key with
  | some required => exact declarationsOfHalf_reordered required same.2
  | none => exact .nil

theorem ownOptions_same : SameMembers (ownOptions ms) (ownOptions ns) :=
  ⟨same.distinct.filter _, same.reordered.filter fun a b same => by
    dsimp only
    rw [same.1]⟩

theorem shaped_reordered {nested : Bool} (shaped : Shaped nested ms) : Shaped nested ns := by
  constructor
  · intro key value member half
    obtain ⟨⟨_, own⟩, inMs, named, values⟩ := same.reordered.exists_left member
    cases named
    obtain ⟨groups, isObject, each⟩ := shaped.half key own inMs half
    obtain ⟨others, isOther, members⟩ := values.object_left isObject
    refine ⟨others, isOther, fun entry inOthers => ?_⟩
    obtain ⟨group, inGroups, same⟩ := members.reordered.exists_left inOthers
    exact groupShaped_congr same (each group inGroups)
  · intro key value member own
    obtain ⟨⟨_, held⟩, inMs, named, -⟩ := same.reordered.exists_left member
    cases named
    exact shaped.own key held inMs own

end Collection

/-! Fields. -/

namespace Field.Alike

variable {a b : Field} (alike : a.Alike b)

include alike

theorem traits : a.traits.Agree b.traits := by
  cases alike with
  | primitive agree => exact agree
  | object _ agree => exact agree

theorem isNumber : a.isNumber = b.isNumber := by
  cases alike with
  | @primitive type => cases type <;> rfl
  | object => rfl

end Field.Alike

namespace FieldMap

variable {map other : FieldMap}

theorem alike_of_reordered (reordered : Reordered (SameName Field.Alike) map other)
    (distinct : Entries.Distinct map) : map.Alike other := reordered.lookup distinct

theorem Alike.exists_left (alike : map.Alike other) {name : String} {field : Field}
    (found : other.get? name = some field) : ∃ own, map.get? name = some own ∧ own.Alike field := by
  have related := alike name
  rw [show List.lookup name other = some field from found] at related
  cases held : List.lookup name map with
  | none =>
    rw [held] at related
    cases related
  | some own =>
    rw [held] at related
    cases related with
    | some same => exact ⟨own, held, same⟩

theorem Alike.resolved (alike : map.Alike other) (distinct : Entries.Distinct other)
    (resolved : map.Resolved) : other.Resolved := by
  intro name field member reference named
  obtain ⟨own, found, same⟩ :=
    alike.exists_left ((Entries.lookup_eq_some_iff distinct).mpr member)
  have references : own.options.atLeast = field.options.atLeast := same.traits.options.atLeast
  have good := resolved name own (Entries.mem_of_lookup found) reference (references ▸ named)
  obtain ⟨target, held, number⟩ := badReference?_eq_none_iff.mp good
  have related := alike reference
  rw [show List.lookup reference map = some target from held] at related
  cases there : List.lookup reference other with
  | none =>
    rw [there] at related
    cases related
  | some partner =>
    rw [there] at related
    cases related with
    | some same => exact badReference?_eq_none_iff.mpr ⟨partner, there, same.isNumber ▸ number⟩

end FieldMap

/-! Collections. -/

section

variable {settings : Settings}

open Collection

/-- A declaration stands for the same field as an equal one. -/
theorem Declaration.Declares.transfer {path : Path} {a b : Declaration} (same : a.Same b)
    {field : Field} (declares : a.Declares settings path field)
    (inside : ∀ inner traits, field = .object inner traits → ∀ ms ns others,
      SameMembers ms ns → Compiles settings (path.child a.name) true ms others inner →
        ∃ rest map, Compiles settings (path.child a.name) true ns rest map ∧
          SameMembers others rest ∧ FieldMap.Alike inner map) :
    ∃ other, b.Declares settings path other ∧ field.Alike other := by
  cases declares with
  | primitive known held taken =>
    obtain ⟨others, isObject, members⟩ := same.value.object_left held
    obtain ⟨draft, read, agree, flag⟩ := Options.read_reordered members taken
    exact ⟨_, .primitive (same.tag ▸ known) isObject read, .primitive ⟨same.required, flag, agree⟩⟩
  | object known held compiles taken =>
    obtain ⟨ns, isObject, members⟩ := same.value.object_left held
    obtain ⟨rest, map, complete, own, alike⟩ := inside _ _ rfl _ ns _ members compiles
    obtain ⟨draft, read, agree, flag⟩ := Options.read_reordered own taken
    exact ⟨_, .object (same.tag ▸ known) isObject (same.name ▸ complete) read,
      .object alike ⟨same.required, flag, agree⟩⟩

theorem Collection.compiles_reordered (rejects : settings.duplicates = .reject) {map : FieldMap}
    {path : Path} {nested : Bool} {ms ns others : Members} (same : SameMembers ms ns)
    (compiles : Compiles settings path nested ms others map) :
    ∃ rest other, Compiles settings path nested ns rest other ∧ SameMembers others rest ∧
      map.Alike other := by
  induction map using FieldMap.induction generalizing path nested ms ns others with
  | step map ih =>
    obtain ⟨shaped, rfl, shallow, resolved, distinct, each⟩ := (compiles_iff rejects).mp compiles
    have partners : ∃ other : FieldMap, List.Forall₂ (fun declaration entry =>
        declaration.name = entry.1 ∧ declaration.Declares settings path entry.2)
          (declarations ns) other ∧ Reordered (SameName Field.Alike) map other := by
      refine (declarations_reordered same).transfer each ?_
      rintro a b ⟨name, field⟩ member same ⟨named, declares⟩
      obtain ⟨partner, declared, alike⟩ := declares.transfer same fun inner traits isObject =>
        fun _ _ _ sameInner => ih name inner traits (isObject ▸ member) sameInner
      exact ⟨(b.name, partner), ⟨rfl, declared⟩, named.symm.trans same.name, alike⟩
    obtain ⟨other, images, reordered⟩ := partners
    have alike := FieldMap.alike_of_reordered reordered distinct
    have distinctOther := reordered.distinct distinct
    exact ⟨_, other, (compiles_iff rejects).mpr ⟨shaped_reordered same shaped, rfl, shallow,
      alike.resolved distinctOther resolved, distinctOther, images⟩, ownOptions_same same, alike⟩

end

/-! Written field maps. -/

namespace Field

theorem readRequired_congr {path : Path} {name : String} {ms ns : Members}
    (same : SameMembers ms ns) : readRequired path name ms = readRequired path name ns := by
  have values := same.lookup Key.required
  unfold readRequired
  generalize ms.lookup Key.required = a at values
  generalize ns.lookup Key.required = b at values
  cases values with
  | none => rfl
  | some values => cases values.form <;> rfl

theorem optionEntries_same {ms ns : Members} (same : SameMembers ms ns) :
    SameMembers (optionEntries ms) (optionEntries ns) :=
  ⟨same.distinct.filter _, same.reordered.filter fun a b same => by
    dsimp only
    rw [same.1]⟩

section

variable {limit : Nat} {path : Path}

/-- A member of a written field map stands for the same field as an equal one. -/
theorem Written.transfer {name : String} {a b : Json} (same : a.SameValue b) {field : Field}
    (written : Written limit path name a field)
    (inside : ∀ inner traits, field = .object inner traits → ∀ ms ns, SameMembers ms ns →
      level limit (path.child name) (fun done =>
        readFields limit (path.child name) done ms) = .ok inner →
      ∃ other, level limit (path.child name) (fun done =>
        readFields limit (path.child name) done ns) = .ok other ∧ FieldMap.Alike inner other) :
    ∃ other, Written limit path name b other ∧ field.Alike other := by
  obtain ⟨entry, required, type, isObject, flag, found, ofType⟩ := written
  obtain ⟨other, isOther, members⟩ := same.object_left isObject
  have sameFlag : readRequired path name other = .ok required :=
    (readRequired_congr members).symm.trans flag
  have types := members.lookup Key.type
  rw [found] at types
  cases held : other.lookup Key.type with
  | none =>
    rw [held] at types
    cases types
  | some partner =>
    rw [held] at types
    obtain ⟨types⟩ := types
    cases ofType with
    | primitive known taken =>
      obtain ⟨draft, read, agree, sameArray⟩ :=
        Options.read_reordered (optionEntries_same members) taken
      cases types.form with
      | string => exact ⟨_, ⟨other, required, _, isOther, sameFlag, held, .primitive known read⟩,
          .primitive ⟨rfl, sameArray, agree⟩⟩
    | object nested taken =>
      obtain ⟨draft, read, agree, sameArray⟩ :=
        Options.read_reordered (optionEntries_same members) taken
      cases types.form with
      | object inner =>
        obtain ⟨fields, complete, alike⟩ := inside _ _ rfl _ _ inner nested
        exact ⟨_, ⟨other, required, _, isOther, sameFlag, held, .object complete read⟩,
          .object alike ⟨rfl, sameArray, agree⟩⟩

theorem names_of_forall₂ {α β : Type} {R : String × α → String × β → Prop}
    {xs : List (String × α)} {ys : List (String × β)}
    (each : List.Forall₂ (fun x y => x.1 = y.1 ∧ R x y) xs ys) :
    Entries.names xs = Entries.names ys := by
  induction each with
  | nil => rfl
  | cons first _ ih => simp [first.1, ih]

theorem level_reordered {map : FieldMap} {ms ns : Members} (same : SameMembers ms ns)
    (complete : level limit path (fun done => readFields limit path done ms) = .ok map) :
    ∃ other, level limit path (fun done => readFields limit path done ns) = .ok other ∧
      map.Alike other := by
  induction map using FieldMap.induction generalizing path ms ns with
  | step map ih =>
    have names {members : Members} (distinct : Entries.Distinct members) :
      (Entries.names FieldMap.empty ++ Entries.names members).Nodup := distinct
    obtain ⟨shallow, read, resolved⟩ := level_eq_ok_iff.mp complete
    obtain ⟨fields, joined, each⟩ := (readFields_eq_ok_iff (names same.distinct)).mp read
    cases (show map = fields from joined)
    have partners : ∃ other : FieldMap, List.Forall₂ (fun entry field => entry.1 = field.1 ∧
        Written limit path entry.1 entry.2 field.2) ns other ∧
          Reordered (SameName Field.Alike) map other := by
      refine same.reordered.transfer each ?_
      rintro ⟨name, a⟩ ⟨_, b⟩ ⟨_, field⟩ member ⟨rfl, values⟩ ⟨rfl, written⟩
      obtain ⟨partner, writtenToo, alike⟩ := written.transfer values fun inner traits isObject =>
        fun _ _ sameInner => ih name inner traits (isObject ▸ member) sameInner
      exact ⟨(name, partner), ⟨rfl, writtenToo⟩, rfl, alike⟩
    obtain ⟨other, images, reordered⟩ := partners
    have distinct : Entries.Distinct map := by
      rw [Entries.Distinct, ← names_of_forall₂ each]
      exact same.distinct
    have alike := FieldMap.alike_of_reordered reordered distinct
    refine ⟨other, level_eq_ok_iff.mpr ⟨shallow, (readFields_eq_ok_iff
      (names same.symm.distinct)).mpr ⟨other, rfl, images⟩, ?_⟩, alike⟩
    exact alike.resolved (reordered.distinct distinct) resolved

end

end Field

theorem FieldMap.isWrittenForm_congr {ms ns : Members} (same : SameMembers ms ns) :
    isWrittenForm ms = isWrittenForm ns := by
  have typed {a b : Json} (values : a.SameValue b) :
      a.object?.any (Entries.has Key.type) = b.object?.any (Entries.has Key.type) := by
    cases values.form with
    | object members => exact members.has Key.type
    | null | bool | number | string | array => rfl
  have forward {ms ns : Members} (same : SameMembers ms ns) (all : isWrittenForm ms = true) :
      isWrittenForm ns = true := by
    refine List.all_eq_true.mpr fun entry member => ?_
    obtain ⟨own, inMs, -, values⟩ := same.reordered.exists_left member
    exact (typed values).symm.trans (List.all_eq_true.mp all own inMs)
  exact Bool.eq_iff_iff.mpr ⟨forward same, forward same.symm⟩

/-- Where no field may be declared again, the order of members does not decide whether a schema is
normalized, and the maps ask the same. -/
theorem Source.normalizeValue_reordered {settings : Settings}
    (rejects : settings.duplicates = .reject) {schema other : Json} {map : FieldMap}
    (same : schema.SameValue other) (complete : normalizeValue settings schema = .ok map) :
    ∃ partner, normalizeValue settings other = .ok partner ∧ map.Alike partner := by
  obtain ⟨members, isObject, read⟩ := normalizeValue_eq_ok_iff.mp complete
  obtain ⟨others, isOther, sameMembers⟩ := same.object_left isObject
  simp only [normalizeValue_eq_ok_iff, isOther, Json.object.injEq, exists_eq_left']
  have sameForm := FieldMap.isWrittenForm_congr sameMembers
  by_cases written : FieldMap.isWrittenForm members = true
  · rw [if_pos written] at read
    simp only [if_pos (sameForm.symm.trans written)]
    exact Field.level_reordered sameMembers read
  · rw [if_neg written] at read
    simp only [if_neg (sameForm ▸ written)]
    obtain ⟨rest, compiles⟩ := read
    obtain ⟨rest, partner, compiles, -, alike⟩ :=
      Collection.compiles_reordered rejects sameMembers compiles
    exact ⟨partner, ⟨rest, compiles⟩, alike⟩

end FieldSchema
