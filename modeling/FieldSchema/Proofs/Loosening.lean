import FieldSchema.Compiler
import FieldSchema.Proofs.FailFast

/-! What a greater limit on the depth changes. The guard stands at the way into every object, where
schemas are read, flattened and walked; a run that it does not cut short is the same under every
greater limit, with the same faults where it fails. -/
namespace FieldSchema

/-- The other run ends as this one does, unless the guard cuts this one short. -/
def FollowedBy {α : Type} (run other : Except Fault α) : Prop :=
  (∀ path limit, run ≠ .error (.tooDeep path limit)) → other = run

/-- A way to say, of the runs in a monad, that one follows the other unless the guard cuts that one
short. -/
structure Loosening (m : Type → Type) [Monad m] [MonadExceptOf Fault m] where
  Follows : {α : Type} → m α → m α → Prop
  refl : ∀ {α : Type} (run : m α), Follows run run
  bind : ∀ {α β : Type} {run other : m α} {next later : α → m β}, Follows run other →
    (∀ a, Follows (next a) (later a)) → Follows (run >>= next) (other >>= later)
  /-- Anything may follow a run that was cut short. -/
  cut : ∀ {α β : Type} (path : Path) (limit : Nat) (next : α → m β) (other : m β),
    Follows (throw (.tooDeep path limit) >>= next) other

namespace FollowedBy

variable {α β : Type} {run other : Except Fault α}

theorem refl (run : Except Fault α) : FollowedBy run run := fun _ => rfl

theorem bind {next later : α → Except Fault β} (first : FollowedBy run other)
    (others : ∀ a, FollowedBy (next a) (later a)) :
    FollowedBy (run >>= next) (other >>= later) := by
  intro uncut
  cases run with
  | ok a =>
    rw [first fun _ _ same => by cases same]
    exact others a uncut
  | error fault =>
    rw [first fun path limit same => uncut path limit (by cases same; rfl)]
    rfl

theorem tooDeep (path : Path) (limit : Nat) (other : Except Fault α) :
    FollowedBy (.error (.tooDeep path limit)) other := fun uncut => absurd rfl (uncut path limit)

theorem map (f : α → β) (first : FollowedBy run other) : FollowedBy (run.map f) (other.map f) := by
  intro uncut
  rw [first]
  rintro path limit rfl
  exact uncut path limit rfl

end FollowedBy

namespace Loosening

open MonadExcept (ofExcept)

def faults : Loosening (Except Fault) where
  Follows := FollowedBy
  refl := .refl
  bind := .bind
  cut path limit _ other := .tooDeep path limit other

/-- With a state beside the faults, runs are compared from every state. -/
def stateful (σ : Type) : Loosening (StateT σ (Except Fault)) where
  Follows run other := ∀ state, FollowedBy (run state) (other state)
  refl run state := .refl (run state)
  bind first others state := (first state).bind fun result => others result.1 result.2
  cut path limit _ other state := .tooDeep path limit (other state)

section

variable {m : Type → Type} [Monad m] [MonadExceptOf Fault m] (order : Loosening m) {α β : Type}

theorem ofExcept [LawfulMonad m] {run other : Except Fault α} (followed : FollowedBy run other) :
    order.Follows (ofExcept run : m α) (ofExcept other) := by
  by_cases deep : ∃ path limit, run = .error (.tooDeep path limit)
  · obtain ⟨path, limit, rfl⟩ := deep
    have short := order.cut path limit (pure : α → m α) (MonadExcept.ofExcept other)
    rwa [bind_pure] at short
  · rw [followed fun path limit same => deep ⟨path, limit, same⟩]
    exact order.refl _

theorem mapM [LawfulMonad m] {f g : α → m β} (each : ∀ a, order.Follows (f a) (g a))
    (as : List α) : order.Follows (as.mapM f) (as.mapM g) := by
  induction as with
  | nil => exact order.refl _
  | cons a rest ih =>
    rw [List.mapM_cons, List.mapM_cons]
    exact order.bind (each a) fun b => order.bind ih fun bs => order.refl _

/-- What the guard lets pass under one limit it lets pass under a greater one. -/
theorem guard {deep deeper : Prop} [Decidable deep] [Decidable deeper] (atMost : deeper → deep)
    {limit greater : Nat} {path : Path} {next later : PUnit → m α}
    (followed : order.Follows (next ⟨⟩) (later ⟨⟩)) :
    order.Follows (if deep then throw (.tooDeep path limit) >>= next else next ⟨⟩)
      (if deeper then throw (.tooDeep path greater) >>= later else later ⟨⟩) := by
  by_cases cutOff : deep
  · rw [if_pos cutOff]
    exact order.cut ..
  · rw [if_neg cutOff, if_neg (cutOff ∘ atMost)]
    exact followed

end

end Loosening

/-! Walks, with a document or without. -/

namespace Visitor

variable {m : Type → Type} [Monad m] [MonadExceptOf Fault m] (order : Loosening m)
  {Out Kind : Type} (visitor : Visitor m Out Kind) {limit greater : Nat}

theorem level_follows (atMost : limit ≤ greater) {path : Path} {document : Option Members}
    {body other : Out → m Out} (followed : ∀ out, order.Follows (body out) (other out)) :
    order.Follows (visitor.level limit path document body)
      (visitor.level greater path document other) := by
  unfold level
  exact order.guard (Nat.le_trans atMost) (order.bind (followed _) fun _ => order.refl _)

mutual

theorem walkField_follows [LawfulMonad m] (atMost : limit ≤ greater) (path : Path) (name : String)
    (out : Out) (value : Option Json) :
    (field : Field) → order.Follows (visitor.walkField limit path name out value field)
      (visitor.walkField greater path name out value field)
  | .primitive type traits => by
    unfold walkField
    exact order.refl _
  | .object fields traits => by
    have inner : ∀ here document, order.Follows
        (visitor.level limit here document fun out =>
          visitor.walkFields limit here document out fields)
        (visitor.level greater here document fun out =>
          visitor.walkFields greater here document out fields) := fun here document =>
      level_follows order visitor atMost fun out => walkFields_follows atMost here document out fields
    unfold walkField
    cases value with
    | none => exact order.bind (inner _ _) fun _ => order.refl _
    | some value =>
      dsimp only
      split
      · refine order.bind (order.refl _) fun items => ?_
        refine order.bind (order.mapM (fun entry => ?_) _) fun _ => order.refl _
        exact order.bind (order.refl _) fun members => inner _ _
      · refine order.bind (order.refl _) fun members => ?_
        exact order.bind (inner _ _) fun _ => order.refl _

theorem walkFields_follows [LawfulMonad m] (atMost : limit ≤ greater) (path : Path)
    (document : Option Members) (out : Out) :
    (fields : List (String × Field)) →
      order.Follows (visitor.walkFields limit path document out fields)
        (visitor.walkFields greater path document out fields)
  | [] => by
    unfold walkFields
    exact order.refl _
  | (name, field) :: rest => by
    have others := fun out => walkFields_follows atMost path document out rest
    unfold walkFields
    cases document with
    | none => exact order.bind (walkField_follows atMost path name out none field) others
    | some members =>
      dsimp only
      cases members.lookup name with
      | some value =>
        exact order.bind (walkField_follows atMost path name out (some value) field) others
      | none =>
        dsimp only
        split
        · exact order.bind (order.refl _) others
        · exact order.bind (order.refl _) others

end

theorem visit_follows [LawfulMonad m] (atMost : limit ≤ greater) (map : FieldMap)
    (document : Option Json) :
    order.Follows (visitor.visit limit map document) (visitor.visit greater map document) := by
  have walked : ∀ document, order.Follows (visitor.walk limit map document)
      (visitor.walk greater map document) := fun document =>
    level_follows order visitor atMost fun out =>
      walkFields_follows order visitor atMost .root document out map
  cases document with
  | none => exact walked none
  | some value =>
    cases value with
    | object members => exact walked (some members)
    | null | bool | number | string | array => exact order.refl _

end Visitor

/-! Reading, of collections and of field maps that are written. -/

namespace Collection

variable {limit greater : Nat}

theorem guardDepth_follows (atMost : limit ≤ greater) (path : Path) :
    FollowedBy (guardDepth limit path) (guardDepth greater path) := by
  unfold guardDepth
  by_cases deep : limit ≤ path.depth
  · rw [if_pos deep]
    exact .tooDeep path limit _
  · rw [if_neg deep, if_neg (by omega)]
    exact .refl _

mutual

theorem readHalves_follows (atMost : limit ≤ greater) (path : Path) (nested : Bool) :
    (members : Members) →
      FollowedBy (readHalves limit path nested members) (readHalves greater path nested members)
  | [] => by
    unfold readHalves
    exact .refl _
  | (key, value) :: rest => by
    have others := readHalves_follows atMost path nested rest
    unfold readHalves
    cases required? key with
    | some required =>
      exact (readHalf_follows atMost path key required value).bind fun half =>
        others.bind fun _ => .refl _
    | none =>
      dsimp only
      split
      · exact others.bind fun _ => .refl _
      · exact .refl _

theorem readHalf_follows (atMost : limit ≤ greater) (path : Path) (key : String) (required : Bool) :
    (value : Json) →
      FollowedBy (readHalf limit path key required value) (readHalf greater path key required value)
  | .object members => by
    unfold readHalf
    exact (readGroups_follows atMost path members).map _
  | .null | .bool _ | .number _ | .string _ | .array _ => by
    unfold readHalf
    exact .refl _

theorem readGroups_follows (atMost : limit ≤ greater) (path : Path) :
    (members : Members) →
      FollowedBy (readGroups limit path members) (readGroups greater path members)
  | [] => by
    unfold readGroups
    exact .refl _
  | (name, value) :: rest => by
    unfold readGroups
    exact (readGroup_follows atMost path name value).bind fun group =>
      (readGroups_follows atMost path rest).bind fun _ => .refl _

theorem readGroup_follows (atMost : limit ≤ greater) (path : Path) (name : String) :
    (value : Json) →
      FollowedBy (readGroup limit path name value) (readGroup greater path name value)
  | .object members => by
    unfold readGroup
    split
    · exact .refl _
    · exact .refl _
    · exact (readObjects_follows atMost path members).map _
  | .null | .bool _ | .number _ | .string _ | .array _ => by
    unfold readGroup
    exact .refl _

theorem readObjects_follows (atMost : limit ≤ greater) (path : Path) :
    (members : Members) →
      FollowedBy (readObjects limit path members) (readObjects greater path members)
  | [] => by
    unfold readObjects
    exact .refl _
  | (name, value) :: rest => by
    unfold readObjects
    exact (readObject_follows atMost path name value).bind fun object =>
      (readObjects_follows atMost path rest).bind fun _ => .refl _

theorem readObject_follows (atMost : limit ≤ greater) (path : Path) (name : String) :
    (value : Json) →
      FollowedBy (readObject limit path name value) (readObject greater path name value)
  | .object members => by
    unfold readObject
    exact (guardDepth_follows atMost (path.child name)).bind fun _ =>
      (readHalves_follows atMost (path.child name) true members).bind fun _ => .refl _
  | .null | .bool _ | .number _ | .string _ | .array _ => by
    unfold readObject
    exact .refl _

end

theorem ofMembers_follows (atMost : limit ≤ greater) (members : Members) :
    FollowedBy (ofMembers limit members) (ofMembers greater members) := by
  unfold ofMembers
  exact (guardDepth_follows atMost .root).bind fun _ =>
    (readHalves_follows atMost .root false members).bind fun _ => .refl _

end Collection

namespace Field

variable {limit greater : Nat}

theorem level_follows (atMost : limit ≤ greater) {path : Path}
    {read other : FieldMap → Except Fault FieldMap}
    (followed : ∀ done, FollowedBy (read done) (other done)) :
    FollowedBy (level limit path read) (level greater path other) := by
  unfold level
  exact Loosening.faults.guard (Nat.le_trans atMost) ((followed _).bind fun _ => .refl _)

mutual

theorem readFields_follows (atMost : limit ≤ greater) (path : Path) (done : FieldMap) :
    (members : Members) →
      FollowedBy (readFields limit path done members) (readFields greater path done members)
  | [] => by
    unfold readFields
    exact .refl _
  | (name, entry) :: rest => by
    unfold readFields
    exact (readField_follows atMost path name entry).bind fun field =>
      readFields_follows atMost path (done.insert name field) rest

theorem readField_follows (atMost : limit ≤ greater) (path : Path) (name : String) :
    (entry : Json) →
      FollowedBy (readField limit path name entry) (readField greater path name entry)
  | .object entry => by
    unfold readField
    exact (FollowedBy.refl _).bind fun required =>
      readTyped_follows atMost path name required entry entry
  | .null | .bool _ | .number _ | .string _ | .array _ => by
    unfold readField
    exact .refl _

theorem readTyped_follows (atMost : limit ≤ greater) (path : Path) (name : String)
    (required : Bool) (entry : Members) :
    (rest : Members) → FollowedBy (readTyped limit path name required entry rest)
      (readTyped greater path name required entry rest)
  | [] => by
    unfold readTyped
    exact .refl _
  | (key, .object members) :: rest => by
    unfold readTyped
    split
    · exact (level_follows atMost fun done =>
        readFields_follows atMost (path.child name) done members).bind fun _ => .refl _
    · exact readTyped_follows atMost path name required entry rest
  | (key, .string _) :: rest | (key, .null) :: rest | (key, .bool _) :: rest
  | (key, .number _) :: rest | (key, .array _) :: rest => by
    unfold readTyped
    split
    · exact .refl _
    · exact readTyped_follows atMost path name required entry rest

end

theorem ofMembers_follows (atMost : limit ≤ greater) (members : Members) :
    FollowedBy (FieldMap.ofMembers limit members) (FieldMap.ofMembers greater members) := by
  unfold FieldMap.ofMembers
  exact level_follows atMost fun done => readFields_follows atMost .root done members

end Field

/-! Flattening, in any monad with faults. -/

/-- The same settings with another limit. -/
def Settings.within (settings : Settings) (limit : Nat) : Settings :=
  { settings with maxDepth := limit }

namespace Collection

variable {m : Type → Type} [Monad m] [MonadExceptOf Fault m] (order : Loosening m)
  (notify : Notice → m Unit) {settings : Settings} {greater : Nat}

theorem flattenLevel_follows (atMost : settings.maxDepth ≤ greater) {path : Path}
    {add other : FieldMap → m FieldMap}
    (followed : ∀ done, order.Follows (add done) (other done)) :
    order.Follows (flattenLevel settings path add)
      (flattenLevel (settings.within greater) path other) := by
  unfold flattenLevel
  exact order.guard (Nat.le_trans atMost) (order.bind (followed _) fun _ => order.refl _)

mutual

theorem addGroup_follows (atMost : settings.maxDepth ≤ greater) (path : Path)
    (required : Bool) (map : FieldMap) :
    (group : Group) → order.Follows (addGroup notify settings path required map group)
      (addGroup notify (settings.within greater) path required map group)
  | .primitive type fields => by
    unfold addGroup
    exact order.refl _
  | .object fields => by
    unfold addGroup
    exact addObjects_follows atMost path required map fields

theorem addObjects_follows (atMost : settings.maxDepth ≤ greater) (path : Path)
    (required : Bool) (map : FieldMap) :
    (fields : List (Declared × List (Half Group))) →
      order.Follows (addObjects notify settings path required map fields)
        (addObjects notify (settings.within greater) path required map fields)
  | [] => by
    unfold addObjects
    exact order.refl _
  | (declared, collection) :: rest => by
    unfold addObjects
    refine order.bind (flattenLevel_follows order atMost fun done =>
      addHalves_follows atMost (path.child declared.name) done collection) fun fields => ?_
    exact order.bind (order.refl _) fun map => addObjects_follows atMost path required map rest

theorem addHalves_follows (atMost : settings.maxDepth ≤ greater) (path : Path) (map : FieldMap) :
    (halves : List (Half Group)) → order.Follows (addHalves notify settings path map halves)
      (addHalves notify (settings.within greater) path map halves)
  | [] => by
    unfold addHalves
    exact order.refl _
  | ⟨required, groups⟩ :: rest => by
    unfold addHalves
    exact order.bind (addGroups_follows atMost path required map groups) fun map =>
      addHalves_follows atMost path map rest

theorem addGroups_follows (atMost : settings.maxDepth ≤ greater) (path : Path)
    (required : Bool) (map : FieldMap) :
    (groups : List Group) → order.Follows (addGroups notify settings path required map groups)
      (addGroups notify (settings.within greater) path required map groups)
  | [] => by
    unfold addGroups
    exact order.refl _
  | group :: rest => by
    unfold addGroups
    exact order.bind (addGroup_follows atMost path required map group) fun map =>
      addGroups_follows atMost path required map rest

end

theorem flattenNoting_follows (atMost : settings.maxDepth ≤ greater) (collection : Collection) :
    order.Follows (collection.flattenNoting notify settings)
      (collection.flattenNoting notify (settings.within greater)) := by
  unfold flattenNoting
  exact flattenLevel_follows order atMost fun done =>
    addHalves_follows order notify atMost .root done collection

end Collection

/-- Normalization, with its notices: what a limit lets pass comes out the same under a greater one. -/
theorem Source.normalizeNoting_follows {m : Type → Type} [Monad m] [MonadExceptOf Fault m]
    [LawfulMonad m] (order : Loosening m) (notify : Notice → m Unit) {settings : Settings}
    {greater : Nat} (atMost : settings.maxDepth ≤ greater) (source : Source) :
    order.Follows (source.normalizeNoting notify settings)
      (source.normalizeNoting notify (settings.within greater)) := by
  cases source with
  | written schema =>
    cases schema with
    | object members =>
      unfold normalizeNoting normalizeValueNoting
      dsimp only
      split
      · exact order.ofExcept (Field.ofMembers_follows atMost members)
      · refine order.bind (order.ofExcept (Collection.ofMembers_follows atMost members)) ?_
        exact fun collection => Collection.flattenNoting_follows order notify atMost collection
    | null | bool | number | string | array => exact order.refl _
  | declared collection => exact Collection.flattenNoting_follows order notify atMost collection
  | normalized map =>
    unfold normalizeNoting
    exact order.guard (Nat.lt_of_le_of_lt atMost) (order.refl _)

namespace Compiler

variable {settings : Settings} {greater : Nat}

/-- A greater limit only lets more pass: whatever is made of a source and a document, a result or
a fault, is the same under it, unless the guard refuses them under the lesser one. -/
theorem same_within_greater_limit (atMost : settings.maxDepth ≤ greater) (source : Source)
    (document : Json) (filter : Extraction.Filter) :
    let compiler : Compiler := ⟨settings⟩
    let other : Compiler := ⟨settings.within greater⟩
    FollowedBy (compiler.normalize source) (other.normalize source) ∧
    FollowedBy (compiler.wireSchema source) (other.wireSchema source) ∧
    FollowedBy (compiler.objectSchema source) (other.objectSchema source) ∧
    FollowedBy (compiler.extract source document) (other.extract source document) ∧
    FollowedBy (compiler.extractWhere source document filter)
      (other.extractWhere source document filter) ∧
    FollowedBy (compiler.extractValid source document) (other.extractValid source document) := by
  intro compiler other
  have normalized : FollowedBy (compiler.normalize source) (other.normalize source) :=
    source.normalizeNoting_follows Loosening.faults _ atMost
  have visited {Out Kind : Type} (visitor : Visitor (Except Fault) Out Kind) (map : FieldMap)
      (document : Option Json) : FollowedBy (visitor.visit settings.maxDepth map document)
        (visitor.visit greater map document) :=
    visitor.visit_follows Loosening.faults atMost map document
  have extracted (map : FieldMap) (filter : Option Extraction.Filter) :
      FollowedBy (extractKept settings map document filter)
        (extractKept (settings.within greater) map document filter) :=
    (visited _ map (some document)).map _
  refine ⟨normalized, ?_, ?_, ?_, ?_, ?_⟩
  · refine normalized.bind fun map => FollowedBy.bind ?_ fun _ => .refl _
    exact (Wire.builder settings).visit_follows (Loosening.stateful Wire.Progress) atMost map none .start
  · exact normalized.bind fun map => visited ObjectSchema.builder map none
  · exact normalized.bind fun map => extracted map none
  · exact normalized.bind fun map => extracted map (some filter)
  · refine normalized.bind fun map => (extracted map none).bind fun extracted => ?_
    exact (visited Extraction.checker map (some extracted)).bind fun _ => .refl _

/-- Two levels are enough for rows, so five make no difference to them. -/
theorem same_within_greater_limit_of_rows :
    let settings : Settings := ⟨2, .lastWins, "_ref_"⟩
    let source : Source := .written (.object [("required", .object [("object", .object
      [("rows", .object [("array", .bool true), ("required", .object
        [("number", .object [("n", .object [])])])])])])])
    let document : Json := .object [("rows", .array [.object [("n", .natural 1)]])]
    let filter : Extraction.Filter := ⟨Key.array, fun _ => false⟩
    let compiler : Compiler := ⟨settings⟩
    let other : Compiler := ⟨settings.within 5⟩
    settings.maxDepth ≤ 5 ∧ compiler.extractValid source document = .ok document ∧
      FollowedBy (compiler.normalize source) (other.normalize source) ∧
      FollowedBy (compiler.wireSchema source) (other.wireSchema source) ∧
      FollowedBy (compiler.objectSchema source) (other.objectSchema source) ∧
      FollowedBy (compiler.extract source document) (other.extract source document) ∧
      FollowedBy (compiler.extractWhere source document filter)
        (other.extractWhere source document filter) ∧
      FollowedBy (compiler.extractValid source document) (other.extractValid source document) := by
  intro settings source document filter compiler other
  have atMost : settings.maxDepth ≤ 5 := by decide
  exact ⟨atMost, rfl, same_within_greater_limit atMost source document filter⟩

end Compiler

end FieldSchema
