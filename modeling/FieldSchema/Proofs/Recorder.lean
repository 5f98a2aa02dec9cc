import FieldSchema.Proofs.Calls

/-! A recorder writes down the calls that a walk makes to a visitor. It changes nothing of what the
visitor does, and when the walk ends it has written the calls in their order: all of them if the
walk ends well, and otherwise the first of them. -/
namespace FieldSchema

def Children.map {α β : Type} (f : α → β) : Children α → Children β
  | .single child => .single (f child)
  | .many children => .many (children.map f)

/-- Runs that change a state, and keep what they changed when they fail. -/
abbrev Run (σ : Type) := ExceptT Fault (StateM σ)

namespace Run

variable {σ α β γ δ : Type}

/-- The run with the calls written down, whether it fails or not. -/
def noting (calls : List Call) (wrap : α → β) (run : Run σ α) : Run (σ × List Call) β :=
  fun (state, before) =>
    let (result, after) := run state
    (result.map wrap, (after, before ++ calls))

/-- `recorded` does what `run` does, up to `erase`, and writes calls down: `calls` if it ends well,
and otherwise the first of them. -/
def RecordedBy (run : Run σ α) (recorded : Run (σ × List Call) β) (erase : β → α)
    (calls : List Call) (ends : β → Prop) : Prop :=
  ∀ state before, ∃ result after made, recorded (state, before) = (result, (after, before ++ made)) ∧
    run state = (result.map erase, after) ∧ made <+: calls ∧
      ∀ b, result = .ok b → made = calls ∧ ends b

section

variable {run : Run σ α} {next : α → Run σ β} {state after : σ}

theorem bind_of_ok {a : α} (ended : run state = (.ok a, after)) :
    (run >>= next) state = next a after := by
  simp only [bind, ExceptT.bind, ExceptT.mk, StateT.bind]
  rw [ended]
  rfl

theorem bind_of_error {fault : Fault} (failed : run state = (.error fault, after)) :
    (run >>= next) state = (.error fault, after) := by
  simp only [bind, ExceptT.bind, ExceptT.mk, StateT.bind]
  rw [failed]
  rfl

end

/-- The run ends well, whatever the state. -/
def Succeeds (run : Run σ α) : Prop := ∀ state, ∃ a after, run state = (.ok a, after)

theorem Succeeds.pure (a : α) : Succeeds (Pure.pure a : Run σ α) := fun state => ⟨a, state, rfl⟩

theorem Succeeds.bind {run : Run σ α} {next : α → Run σ β} (first : run.Succeeds)
    (others : ∀ a, (next a).Succeeds) : (run >>= next).Succeeds := by
  intro state
  obtain ⟨a, between, ended⟩ := first state
  rw [bind_of_ok ended]
  exact others a between

namespace RecordedBy

variable {run : Run σ α} {recorded : Run (σ × List Call) β} {erase : β → α} {calls : List Call}
  {ends : β → Prop}

theorem mono {weaker : β → Prop} (first : run.RecordedBy recorded erase calls ends)
    (weakens : ∀ b, ends b → weaker b) : run.RecordedBy recorded erase calls weaker := by
  intro state before
  obtain ⟨result, after, made, written, ran, early, whole⟩ := first state before
  exact ⟨result, after, made, written, ran, early, fun b same =>
    ⟨(whole b same).1, weakens b (whole b same).2⟩⟩

theorem noting {wrap : α → β} (erased : ∀ a, erase (wrap a) = a) (ended : ∀ a, ends (wrap a)) :
    run.RecordedBy (run.noting calls wrap) erase calls ends := by
  intro state before
  refine ⟨(run state).1.map wrap, (run state).2, calls, rfl, ?_, List.prefix_rfl, ?_⟩
  · rw [← Prod.eta (run state)]
    cases (run state).1 with
    | error => rfl
    | ok a => exact congrArg (fun a => (Except.ok a, (run state).2)) (erased a).symm
  · intro b same
    refine ⟨rfl, ?_⟩
    cases ran : (run state).1 with
    | error => simp [ran, Except.map] at same
    | ok a =>
      simp only [ran, Except.map, Except.ok.injEq] at same
      exact same ▸ ended a

theorem pure (erase : β → α) (b : β) (ended : ends b) :
    RecordedBy (Pure.pure (erase b) : Run σ α) (Pure.pure b) erase [] ends := by
  intro state before
  refine ⟨.ok b, state, [], by rw [List.append_nil]; rfl, rfl, List.prefix_rfl, ?_⟩
  intro _ same
  cases same
  exact ⟨rfl, ended⟩

theorem throw (fault : Fault) :
    RecordedBy (MonadExcept.throw fault : Run σ α) (MonadExcept.throw fault) erase calls ends := by
  intro state before
  refine ⟨.error fault, state, [], by rw [List.append_nil]; rfl, rfl, List.nil_prefix, ?_⟩
  intro _ same
  cases same

theorem ofExcept (read : Except Fault α) : RecordedBy (MonadExcept.ofExcept read : Run σ α)
    (MonadExcept.ofExcept read) id [] (read = .ok ·) := by
  cases read with
  | ok a =>
    refine pure id a ?_
    rfl
  | error fault => exact throw fault

theorem bind {next : α → Run σ γ} {later : β → Run (σ × List Call) δ} {eraseLater : δ → γ}
    {callsLater : List Call} {endsLater : δ → Prop}
    (first : run.RecordedBy recorded erase calls ends)
    (others : ∀ b, ends b →
      (next (erase b)).RecordedBy (later b) eraseLater callsLater endsLater) :
    (run >>= next).RecordedBy (recorded >>= later) eraseLater (calls ++ callsLater) endsLater := by
  intro state before
  obtain ⟨result, between, made, written, ran, early, whole⟩ := first state before
  cases result with
  | error fault =>
    refine ⟨.error fault, between, made, bind_of_error written, bind_of_error ran,
      early.trans (List.prefix_append ..), ?_⟩
    intro _ same
    cases same
  | ok b =>
    obtain ⟨rfl, ended⟩ := whole b rfl
    obtain ⟨result, after, more, written', ran', early', whole'⟩ :=
      others b ended between (before ++ made)
    refine ⟨result, after, made ++ more, ?_, ?_, List.prefix_append_right_inj _ |>.mpr early', ?_⟩
    · rw [bind_of_ok written, written', List.append_assoc]
    · rw [bind_of_ok ran, ran']
    · intro d same
      obtain ⟨rfl, ended'⟩ := whole' d same
      exact ⟨rfl, ended'⟩

/-- A step without calls. -/
theorem bind_silent {next : α → Run σ γ} {later : β → Run (σ × List Call) δ} {eraseLater : δ → γ}
    {endsLater : δ → Prop} (first : run.RecordedBy recorded erase [] ends)
    (others : ∀ b, ends b → (next (erase b)).RecordedBy (later b) eraseLater calls endsLater) :
    (run >>= next).RecordedBy (recorded >>= later) eraseLater calls endsLater :=
  first.bind others

/-- Runs for the elements of a list; what each of them leaves at its end is told by `label`. -/
theorem mapM {ι κ : Type} {f : ι → Run σ α} {g : ι → Run (σ × List Call) β}
    {made : ι → List Call} {label : β → κ} {labels : ι → List κ}
    (each : ∀ i, (f i).RecordedBy (g i) erase (made i) (fun b => labels i = [label b]))
    (is : List ι) : (is.mapM f).RecordedBy (is.mapM g) (List.map erase) (is.flatMap made)
      (fun bs => is.flatMap labels = bs.map label) := by
  induction is with
  | nil =>
    refine pure (List.map erase) [] ?_
    rfl
  | cons i rest ih =>
    rw [List.mapM_cons, List.mapM_cons, List.flatMap_cons]
    refine (each i).bind fun b one => ?_
    rw [← List.append_nil (rest.flatMap made)]
    refine ih.bind fun bs others => pure (List.map erase) (b :: bs) ?_
    rw [List.flatMap_cons, one, others]
    rfl

end RecordedBy

end Run

/-- What is gathered for an object, with the place of the object once it has ended. -/
structure Labelled (Out : Type) where
  out : Out
  source : Path

namespace Visitor

variable {σ Out Kind : Type}

/-- Does what the visitor does, and writes the calls down. -/
def recorder (visitor : Visitor (Run σ) Out Kind) :
    Visitor (Run (σ × List Call)) (Labelled Out) Kind where
  empty := ⟨visitor.empty, .root⟩
  mapType type := (visitor.mapType type).noting [] id
  onPrimitive place out kind found :=
    (visitor.onPrimitive place out.out kind found).noting [.primitive place found]
      (⟨·, out.source⟩)
  onObject place out children :=
    (visitor.onObject place out.out (children.map Labelled.out)).noting
      [.object place (children.map Labelled.source)] (⟨·, out.source⟩)
  finish path out document :=
    (visitor.finish path out.out document).noting [.finish path document] (⟨·, path⟩)

section

open Run

variable (visitor : Visitor (Run σ) Out Kind) (limit : Nat)

theorem level_recorded {path : Path} {document : Option Members} {body : Out → Run σ Out}
    {other : Labelled Out → Run (σ × List Call) (Labelled Out)} {calls : List Call}
    (walked : ∀ out : Labelled Out,
      (body out.out).RecordedBy (other out) Labelled.out calls fun _ => True) :
    (visitor.level limit path document body).RecordedBy
      (visitor.recorder.level limit path document other) Labelled.out
      (calls ++ [.finish path document]) (·.source = path) := by
  have closed : (body visitor.empty >>= (visitor.finish path · document)).RecordedBy
      (other visitor.recorder.empty >>= (visitor.recorder.finish path · document)) Labelled.out
      (calls ++ [.finish path document]) (·.source = path) :=
    (walked visitor.recorder.empty).bind fun out _ => .noting (fun _ => rfl) fun _ => rfl
  unfold level
  by_cases deep : limit ≤ path.depth
  · rw [if_pos deep, if_pos deep]
    have cut : RecordedBy (throw (.tooDeep path limit) : Run σ PUnit)
      (throw (.tooDeep path limit)) id [] fun _ => False := .throw _
    exact cut.bind_silent fun _ impossible => impossible.elim
  · rw [if_neg deep, if_neg deep]
    exact closed

/-- The objects in an array, which are walked in their order. -/
theorem elements_recorded {place : Place} {below : Path} (items : List Json)
    {walks : Path → Option Members → Run σ Out}
    {others : Path → Option Members → Run (σ × List Call) (Labelled Out)}
    {calls : Path → Option Members → List Call}
    (walked : ∀ here document, (walks here document).RecordedBy (others here document)
      Labelled.out (calls here document) (·.source = here)) :
    RecordedBy
      (items.zipIdx.mapM fun (item, i) => do
        let members ← MonadExcept.ofExcept (place.members item)
        walks (below.element i) (some members))
      (items.zipIdx.mapM fun (item, i) => do
        let members ← MonadExcept.ofExcept (place.members item)
        others (below.element i) (some members))
      (List.map Labelled.out)
      ((Call.objects true below (some (.array items))).flatMap fun (here, document) =>
        calls here document)
      (fun children => Call.sources true below (some (.array items)) =
        .many (children.map Labelled.source)) := by
  rw [Call.sources_array, Call.objects_array, List.flatMap_assoc]
  have each (entry : Json × Nat) : RecordedBy
      (do
        let members ← MonadExcept.ofExcept (place.members entry.1)
        walks (below.element entry.2) (some members))
      (do
        let members ← MonadExcept.ofExcept (place.members entry.1)
        others (below.element entry.2) (some members))
      Labelled.out
      ((Call.ofElement below entry).flatMap fun (here, document) => calls here document)
      (fun child => (Call.ofElement below entry).map Prod.fst = [child.source]) := by
    refine (RecordedBy.ofExcept _).bind_silent fun members read => ?_
    have one : Call.ofElement below entry = [(below.element entry.2, some members)] := by
      rw [Call.ofElement, Place.members_eq_ok read]
      rfl
    rw [one, List.flatMap_singleton]
    exact (walked _ _).mono fun child source => by rw [source]; rfl
  exact (RecordedBy.mapM each items.zipIdx).mono fun children same => congrArg _ same

mutual

theorem walkField_recorded (path : Path) (name : String) (out : Labelled Out)
    (value : Option Json) : (field : Field) →
      (visitor.walkField limit path name out.out value field).RecordedBy
        (visitor.recorder.walkField limit path name out value field) Labelled.out
        (Call.ofField path name value field) fun _ => True
  | .primitive type traits => by
    have mapped : (visitor.mapType type).RecordedBy (visitor.recorder.mapType type) id []
      fun _ => True := .noting (fun _ => rfl) fun _ => trivial
    unfold walkField Call.ofField
    refine mapped.bind_silent fun kind _ => ?_
    cases value with
    | none => exact .noting (fun _ => rfl) fun _ => trivial
    | some value =>
      refine (RecordedBy.ofExcept _).bind_silent fun found read => ?_
      have same : found = .ofValue traits.isArray value := Place.found_eq_ofValue read
      rw [Option.map_some, ← same]
      exact .noting (fun _ => rfl) fun _ => trivial
  | .object fields traits => by
    have inner : ∀ here document, (visitor.level limit here document fun out =>
        visitor.walkFields limit here document out fields).RecordedBy
          (visitor.recorder.level limit here document fun out =>
            visitor.recorder.walkFields limit here document out fields)
          Labelled.out (Call.ofFields here document fields ++ [.finish here document])
          (·.source = here) :=
      fun here document => level_recorded visitor limit fun out =>
        walkFields_recorded here document out fields
    have ended (children : Children (Labelled Out)) :
        (visitor.onObject ⟨name, path, .object fields traits⟩ out.out
          (children.map Labelled.out)).RecordedBy
            (visitor.recorder.onObject ⟨name, path, .object fields traits⟩ out children)
            Labelled.out [.object ⟨name, path, .object fields traits⟩
              (children.map Labelled.source)] fun _ => True :=
      .noting (fun _ => rfl) fun _ => trivial
    unfold walkField Call.ofField
    cases value with
    | none =>
      rw [Call.objects, List.flatMap_singleton]
      refine (inner _ none).bind fun child source => ?_
      rw [Call.sources, Option.isSome_none, Bool.and_false, ← source]
      exact ended (.single child)
    | some value =>
      cases isArray : traits.isArray with
      | true =>
        refine (RecordedBy.ofExcept _).bind_silent fun items read => ?_
        cases Place.elements_eq_ok read
        refine (elements_recorded items inner).bind fun children sources => ?_
        rw [sources]
        exact ended (.many children)
      | false =>
        refine (RecordedBy.ofExcept _).bind_silent fun members read => ?_
        cases Place.members_eq_ok read
        have one : Call.objects false (path.child name) (some (.object members)) =
          [(path.child name, some members)] := rfl
        rw [one, List.flatMap_singleton]
        refine (inner _ (some members)).bind fun child source => ?_
        rw [← source]
        exact ended (.single child)

theorem walkFields_recorded (path : Path) (document : Option Members) (out : Labelled Out) :
    (fields : List (String × Field)) →
      (visitor.walkFields limit path document out.out fields).RecordedBy
        (visitor.recorder.walkFields limit path document out fields) Labelled.out
        (Call.ofFields path document fields) fun _ => True
  | [] => by
    unfold walkFields Call.ofFields
    exact .pure Labelled.out out trivial
  | (name, field) :: rest => by
    have others := fun (out : Labelled Out) (_ : True) =>
      walkFields_recorded path document out rest
    unfold walkFields Call.ofFields
    cases document with
    | none => exact (walkField_recorded path name out none field).bind others
    | some members =>
      unfold Call.visits
      dsimp only
      cases members.lookup name with
      | some value => exact (walkField_recorded path name out (some value) field).bind others
      | none =>
        dsimp only
        split
        · have cut : RecordedBy (throw (.missingField name path) : Run σ Out)
            (throw (.missingField name path)) Labelled.out [] fun _ => True := .throw _
          exact cut.bind others
        · exact (RecordedBy.pure Labelled.out out trivial).bind others

end

theorem visit_recorded (map : FieldMap) (document : Option Json) :
    (visitor.visit limit map document).RecordedBy (visitor.recorder.visit limit map document)
      Labelled.out (map.calls document) (·.source = .root) := by
  have walked (document : Option Members) : (visitor.walk limit map document).RecordedBy
      (visitor.recorder.walk limit map document) Labelled.out (Call.ofLevel .root document map)
      (·.source = .root) :=
    level_recorded visitor limit fun out => walkFields_recorded visitor limit .root document out map
  cases document with
  | none => exact walked none
  | some value =>
    cases value with
    | object members => exact walked (some members)
    | null | bool | number | string | array => exact .throw _

end

/-! Walks that do not fail. -/

/-- No call to the visitor fails. -/
structure NeverFails (visitor : Visitor (Run σ) Out Kind) : Prop where
  mapType : ∀ type, (visitor.mapType type).Succeeds
  onPrimitive : ∀ place out kind found, (visitor.onPrimitive place out kind found).Succeeds
  onObject : ∀ place out children, (visitor.onObject place out children).Succeeds
  finish : ∀ path out document, (visitor.finish path out document).Succeeds

section

open Run

variable {visitor : Visitor (Run σ) Out Kind} {limit : Nat}

theorem walkFields_succeeds {path : Path} (fields : FieldMap)
    (each : ∀ name field out, (name, field) ∈ fields →
      (visitor.walkField limit path name out none field).Succeeds) (out : Out) :
    (visitor.walkFields limit path none out fields).Succeeds := by
  induction fields generalizing out with
  | nil => exact .pure out
  | cons entry rest ih =>
    obtain ⟨name, field⟩ := entry
    rw [walkFields]
    refine (each name field out (List.mem_cons_self ..)).bind fun next => ih ?_ next
    exact fun name field out member => each name field out (List.mem_cons_of_mem _ member)

/-- Without a document a walk fails only where the guard stops it, or a call. -/
theorem level_succeeds (unfailing : visitor.NeverFails) (fields : FieldMap) {path : Path}
    (fits : fields.Fits limit path.depth) : (visitor.level limit path none fun out =>
      visitor.walkFields limit path none out fields).Succeeds := by
  induction fields using FieldMap.induction generalizing path with
  | step fields ih =>
    obtain ⟨shallow, below⟩ := FieldMap.everywhere_iff.mp fits
    unfold level
    rw [if_neg (Nat.not_le.mpr shallow)]
    refine (walkFields_succeeds fields ?_ _).bind fun out => unfailing.finish path out none
    intro name field out member
    cases field with
    | primitive type traits =>
      rw [walkField]
      exact (unfailing.mapType type).bind fun kind => unfailing.onPrimitive _ out kind none
    | object inner traits =>
      have fits := below name inner traits member
      rw [← Path.depth_child] at fits
      rw [walkField]
      exact (ih name inner traits member fits).bind fun child => unfailing.onObject _ out _

end

/-- A recorder changes neither the result of a visit nor the state that it leaves, and writes down
the first of the calls in their order; when the visit ends well, all of them. What is gathered for
an object is handed to the field that holds it, or returned in the end. No field is called for
twice. Without a document a map that is no deeper than allowed is visited to its end, unless a call
fails. -/
theorem calls_in_order (visitor : Visitor (Run σ) Out Kind) (limit : Nat) (map : FieldMap)
    (document : Option Json) (state : σ) : ∃ result after made,
      visitor.recorder.visit limit map document (state, []) = (result, (after, made)) ∧
      visitor.visit limit map document state = (result.map Labelled.out, after) ∧
      made <+: map.calls document ∧
      (∀ out, result = .ok out → made = map.calls document) ∧
      (map.Throughout Entries.Distinct → (map.calls document).Pairwise Call.Apart) ∧
      (document = none → map.depth ≤ limit → visitor.NeverFails → ∃ out, result = .ok out) := by
  obtain ⟨result, after, made, written, ran, early, whole⟩ :=
    visit_recorded visitor limit map document state []
  refine ⟨result, after, made, written, ran, early, fun out same => (whole out same).1,
    fun distinct => FieldMap.calls_apart distinct document, ?_⟩
  rintro rfl within unfailing
  have succeeds : (visitor.visit limit map none).Succeeds :=
    level_succeeds unfailing map (FieldMap.fits_of_depth_le within)
  obtain ⟨out, last, same⟩ := succeeds state
  rw [ran] at same
  cases result with
  | ok out => exact ⟨out, rfl⟩
  | error => cases (Prod.mk.inj same).1

/-- The calls for rows, of which there is one without a document and two with it; the optional field
is left out. The visitor counts the fields of each object, and all calls in its state. -/
theorem calls_in_order_of_rows :
    let counter : Visitor (Run Nat) Nat Unit :=
      { empty := 0, mapType _ := pure (), finish _ out _ := do modify (· + 1); return out,
        onPrimitive _ out _ _ := do modify (· + 1); return out + 1,
        onObject _ out _ := do modify (· + 1); return out + 1 }
    let tags : Field := .primitive .string ⟨true, true, .empty⟩
    let amount : Field := .primitive .number ⟨true, false, .empty⟩
    let items : Field := .object [("amount", amount)] ⟨true, true, .empty⟩
    let flag : Field := .primitive .boolean ⟨false, false, .empty⟩
    let map : FieldMap := [("tags", tags), ("items", items), ("flag", flag)]
    let row (n : UInt64) : Members := [("amount", .natural n)]
    let members : Members :=
      [("items", .array [.object (row 1), .object (row 2)]), ("tags", .array [.string "x"])]
    let below : Path := Path.root.child "items"
    map.depth ≤ 2 ∧ counter.NeverFails ∧
    map.calls none =
      [.primitive ⟨"tags", .root, tags⟩ none,
        .primitive ⟨"amount", below, amount⟩ none, .finish below none,
        .object ⟨"items", .root, items⟩ (.single below),
        .primitive ⟨"flag", .root, flag⟩ none, .finish .root none] ∧
    map.calls (some (.object members)) =
      [.primitive ⟨"tags", .root, tags⟩ (some (.elements [.string "x"])),
        .primitive ⟨"amount", below.element 0, amount⟩ (some (.single (.natural 1))),
        .finish (below.element 0) (some (row 1)),
        .primitive ⟨"amount", below.element 1, amount⟩ (some (.single (.natural 2))),
        .finish (below.element 1) (some (row 2)),
        .object ⟨"items", .root, items⟩ (.many [below.element 0, below.element 1]),
        .finish .root (some members)] ∧
    counter.recorder.visit 2 map (some (.object members)) (0, []) =
      (.ok ⟨2, .root⟩, (7, map.calls (some (.object members)))) ∧
    ∃ out after, counter.recorder.visit 2 map none (0, []) = (.ok out, (after, map.calls none)) := by
  intro counter tags amount items flag map row members below
  have unfailing : counter.NeverFails :=
    ⟨fun _ state => ⟨(), state, rfl⟩, fun _ out _ _ state => ⟨out + 1, state + 1, rfl⟩,
      fun _ out _ state => ⟨out + 1, state + 1, rfl⟩, fun _ out _ state => ⟨out, state + 1, rfl⟩⟩
  have within : map.depth ≤ 2 := by decide
  obtain ⟨result, after, made, written, -, -, whole, -, ends⟩ :=
    calls_in_order counter 2 map none 0
  obtain ⟨out, ok⟩ := ends rfl within unfailing
  refine ⟨within, unfailing, rfl, rfl, rfl, out, after, ?_⟩
  rw [written, whole out ok, ok]

end Visitor

end FieldSchema
