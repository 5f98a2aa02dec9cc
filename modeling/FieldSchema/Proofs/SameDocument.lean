import FieldSchema.Proofs.Acceptance
import FieldSchema.Proofs.SameSchema

/-! Documents that are equal up to the order of members, under maps that ask the same. An audit
finds nothing in one exactly if it finds nothing in the other: in single values, in rules between
fields, and in the objects below. What is picked of them is equal as well. -/
namespace FieldSchema

open Json (SameValue SameMembers SameForm)

/-! Rules between fields. -/

namespace Rule

/-- Numbers that compare alike. -/
def SameOrder (a b : Float) : Prop := ∀ x, (x ≤ a ↔ x ≤ b) ∧ (a ≤ x ↔ b ≤ x)

theorem all_le_congr {a b : Float} (bound : SameOrder a b) {xs ys : List Float}
    (same : List.Forall₂ SameOrder xs ys) :
    (xs.all fun x => decide (x ≤ a)) = ys.all fun y => decide (y ≤ b) := by
  induction same with
  | nil => rw [List.all_nil, List.all_nil]
  | @cons c d _ _ next _ ih =>
    have order : c ≤ a ↔ d ≤ b := (bound c).1.trans (next b).2
    rw [List.all_cons, List.all_cons, ih, decide_eq_decide.mpr order]

theorem isLeading_congr {xs ys : List Float} (same : List.Forall₂ SameOrder xs ys) :
    isLeading xs = isLeading ys := by
  cases same with
  | nil => rfl
  | cons first rest => exact all_le_congr first rest

theorem number_related {a b : Option Json} (same : Option.Rel SameValue a b) :
    Option.Rel SameOrder ((a.bind Json.number?).map Number.toFloat)
      ((b.bind Json.number?).map Number.toFloat) := by
  cases same with
  | none => exact .none
  | @some a b values =>
    have numbers := values.number?
    dsimp only [Option.bind_some]
    generalize a.number? = m at numbers
    generalize b.number? = n at numbers
    cases numbers with
    | some same => exact .some (Number.le_iff_of_same same)
    | none => exact .none

theorem numbers?_related {xs ys : List (Option Json)}
    (same : List.Forall₂ (Option.Rel SameValue) xs ys) :
    Option.Rel (List.Forall₂ SameOrder) (numbers? xs) (numbers? ys) := by
  induction same with
  | nil => exact .some .nil
  | @cons x y xs ys first _ ih =>
    have number := number_related first
    rw [numbers?_cons, numbers?_cons]
    generalize (x.bind Json.number?).map Number.toFloat = m at number
    generalize (y.bind Json.number?).map Number.toFloat = n at number
    generalize numbers? xs = ms at ih
    generalize numbers? ys = ns at ih
    cases number with
    | none => exact .none
    | some number =>
      cases ih with
      | none => exact .none
      | some rest => exact .some (.cons number rest)

namespace CrossCheck

variable {ms ns : Members}

theorem present_related (same : SameMembers ms ns) (name : String) :
    Option.Rel SameValue (present ms name) (present ns name) := by
  have values := same.lookup name
  unfold present
  generalize ms.lookup name = a at values
  generalize ns.lookup name = b at values
  cases values with
  | none => exact .none
  | @some a b values =>
    rw [Option.filter_some, Option.filter_some, values.isNull]
    split
    · exact .some values
    · exact .none

theorem array_length_congr {a b : Option Json} (same : Option.Rel SameValue a b) :
    (a.bind Json.array?).map List.length = (b.bind Json.array?).map List.length := by
  cases same with
  | none => rfl
  | @some a b values =>
    have items := values.array?
    dsimp only [Option.bind_some]
    generalize a.array? = xs at items
    generalize b.array? = ys at items
    cases items with
    | none => rfl
    | some items => exact congrArg some items.length_eq

theorem rowCount_congr {xs ys : List (Option Json)}
    (same : List.Forall₂ (Option.Rel SameValue) xs ys) : rowCount xs = rowCount ys := by
  have lengths : xs.map (fun value => (value.bind Json.array?).map List.length) =
      ys.map fun value => (value.bind Json.array?).map List.length := by
    rw [← List.forall₂_eq_eq_eq, List.forall₂_map_left_iff, List.forall₂_map_right_iff]
    exact same.imp fun _ _ => array_length_congr
  have joined (values : List (Option Json)) :
      values.filterMap (fun value => (value.bind Json.array?).map List.length) =
        (values.map fun value => (value.bind Json.array?).map List.length).filterMap id := by
    rw [List.filterMap_map]
    rfl
  rw [rowCount, rowCount, joined, joined, lengths]

theorem cell_related {a b : Option Json} (same : Option.Rel SameValue a b) (i : Nat) :
    Option.Rel SameValue (cell i a) (cell i b) := by
  cases same with
  | none => exact .none
  | @some a b values =>
    cases values.form with
    | @array xs ys items =>
      simp only [cell]
      by_cases inside : i < xs.length
      · have insideToo : i < ys.length := items.length_eq ▸ inside
        rw [List.getElem?_eq_getElem inside, List.getElem?_eq_getElem insideToo]
        exact .some (items.get inside insideToo)
      · have outside : ¬ i < ys.length := items.length_eq ▸ inside
        rw [List.getElem?_eq_none (by omega), List.getElem?_eq_none (by omega)]
        exact .none
    | null | bool | number | string | object => exact .some values

theorem row_related {xs ys : List (Option Json)}
    (same : List.Forall₂ (Option.Rel SameValue) xs ys) (i : Nat) :
    List.Forall₂ (Option.Rel SameValue) (row xs i) (row ys i) := by
  rw [row, row, List.forall₂_map_left_iff, List.forall₂_map_right_iff]
  exact same.imp fun _ _ related => cell_related related i

theorem admitsRow_congr {xs ys : List (Option Json)}
    (same : List.Forall₂ (Option.Rel SameValue) xs ys) :
    Cross.atLeast.admitsRow xs = Cross.atLeast.admitsRow ys := by
  have missing : xs.any Option.isNone = ys.any Option.isNone := by
    induction same with
    | nil => rfl
    | cons first _ ih =>
      rw [List.any_cons, List.any_cons, ih]
      cases first <;> rfl
  have leading : (numbers? xs).any isLeading = (numbers? ys).any isLeading := by
    have numbers := numbers?_related same
    generalize numbers? xs = ms at numbers
    generalize numbers? ys = ns at numbers
    cases numbers with
    | none => rfl
    | some order => exact isLeading_congr order
  simp only [Cross.admitsRow, missing, Cross.atLeast, leading]

/-- Which of equal objects is looked at does not matter to a rule between fields. -/
theorem atLeast_admits_congr (same : SameMembers ms ns) (fields : List String) :
    (Cross.atLeast.bind fields).admits ms = (Cross.atLeast.bind fields).admits ns := by
  have values : List.Forall₂ (Option.Rel SameValue) (fields.map (present ms))
      (fields.map (present ns)) := by
    rw [List.forall₂_map_left_iff, List.forall₂_map_right_iff, List.forall₂_same]
    exact fun name _ => present_related same name
  unfold admits
  simp only [Cross.bind, rowCount_congr values, admitsRow_congr values,
    fun i => admitsRow_congr (row_related values i)]

end CrossCheck

end Rule

/-! Single values. -/

namespace Audit

open Rule in
theorem primitiveFaults_eq_nil_iff {name : String} {path : Path} {type : Primitive} {traits : Traits}
    {value : Json} :
    Entry.primitiveFaults name path type (ObjectSchema.primitiveTraits traits) value = [] ↔
      type.holds value = true ∧
        (∀ names, traits.options.allowed = some names → isAllowed names value = true) ∧
        ∀ limit ∈ limits traits.options, limit.admits value = true := by
  have allowed (names : List String) :
      Entry.fault? (checkAllowed name path names value) = none ↔ isAllowed names value = true := by
    unfold checkAllowed
    split <;> simp_all [Entry.fault?]
  have within (limit : Limit) :
      Entry.fault? (limit.check name path value) = none ↔ limit.admits value = true := by
    unfold Limit.check
    split <;> simp_all [Entry.fault?]
  unfold Entry.primitiveFaults
  by_cases typed : type.holds value = true
  · rw [if_pos typed]
    simp only [typed, true_and, List.append_eq_nil_iff, List.filterMap_eq_nil_iff, within,
      ObjectSchema.primitiveTraits]
    refine and_congr_left fun _ => ?_
    cases traits.options.allowed with
    | none => simp
    | some names => simp [allowed]
  · simp [typed]

theorem primitiveFaults_same {name : String} {path : Path} {type : Primitive} {a b : Traits}
    {value other : Json} (agree : a.Agree b) (same : value.SameValue other)
    (none : Entry.primitiveFaults name path type (ObjectSchema.primitiveTraits a) value = []) :
    Entry.primitiveFaults name path type (ObjectSchema.primitiveTraits b) other = [] := by
  rw [primitiveFaults_eq_nil_iff] at none ⊢
  obtain ⟨typed, allowed, within⟩ := none
  have limits : Rule.limits b.options = Rule.limits a.options := by
    rw [Rule.limits, Rule.limits, agree.options.maxLength, agree.options.exactLength]
  refine ⟨(Options.holds_congr same type).symm.trans typed, fun names declared => ?_,
    fun limit listed => ?_⟩
  · have := allowed names (agree.options.allowed.trans declared)
    rwa [Rule.isAllowed, same.string?] at this
  · have := within limit (limits ▸ listed)
    rwa [Rule.Limit.admits, Rule.Length.admits, same.string?] at this

end Audit

namespace Place

variable {name : String} {path : Path} {f g : Field} {a b : Json}

theorem found_same (array : f.isArray = g.isArray) (same : a.SameValue b) {found : Found}
    (read : Place.found ⟨name, path, f⟩ a = .ok found) :
    ∃ other, Place.found ⟨name, path, g⟩ b = .ok other ∧
      List.Forall₂ SameValue found.values other.values := by
  unfold Place.found at read ⊢
  dsimp only at read ⊢
  rw [← array]
  split at read
  · next isArray =>
    obtain ⟨items, elements, rfl⟩ := map_eq_ok_iff.mp read
    cases elements_eq_ok elements
    cases same.form with
    | array items => exact ⟨.elements _, by rw [if_pos isArray]; rfl, items⟩
  · next single =>
    cases read
    exact ⟨.single b, by rw [if_neg single], .cons same .nil⟩

/-- The objects in the value of a field are found in an equal value as well. -/
theorem Holds.same (array : f.isArray = g.isArray) (same : a.SameValue b) {here : Path}
    {members : Members} (holds : Place.Holds ⟨name, path, g⟩ b here members) :
    ∃ others, Place.Holds ⟨name, path, f⟩ a here others ∧ SameMembers others members := by
  cases holds with
  | single isSingle =>
    obtain ⟨others, isObject, members⟩ := same.symm.object_left rfl
    exact ⟨others, isObject ▸ .single (array.trans isSingle), members.symm⟩
  | @element items _ i isArray found =>
    cases same.form with
    | @array xs _ elements =>
      obtain ⟨inside, found⟩ := List.getElem?_eq_some_iff.mp found
      have insideToo : i < xs.length := elements.length_eq.symm ▸ inside
      have item := elements.get insideToo inside
      obtain ⟨others, isObject, members⟩ := item.symm.object_left found
      exact ⟨others, .element (array.trans isArray)
        (List.getElem?_eq_some_iff.mpr ⟨insideToo, isObject⟩), members.symm⟩

/-- An object field holds an object, or an array of nothing but objects if it is an array. -/
theorem objectFaults_form_iff {place : Place} {value : Json} :
    place.objectFaults (fun _ _ => []) value = [] ↔ if place.field.isArray then
      ∃ items, value = .array items ∧ ∀ item ∈ items, ∃ members, item = .object members
    else ∃ members, value = .object members := by
  simpa using @objectFaults_eq_nil_iff_forms place value (fun _ _ => []) (fun _ => True)
    fun _ _ => iff_of_true rfl trivial

theorem form_same (array : f.isArray = g.isArray) (same : a.SameValue b)
    (none : Place.objectFaults ⟨name, path, f⟩ (fun _ _ => []) a = []) :
    Place.objectFaults ⟨name, path, g⟩ (fun _ _ => []) b = [] := by
  rw [objectFaults_form_iff] at none ⊢
  dsimp only at none ⊢
  rw [← array]
  split at none
  · next isArray =>
    rw [if_pos isArray]
    obtain ⟨items, rfl, all⟩ := none
    cases same.form with
    | @array _ ys elements =>
      refine ⟨ys, rfl, fun item member => ?_⟩
      obtain ⟨own, inItems, values⟩ := (Reordered.of_forall₂ elements).exists_left member
      obtain ⟨members, isObject⟩ := all own inItems
      obtain ⟨others, isOther, -⟩ := values.object_left isObject
      exact ⟨others, isOther⟩
  · next single =>
    rw [if_neg single]
    obtain ⟨members, rfl⟩ := none
    obtain ⟨others, isOther, -⟩ := same.object_left rfl
    exact ⟨others, isOther⟩

end Place

namespace Audit

/-- What an audit looks for in an object does not depend on the order of members and fields. -/
structure Orderless (audit : Audit) : Prop where
  value : ∀ name path f g a b, f.Alike g → a.SameValue b →
    audit.value ⟨name, path, f⟩ a = [] → audit.value ⟨name, path, g⟩ b = []
  object : ∀ path ms ns fields others, SameMembers ms ns → FieldMap.Alike fields others →
    Entries.Distinct others →
    audit.object ⟨path, ms, fields⟩ = [] → audit.object ⟨path, ns, others⟩ = []

theorem level_same {audit : Audit} (orderless : audit.Orderless) {fields others : FieldMap}
    (alike : fields.Alike others) (distinct : others.Throughout Entries.Distinct) {path : Path}
    {ms ns : Members} (same : SameMembers ms ns) (none : audit.level ⟨path, ms, fields⟩ = []) :
    audit.level ⟨path, ns, others⟩ = [] := by
  induction fields using FieldMap.induction generalizing others path ms ns with
  | step fields ih =>
    obtain ⟨own, entries⟩ := level_eq_nil_iff.mp none
    obtain ⟨here, distinctBelow⟩ := FieldMap.throughout_iff.mp distinct
    refine level_eq_nil_iff.mpr ⟨orderless.object path ms ns fields others same alike here own, ?_⟩
    intro name field member
    obtain ⟨partner, found, paired⟩ :=
      alike.exists_left ((Entries.lookup_eq_some_iff here).mpr member)
    have entry := entries name partner (Entries.mem_of_lookup found)
    have values := same.lookup name
    unfold Audit.entry at entry ⊢
    dsimp only at entry ⊢
    generalize ms.lookup name = a at entry values
    generalize ns.lookup name = b at values
    cases values with
    | none =>
      have required : partner.required = field.required := paired.traits.required
      dsimp only at entry ⊢
      rwa [← required]
    | @some a b values =>
      dsimp only at entry ⊢
      cases paired with
      | @primitive type f g agree =>
        rw [Audit.field, Place.valueFaults_eq_nil_iff] at entry ⊢
        obtain ⟨found, read, each⟩ := entry
        obtain ⟨other, readToo, items⟩ :=
          @Place.found_same name path (.primitive type f) (.primitive type g) a b agree.isArray
            values found read
        refine ⟨other, readToo, fun item listed => ?_⟩
        obtain ⟨own, inFound, values⟩ := (Reordered.of_forall₂ items).exists_left listed
        exact orderless.value name path _ _ own item (.primitive agree) values (each own inFound)
      | @object inner deeper f g fieldsAlike agree =>
        rw [Audit.field, Place.objectFaults_eq_nil_iff] at entry ⊢
        have array : (Field.object inner f).isArray = (Field.object deeper g).isArray :=
          agree.isArray
        refine ⟨Place.form_same array values entry.1, fun here members holds => ?_⟩
        obtain ⟨others, holdsToo, same⟩ := holds.same array values
        exact ih name inner f (Entries.mem_of_lookup found) fieldsAlike
          (distinctBelow name deeper g member) same (entry.2 here others holdsToo)

theorem document_same {audit : Audit} (orderless : audit.Orderless) {map other : FieldMap}
    (alike : map.Alike other) (distinct : other.Throughout Entries.Distinct) {a b : Json}
    (same : a.SameValue b) (none : audit.document map a = []) : audit.document other b = [] := by
  obtain ⟨members, isObject, none⟩ := document_eq_nil_iff.mp none
  obtain ⟨others, isOther, members⟩ := same.object_left isObject
  exact document_eq_nil_iff.mpr
    ⟨others, isOther, level_same orderless alike distinct members none⟩

theorem plain_value_same {name : String} {path : Path} {f g : Field} {a b : Json}
    (alike : f.Alike g) (same : a.SameValue b) (none : plain.value ⟨name, path, f⟩ a = []) :
    plain.value ⟨name, path, g⟩ b = [] := by
  cases alike with
  | primitive agree => exact primitiveFaults_same agree same none
  | object => rfl

/-- Equal objects break the same rules between fields. -/
theorem broken_same {name : String} {path : Path} {ms ns : Members} {f g : Field}
    {fields others : FieldMap} (alike : f.Alike g) (same : SameMembers ms ns)
    (none : Level.broken ⟨path, ms, fields⟩ name f = []) :
    Level.broken ⟨path, ns, others⟩ name g = [] := by
  rw [broken_eq_nil_iff] at none ⊢
  intro check declared
  obtain ⟨type, traits, references, isPrimitive, some, isCheck⟩ := Field.mem_checks_iff.mp declared
  subst isPrimitive isCheck
  cases alike with
  | @primitive _ own _ agree =>
    rw [← Rule.CrossCheck.atLeast_admits_congr same]
    exact none _ (Field.mem_checks_iff.mpr
      ⟨type, own, references, rfl, agree.options.atLeast.trans some, rfl⟩)

theorem checked_orderless : checked.Orderless where
  value _ _ _ _ _ _ alike same none := plain_value_same alike same none
  object path ms ns fields others same alike distinct none := by
    rw [checked_object_eq_nil_iff] at none ⊢
    intro name field member present
    obtain ⟨own, found, paired⟩ :=
      alike.exists_left ((Entries.lookup_eq_some_iff distinct).mpr member)
    exact broken_same paired same
      (none name own (Entries.mem_of_lookup found) ((same.has name).trans present))

theorem hooked_orderless : hooked.Orderless where
  value _ _ _ _ _ _ alike same none := plain_value_same alike same none
  object path ms ns fields others same alike distinct none := by
    rw [hooked_object_eq_nil_iff] at none ⊢
    intro name field member
    obtain ⟨own, found, paired⟩ :=
      alike.exists_left ((Entries.lookup_eq_some_iff distinct).mpr member)
    exact broken_same paired same (none name own (Entries.mem_of_lookup found))

end Audit

end FieldSchema
