import FieldSchema.Proofs.Entries
import FieldSchema.Proofs.Occurrence
import Mathlib.Data.List.Flatten
import Mathlib.Data.List.Perm.Basic

/-! Values that are equal up to the order of the members of their objects. Equality of values goes
by what is found under each name; where no object names a member twice this is to say that the
members correspond one to one, and it is symmetric. -/
namespace FieldSchema

theorem forall₂_mono {α β : Type} {R T : α → β → Prop} {xs : List α} {ys : List β}
    (each : List.Forall₂ R xs ys) (weaker : ∀ x ∈ xs, ∀ y ∈ ys, R x y → T x y) :
    List.Forall₂ T xs ys := by
  induction each with
  | nil => exact .nil
  | cons first _ ih =>
    refine .cons (weaker _ (List.mem_cons_self ..) _ (List.mem_cons_self ..) first) (ih ?_)
    exact fun x inXs y inYs => weaker x (List.mem_cons_of_mem _ inXs) y (List.mem_cons_of_mem _ inYs)

/-- Two lists correspond one to one, in whatever order. -/
def Reordered {α β : Type} (R : α → β → Prop) (xs : List α) (ys : List β) : Prop :=
  ∃ zs, List.Forall₂ R xs zs ∧ zs.Perm ys

namespace Reordered

variable {α β γ δ : Type} {R : α → β → Prop} {S : γ → δ → Prop} {xs : List α} {ys : List β}

theorem nil : Reordered R [] [] := ⟨[], .nil, .nil⟩

theorem of_forall₂ (each : List.Forall₂ R xs ys) : Reordered R xs ys := ⟨ys, each, .refl ys⟩

theorem symm (reordered : Reordered R xs ys) : Reordered (fun y x => R x y) ys xs := by
  obtain ⟨zs, each, perm⟩ := reordered
  obtain ⟨ws, back, permBack⟩ := List.perm_comp_forall₂ perm.symm each.flip
  exact ⟨ws, back, permBack⟩

theorem mono {T : α → β → Prop} (reordered : Reordered R xs ys)
    (weaker : ∀ x ∈ xs, ∀ y ∈ ys, R x y → T x y) : Reordered T xs ys := by
  obtain ⟨zs, each, perm⟩ := reordered
  exact ⟨zs, forall₂_mono each fun x inXs z inZs => weaker x inXs z (perm.subset inZs), perm⟩

theorem exists_right (reordered : Reordered R xs ys) {x : α} (member : x ∈ xs) :
    ∃ y ∈ ys, R x y := by
  obtain ⟨zs, each, perm⟩ := reordered
  obtain ⟨i, inside, rfl⟩ := List.mem_iff_getElem.mp member
  have related := each.get inside (each.length_eq ▸ inside)
  exact ⟨_, perm.subset (List.getElem_mem _), related⟩

theorem exists_left (reordered : Reordered R xs ys) {y : β} (member : y ∈ ys) : ∃ x ∈ xs, R x y :=
  reordered.symm.exists_right member

theorem append {us : List α} {vs : List β} (first : Reordered R xs ys) (second : Reordered R us vs) :
    Reordered R (xs ++ us) (ys ++ vs) := by
  obtain ⟨zs, each, perm⟩ := first
  obtain ⟨ws, eachLast, permLast⟩ := second
  exact ⟨zs ++ ws, List.rel_append each eachLast, perm.append permLast⟩

theorem flatMap {f : α → List γ} {g : β → List δ} (reordered : Reordered R xs ys)
    (images : ∀ x y, R x y → Reordered S (f x) (g y)) :
    Reordered S (xs.flatMap f) (ys.flatMap g) := by
  obtain ⟨zs, each, perm⟩ := reordered
  have inOrder : Reordered S (xs.flatMap f) (zs.flatMap g) := by
    clear perm
    induction each with
    | nil => exact nil
    | cons first _ ih =>
      rw [List.flatMap_cons, List.flatMap_cons]
      exact (images _ _ first).append ih
  obtain ⟨ws, related, permImages⟩ := inOrder
  exact ⟨ws, related, permImages.trans (perm.flatMap_right g)⟩

theorem map {f : α → γ} {g : β → δ} (reordered : Reordered R xs ys)
    (images : ∀ x y, R x y → S (f x) (g y)) : Reordered S (xs.map f) (ys.map g) := by
  obtain ⟨zs, each, perm⟩ := reordered
  exact ⟨zs.map g, List.forall₂_map_left_iff.mpr (List.forall₂_map_right_iff.mpr
    (each.imp images)), perm.map g⟩

theorem filter {p : α → Bool} {q : β → Bool} (reordered : Reordered R xs ys)
    (same : ∀ x y, R x y → p x = q y) : Reordered R (xs.filter p) (ys.filter q) := by
  obtain ⟨zs, each, perm⟩ := reordered
  refine ⟨zs.filter q, ?_, perm.filter q⟩
  clear perm
  induction each with
  | nil => exact .nil
  | @cons x z _ _ first _ ih =>
    rw [List.filter_cons, List.filter_cons, same x z first]
    split
    · exact .cons first ih
    · exact ih

theorem perm_of_eq {xs ys : List α} (reordered : Reordered Eq xs ys) : xs.Perm ys := by
  obtain ⟨zs, each, perm⟩ := reordered
  rw [List.forall₂_eq_eq_eq] at each
  exact each ▸ perm

/-- What the elements of one list stand for, those of the other stand for, in whatever order. -/
theorem transfer {T : α → γ → Prop} {U : β → δ → Prop} {as : List γ}
    (reordered : Reordered R xs ys) (images : List.Forall₂ T xs as)
    (each : ∀ x y a, a ∈ as → R x y → T x a → ∃ b, U y b ∧ S a b) :
    ∃ bs, List.Forall₂ U ys bs ∧ Reordered S as bs := by
  obtain ⟨zs, related, perm⟩ := reordered
  have inOrder : ∃ ws, List.Forall₂ U zs ws ∧ List.Forall₂ S as ws := by
    clear perm
    induction related generalizing as with
    | nil =>
      cases images
      exact ⟨[], .nil, .nil⟩
    | cons first _ ih =>
      obtain ⟨a, as, image, others, rfl⟩ := List.forall₂_cons_left_iff.mp images
      obtain ⟨b, last, same⟩ := each _ _ a (List.mem_cons_self ..) first image
      obtain ⟨ws, lasts, sames⟩ := ih others fun x y a member =>
        each x y a (List.mem_cons_of_mem _ member)
      exact ⟨b :: ws, .cons last lasts, .cons same sames⟩
  obtain ⟨ws, lasts, sames⟩ := inOrder
  obtain ⟨bs, ordered, permImages⟩ := List.perm_comp_forall₂ perm.symm lasts
  exact ⟨bs, ordered, ws, sames, permImages.symm⟩

end Reordered

/-- Entries of one name whose values are related. -/
def SameName {α β : Type} (R : α → β → Prop) (a : String × α) (b : String × β) : Prop :=
  a.1 = b.1 ∧ R a.2 b.2

namespace Reordered

variable {α β : Type} {R : α → β → Prop} {xs : List (String × α)} {ys : List (String × β)}
  (reordered : Reordered (SameName R) xs ys)

include reordered

theorem names : (Entries.names xs).Perm (Entries.names ys) :=
  perm_of_eq (reordered.map fun _ _ same => same.1)

theorem distinct (left : Entries.Distinct xs) : Entries.Distinct ys := reordered.names.nodup left

/-- Where names are distinct, related values are found under each name. -/
theorem lookup (left : Entries.Distinct xs) (name : String) :
    Option.Rel R (xs.lookup name) (ys.lookup name) := by
  cases found : xs.lookup name with
  | none =>
    have absent : ys.lookup name = none := Entries.lookup_eq_none_iff.mpr fun member =>
      Entries.lookup_eq_none_iff.mp found (reordered.names.symm.subset member)
    rw [absent]
    exact .none
  | some a =>
    obtain ⟨⟨_, b⟩, member, named, same⟩ := reordered.exists_right (Entries.mem_of_lookup found)
    have held : ys.lookup name = some b :=
      (Entries.lookup_eq_some_iff (reordered.distinct left)).mpr (by cases named; exact member)
    rw [held]
    exact .some same

end Reordered

/-! Numbers. -/

namespace Number

open Float.Model

/-- Floats are equal if they are one value or two zeros. -/
theorem unpacked_of_beq {a b : UnpackedFloat} (same : a.beq b = true) :
    a = b ∨ ∃ s t, a = .zero s ∧ b = .zero t := by
  have equal {x : Ordering} (same : (some x == some .eq) = true) : x = .eq := by
    simpa using same
  have sign (s t : UnpackedFloat.Sign) : compare s t = .eq → s = t := by
    cases s <;> cases t <;> first | exact fun _ => rfl | exact fun same => by cases same
  have parts {m n : Nat} {e f : Int} (same : (compare e f).then (compare m n) = .eq) :
      e = f ∧ m = n := by
    simpa using same
  rcases a with s | _ | s | ⟨s, m, e, _⟩ <;> rcases b with t | _ | t | ⟨t, n, f, _⟩
  case infinity.infinity =>
    cases sign s t (equal same)
    exact .inl rfl
  case zero.zero => exact .inr ⟨s, t, rfl, rfl⟩
  case finite.finite =>
    cases s <;> cases t
    case positive.positive =>
      obtain ⟨rfl, rfl⟩ := parts (equal same)
      exact .inl rfl
    case negative.negative =>
      obtain ⟨rfl, rfl⟩ := parts (Ordering.swap_eq_eq.mp (equal same))
      exact .inl rfl
    all_goals cases same
  all_goals first | cases same | (cases s <;> cases same) | (cases t <;> cases same)

theorem compare_zero (s t : UnpackedFloat.Sign) (a : UnpackedFloat) :
    a.compare (.zero s) = a.compare (.zero t) ∧
      (UnpackedFloat.zero s).compare a = (UnpackedFloat.zero t).compare a := by
  rcases a with sign | _ | sign | ⟨sign, m, e, positive⟩
  · cases sign <;> exact ⟨rfl, rfl⟩
  · exact ⟨rfl, rfl⟩
  · exact ⟨rfl, rfl⟩
  · cases sign <;> exact ⟨rfl, rfl⟩

theorem float_le_iff {a b : Float} : a ≤ b ↔ a.toModel.unpack.le b.toModel.unpack = true := by
  change Float.le a b = true ↔ _
  rw [Float.le, decide_eq_true_eq]
  rfl

theorem float_beq_iff {a b : Float} :
    (a == b) = true ↔ a.toModel.unpack.beq b.toModel.unpack = true := Iff.rfl

theorem le_iff_of_beq {a b : Float} (same : (a == b) = true) (x : Float) :
    (x ≤ a ↔ x ≤ b) ∧ (a ≤ x ↔ b ≤ x) := by
  simp only [float_le_iff, UnpackedFloat.le]
  rcases unpacked_of_beq (float_beq_iff.mp same) with same | ⟨s, t, left, right⟩
  · rw [same]
    exact ⟨.rfl, .rfl⟩
  · rw [left, right, (compare_zero s t _).1, (compare_zero s t _).2]
    exact ⟨.rfl, .rfl⟩

theorem beq_symm {a b : Float} (same : (a == b) = true) : (b == a) = true := by
  rw [float_beq_iff] at same ⊢
  rcases unpacked_of_beq same with equal | ⟨s, t, left, right⟩
  · rwa [equal] at same ⊢
  · rw [left, right]
    rfl

variable {a b : Number}

theorem eq_or_floats (same : a.same b = true) :
    a = b ∨ ∃ s t, a = .float s ∧ b = .float t ∧ (Float.ofBits s == Float.ofBits t) = true := by
  unfold Number.same at same
  split at same
  · exact .inr ⟨_, _, rfl, rfl, same⟩
  · exact .inl (by simpa using same)

theorem same_symm (same : a.same b = true) : b.same a = true := by
  rcases eq_or_floats same with rfl | ⟨s, t, rfl, rfl, floats⟩
  · exact same
  · exact beq_symm floats

/-- Equal numbers compare alike. -/
theorem le_iff_of_same (same : a.same b = true) (x : Float) :
    (x ≤ a.toFloat ↔ x ≤ b.toFloat) ∧ (a.toFloat ≤ x ↔ b.toFloat ≤ x) := by
  rcases eq_or_floats same with rfl | ⟨s, t, rfl, rfl, floats⟩
  · exact ⟨.rfl, .rfl⟩
  · exact le_iff_of_beq floats x

end Number

namespace Json

theorem sameItems_iff {xs ys : List Json} :
    sameItems xs ys = true ↔ List.Forall₂ (fun x y => x.same y = true) xs ys := by
  induction xs generalizing ys with
  | nil => cases ys <;> simp [sameItems]
  | cons x rest ih =>
    cases ys with
    | nil => simp [sameItems]
    | cons y ys => simp [sameItems, ih]

theorem sameMembers_iff {ms ns : Members} : sameMembers ms ns = true ↔
    ∀ entry ∈ ms, ∃ value, ns.lookup entry.1 = some value ∧ entry.2.same value = true := by
  induction ms with
  | nil => simp [sameMembers]
  | cons entry rest ih =>
    obtain ⟨key, value⟩ := entry
    rw [sameMembers, Bool.and_eq_true, ih, List.forall_mem_cons]
    refine and_congr_left fun _ => ?_
    cases ns.lookup key <;> simp

/-- Where no name occurs twice, equal objects have members that correspond. -/
theorem same_object_iff {ms ns : Members} (left : Entries.Distinct ms) (right : Entries.Distinct ns) :
    same (.object ms) (.object ns) = true ↔
      Reordered (SameName fun a b : Json => a.same b = true) ms ns := by
  rw [same, Bool.and_eq_true, beq_iff_eq, sameMembers_iff]
  constructor
  · rintro ⟨size, found⟩
    let partners : Members := ms.map fun entry => (entry.1, (ns.lookup entry.1).getD .null)
    have names : Entries.names partners = Entries.names ms := by
      simp [partners, Function.comp_def]
    have included : partners ⊆ ns := by
      intro entry member
      obtain ⟨own, inMs, rfl⟩ := List.mem_map.mp member
      obtain ⟨value, held, -⟩ := found own inMs
      rw [held]
      exact Entries.mem_of_lookup held
    refine ⟨partners, ?_, ?_⟩
    · rw [List.forall₂_map_right_iff, List.forall₂_same]
      intro own inMs
      obtain ⟨value, held, same⟩ := found own inMs
      exact ⟨rfl, by rw [held]; exact same⟩
    · have distinct : Entries.Distinct partners := by rw [Entries.Distinct, names]; exact left
      refine (List.subperm_of_subset (List.Nodup.of_map _ distinct) included).perm_of_length_le ?_
      simp [partners, size]
  · intro reordered
    obtain ⟨zs, each, perm⟩ := reordered
    refine ⟨each.length_eq.trans perm.length_eq, fun entry inMs => ?_⟩
    obtain ⟨⟨key, value⟩, inNs, named, same⟩ := Reordered.exists_right ⟨zs, each, perm⟩ inMs
    exact ⟨value, (Entries.lookup_eq_some_iff right).mpr (named ▸ inNs), same⟩

mutual

theorem same_symm : (a : Json) → ∀ b : Json, a.Distinct → b.Distinct → a.same b = true →
    b.same a = true
  | .array xs, b, left, right, same => by
    cases b with
    | array ys =>
      rw [Json.same, sameItems_iff] at same ⊢
      rw [Distinct, distinctItems_iff] at left right
      refine (forall₂_mono same fun x inXs y inYs => ?_).flip
      exact itemSymm xs inXs y (left x inXs) (right y inYs)
    | null | bool | number | string | object => simp [Json.same] at same
  | .object ms, b, left, right, same => by
    cases b with
    | object ns =>
      obtain ⟨distinctMs, ms'⟩ := left
      obtain ⟨distinctNs, ns'⟩ := right
      rw [same_object_iff distinctMs distinctNs] at same
      refine (same_object_iff distinctNs distinctMs).mpr (same.symm.mono ?_)
      rintro ⟨_, b⟩ inNs ⟨key, a⟩ inMs ⟨named, same⟩
      exact ⟨named.symm, memberSymm ms inMs b (distinctMembers_iff.mp ms' _ inMs)
        (distinctMembers_iff.mp ns' _ inNs) same⟩
    | null | bool | number | string | array => simp [Json.same] at same
  | .null, b, _, _, same => by cases b <;> first | rfl | simp [Json.same] at same
  | .bool _, b, _, _, same => by
    cases b <;> simp [Json.same] at same ⊢
    exact same.symm
  | .number _, b, _, _, same => by
    cases b <;> simp [Json.same] at same ⊢
    exact Number.same_symm same
  | .string _, b, _, _, same => by
    cases b <;> simp [Json.same] at same ⊢
    exact same.symm

theorem itemSymm : (xs : List Json) → ∀ {a : Json}, a ∈ xs → ∀ b : Json, a.Distinct → b.Distinct →
    a.same b = true → b.same a = true
  | x :: rest, a, member, b, left, right, same => by
    rcases List.mem_cons.mp member with first | member
    · rw [first] at left same ⊢
      exact same_symm x b left right same
    · exact itemSymm rest member b left right same

theorem memberSymm : (ms : Members) → ∀ {key : String} {a : Json}, (key, a) ∈ ms →
    ∀ b : Json, a.Distinct → b.Distinct → a.same b = true → b.same a = true
  | (_, x) :: rest, key, a, member, b, left, right, same => by
    rcases List.mem_cons.mp member with first | member
    · cases first
      exact same_symm x b left right same
    · exact memberSymm rest member b left right same

end

/-- Two values that are equal, and in which no object names a member twice. -/
structure SameValue (a b : Json) : Prop where
  same : a.same b = true
  left : a.Distinct
  right : b.Distinct

theorem SameValue.symm {a b : Json} (values : a.SameValue b) : b.SameValue a :=
  ⟨same_symm a b values.left values.right values.same, values.right, values.left⟩

/-- The members of equal objects. -/
structure SameMembers (ms ns : Members) : Prop where
  distinct : Entries.Distinct ms
  reordered : Reordered (SameName SameValue) ms ns

theorem SameMembers.symm {ms ns : Members} (members : SameMembers ms ns) : SameMembers ns ms :=
  ⟨members.reordered.distinct members.distinct, members.reordered.symm.mono
    fun _ _ _ _ same => ⟨same.1.symm, same.2.symm⟩⟩

theorem SameMembers.lookup {ms ns : Members} (members : SameMembers ms ns) (name : String) :
    Option.Rel SameValue (ms.lookup name) (ns.lookup name) :=
  members.reordered.lookup members.distinct name

theorem SameMembers.has {ms ns : Members} (members : SameMembers ms ns) (name : String) :
    Entries.has name ms = Entries.has name ns := by
  have values := members.lookup name
  unfold Entries.has
  generalize ms.lookup name = a at values
  generalize ns.lookup name = b at values
  cases values <;> rfl

/-- What it takes for two values to be equal, by their kind. -/
inductive SameForm : Json → Json → Prop where
  | null : SameForm .null .null
  | bool {b : Bool} : SameForm (.bool b) (.bool b)
  | number {m n : Number} : m.same n = true → SameForm (.number m) (.number n)
  | string {s : String} : SameForm (.string s) (.string s)
  | array {xs ys : List Json} : List.Forall₂ SameValue xs ys → SameForm (.array xs) (.array ys)
  | object {ms ns : Members} : SameMembers ms ns → SameForm (.object ms) (.object ns)

theorem SameValue.form {a b : Json} (values : a.SameValue b) : SameForm a b := by
  obtain ⟨same, left, right⟩ := values
  cases a with
  | array xs =>
    cases b with
    | array ys =>
      rw [Json.same, sameItems_iff] at same
      rw [Distinct, distinctItems_iff] at left right
      exact .array (forall₂_mono same fun x inXs y inYs same => ⟨same, left x inXs, right y inYs⟩)
    | null | bool | number | string | object => simp [Json.same] at same
  | object ms =>
    cases b with
    | object ns =>
      obtain ⟨distinctMs, left⟩ := left
      obtain ⟨distinctNs, right⟩ := right
      rw [distinctMembers_iff] at left right
      refine .object ⟨distinctMs, ((same_object_iff distinctMs distinctNs).mp same).mono ?_⟩
      exact fun a inMs b inNs same => ⟨same.1, same.2, left a inMs, right b inNs⟩
    | null | bool | number | string | array => simp [Json.same] at same
  | null =>
    cases b with
    | null => exact .null
    | bool | number | string | array | object => simp [Json.same] at same
  | bool x =>
    cases b with
    | bool y =>
      have equal : x = y := by simpa [Json.same] using same
      exact equal ▸ .bool
    | null | number | string | array | object => simp [Json.same] at same
  | number m =>
    cases b with
    | number n => exact .number same
    | null | bool | string | array | object => simp [Json.same] at same
  | string s =>
    cases b with
    | string t =>
      have equal : s = t := by simpa [Json.same] using same
      exact equal ▸ .string
    | null | bool | number | array | object => simp [Json.same] at same

theorem SameValue.array {xs ys : List Json} (items : List.Forall₂ SameValue xs ys) :
    SameValue (.array xs) (.array ys) := by
  refine ⟨?_, distinctItems_iff.mpr fun x inXs => ?_, distinctItems_iff.mpr fun y inYs => ?_⟩
  · rw [Json.same, sameItems_iff]
    exact items.imp fun _ _ values => values.same
  · obtain ⟨y, -, values⟩ := (Reordered.of_forall₂ items).exists_right inXs
    exact values.left
  · obtain ⟨x, -, values⟩ := (Reordered.of_forall₂ items).exists_left inYs
    exact values.right

theorem SameValue.object {ms ns : Members} (members : SameMembers ms ns) :
    SameValue (.object ms) (.object ns) := by
  refine ⟨?_, ⟨members.distinct, distinctMembers_iff.mpr fun entry inMs => ?_⟩,
    ⟨members.symm.distinct, distinctMembers_iff.mpr fun entry inNs => ?_⟩⟩
  · rw [same_object_iff members.distinct members.symm.distinct]
    exact members.reordered.mono fun _ _ _ _ same => ⟨same.1, same.2.same⟩
  · obtain ⟨_, -, -, values⟩ := members.reordered.exists_right inMs
    exact values.left
  · obtain ⟨_, -, -, values⟩ := members.reordered.exists_left inNs
    exact values.right

/-- Objects are equal if equal values are found in them under each name. -/
theorem sameMembers_of_lookup {ms ns : Members} (left : Entries.Distinct ms)
    (right : Entries.Distinct ns)
    (values : ∀ name, Option.Rel SameValue (ms.lookup name) (ns.lookup name)) :
    SameMembers ms ns := by
  have paired {name : String} {a : Json} (member : (name, a) ∈ ms) :
      ∃ b, ns.lookup name = some b ∧ a.SameValue b := by
    have related := values name
    rw [(Entries.lookup_eq_some_iff left).mpr member] at related
    generalize ns.lookup name = b at related ⊢
    cases related with
    | some same => exact ⟨_, rfl, same⟩
  have names : (Entries.names ms).Perm (Entries.names ns) := by
    refine (List.perm_ext_iff_of_nodup left right).mpr fun name => not_iff_not.mp ?_
    rw [← Entries.lookup_eq_none_iff, ← Entries.lookup_eq_none_iff]
    have related := values name
    generalize ms.lookup name = a at related
    generalize ns.lookup name = b at related
    cases related <;> simp
  have same : same (.object ms) (.object ns) = true := by
    rw [Json.same, Bool.and_eq_true, beq_iff_eq, sameMembers_iff]
    refine ⟨by simpa using names.length_eq, fun ⟨name, a⟩ member => ?_⟩
    obtain ⟨b, found, values⟩ := paired member
    exact ⟨b, found, values.same⟩
  refine ⟨left, ((same_object_iff left right).mp same).mono ?_⟩
  rintro ⟨name, a⟩ inMs ⟨_, b⟩ inNs ⟨rfl, -⟩
  obtain ⟨partner, found, values⟩ := paired inMs
  cases found.symm.trans ((Entries.lookup_eq_some_iff right).mpr inNs)
  exact ⟨rfl, values⟩

namespace SameValue

variable {a b : Json} (values : a.SameValue b)

include values

theorem object_left {ms : Members} (isObject : a = .object ms) :
    ∃ ns, b = .object ns ∧ SameMembers ms ns := by
  subst isObject
  cases values.form with
  | object members => exact ⟨_, rfl, members⟩

theorem isNull : a.isNull = b.isNull := by cases values.form <;> rfl

theorem bool? : a.bool? = b.bool? := by cases values.form <;> rfl

theorem string? : a.string? = b.string? := by cases values.form <;> rfl

theorem natural? : a.natural? = b.natural? := by
  cases values.form with
  | number same =>
    rcases Number.eq_or_floats same with rfl | ⟨s, t, rfl, rfl, -⟩ <;> rfl
  | null | bool | string | array | object => rfl

theorem number? : Option.Rel (fun m n : Number => m.same n = true) a.number? b.number? := by
  cases values.form with
  | number same => exact .some same
  | null | bool | string | array | object => exact .none

theorem array? : Option.Rel (List.Forall₂ SameValue) a.array? b.array? := by
  cases values.form with
  | array items => exact .some items
  | null | bool | number | string | object => exact .none

theorem strings? : a.strings? = b.strings? := by
  cases values.form with
  | array items =>
    simp only [Json.strings?]
    clear values
    induction items with
    | nil => rfl
    | cons first _ ih => rw [List.mapM_cons, List.mapM_cons, first.string?, ih]
  | null | bool | number | string | object => rfl

end SameValue

end Json

end FieldSchema
