import FieldSchema.Fault
import Mathlib.Data.List.Forall2

/-! Computations that end with their first fault, given by the list of all the faults that they
could meet. Running one after the other appends the lists, and running one for each element of a
list concatenates them. -/
namespace FieldSchema

/-- Ends with the first fault, and with `value` if there is none. -/
def failFast {α : Type} (faults : List Fault) (value : α) : Except Fault α :=
  match faults with
  | [] => .ok value
  | fault :: _ => .error fault

/-- The faults of a result, and those of going on with it. -/
def orFault {α : Type} (result : Except Fault α) (faults : α → List Fault) : List Fault :=
  match result with
  | .ok value => faults value
  | .error fault => [fault]

section

variable {α β ε : Type}

theorem bind_eq_ok_iff {result : Except ε α} {next : α → Except ε β} {b : β} :
    result >>= next = .ok b ↔ ∃ a, result = .ok a ∧ next a = .ok b := by
  cases result with
  | error => simp [bind, Except.bind]
  | ok a => simp [bind, Except.bind]

theorem mapM_eq_ok_iff {f : α → Except ε β} {xs : List α} {ys : List β} :
    xs.mapM f = .ok ys ↔ List.Forall₂ (fun x y => f x = .ok y) xs ys := by
  induction xs generalizing ys with
  | nil => simp [pure, Except.pure, @eq_comm _ _ ys]
  | cons x rest ih =>
    rw [List.mapM_cons, bind_eq_ok_iff, List.forall₂_cons_left_iff]
    simp only [bind_eq_ok_iff, ih]
    constructor
    · rintro ⟨y, first, zs, others, same⟩
      cases same
      exact ⟨y, zs, first, others, rfl⟩
    · rintro ⟨y, zs, first, others, rfl⟩
      exact ⟨y, first, zs, others, rfl⟩

theorem exists_of_forall₂ {R : α → β → Prop} {xs : List α} {ys : List β}
    (each : List.Forall₂ R xs ys) {x : α} (member : x ∈ xs) : ∃ y ∈ ys, R x y := by
  obtain ⟨i, inside, rfl⟩ := List.mem_iff_getElem.mp member
  have bound : i < ys.length := each.length_eq ▸ inside
  exact ⟨ys[i], List.getElem_mem bound, each.get inside bound⟩

theorem exists_forall₂ {R : α → β → Prop} {xs : List α} (each : ∀ x ∈ xs, ∃ y, R x y) :
    ∃ ys, List.Forall₂ R xs ys := by
  induction xs with
  | nil => exact ⟨[], .nil⟩
  | cons x rest ih =>
    obtain ⟨⟨y, first⟩, others⟩ := List.forall_mem_cons.mp each
    obtain ⟨ys, later⟩ := ih others
    exact ⟨y :: ys, .cons first later⟩

theorem exists_of_mem_mapM {f : α → Except ε β} {xs : List α} {ys : List β}
    (complete : xs.mapM f = .ok ys) {y : β} (member : y ∈ ys) : ∃ x ∈ xs, f x = .ok y :=
  exists_of_forall₂ (mapM_eq_ok_iff.mp complete).flip member

theorem ok_of_mapM {f : α → Except ε β} {xs : List α} {ys : List β}
    (complete : xs.mapM f = .ok ys) {x : α} (member : x ∈ xs) : ∃ y ∈ ys, f x = .ok y :=
  exists_of_forall₂ (mapM_eq_ok_iff.mp complete) member

/-- Mapping a list by a function that is known where it does not fail. -/
theorem mapM_eq_ok_iff_map {f : α → Except ε β} {g : α → β} {p : α → Prop} {xs : List α}
    {ys : List β} (each : ∀ x ∈ xs, ∀ y, f x = .ok y ↔ y = g x ∧ p x) :
    xs.mapM f = .ok ys ↔ ys = xs.map g ∧ ∀ x ∈ xs, p x := by
  induction xs generalizing ys with
  | nil =>
    simp only [List.mapM_nil, pure, Except.pure, Except.ok.injEq, List.map_nil, List.not_mem_nil,
      false_imp_iff, implies_true, and_true]
    exact eq_comm
  | cons x rest ih =>
    obtain ⟨first, others⟩ := List.forall_mem_cons.mp each
    rw [List.mapM_cons, bind_eq_ok_iff, List.forall_mem_cons, List.map_cons]
    constructor
    · rintro ⟨y, made, complete⟩
      obtain ⟨zs, all, same⟩ := bind_eq_ok_iff.mp complete
      obtain ⟨rfl, here⟩ := (first y).mp made
      obtain ⟨rfl, later⟩ := (ih others).mp all
      cases same
      exact ⟨rfl, here, later⟩
    · rintro ⟨rfl, here, later⟩
      exact ⟨_, (first _).mpr ⟨rfl, here⟩,
        bind_eq_ok_iff.mpr ⟨_, (ih others).mpr ⟨rfl, later⟩, rfl⟩⟩

/-- Mapping a list in two steps that may fail. -/
theorem mapM_mapM_eq_ok_iff {γ : Type} {f : α → Except ε β} {g : β → Except ε γ} {xs : List α}
    {zs : List γ} : (∃ ys, xs.mapM f = .ok ys ∧ ys.mapM g = .ok zs) ↔
      xs.mapM (fun x => f x >>= g) = .ok zs := by
  simp only [mapM_eq_ok_iff]
  induction xs generalizing zs with
  | nil => simp [List.forall₂_nil_left_iff]
  | cons x rest ih =>
    simp only [List.forall₂_cons_left_iff, bind_eq_ok_iff]
    constructor
    · rintro ⟨_, ⟨y, ys, first, others, rfl⟩, second⟩
      obtain ⟨z, zs, last, further, rfl⟩ := List.forall₂_cons_left_iff.mp second
      have later := ih.mp ⟨ys, others, further⟩
      exact ⟨z, zs, ⟨y, first, last⟩, by simpa only [bind_eq_ok_iff] using later, rfl⟩
    · rintro ⟨z, zs, ⟨y, first, last⟩, others, rfl⟩
      obtain ⟨ys, others, further⟩ := ih.mpr (by simpa only [bind_eq_ok_iff] using others)
      exact ⟨_, ⟨y, ys, first, others, rfl⟩, .cons last further⟩

/-- Related elements may stand in for each other where they are treated alike at any index. -/
theorem mapM_zipIdx_congr {f : α × Nat → Except ε β} {R : α → α → Prop} {xs ys : List α}
    (related : List.Forall₂ R xs ys) (same : ∀ x y i, R x y → f (x, i) = f (y, i)) (start : Nat) :
    (xs.zipIdx start).mapM f = (ys.zipIdx start).mapM f := by
  induction related generalizing start with
  | nil => rfl
  | cons first _ ih => rw [List.zipIdx_cons, List.zipIdx_cons, List.mapM_cons, List.mapM_cons,
      same _ _ start first, ih]

theorem map_eq_ok_iff {result : Except ε α} {f : α → β} {b : β} :
    result.map f = .ok b ↔ ∃ a, result = .ok a ∧ f a = b := by
  cases result with
  | error => simp [Except.map]
  | ok a => simp [Except.map]

@[simp] theorem failFast_nil (value : α) : failFast [] value = .ok value := rfl

@[simp] theorem failFast_cons (fault : Fault) (rest : List Fault) (value : α) :
    failFast (fault :: rest) value = .error fault := rfl

@[simp] theorem orFault_ok (value : α) (faults : α → List Fault) :
    orFault (.ok value) faults = faults value := rfl

@[simp] theorem orFault_error (fault : Fault) (faults : α → List Fault) :
    orFault (.error fault) faults = [fault] := rfl

theorem orFault_congr {result : Except Fault α} {faults others : α → List Fault}
    (same : ∀ value, result = .ok value → faults value = others value) :
    orFault result faults = orFault result others := by
  cases result with
  | ok value => exact same value rfl
  | error => rfl

theorem orFault_eq_nil_iff {result : Except Fault α} {faults : α → List Fault} :
    orFault result faults = [] ↔ ∃ value, result = .ok value ∧ faults value = [] := by
  cases result <;> simp

theorem mem_orFault_iff {result : Except Fault α} {faults : α → List Fault} {fault : Fault} :
    fault ∈ orFault result faults ↔
      result = .error fault ∨ ∃ value, result = .ok value ∧ fault ∈ faults value := by
  cases result with
  | ok => simp
  | error other => simp [@eq_comm _ fault]

theorem filter_orFault {result : Except Fault α} {faults : α → List Fault} {p : Fault → Bool}
    (kept : ∀ fault, result = .error fault → p fault = true) :
    (orFault result faults).filter p = orFault result fun value => (faults value).filter p := by
  cases result with
  | ok => rfl
  | error fault => simp [kept fault rfl]

theorem failFast_eq_ok_iff {faults : List Fault} {value result : α} :
    failFast faults value = .ok result ↔ faults = [] ∧ value = result := by
  cases faults <;> simp

theorem failFast_eq_error_iff {faults : List Fault} {value : α} {fault : Fault} :
    failFast faults value = .error fault ↔ faults.head? = some fault := by
  cases faults <;> simp

/-- The value counts only where there is no fault. -/
theorem failFast_congr {faults : List Fault} {a b : α} (same : faults = [] → a = b) :
    failFast faults a = failFast faults b := by
  cases faults with
  | nil => rw [same rfl]
  | cons => rfl

theorem failFast_bind {first second : List Fault} {a : α} {b : β} {next : α → Except Fault β}
    (continues : first = [] → next a = failFast second b) :
    failFast first a >>= next = failFast (first ++ second) b := by
  cases first with
  | nil => exact continues rfl
  | cons => rfl

theorem failFast_bind_ok (faults : List Fault) (a : α) (f : α → β) :
    (failFast faults a >>= fun a => .ok (f a)) = failFast faults (f a) := by
  cases faults <;> rfl

theorem failFast_map (faults : List Fault) (a : α) (f : α → β) :
    (failFast faults a).map f = failFast faults (f a) := by
  cases faults <;> rfl

theorem orFault_bind {result : Except Fault α} {faults : α → List Fault} {b : β}
    {next : α → Except Fault β}
    (continues : ∀ a, result = .ok a → next a = failFast (faults a) b) :
    result >>= next = failFast (orFault result faults) b := by
  cases result with
  | ok a => exact continues a rfl
  | error => rfl

theorem mapM_eq_failFast {f : α → Except Fault β} {faults : α → List Fault} {value : α → β}
    (xs : List α) (each : ∀ x ∈ xs, f x = failFast (faults x) (value x)) :
    xs.mapM f = failFast (xs.flatMap faults) (xs.map value) := by
  induction xs with
  | nil => rfl
  | cons x rest ih =>
    have tail := ih fun y member => each y (by simp [member])
    rw [List.mapM_cons, each x (by simp), List.flatMap_cons, List.map_cons, tail]
    exact failFast_bind fun _ => failFast_bind_ok _ _ _

theorem forM_eq_failFast {f : α → Except Fault Unit} {faults : α → List Fault}
    (xs : List α) (each : ∀ x ∈ xs, f x = failFast (faults x) ()) :
    xs.forM f = failFast (xs.flatMap faults) () := by
  induction xs with
  | nil => rfl
  | cons x rest ih =>
    have tail := ih fun y member => each y (by simp [member])
    change (f x >>= fun _ => rest.forM f) = _
    rw [each x (by simp), List.flatMap_cons]
    exact failFast_bind fun _ => tail

theorem ofExcept_eq (result : Except Fault α) :
    (MonadExcept.ofExcept result : Except Fault α) = result := by
  cases result <;> rfl

end

end FieldSchema
