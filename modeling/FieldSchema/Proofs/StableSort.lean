import Mathlib.Data.List.Basic
import Mathlib.Data.List.Pairwise

/-! Stable sorting by a number. Values of the same number keep their order, so a sorted list is put
together from its classes: the values of each number in turn, as they stood. -/
namespace FieldSchema

variable {α : Type} {key : α → Nat} {x : α} {xs ys : List α} {i : Nat}

theorem mem_class_iff : x ∈ xs.filter (key · = i) ↔ x ∈ xs ∧ key x = i := by
  rw [List.mem_filter, decide_eq_true_eq]

theorem sorted_class : (xs.filter (key · = i)).Pairwise fun a b => key a ≤ key b :=
  List.pairwise_of_forall_mem_list fun _ here _ there =>
    Nat.le_of_eq ((mem_class_iff.mp here).2.trans (mem_class_iff.mp there).2.symm)

theorem class_of_class (i j : Nat) (xs : List α) :
    (xs.filter (key · = j)).filter (key · = i) = if j = i then xs.filter (key · = i) else [] := by
  rw [List.filter_filter]
  split
  · next same =>
    subst same
    exact List.filter_congr fun x _ => Bool.and_self _
  · next other =>
    refine List.filter_eq_nil_iff.mpr fun x _ both => other ?_
    rw [Bool.and_eq_true, decide_eq_true_eq, decide_eq_true_eq] at both
    exact both.2.symm.trans both.1

theorem class_of_rest (i n : Nat) (xs : List α) :
    (xs.filter (n ≤ key ·)).filter (key · = i) = if n ≤ i then xs.filter (key · = i) else [] := by
  rw [List.filter_filter]
  split
  · next beyond =>
    refine List.filter_congr fun x _ => ?_
    by_cases same : key x = i <;> simp [same, beyond]
  · next inside =>
    refine List.filter_eq_nil_iff.mpr fun x _ both => inside ?_
    rw [Bool.and_eq_true, decide_eq_true_eq, decide_eq_true_eq] at both
    exact both.1 ▸ both.2

theorem key_le_trans (a b c : α) (first : decide (key a ≤ key b) = true)
    (second : decide (key b ≤ key c) = true) : decide (key a ≤ key c) = true :=
  decide_eq_true (Nat.le_trans (of_decide_eq_true first) (of_decide_eq_true second))

theorem key_le_total (a b : α) : (decide (key a ≤ key b) || decide (key b ≤ key a)) = true := by
  simpa using Nat.le_total (key a) (key b)

theorem sorted_mergeSort (xs : List α) :
    (xs.mergeSort fun a b => key a ≤ key b).Pairwise fun a b => key a ≤ key b :=
  (List.pairwise_mergeSort key_le_trans key_le_total xs).imp of_decide_eq_true

/-- A class is sorted, so it stands in the sorted list as it stood. -/
theorem class_mergeSort (i : Nat) (xs : List α) :
    (xs.mergeSort fun a b => key a ≤ key b).filter (key · = i) = xs.filter (key · = i) := by
  have alike : (xs.filter (key · = i)).Pairwise fun a b => decide (key a ≤ key b) = true :=
    sorted_class.imp decide_eq_true
  have kept := (List.sublist_mergeSort key_le_trans key_le_total alike List.filter_sublist).filter
    (key · = i)
  rw [class_of_class, if_pos rfl] at kept
  exact (kept.eq_of_length ((List.mergeSort_perm xs _).filter _).length_eq.symm).symm

theorem mem_of_classes (classes : ∀ i, xs.filter (key · = i) = ys.filter (key · = i))
    (member : x ∈ xs) : x ∈ ys := by
  have inside : x ∈ xs.filter (key · = key x) := mem_class_iff.mpr ⟨member, rfl⟩
  rw [classes] at inside
  exact (mem_class_iff.mp inside).1

/-- The values of the least number come first, so two sorted lists of the same classes are the same. -/
theorem eq_of_sorted (left : xs.Pairwise fun a b => key a ≤ key b)
    (right : ys.Pairwise fun a b => key a ≤ key b)
    (classes : ∀ i, xs.filter (key · = i) = ys.filter (key · = i)) : xs = ys := by
  induction xs generalizing ys with
  | nil =>
    refine (List.eq_nil_iff_forall_not_mem.mpr fun y member => ?_).symm
    exact List.not_mem_nil (mem_of_classes (fun i => (classes i).symm) member)
  | cons x rest ih =>
    cases ys with
    | nil => exact absurd (mem_of_classes classes (List.mem_cons_self ..)) List.not_mem_nil
    | cons y others =>
      obtain ⟨least, sorted⟩ := List.pairwise_cons.mp left
      obtain ⟨leastOther, sortedOther⟩ := List.pairwise_cons.mp right
      have same : key x = key y := by
        have here := mem_of_classes classes (List.mem_cons_self ..)
        have there := mem_of_classes (fun i => (classes i).symm) (List.mem_cons_self ..)
        rcases List.mem_cons.mp here with rfl | here
        · rfl
        · rcases List.mem_cons.mp there with rfl | there
          · rfl
          · exact Nat.le_antisymm (least y there) (leastOther x here)
      have heads := classes (key x)
      simp only [List.filter_cons, same, decide_true, if_true, List.cons.injEq] at heads
      obtain ⟨rfl, -⟩ := heads
      rw [ih sorted sortedOther fun i => ?_]
      have here := classes i
      rw [List.filter_cons, List.filter_cons] at here
      split at here
      · exact (List.cons.inj here).2
      · exact here

theorem flatMap_of_mem {β : Type} (nodup : xs.Nodup) (member : x ∈ xs) {f : α → List β}
    (others : ∀ y ∈ xs, y ≠ x → f y = []) : xs.flatMap f = f x := by
  obtain ⟨before, after, rfl⟩ := List.append_of_mem member
  obtain ⟨-, inner, apart⟩ := List.nodup_append.mp nodup
  have first : before.flatMap f = [] := List.flatMap_eq_nil_iff.mpr fun y inside =>
    others y (List.mem_append_left _ inside) (apart y inside x (List.mem_cons_self ..))
  have last : after.flatMap f = [] := List.flatMap_eq_nil_iff.mpr fun y inside =>
    others y (List.mem_append_right _ (List.mem_cons_of_mem _ inside)) fun same =>
      (List.nodup_cons.mp inner).1 (same ▸ inside)
  rw [List.flatMap_append, List.flatMap_cons, first, last, List.append_nil, List.nil_append]

/-- The classes of the first `n` numbers come first, and the others are sorted behind them. -/
theorem mergeSort_eq_classes (n : Nat) (xs : List α) :
    (xs.mergeSort fun a b => key a ≤ key b) =
      (List.range n).flatMap (fun i => xs.filter (key · = i)) ++
        (xs.filter (n ≤ key ·)).mergeSort fun a b => key a ≤ key b := by
  refine eq_of_sorted (sorted_mergeSort xs) ?_ fun i => ?_
  · refine List.pairwise_append.mpr ⟨List.pairwise_flatMap.mpr ⟨fun _ _ => sorted_class, ?_⟩,
      sorted_mergeSort _, fun a inside b beyond => ?_⟩
    · refine List.pairwise_lt_range.imp fun {i j} less a here b there => ?_
      rw [(mem_class_iff.mp here).2, (mem_class_iff.mp there).2]
      exact Nat.le_of_lt less
    · obtain ⟨i, less, here⟩ := List.mem_flatMap.mp inside
      rw [(mem_class_iff.mp here).2]
      have behind := of_decide_eq_true (List.mem_filter.mp (List.mem_mergeSort.mp beyond)).2
      have := List.mem_range.mp less
      omega
  · rw [class_mergeSort, List.filter_append, class_mergeSort, List.filter_flatMap, class_of_rest]
    by_cases inside : i < n
    · rw [flatMap_of_mem List.nodup_range (List.mem_range.mpr inside) fun j _ other => by
          rw [class_of_class, if_neg other],
        class_of_class, if_pos rfl, if_neg (Nat.not_le.mpr inside), List.append_nil]
    · have none : ∀ j ∈ List.range n, (xs.filter (key · = j)).filter (key · = i) = [] := by
        intro j less
        have other : j ≠ i := fun same => inside (same ▸ List.mem_range.mp less)
        rw [class_of_class, if_neg other]
      rw [List.flatMap_eq_nil_iff.mpr none, if_pos (Nat.not_lt.mp inside), List.nil_append]

end FieldSchema
