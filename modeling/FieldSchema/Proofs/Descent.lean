import FieldSchema.Proofs.Nesting

/-! Values that hold values of their kind under names, such as the collections of objects inside a
collection. What holds of a value and its depth at every level of it is said one level at a time. -/
namespace FieldSchema

variable {α : Type} {child : α → String → α → Prop}

/-- Leads from a value to itself and to all those inside it, by the names on the way. -/
inductive Descends (child : α → String → α → Prop) : α → Path → α → Prop where
  | here {a : α} : Descends child a [] a
  | inside {a b last : α} {name : String} {path : Path} : child a name b →
    Descends child b path last → Descends child a (.member name :: path) last

/-- What holds of a value that stands at `depth`, and of all those inside it where they stand. -/
def AtEachLevel (child : α → String → α → Prop) (P : Nat → α → Prop) (depth : Nat) (a : α) : Prop :=
  ∀ path b, Descends child a path b → P (depth + path.depth) b

theorem atEachLevel_iff {P : Nat → α → Prop} {depth : Nat} {a : α} :
    AtEachLevel child P depth a ↔ P depth a ∧ ∀ name b, child a name b →
      AtEachLevel child P (depth + Path.depth [.member name]) b := by
  constructor
  · intro all
    refine ⟨all [] a .here, fun name b held path last descends => ?_⟩
    have below := all _ _ (.inside held descends)
    rwa [Path.depth_cons, ← Nat.add_assoc] at below
  · rintro ⟨here, below⟩ path last descends
    cases descends with
    | here => exact here
    | inside held descends =>
      rw [Path.depth_cons, ← Nat.add_assoc]
      exact below _ _ held _ _ descends

/-- At what depth a value stands may not matter. -/
theorem forall_descends_iff {P : α → Prop} {a : α} : (∀ path b, Descends child a path b → P b) ↔
    P a ∧ ∀ name b, child a name b → ∀ path c, Descends child b path c → P c :=
  @atEachLevel_iff α child (fun _ => P) 0 a

end FieldSchema
