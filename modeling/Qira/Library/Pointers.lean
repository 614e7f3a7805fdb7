import Mathlib

/-!
Chains of parent pointers. A partial function gives each node its parent; a chain ends when it
reaches a node without one. Adding a pointer at a node that had none keeps every chain finite exactly
when the new parent's chain does not already lead to that node.
-/

namespace Qira.Library.Pointers

section Chains
variable {α : Type*} {next : α → Option α} {a b n p : α}

/-- Following the pointers from a node stops after finitely many. -/
inductive Ends (next : α → Option α) : α → Prop
  | stop {a : α} (last : next a = none) : Ends next a
  | follow {a b : α} (pointer : next a = some b) (rest : Ends next b) : Ends next a

/-- The chain from `a` leads to `b`, or starts there. -/
def Meets (next : α → Option α) : α → α → Prop :=
  Relation.ReflTransGen (fun a b => next a = some b)

theorem Meets.cases (meets : Meets next a b) :
    a = b ∨ ∃ c, next a = some c ∧ Meets next c b :=
  Relation.ReflTransGen.cases_head_iff.mp meets

theorem Meets.follow (pointer : next a = some b) (rest : Meets next b n) : Meets next a n :=
  Relation.ReflTransGen.head pointer rest

/-- Taking pointers away shortens chains. -/
theorem Ends.of_fewer {next' : α → Option α} (ends : Ends next a)
    (fewer : ∀ a b, next' a = some b → next a = some b) : Ends next' a := by
  induction ends with
  | stop last =>
    apply Ends.stop
    apply Option.eq_none_iff_forall_ne_some.mpr
    intro b pointer
    rw [fewer _ b pointer] at last
    cases last
  | follow pointer rest ih =>
    rename_i a b
    cases kept : next' a with
    | none => exact Ends.stop kept
    | some c =>
      obtain rfl : b = c := Option.some.inj (pointer.symm.trans (fewer a c kept))
      exact Ends.follow kept ih

variable [DecidableEq α]

private theorem ends_update_of_apart (ends : Ends next a) (apart : ¬ Meets next a n) :
    Ends (Function.update next n (some p)) a := by
  induction ends with
  | stop last =>
    rename_i a
    have different : a ≠ n := fun same => apart (same ▸ Relation.ReflTransGen.refl)
    exact Ends.stop (by rw [Function.update_of_ne different, last])
  | follow pointer rest ih =>
    rename_i a b
    have different : a ≠ n := fun same => apart (same ▸ Relation.ReflTransGen.refl)
    apply Ends.follow (by rw [Function.update_of_ne different, pointer])
    exact ih (fun meets => apart (Meets.follow pointer meets))

private theorem not_ends_update (fresh : next n = none) (loop : Meets next p n)
    (ends : Ends (Function.update next n (some p)) a) (leads : Meets next a n) : False := by
  induction ends with
  | stop last =>
    rename_i a
    rcases leads.cases with rfl | ⟨c, pointer, -⟩
    · rw [Function.update_self] at last
      cases last
    · have different : a ≠ n := fun same => by rw [same, fresh] at pointer; cases pointer
      rw [Function.update_of_ne different, pointer] at last
      cases last
  | follow pointer rest ih =>
    rename_i a b
    by_cases same : a = n
    · rw [same, Function.update_self] at pointer
      exact ih (Option.some.inj pointer ▸ loop)
    · rw [Function.update_of_ne same] at pointer
      rcases leads.cases with here | ⟨c, first, later⟩
      · exact same here
      · exact ih (Option.some.inj (first.symm.trans pointer) ▸ later)

/-- A new pointer keeps all chains finite exactly when it does not close one. -/
theorem ends_update_iff (all : ∀ a, Ends next a) (fresh : next n = none) :
    (∀ a, Ends (Function.update next n (some p)) a) ↔ ¬ Meets next p n := by
  constructor
  · intro finite loop
    exact not_ends_update fresh loop (finite p) loop
  · intro apart a
    induction all a with
    | stop last =>
      rename_i a
      by_cases same : a = n
      · exact Ends.follow (by rw [same, Function.update_self]) (ends_update_of_apart (all p) apart)
      · exact Ends.stop (by rw [Function.update_of_ne same, last])
    | follow pointer rest ih =>
      rename_i a b
      have different : a ≠ n := fun same => by rw [same, fresh] at pointer; cases pointer
      exact Ends.follow (by rw [Function.update_of_ne different, pointer]) ih

end Chains

end Qira.Library.Pointers
