import Mathlib

/-! Partial functions on the items of a list: the results are there exactly if each item has one. -/

namespace Qira.Library.PartialMaps

section Results
variable {α β : Type*}

theorem mapM_eq_some_iff (f : α → Option β) (items : List α) (results : List β) :
    items.mapM f = some results ↔ List.Forall₂ (fun a b => f a = some b) items results := by
  induction items generalizing results with
  | nil =>
    rw [List.mapM_nil, List.forall₂_nil_left_iff]
    exact ⟨fun same => (Option.some.inj same).symm, fun same => congrArg some same.symm⟩
  | cons a rest ih =>
    rw [List.mapM_cons, List.forall₂_cons_left_iff]
    simp only [Option.bind_eq_bind, Option.bind_eq_some_iff, Option.pure_def, Option.some.injEq, ih]
    constructor
    · rintro ⟨b, here, more, later, rfl⟩
      exact ⟨b, more, here, later, rfl⟩
    · rintro ⟨b, more, here, later, rfl⟩
      exact ⟨b, here, more, later, rfl⟩

theorem exists_mapM_iff (f : α → Option β) (items : List α) :
    (∃ results, items.mapM f = some results) ↔ ∀ a ∈ items, ∃ b, f a = some b := by
  induction items with
  | nil => exact iff_of_true ⟨[], rfl⟩ nofun
  | cons a rest ih =>
    rw [List.forall_mem_cons, ← ih, List.mapM_cons]
    constructor
    · rintro ⟨results, all⟩
      obtain ⟨b, here, all⟩ := Option.bind_eq_some_iff.mp all
      obtain ⟨more, later, -⟩ := Option.bind_eq_some_iff.mp all
      exact ⟨⟨b, here⟩, more, later⟩
    · rintro ⟨⟨b, here⟩, more, later⟩
      exact ⟨b :: more, by rw [here, later]; rfl⟩

/-- Each item has one result. -/
theorem length_of_mapM {f : α → Option β} {items : List α} {results : List β} (all : items.mapM f = some results) :
    results.length = items.length :=
  ((mapM_eq_some_iff f items results).mp all).length_eq.symm

end Results

end Qira.Library.PartialMaps
