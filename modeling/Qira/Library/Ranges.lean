import Mathlib

/-! A half-open range of an ordered list, found by skipping what is below and stopping at what is not. -/

namespace Qira.Library.Ranges

def between {α : Type*} [LinearOrder α] (first last : α) (items : List α) : List α :=
  (items.dropWhile (· < first)).takeWhile (· < last)

section Ordered
variable {α : Type*} [LinearOrder α] {items : List α}

theorem between_sublist (first last : α) (items : List α) : (between first last items).Sublist items :=
  (List.takeWhile_sublist _).trans (List.dropWhile_sublist _)

theorem mem_dropWhile_lt (first : α) (ordered : items.Pairwise (· < ·)) (a : α) :
    a ∈ items.dropWhile (· < first) ↔ a ∈ items ∧ first ≤ a := by
  induction items with
  | nil => simp
  | cons head tail ih =>
    obtain ⟨later, rest⟩ := List.pairwise_cons.mp ordered
    by_cases below : head < first
    · rw [List.dropWhile_cons, if_pos (decide_eq_true below), ih rest, List.mem_cons]
      constructor
      · exact fun inside => ⟨.inr inside.1, inside.2⟩
      · rintro ⟨rfl | inTail, above⟩
        · exact absurd below above.not_gt
        · exact ⟨inTail, above⟩
    · rw [List.dropWhile_cons, if_neg (by simpa using below)]
      refine (and_iff_left_of_imp fun inside => ?_).symm
      rcases List.mem_cons.mp inside with rfl | inTail
      · exact not_lt.mp below
      · exact (not_lt.mp below).trans (later a inTail).le

theorem mem_takeWhile_lt (last : α) (ordered : items.Pairwise (· < ·)) (a : α) :
    a ∈ items.takeWhile (· < last) ↔ a ∈ items ∧ a < last := by
  induction items with
  | nil => simp
  | cons head tail ih =>
    obtain ⟨later, rest⟩ := List.pairwise_cons.mp ordered
    by_cases below : head < last
    · rw [List.takeWhile_cons, if_pos (decide_eq_true below), List.mem_cons, ih rest, List.mem_cons]
      constructor
      · rintro (rfl | ⟨inTail, under⟩)
        · exact ⟨.inl rfl, below⟩
        · exact ⟨.inr inTail, under⟩
      · rintro ⟨rfl | inTail, under⟩
        · exact .inl rfl
        · exact .inr ⟨inTail, under⟩
    · rw [List.takeWhile_cons, if_neg (by simpa using below)]
      refine iff_of_false List.not_mem_nil ?_
      rintro ⟨inside, under⟩
      rcases List.mem_cons.mp inside with rfl | inTail
      · exact below under
      · exact below ((later a inTail).trans under)

theorem mem_between (first last : α) (ordered : items.Pairwise (· < ·)) (a : α) :
    a ∈ between first last items ↔ a ∈ items ∧ first ≤ a ∧ a < last := by
  rw [between, mem_takeWhile_lt last (ordered.sublist (List.dropWhile_sublist _)), mem_dropWhile_lt first ordered,
    and_assoc]

end Ordered

end Qira.Library.Ranges
