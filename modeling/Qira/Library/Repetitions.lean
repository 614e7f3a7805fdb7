import Mathlib

/-!
Repetitions in lists. Where a part of a list is repeated, all copies but one can be taken out; the place, the length
of the part and the number of copies give the list back.
-/

namespace Qira.Library.Repetitions

variable {α β : Type*}

/-- `l[i:k]`, which ends where the list does. -/
def slice (l : List α) (i k : Nat) : List α := (l.drop i).take (k - i)

/-- From `i` on the same `j` items come `n` times. -/
structure Repeats (l : List α) (i j n : Nat) : Prop where
  inside : i + j * n ≤ l.length
  same : ∀ m < n, slice l (i + j * m) (i + j * (m + 1)) = slice l i (i + j)

/-- Leaves one copy. -/
def collapse (l : List α) (i j n : Nat) : List α := slice l 0 i ++ slice l i (i + j) ++ l.drop (i + j * n)

/-- Puts the copies back. -/
def unroll (l : List α) (i j n : Nat) : List α :=
  slice l 0 i ++ (List.replicate n (slice l i (i + j))).flatten ++ l.drop (i + j)

theorem slice_append_drop (l : List α) {i k : Nat} (order : i ≤ k) : slice l i k ++ l.drop k = l.drop i := by
  have whole := List.take_append_drop (k - i) (l.drop i)
  rwa [List.drop_drop, Nat.add_sub_cancel' order] at whole

theorem slice_zero (l : List α) (k : Nat) : slice l 0 k = l.take k := rfl

theorem slice_add (l : List α) (i j : Nat) : slice l i (i + j) = (l.drop i).take j := by
  rw [slice, Nat.add_sub_cancel_left]

theorem length_slice_add (l : List α) (i j : Nat) : (slice l i (i + j)).length = min j (l.length - i) := by
  rw [slice_add, List.length_take, List.length_drop]

theorem collapse_eq (l : List α) (i j n : Nat) : collapse l i j n = l.take (i + j) ++ l.drop (i + j * n) := by
  rw [collapse, slice_zero, slice_add, List.take_add]

theorem map_collapse (f : α → β) (l : List α) (i j n : Nat) :
    (collapse l i j n).map f = collapse (l.map f) i j n := by
  rw [collapse_eq, collapse_eq, List.map_append, List.map_take, List.map_drop]

theorem mul_pred_add (j : Nat) {n : Nat} (some : 1 ≤ n) : j * (n - 1) + j = j * n := by
  rw [← Nat.mul_succ, Nat.succ_eq_add_one, Nat.sub_add_cancel some]

theorem length_collapse {l : List α} {i j n : Nat} (inside : i + j * n ≤ l.length) (some : 1 ≤ n) :
    (collapse l i j n).length + j * (n - 1) = l.length := by
  have one := mul_pred_add j some
  rw [collapse_eq, List.length_append, List.length_take, List.length_drop]
  omega

theorem collapse_sublist (l : List α) (i j n : Nat) (some : 1 ≤ n) : (collapse l i j n).Sublist l := by
  have later : i + j ≤ i + j * n := Nat.add_le_add_left (Nat.le_mul_of_pos_right j some) i
  have whole := (List.Sublist.refl (l.take (i + j))).append (List.drop_sublist_drop_left l later)
  rwa [List.take_append_drop, ← collapse_eq] at whole

theorem Repeats.drop {l : List α} {i j n : Nat} (repeats : Repeats l i j n) {m : Nat} (few : m ≤ n) :
    l.drop i = (List.replicate m (slice l i (i + j))).flatten ++ l.drop (i + j * m) := by
  induction m with
  | zero => simp
  | succ m ih =>
    have next := slice_append_drop l (Nat.add_le_add_left (Nat.mul_le_mul_left j (Nat.le_succ m)) i)
    rw [repeats.same m few] at next
    rw [ih (Nat.le_of_succ_le few), List.replicate_succ', List.flatten_append, List.append_assoc, List.flatten_singleton,
      next]

theorem unroll_collapse {l : List α} {i j n : Nat} (repeats : Repeats l i j n) (some : 1 ≤ n) :
    unroll (collapse l i j n) i j n = l := by
  have inside : i + j ≤ l.length :=
    (Nat.add_le_add_left (Nat.le_mul_of_pos_right j some) i).trans repeats.inside
  have length : (l.take (i + j)).length = i + j := List.length_take_of_le inside
  have before : slice (collapse l i j n) 0 i = l.take i := by
    rw [slice_zero, collapse_eq, List.take_append_of_le_length (by omega), List.take_take, Nat.min_eq_left (Nat.le_add_right i j)]
  have part : slice (collapse l i j n) i (i + j) = slice l i (i + j) := by
    rw [slice_add, slice_add, collapse_eq, List.drop_append_of_le_length (by omega),
      List.take_append_of_le_length (by rw [List.length_drop]; omega), List.drop_take, Nat.add_sub_cancel_left,
      List.take_take, Nat.min_self]
  have behind : (collapse l i j n).drop (i + j) = l.drop (i + j * n) := by
    rw [collapse_eq]
    exact List.drop_left' length
  rw [unroll, before, part, behind, List.append_assoc, ← repeats.drop le_rfl, List.take_append_drop]

end Qira.Library.Repetitions
