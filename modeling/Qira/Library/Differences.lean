import Mathlib

/-!
Differences and their running sums. Adding at one place of a list of differences raises the running sums from that
place on, so that after any number of marks each running sum is the sum of the marks up to its place.
-/

namespace Qira.Library.Differences

variable {α : Type*} [AddCommMonoid α]

/-- The sums up to each place, with what came before the list. -/
def sumsFrom (total : α) : List α → List α
  | [] => []
  | d :: rest => (total + d) :: sumsFrom (total + d) rest

theorem getElem?_sumsFrom (total : α) (l : List α) (c : Nat) (inside : c < l.length) :
    (sumsFrom total l)[c]? = some (total + (l.take (c + 1)).sum) := by
  induction l generalizing total c with
  | nil => exact absurd inside (Nat.not_lt_zero c)
  | cons d rest ih =>
    cases c with
    | zero => simp [sumsFrom]
    | succ c =>
      rw [sumsFrom, List.getElem?_cons_succ, ih (total + d) c (Nat.lt_of_succ_lt_succ inside), List.take_succ_cons,
        List.sum_cons, add_assoc]

theorem sum_take_modify (l : List α) (i c : Nat) (d : α) (inside : i < l.length) :
    ((l.modify i (· + d)).take (c + 1)).sum = (l.take (c + 1)).sum + if i ≤ c then d else 0 := by
  induction l generalizing i c with
  | nil => exact absurd inside (Nat.not_lt_zero i)
  | cons a rest ih =>
    cases i with
    | zero =>
      rw [List.modify_zero_cons, List.take_succ_cons, List.take_succ_cons, List.sum_cons, List.sum_cons,
        if_pos (Nat.zero_le c), add_right_comm]
    | succ i =>
      cases c with
      | zero => simp [List.modify_succ_cons]
      | succ c =>
        rw [List.modify_succ_cons, List.take_succ_cons, List.take_succ_cons, List.sum_cons, List.sum_cons,
          ih i c (Nat.lt_of_succ_lt_succ inside), add_assoc]
        simp only [Nat.succ_le_succ_iff]

/-- Adds each mark at its place. -/
def mark (l : List α) (marks : List (Nat × α)) : List α := marks.foldl (fun l m => l.modify m.1 (· + m.2)) l

theorem length_mark (l : List α) (marks : List (Nat × α)) : (mark l marks).length = l.length := by
  induction marks generalizing l with
  | nil => rfl
  | cons m rest ih => exact (ih _).trans (List.length_modify ..)

/-- What the marks add to a running sum. -/
theorem sum_take_mark (l : List α) (marks : List (Nat × α)) (c : Nat) (inside : ∀ m ∈ marks, m.1 < l.length) :
    ((mark l marks).take (c + 1)).sum =
      (l.take (c + 1)).sum + (marks.map (fun m => if m.1 ≤ c then m.2 else 0)).sum := by
  induction marks generalizing l with
  | nil => exact (add_zero _).symm
  | cons m rest ih =>
    have here := sum_take_modify l m.1 c m.2 (inside m List.mem_cons_self)
    have later := ih (l.modify m.1 (· + m.2)) fun n member => by
      rw [List.length_modify]
      exact inside n (List.mem_cons_of_mem m member)
    rw [List.map_cons, List.sum_cons, ← add_assoc, ← here]
    exact later

end Qira.Library.Differences
