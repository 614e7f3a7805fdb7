import Mathlib

/-!
Cutting a list into runs: a new run begins with each element that is a start. The runs make up the list again, and
no run has a start after its first element.
-/

namespace Qira.Library.Cuts

variable {α : Type*} (starts : α → Prop) [DecidablePred starts]

/-- The runs of a list whose first run has already begun. -/
def cutFrom (run : List α) : List α → List (List α)
  | [] => [run]
  | e :: rest => if starts e then run :: cutFrom [e] rest else cutFrom (run ++ [e]) rest

def cut : List α → List (List α)
  | [] => []
  | e :: rest => cutFrom starts [e] rest

theorem flatten_cutFrom (run rest : List α) : (cutFrom starts run rest).flatten = run ++ rest := by
  induction rest generalizing run with
  | nil => simp [cutFrom]
  | cons e rest ih =>
    rw [cutFrom]
    split
    · rw [List.flatten_cons, ih, List.singleton_append]
    · rw [ih, List.append_assoc, List.singleton_append]

theorem flatten_cut (l : List α) : (cut starts l).flatten = l := by
  cases l with
  | nil => rfl
  | cons e rest => exact flatten_cutFrom starts [e] rest

/-- The run that has begun is only added to, and those after it begin with their own element. -/
theorem cutFrom_runs (run rest : List α) (nonempty : run ≠ []) (free : ∀ e ∈ run.tail, ¬ starts e) :
    ∀ r ∈ cutFrom starts run rest, r ≠ [] ∧ ∀ e ∈ r.tail, ¬ starts e := by
  induction rest generalizing run with
  | nil =>
    intro r member
    rw [List.mem_singleton.mp member]
    exact ⟨nonempty, free⟩
  | cons e rest ih =>
    rw [cutFrom]
    split
    next =>
      intro r member
      rcases List.mem_cons.mp member with rfl | member
      · exact ⟨nonempty, free⟩
      · exact ih [e] (List.cons_ne_nil e []) nofun r member
    next inside =>
      apply ih (run ++ [e]) (List.append_ne_nil_of_left_ne_nil nonempty [e])
      rw [List.tail_append_of_ne_nil nonempty]
      intro x member
      rcases List.mem_append.mp member with old | new
      · exact free x old
      · rw [List.mem_singleton.mp new]
        exact inside

theorem cut_runs (l : List α) : ∀ r ∈ cut starts l, r ≠ [] ∧ ∀ e ∈ r.tail, ¬ starts e := by
  cases l with
  | nil => exact nofun
  | cons e rest => exact cutFrom_runs starts [e] rest (List.cons_ne_nil e []) nofun

theorem cutFrom_append (run front back : List α) (e : α) (start : starts e) :
    cutFrom starts run (front ++ e :: back) = cutFrom starts run front ++ cut starts (e :: back) := by
  induction front generalizing run with
  | nil => exact if_pos start
  | cons f front ih =>
    rw [List.cons_append, cutFrom, cutFrom]
    split
    · rw [ih, List.cons_append]
    · exact ih _

/-- With each start, the runs before it are complete. -/
theorem cut_append (front back : List α) (e : α) (start : starts e) :
    cut starts (front ++ e :: back) = cut starts front ++ cut starts (e :: back) := by
  cases front with
  | nil => rfl
  | cons f front => exact cutFrom_append starts [f] front back e start

theorem cut_congr (others : α → Prop) [DecidablePred others] (same : ∀ e, starts e ↔ others e) (l : List α) :
    cut starts l = cut others l := by
  have from_run : ∀ run rest, cutFrom starts run rest = cutFrom others run rest := by
    intro run rest
    induction rest generalizing run with
    | nil => rfl
    | cons e rest ih =>
      rw [cutFrom, cutFrom, ih, ih]
      exact if_congr (same e) rfl rfl
  cases l with
  | nil => rfl
  | cons e rest => exact from_run [e] rest

end Qira.Library.Cuts
