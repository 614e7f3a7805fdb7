import Mathlib

/-!
Reading a range some places of which hold nothing. What is found is listed without the gaps, so an entry
stands at its own place in the list only as long as no gap has been passed.
-/

namespace Qira.Library.Gaps

variable {α : Type*}

/-- What the places below `n` hold, one after the other. -/
def found (f : Nat → Option α) (n : Nat) : List α := (List.range n).filterMap f

/-- Each entry of the list is what its own place holds. -/
def InPlace (f : Nat → Option α) (l : List α) : Prop := ∀ k v, l[k]? = some v → f k = some v

/-- After a gap nothing more is found. -/
def GapsLast (f : Nat → Option α) (n : Nat) : Prop := ∀ i j, i < j → j < n → f i = none → f j = none

section Reading
variable {f : Nat → Option α} {n : Nat}

theorem found_succ (f : Nat → Option α) (n : Nat) : found f (n + 1) = found f n ++ (f n).toList := by
  rw [found, List.range_succ, List.filterMap_append]
  rfl

theorem found_succ' (f : Nat → Option α) (n : Nat) :
    found f (n + 1) = (f 0).toList ++ found (fun k => f (k + 1)) n := by
  rw [found, List.range_succ_eq_map, List.filterMap_cons, List.filterMap_map]
  cases f 0 <;> rfl

theorem found_congr {g : Nat → Option α} (same : ∀ k < n, f k = g k) : found f n = found g n :=
  List.filterMap_congr fun k inside => same k (List.mem_range.mp inside)

/-- Reading a list place by place gives the list. -/
theorem found_getElem? (l : List α) : found (l[·]?) l.length = l := by
  induction l using List.reverseRecOn with
  | nil => rfl
  | append_singleton front last ih =>
    have before : ∀ i < front.length, (front ++ [last])[i]? = front[i]? := fun i => List.getElem?_append_left
    rw [List.length_append, List.length_singleton, found_succ, found_congr before, ih]
    simp

theorem found_length_le (f : Nat → Option α) (n : Nat) : (found f n).length ≤ n := by
  have shorter := List.length_filterMap_le f (List.range n)
  rwa [List.length_range] at shorter

theorem found_length (full : ∀ k < n, f k ≠ none) : (found f n).length = n := by
  rw [found, List.length_filterMap_eq_countP, List.countP_eq_length.mpr, List.length_range]
  intro k inside
  exact Option.isSome_iff_ne_none.mpr (full k (List.mem_range.mp inside))

theorem GapsLast.full (last : GapsLast f (n + 1)) {v : α} (held : f n = some v) : ∀ k < n, f k ≠ none := by
  intro k below gap
  rw [last k n below (Nat.lt_succ_self n) gap] at held
  cases held

/-- With the gaps last, the list has at each place of the range what is held there. -/
theorem getElem?_found (last : GapsLast f n) (k : Nat) (inside : k < n) : (found f n)[k]? = f k := by
  induction n with
  | zero => exact absurd inside (Nat.not_lt_zero k)
  | succ n ih =>
    have before : GapsLast f n := fun i j below small => last i j below (Nat.lt_succ_of_lt small)
    rw [found_succ]
    cases held : f n with
    | none =>
      rw [Option.toList_none, List.append_nil]
      rcases Nat.lt_succ_iff_lt_or_eq.mp inside with earlier | rfl
      · exact ih before earlier
      · rw [held, List.getElem?_eq_none (found_length_le f k)]
    | some v =>
      have whole := found_length (last.full held)
      rcases Nat.lt_succ_iff_lt_or_eq.mp inside with earlier | rfl
      · rw [List.getElem?_append_left (by rwa [whole]), ih before earlier]
      · rw [held, List.getElem?_append_right whole.le, whole, Nat.sub_self]
        rfl

theorem inPlace_of_append {l more : List α} (inPlace : InPlace f (l ++ more)) : InPlace f l := by
  intro k v there
  exact inPlace k v ((List.getElem?_append_left (List.getElem?_eq_some_iff.mp there).1).trans there)

/-- No entry is shifted exactly if the gaps come last. -/
theorem inPlace_found_iff (f : Nat → Option α) (n : Nat) : InPlace f (found f n) ↔ GapsLast f n := by
  constructor
  · induction n with
    | zero => exact fun _ i j _ small => absurd small (Nat.not_lt_zero j)
    | succ n ih =>
      intro inPlace i j below small gap
      rw [found_succ] at inPlace
      have before := ih (inPlace_of_append inPlace)
      rcases Nat.lt_succ_iff_lt_or_eq.mp small with earlier | rfl
      · exact before i j below earlier gap
      -- an entry found behind the gap would stand where the list has ended
      by_contra someHeld
      obtain ⟨v, held⟩ := Option.ne_none_iff_exists'.mp someHeld
      have shifted : f (found f j).length = some v := by
        apply inPlace
        rw [held, List.getElem?_append_right le_rfl, Nat.sub_self]
        rfl
      rcases (found_length_le f j).lt_or_eq with short | whole
      · have none := getElem?_found before _ short
        rw [List.getElem?_eq_none le_rfl, shifted] at none
        cases none
      · have ends := getElem?_found before i below
        rw [gap, List.getElem?_eq_none_iff, whole] at ends
        omega
  · intro last k v there
    have inside : k < n := (List.getElem?_eq_some_iff.mp there).1.trans_le (found_length_le f n)
    exact (getElem?_found last k inside).symm.trans there

end Reading

end Qira.Library.Gaps
