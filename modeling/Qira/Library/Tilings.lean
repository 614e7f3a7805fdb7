import Mathlib

/-!
A line of places covered by tiles. Some places carry the length of the tile that begins there; a place in no such tile
is a tile of its own. From a boundary one can go to the next tile by its length, and to the one before by a search.
-/

namespace Qira.Library.Tilings

/-- Every place with a length begins a tile of at most `bound` places, and those within it have none. -/
structure Tiled (bound : Nat) (len : Int → Option Nat) : Prop where
  sized : ∀ a l, len a = some l → 1 ≤ l ∧ l ≤ bound
  within : ∀ s l, len s = some l → ∀ a, s < a → a < s + l → len a = none

/-- A place that is inside no tile. -/
def Boundary (len : Int → Option Nat) (a : Int) : Prop := ∀ s l, len s = some l → s < a → s + l ≤ a

/-- What a place is: the beginning of a tile with its length, inside exactly one such tile, or a tile of its own. -/
inductive Place (bound : Nat) (len : Int → Option Nat) (a : Int) : Prop
  | start (l : Nat) (tag : len a = some l) (sized : 1 ≤ l ∧ l ≤ bound) (boundary : Boundary len a)
  | inside (untagged : len a = none) (one : ∃! s, ∃ l, len s = some l ∧ s < a ∧ a < s + l)
  | alone (untagged : len a = none) (boundary : Boundary len a)

def size (len : Int → Option Nat) (a : Int) : Nat := (len a).getD 1

def next (len : Int → Option Nat) (a : Int) : Int := a + size len a

/-- How far the tile before begins: the least distance at which a tile of that length does, or else 1. -/
def distance (bound : Nat) (len : Int → Option Nat) (a : Int) : Nat :=
  ((List.range' 1 bound).find? (fun j : Nat => len (a - j) = some j)).getD 1

def previous (bound : Nat) (len : Int → Option Nat) (a : Int) : Int := a - distance bound len a

section Steps
variable {bound : Nat} {len : Int → Option Nat} {a b : Int}

theorem Tiled.boundary {l : Nat} (tiled : Tiled bound len) (tag : len a = some l) : Boundary len a := by
  intro s k tag' before
  by_contra inside
  have none := tiled.within s k tag' a before (not_le.mp inside)
  rw [tag] at none
  cases none

theorem tiled_iff : Tiled bound len ↔ ∀ a, Place bound len a := by
  constructor
  · intro tiled a
    cases tag : len a with
    | some l => exact .start l tag (tiled.sized a l tag) (tiled.boundary tag)
    | none =>
      by_cases boundary : Boundary len a
      · exact .alone tag boundary
      · unfold Boundary at boundary
        push Not at boundary
        obtain ⟨s, l, begins, before, behind⟩ := boundary
        refine .inside tag ⟨s, ⟨l, begins, before, behind⟩, ?_⟩
        rintro s' ⟨l', begins', before', behind'⟩
        -- of two tiles around a place, the later would begin inside the other
        rcases lt_trichotomy s' s with earlier | same | later
        · have upTo := tiled.boundary begins s' l' begins' earlier
          omega
        · exact same
        · have upTo := tiled.boundary begins' s l begins later
          omega
  · intro placed
    constructor
    · intro a l tag
      cases placed a with
      | start l' tag' sized => exact Option.some.inj (tag'.symm.trans tag) ▸ sized
      | inside untagged => cases untagged.symm.trans tag
      | alone untagged => cases untagged.symm.trans tag
    · intro s l tag a before behind
      cases placed a with
      | start l' tag' sized boundary => exact absurd (boundary s l tag before) behind.not_ge
      | inside untagged => exact untagged
      | alone untagged => exact untagged

theorem Tiled.size_pos (tiled : Tiled bound len) (a : Int) : 0 < size len a := by
  unfold size
  cases tag : len a with
  | none => exact Nat.one_pos
  | some l => exact (tiled.sized a l tag).1

theorem lt_next (tiled : Tiled bound len) (a : Int) : a < next len a := by
  have positive := tiled.size_pos a
  unfold next
  omega

/-- A tile of more than one place carries its length. -/
theorem len_of_size (long : 1 < size len a) : len a = some (size len a) := by
  unfold size at long ⊢
  cases tag : len a with
  | none =>
    rw [tag] at long
    exact absurd long (lt_irrefl 1)
  | some l => rfl

/-- There is no boundary before the next one. -/
theorem next_le (boundary : Boundary len b) (less : a < b) : next len a ≤ b := by
  by_cases long : 1 < size len a
  · exact boundary a (size len a) (len_of_size long) less
  · unfold next
    omega

theorem boundary_next (tiled : Tiled bound len) (boundary : Boundary len a) : Boundary len (next len a) := by
  intro s l tag before
  rcases lt_trichotomy s a with earlier | rfl | later
  · have upTo := boundary s l tag earlier
    have less := lt_next tiled a
    omega
  · rw [next, size, tag]
    rfl
  · -- the place would be inside the tile at `a`
    have long : 1 < size len a := by
      unfold next at before
      omega
    have none := tiled.within a _ (len_of_size long) s later before
    rw [tag] at none
    cases none

/-- The search finds the boundary before. -/
theorem previous_spec (tiled : Tiled bound len) (boundary : Boundary len a) :
    Boundary len (previous bound len a) ∧ next len (previous bound len a) = a := by
  unfold previous distance
  cases found : (List.range' 1 bound).find? (fun j : Nat => len (a - j) = some j) with
  | some j =>
    have tag : len (a - j) = some j := by simpa using List.find?_some found
    rw [Option.getD_some]
    refine ⟨tiled.boundary tag, ?_⟩
    rw [next, size, tag, Option.getD_some]
    omega
  | none =>
    have untagged : ∀ j : Nat, len (a - j) ≠ some j := by
      intro j tag
      have sized := tiled.sized _ _ tag
      have member : j ∈ List.range' 1 bound := List.mem_range'_1.mpr (by omega)
      exact absurd tag (by simpa using List.find?_eq_none.mp found j member)
    rw [Option.getD_none]
    constructor
    · intro s l tag before
      have upTo := boundary s l tag (by omega)
      by_contra inside
      obtain rfl : s = a - l := by omega
      exact untagged l tag
    · cases tag : len (a - (1 : Nat)) with
      | none => rw [next, size, tag, Option.getD_none]; omega
      | some l =>
        have sized := tiled.sized _ _ tag
        have upTo := boundary _ l tag (by omega)
        obtain rfl : l = 1 := by omega
        exact absurd tag (untagged 1)

/-- The distance is the length of the tile before. -/
theorem distance_eq (tiled : Tiled bound len) (boundary : Boundary len a) :
    distance bound len a = size len (previous bound len a) := by
  have step := (previous_spec tiled boundary).2
  unfold next at step
  rw [previous] at step ⊢
  omega

end Steps

section Walks
variable {bound : Nat} {len : Int → Option Nat} {a b : Int}

theorem boundary_iterate_next (tiled : Tiled bound len) (boundary : Boundary len a) (n : Nat) :
    Boundary len ((next len)^[n] a) := by
  induction n generalizing a with
  | zero => exact boundary
  | succ n ih => exact ih (boundary_next tiled boundary)

theorem boundary_iterate_previous (tiled : Tiled bound len) (boundary : Boundary len a) (n : Nat) :
    Boundary len ((previous bound len)^[n] a) := by
  induction n generalizing a with
  | zero => exact boundary
  | succ n ih => exact ih (previous_spec tiled boundary).1

/-- Going back and then forth ends at the same place. -/
theorem iterate_next_previous (tiled : Tiled bound len) (boundary : Boundary len a) (n : Nat) :
    (next len)^[n] ((previous bound len)^[n] a) = a := by
  induction n with
  | zero => rfl
  | succ n ih =>
    rw [Function.iterate_succ_apply' (previous bound len), Function.iterate_succ_apply (next len),
      (previous_spec tiled (boundary_iterate_previous tiled boundary n)).2, ih]

theorem iterate_next_strictMono (tiled : Tiled bound len) (a : Int) : StrictMono (fun k => (next len)^[k] a) := by
  apply strictMono_nat_of_lt_succ
  intro k
  change (next len)^[k] a < (next len)^[k + 1] a
  rw [Function.iterate_succ_apply']
  exact lt_next tiled _

/-- A walk passes all boundaries. -/
theorem exists_iterate_next (boundary : Boundary len b) (n : Nat) (from' : a ≤ b)
    (upTo : b < (next len)^[n] a) : ∃ k < n, (next len)^[k] a = b := by
  induction n generalizing a with
  | zero => exact absurd upTo from'.not_gt
  | succ n ih =>
    rcases from'.eq_or_lt with rfl | less
    · exact ⟨0, Nat.succ_pos n, rfl⟩
    · obtain ⟨k, inside, there⟩ := ih (next_le boundary less) upTo
      exact ⟨k + 1, Nat.succ_lt_succ inside, there⟩

end Walks

end Qira.Library.Tilings
