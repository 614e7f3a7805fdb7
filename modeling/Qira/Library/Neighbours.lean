import Mathlib

/-!
Neighbours in a sorted list: what stands behind an element is the least above it, and what stands before it the
greatest below it.
-/

namespace Qira.Library.Neighbours

variable {α : Type*} [LinearOrder α]

/-- The next of some elements above one, or below it. -/
def Neighbour (elements : Set α) (c : α) (next : Bool) (x : α) : Prop :=
  if next then IsLeast {y | y ∈ elements ∧ c < y} x else IsGreatest {y | y ∈ elements ∧ y < c} x

theorem Neighbour.mem {elements : Set α} {c x : α} {next : Bool} (neighbour : Neighbour elements c next x) :
    x ∈ elements := by
  cases next with
  | true => exact neighbour.1.1
  | false => exact neighbour.1.1

/-- Fewer elements have the same neighbours, if these are among them. -/
theorem neighbour_congr {fewer elements : Set α} {c : α} {next : Bool} (subset : fewer ⊆ elements)
    (finite : elements.Finite) (kept : ∀ x, Neighbour elements c next x → x ∈ fewer) (x : α) :
    Neighbour fewer c next x ↔ Neighbour elements c next x := by
  cases next with
  | true =>
    constructor
    · intro least
      have inhabited : {y | y ∈ elements ∧ c < y}.Nonempty := ⟨x, subset least.1.1, least.1.2⟩
      obtain ⟨z, first⟩ := (finite.subset fun y inside => inside.1).exists_minimal inhabited
      have least' : IsLeast {y | y ∈ elements ∧ c < y} z := ⟨first.prop, fun y inside =>
        (le_total z y).elim id fun below => first.le_of_le inside below⟩
      have same : x = z := le_antisymm (least.2 ⟨kept z least', least'.1.2⟩) (least'.2 ⟨subset least.1.1, least.1.2⟩)
      exact same ▸ least'
    · exact fun least => ⟨⟨kept x least, least.1.2⟩, fun y inside => least.2 ⟨subset inside.1, inside.2⟩⟩
  | false =>
    constructor
    · intro greatest
      have inhabited : {y | y ∈ elements ∧ y < c}.Nonempty := ⟨x, subset greatest.1.1, greatest.1.2⟩
      obtain ⟨z, last⟩ := (finite.subset fun y inside => inside.1).exists_maximal inhabited
      have greatest' : IsGreatest {y | y ∈ elements ∧ y < c} z := ⟨last.prop, fun y inside =>
        (le_total y z).elim id fun above => last.le_of_ge inside above⟩
      have same : x = z :=
        le_antisymm (greatest'.2 ⟨subset greatest.1.1, greatest.1.2⟩) (greatest.2 ⟨kept z greatest', greatest'.1.2⟩)
      exact same ▸ greatest'
    · exact fun greatest => ⟨⟨kept x greatest, greatest.1.2⟩, fun y inside => greatest.2 ⟨subset inside.1, inside.2⟩⟩

/-- Whether the element itself is there does not matter. -/
theorem neighbour_ext {elements others : Set α} {c : α} (same : ∀ y, y ≠ c → (y ∈ elements ↔ y ∈ others)) (next : Bool)
    (x : α) : Neighbour elements c next x ↔ Neighbour others c next x := by
  have above : {y | y ∈ elements ∧ c < y} = {y | y ∈ others ∧ c < y} :=
    Set.ext fun y => and_congr_left fun greater => same y greater.ne'
  have below : {y | y ∈ elements ∧ y < c} = {y | y ∈ others ∧ y < c} :=
    Set.ext fun y => and_congr_left fun less => same y less.ne
  rw [Neighbour, Neighbour, above, below]

section Sorted
variable {front back : List α} {c : α} (sorted : (front ++ c :: back).Pairwise (· ≤ ·)) (before : c ∉ front)
  (behind : c ∉ back)
include sorted

include behind in
theorem head_least (x : α) : back.head? = some x ↔ IsLeast {y | y ∈ front ++ back ∧ c < y} x := by
  obtain ⟨-, ordered, below⟩ := List.pairwise_append.mp sorted
  obtain ⟨above, ordered⟩ := List.pairwise_cons.mp ordered
  have outside : ∀ y ∈ front, ¬ c < y := fun y inside => (below y inside c List.mem_cons_self).not_gt
  cases back with
  | nil =>
    refine iff_of_false nofun fun least => ?_
    rcases List.mem_append.mp least.1.1 with inside | inside
    · exact outside x inside least.1.2
    · cases inside
  | cons b rest =>
    have greater : c < b := (above b List.mem_cons_self).lt_of_ne fun same => behind (same ▸ List.mem_cons_self)
    have least : IsLeast {y | y ∈ front ++ b :: rest ∧ c < y} b := by
      refine ⟨⟨List.mem_append_right front List.mem_cons_self, greater⟩, fun y inside => ?_⟩
      rcases List.mem_append.mp inside.1 with inside' | inside'
      · exact absurd inside.2 (outside y inside')
      · rcases List.mem_cons.mp inside' with rfl | later
        · exact le_rfl
        · exact (List.pairwise_cons.mp ordered).1 y later
    constructor
    · rintro ⟨⟩
      exact least
    · exact fun least' => congrArg some (least.unique least')

include before in
theorem getLast_greatest (x : α) : front.getLast? = some x ↔ IsGreatest {y | y ∈ front ++ back ∧ y < c} x := by
  obtain ⟨ordered, above, below⟩ := List.pairwise_append.mp sorted
  have outside : ∀ y ∈ back, ¬ y < c := fun y inside => ((List.pairwise_cons.mp above).1 y inside).not_gt
  rcases List.eq_nil_or_concat' front with rfl | ⟨rest, b, rfl⟩
  · refine iff_of_false nofun fun greatest => ?_
    exact outside x greatest.1.1 greatest.1.2
  · have last : b ∈ rest ++ [b] := List.mem_append_right rest (List.mem_singleton_self b)
    have less : b < c := (below b last c List.mem_cons_self).lt_of_ne fun same => before (same ▸ last)
    have greatest : IsGreatest {y | y ∈ rest ++ [b] ++ back ∧ y < c} b := by
      refine ⟨⟨List.mem_append_left back last, less⟩, fun y inside => ?_⟩
      rcases List.mem_append.mp inside.1 with inside' | inside'
      · rcases List.mem_append.mp inside' with earlier | same
        · exact (List.pairwise_append.mp ordered).2.2 y earlier b (List.mem_singleton_self b)
        · exact (List.mem_singleton.mp same).le
      · exact absurd inside.2 (outside y inside')
    rw [List.getLast?_concat]
    constructor
    · rintro ⟨⟩
      exact greatest
    · exact fun greatest' => congrArg some (greatest.unique greatest')

end Sorted

/-- The element behind one in a list, or the one before it. -/
def beside (l : List α) (c : α) (next : Bool) : Option α :=
  if next then l[l.idxOf c + 1]? else if l.idxOf c = 0 then none else l[l.idxOf c - 1]?

/-- In order, an element stands beside its neighbours among the others. -/
theorem beside_iff {sorted others : List α} {c : α} (perm : sorted.Perm (c :: others))
    (ordered : sorted.Pairwise (· ≤ ·)) (apart : c ∉ others) (next : Bool) (x : α) :
    beside sorted c next = some x ↔ Neighbour {y | y ∈ others} c next x := by
  obtain ⟨front, back, rfl, before⟩ := List.eq_append_cons_of_mem (perm.mem_iff.mpr List.mem_cons_self)
  have rest : (front ++ back).Perm others := (List.perm_middle.symm.trans perm).cons_inv
  have behind : c ∉ back := fun inside => apart (rest.mem_iff.mp (List.mem_append_right front inside))
  have place : (front ++ c :: back).idxOf c = front.length := by
    rw [List.idxOf_append_of_notMem before, List.idxOf_cons_self, Nat.add_zero]
  have others_eq : {y | y ∈ others} = {y | y ∈ front ++ back} := Set.ext fun y => rest.mem_iff.symm
  rw [beside, place, others_eq]
  cases next with
  | true =>
    have value : (front ++ c :: back)[front.length + 1]? = back.head? := by
      rw [List.getElem?_append_right (Nat.le_add_right _ 1), Nat.add_sub_cancel_left, List.getElem?_cons_succ,
        List.head?_eq_getElem?]
    rw [if_pos rfl, value]
    exact head_least ordered behind x
  | false =>
    have value : (if front.length = 0 then none else (front ++ c :: back)[front.length - 1]?) = front.getLast? := by
      rw [List.getLast?_eq_getElem?]
      split
      next empty => rw [List.length_eq_zero_iff.mp empty]; rfl
      next some => exact List.getElem?_append_left (Nat.sub_lt (Nat.pos_of_ne_zero some) Nat.one_pos)
    rw [if_neg Bool.false_ne_true, value]
    exact getLast_greatest ordered before x

end Qira.Library.Neighbours
