import Mathlib

/-!
Numbers put together in islands. Two that are near each other belong to one island, with all that lies between them;
from one island to the next it is far.
-/

namespace Qira.Library.Islands

/-- A number in front of the islands, joined with the first of them where that is near. -/
def join (near a : Nat) : List (List Nat) → List (List Nat)
  | (b :: island) :: more =>
      if b < a + near then (a :: (List.range' (a + 1) (b - (a + 1)) ++ b :: island)) :: more
      else [a] :: (b :: island) :: more
  | others => [a] :: others

def islands (near : Nat) : List Nat → List (List Nat)
  | [] => []
  | a :: rest => join near a (islands near rest)

/-- What the islands of some numbers are. -/
structure Grouped (near : Nat) (numbers : List Nat) (groups : List (List Nat)) : Prop where
  increasing : groups.flatten.Pairwise (fun a b => a < b)
  complete : ∀ a ∈ numbers, a ∈ groups.flatten
  steps : ∀ group ∈ groups, group.IsChain (fun a b => b = a + 1)
  holes : ∀ group ∈ groups, ∀ h ∈ group, h ∉ numbers →
    ∃ a ∈ group, ∃ b ∈ group, a ∈ numbers ∧ b ∈ numbers ∧ a < h ∧ h < b ∧ b < a + near
  apart : groups.IsChain (fun c d => ∃ last ∈ c.getLast?, ∃ first ∈ d.head?, last + near ≤ first)

section Joining
variable {near a b : Nat} {numbers island : List Nat} {more : List (List Nat)}

theorem join_near (close : b < a + near) : join near a ((b :: island) :: more) =
    (a :: (List.range' (a + 1) (b - (a + 1)) ++ b :: island)) :: more := if_pos close

theorem join_far (far : ¬ b < a + near) : join near a ((b :: island) :: more) = [a] :: (b :: island) :: more :=
  if_neg far

theorem islands_cons (near a : Nat) (rest : List Nat) : ∃ island more, islands near (a :: rest) = (a :: island) :: more := by
  rw [islands]
  unfold join
  split
  · split
    · exact ⟨_, _, rfl⟩
    · exact ⟨_, _, rfl⟩
  · exact ⟨_, _, rfl⟩

/-- The numbers from one up to another, without holes. -/
theorem bridge_isChain (less : a < b) (chain : (b :: island).IsChain (fun a b => b = a + 1)) :
    (a :: (List.range' (a + 1) (b - (a + 1)) ++ b :: island)).IsChain (fun a b => b = a + 1) := by
  induction left : b - (a + 1) generalizing a with
  | zero =>
    obtain rfl : b = a + 1 := by omega
    exact chain.cons_cons rfl
  | succ left ih =>
    rw [List.range'_succ, List.cons_append]
    exact (ih (by omega) (by omega)).cons_cons rfl

theorem Grouped.least (grouped : Grouped near numbers ((b :: island) :: more)) :
    ∀ x ∈ ((b :: island) :: more).flatten, b ≤ x := by
  intro x inside
  rcases List.mem_cons.mp inside with rfl | later
  · exact le_rfl
  · exact ((List.pairwise_cons.mp grouped.increasing).1 x later).le

/-- All numbers in the islands are at most one of those given. -/
theorem Grouped.bounded {groups : List (List Nat)} (grouped : Grouped near numbers groups) :
    ∀ h ∈ groups.flatten, ∃ b ∈ numbers, h ≤ b := by
  intro h member
  obtain ⟨group, inGroups, inGroup⟩ := List.mem_flatten.mp member
  by_cases own : h ∈ numbers
  · exact ⟨h, own, le_rfl⟩
  · obtain ⟨-, -, b, -, -, inB, -, less, -⟩ := grouped.holes group inGroups h inGroup own
    exact ⟨b, inB, less.le⟩

/-- The holes of an island stay holes when there is one more number. -/
theorem Grouped.holes_cons {groups : List (List Nat)} (grouped : Grouped near numbers groups) :
    ∀ group ∈ groups, ∀ h ∈ group, h ∉ a :: numbers →
      ∃ c ∈ group, ∃ d ∈ group, c ∈ a :: numbers ∧ d ∈ a :: numbers ∧ c < h ∧ h < d ∧ d < c + near := by
  intro group member h inside hole
  obtain ⟨c, inC, d, inD, old, old', between⟩ :=
    grouped.holes group member h inside fun old => hole (List.mem_cons_of_mem a old)
  exact ⟨c, inC, d, inD, List.mem_cons_of_mem a old, List.mem_cons_of_mem a old', between⟩

theorem Grouped.far (grouped : Grouped near (b :: numbers) ((b :: island) :: more)) (less : a < b)
    (far : ¬ b < a + near) : Grouped near (a :: b :: numbers) ([a] :: (b :: island) :: more) where
  increasing := List.pairwise_cons.mpr ⟨fun x inside => less.trans_le (grouped.least x inside), grouped.increasing⟩
  complete := by
    intro x inside
    rcases List.mem_cons.mp inside with rfl | old
    · exact List.mem_cons_self
    · exact List.mem_cons_of_mem a (grouped.complete x old)
  steps := by
    intro group member
    rcases List.mem_cons.mp member with rfl | old
    · exact List.IsChain.singleton a
    · exact grouped.steps group old
  holes := by
    intro group member h inside hole
    rcases List.mem_cons.mp member with rfl | old
    · exact absurd (List.mem_singleton.mp inside ▸ List.mem_cons_self) hole
    · exact grouped.holes_cons group old h inside hole
  apart := grouped.apart.cons_cons ⟨a, rfl, b, rfl, not_lt.mp far⟩

theorem Grouped.close (grouped : Grouped near (b :: numbers) ((b :: island) :: more)) (less : a < b)
    (close : b < a + near) :
    Grouped near (a :: b :: numbers) ((a :: (List.range' (a + 1) (b - (a + 1)) ++ b :: island)) :: more) := by
  have bridge : ∀ x, x ∈ List.range' (a + 1) (b - (a + 1)) ↔ a < x ∧ x < b := by
    intro x
    rw [List.mem_range'_1]
    omega
  have parts : ((a :: (List.range' (a + 1) (b - (a + 1)) ++ b :: island)) :: more).flatten =
      a :: (List.range' (a + 1) (b - (a + 1)) ++ ((b :: island) :: more).flatten) := by
    rw [List.flatten_cons, List.cons_append, List.append_assoc, List.flatten_cons]
  constructor
  · rw [parts, List.pairwise_cons, List.pairwise_append]
    refine ⟨fun x inside => ?_, List.pairwise_lt_range', grouped.increasing, fun x inside y inside' => ?_⟩
    · rcases List.mem_append.mp inside with between | later
      · exact ((bridge x).mp between).1
      · exact less.trans_le (grouped.least x later)
    · exact ((bridge x).mp inside).2.trans_le (grouped.least y inside')
  · intro x inside
    rw [parts, List.mem_cons, List.mem_append]
    exact (List.mem_cons.mp inside).imp_right fun old => .inr (grouped.complete x old)
  · intro group member
    rcases List.mem_cons.mp member with rfl | old
    · exact bridge_isChain less (grouped.steps _ List.mem_cons_self)
    · exact grouped.steps group (List.mem_cons_of_mem _ old)
  · intro group member h inside hole
    rcases List.mem_cons.mp member with rfl | old
    · rcases List.mem_cons.mp inside with rfl | behind
      · exact absurd List.mem_cons_self hole
      · have wider : ∀ x ∈ b :: island, x ∈ a :: (List.range' (a + 1) (b - (a + 1)) ++ b :: island) :=
          fun x old => List.mem_cons_of_mem a (List.mem_append_right _ old)
        rcases List.mem_append.mp behind with between | later
        · exact ⟨a, List.mem_cons_self, b, wider b List.mem_cons_self, List.mem_cons_self,
            List.mem_cons_of_mem a List.mem_cons_self, ((bridge h).mp between).1, ((bridge h).mp between).2, close⟩
        · obtain ⟨c, inC, d, inD, rest⟩ := grouped.holes_cons (b :: island) List.mem_cons_self h later hole
          exact ⟨c, wider c inC, d, wider d inD, rest⟩
    · exact grouped.holes_cons group (List.mem_cons_of_mem _ old) h inside hole
  · have last : (a :: (List.range' (a + 1) (b - (a + 1)) ++ b :: island)).getLast? = (b :: island).getLast? := by
      rw [← List.cons_append, List.getLast?_append, List.getLast?_cons, Option.some_or]
    have apart := grouped.apart
    rw [List.isChain_cons] at apart ⊢
    rwa [last]

/-- Increasing numbers are grouped into islands. -/
theorem islands_grouped (near : Nat) (numbers : List Nat) (increasing : numbers.Pairwise (fun a b => a < b)) :
    Grouped near numbers (islands near numbers) := by
  induction numbers with
  | nil => exact ⟨List.Pairwise.nil, nofun, nofun, nofun, List.IsChain.nil⟩
  | cons a rest ih =>
    obtain ⟨first, increasing'⟩ := List.pairwise_cons.mp increasing
    have grouped := ih increasing'
    cases rest with
    | nil =>
      refine ⟨List.pairwise_singleton _ a, fun x inside => inside, ?_, ?_, List.IsChain.singleton _⟩
      · intro group member
        obtain rfl := List.mem_singleton.mp member
        exact List.IsChain.singleton a
      · intro group member h inside hole
        obtain rfl := List.mem_singleton.mp member
        exact absurd inside hole
    | cons b numbers =>
      obtain ⟨island, more, shape⟩ := islands_cons near b numbers
      rw [islands, shape]
      rw [shape] at grouped
      have less := first b List.mem_cons_self
      by_cases close : b < a + near
      · rw [join_near close]
        exact grouped.close less close
      · rw [join_far close]
        exact grouped.far less close

end Joining

end Qira.Library.Islands
