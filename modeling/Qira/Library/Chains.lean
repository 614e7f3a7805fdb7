import Mathlib

/-!
Chains that cannot go on: what a loop walks that follows a relation as long as it leads anywhere.
-/

namespace Qira.Library.Chains
variable {α : Type*} {R : α → α → Prop}

/-- Each element leads to the one behind it, and the last one nowhere. -/
structure Maximal (R : α → α → Prop) (chain : List α) : Prop where
  linked : chain.IsChain R
  whole : ∀ last ∈ chain.getLast?, ∀ d, ¬ R last d

theorem Maximal.singleton {a : α} (stuck : ∀ d, ¬ R a d) : Maximal R [a] := by
  refine ⟨List.isChain_singleton a, fun last isLast => ?_⟩
  obtain rfl := Option.some.inj isLast
  exact stuck

theorem Maximal.cons {a b : α} {rest : List α} (step : R a b) (onward : Maximal R (b :: rest)) :
    Maximal R (a :: b :: rest) :=
  ⟨List.isChain_cons_cons.mpr ⟨step, onward.linked⟩, onward.whole⟩

/-- What a chain goes to, it goes to from somewhere. -/
theorem exists_before {chain : List α} (linked : chain.IsChain R) (d : α) (member : d ∈ chain.tail) :
    ∃ u, R u d := by
  induction linked with
  | nil => cases member
  | singleton a => cases member
  | @cons_cons a b rest step _ ih =>
    rcases List.mem_cons.mp member with rfl | later
    · exact ⟨a, step⟩
    · exact ih later

/-- From all but its last element a chain goes on. -/
theorem exists_after {chain : List α} (linked : chain.IsChain R) (u : α) (member : u ∈ chain.dropLast) :
    ∃ d, R u d := by
  induction linked with
  | nil => cases member
  | singleton a => cases member
  | @cons_cons a b rest step _ ih =>
    rw [List.dropLast_cons_cons] at member
    rcases List.mem_cons.mp member with rfl | later
    · exact ⟨b, step⟩
    · exact ih later

end Qira.Library.Chains
