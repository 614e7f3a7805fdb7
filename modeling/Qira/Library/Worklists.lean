import Mathlib

/-!
Graph search with a queue of pending nodes and a set of nodes that have been put on it. The nodes
taken off the queue are the ones that can be reached, and the search ends where the graph is finite.
-/

namespace Qira.Library.Worklists
open Relation

section Search
variable {α : Type*} [DecidableEq α]

/-- What a node leads to is put on the queue, unless it has been put there before. -/
def enqueue (pending done : List α) : List α → List α × List α
  | [] => (pending, done)
  | d :: rest =>
      if d ∈ done then enqueue pending done rest else enqueue (pending ++ [d]) (d :: done) rest

/-- The nodes in the order in which they are taken off; `none` is running out of fuel. -/
def visits (next : α → List α) : Nat → List α → List α → Option (List α)
  | 0, _, _ => none
  | _ + 1, [], _ => some []
  | fuel + 1, a :: pending, done =>
      let queued := enqueue pending done (next a)
      (visits next fuel queued.1 queued.2).map (fun rest => a :: rest)

/-- There is a way from one node to the other. -/
def Leads (next : α → List α) : α → α → Prop := ReflTransGen (fun a d => d ∈ next a)

variable {next : α → List α} {fuel : Nat} {pending done nodes visited : List α}

theorem mem_enqueue_done (x : α) :
    x ∈ (enqueue pending done nodes).2 ↔ x ∈ done ∨ x ∈ nodes := by
  induction nodes generalizing pending done with
  | nil => simp [enqueue]
  | cons d rest ih =>
    rw [enqueue, List.mem_cons]
    split_ifs with known
    · rw [ih, or_left_comm, or_iff_right_of_imp (fun same => Or.inl (same ▸ known))]
    · rw [ih, List.mem_cons, or_assoc, or_left_comm]

theorem mem_enqueue_pending (x : α) :
    x ∈ (enqueue pending done nodes).1 ↔ x ∈ pending ∨ (x ∈ nodes ∧ x ∉ done) := by
  induction nodes generalizing pending done with
  | nil => simp [enqueue]
  | cons d rest ih =>
    rw [enqueue, List.mem_cons]
    split_ifs with known
    · rw [ih]
      have other : x ∉ done → x ≠ d := fun new same => new (same ▸ known)
      tauto
    · rw [ih, List.mem_append, List.mem_singleton, List.mem_cons, not_or]
      by_cases same : x = d
      · simp [same, known]
      · simp [same]

/-- What is put on the queue is taken from the nodes of a finite graph that were never on it. -/
theorem enqueue_length (whole : Finset α) (inside : ∀ d ∈ nodes, d ∈ whole) :
    (whole \ (enqueue pending done nodes).2.toFinset).card + (enqueue pending done nodes).1.length =
      (whole \ done.toFinset).card + pending.length := by
  induction nodes generalizing pending done with
  | nil => rfl
  | cons d rest ih =>
    have restInside := fun d' member => inside d' (List.mem_cons_of_mem d member)
    rw [enqueue]
    split_ifs with known
    · exact ih restInside
    · rw [ih restInside, List.length_append, List.length_singleton, List.toFinset_cons,
        Finset.sdiff_insert]
      have fresh : d ∈ whole \ done.toFinset :=
        Finset.mem_sdiff.mpr ⟨inside d List.mem_cons_self, by simpa using known⟩
      have positive := Finset.card_pos.mpr ⟨d, fresh⟩
      rw [Finset.card_erase_of_mem fresh]
      omega

/-- Every node visited can be reached from a pending one. -/
theorem visits_sound (ran : visits next fuel pending done = some visited) (x : α) (member : x ∈ visited) :
    ∃ a ∈ pending, Leads next a x := by
  induction fuel generalizing pending done visited with
  | zero => cases ran
  | succ fuel ih =>
    cases pending with
    | nil =>
      rw [visits, Option.some.injEq] at ran
      rw [← ran] at member
      cases member
    | cons a pending =>
      obtain ⟨rest, later, rfl⟩ := Option.map_eq_some_iff.mp ran
      rcases List.mem_cons.mp member with rfl | inRest
      · exact ⟨x, List.mem_cons_self, ReflTransGen.refl⟩
      · obtain ⟨b, queued, leads⟩ := ih later inRest
        rcases (mem_enqueue_pending b).mp queued with waiting | ⟨step, -⟩
        · exact ⟨b, List.mem_cons_of_mem a waiting, leads⟩
        · exact ⟨a, List.mem_cons_self, ReflTransGen.head step leads⟩

/-- Every pending node is visited, and what a visited node leads to is visited or was done before. -/
theorem visits_closed (ran : visits next fuel pending done = some visited) :
    (∀ a ∈ pending, a ∈ visited) ∧ ∀ u ∈ visited, ∀ d ∈ next u, d ∈ visited ∨ d ∈ done := by
  induction fuel generalizing pending done visited with
  | zero => cases ran
  | succ fuel ih =>
    cases pending with
    | nil =>
      rw [visits, Option.some.injEq] at ran
      subst ran
      exact ⟨nofun, nofun⟩
    | cons a pending =>
      obtain ⟨rest, later, rfl⟩ := Option.map_eq_some_iff.mp ran
      obtain ⟨waiting, closed⟩ := ih later
      have ofA : ∀ d ∈ next a, d ∈ a :: rest ∨ d ∈ done := by
        intro d step
        by_cases known : d ∈ done
        · exact Or.inr known
        · exact Or.inl (List.mem_cons_of_mem a
            (waiting d ((mem_enqueue_pending d).mpr (Or.inr ⟨step, known⟩))))
      constructor
      · intro b member
        rcases List.mem_cons.mp member with rfl | inPending
        · exact List.mem_cons_self
        · exact List.mem_cons_of_mem a
            (waiting b ((mem_enqueue_pending b).mpr (Or.inl inPending)))
      · intro u member d step
        rcases List.mem_cons.mp member with rfl | inRest
        · exact ofA d step
        · rcases closed u inRest d step with there | known
          · exact Or.inl (List.mem_cons_of_mem a there)
          · rcases (mem_enqueue_done d).mp known with before | new
            · exact Or.inr before
            · exact ofA d new

/-- A search from one node visits exactly the nodes it leads to. -/
theorem mem_visits_iff {a : α} (ran : visits next fuel [a] [] = some visited) (x : α) :
    x ∈ visited ↔ Leads next a x := by
  constructor
  · intro member
    obtain ⟨b, only, leads⟩ := visits_sound ran x member
    rwa [List.mem_singleton.mp only] at leads
  · intro leads
    obtain ⟨first, closed⟩ := visits_closed ran
    induction leads with
    | refl => exact first a List.mem_cons_self
    | tail _ step ih => exact (closed _ ih _ step).resolve_right nofun

/-- In a finite graph, fuel for each node that is not done and each that is pending is enough. -/
theorem visits_returns (whole : Finset α) (inside : ∀ a, ∀ d ∈ next a, d ∈ whole)
    (enough : (whole \ done.toFinset).card + pending.length < fuel) :
    (visits next fuel pending done).isSome := by
  induction fuel generalizing pending done with
  | zero => exact absurd enough (Nat.not_lt_zero _)
  | succ fuel ih =>
    cases pending with
    | nil => rfl
    | cons a pending =>
      rw [visits, Option.isSome_map]
      apply ih
      rw [enqueue_length whole (inside a)]
      simp only [List.length_cons] at enough
      omega

end Search

end Qira.Library.Worklists
