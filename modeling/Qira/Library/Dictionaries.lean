import Mathlib

/-!
Dictionaries as association lists without repeated keys. Walking a dictionary with a step that
touches one key at a time has, at each key, the effect of that key's own entry, whatever the order of
the walk.
-/

namespace Qira.Library.Dictionaries

abbrev Dict (κ α : Type*) := AList (fun _ : κ => α)

section Walks
variable {κ α δ γ : Type*} [DecidableEq κ]

theorem entries_walk (entries : List (Sigma fun _ : κ => α)) (nodup : entries.NodupKeys)
    (step : δ → κ → α → δ) (view : δ → κ → γ) (put : γ → α → γ)
    (each : ∀ d a b k, view (step d a b) k = if k = a then put (view d k) b else view d k)
    (d : δ) (k : κ) :
    view (entries.foldl (fun d entry => step d entry.1 entry.2) d) k =
      (entries.dlookup k).elim (view d k) (put (view d k)) := by
  induction entries generalizing d with
  | nil => rfl
  | cons entry rest ih =>
    obtain ⟨a, b⟩ := entry
    have restNodup := (List.nodupKeys_cons.mp nodup).2
    have absent := (List.nodupKeys_cons.mp nodup).1
    rw [List.foldl_cons, ih restNodup, each]
    by_cases same : k = a
    · subst same
      have gone : rest.dlookup k = none := List.dlookup_eq_none.mpr absent
      rw [gone, List.dlookup_cons_eq, if_pos rfl]
      rfl
    · rw [if_neg same, List.dlookup_cons_ne _ _ same]

/-- A walk over a dictionary, seen at one key. -/
theorem foldl_walk (m : Dict κ α) (step : δ → κ → α → δ) (view : δ → κ → γ) (put : γ → α → γ)
    (each : ∀ d a b k, view (step d a b) k = if k = a then put (view d k) b else view d k)
    (d : δ) (k : κ) :
    view (m.foldl step d) k = (m.lookup k).elim (view d k) (put (view d k)) :=
  entries_walk m.entries m.nodupKeys step view put each d k

end Walks

/-- `dict(pairs)`: later pairs replace earlier ones. -/
def ofPairs {κ α : Type*} [DecidableEq κ] (pairs : List (κ × α)) : Dict κ α :=
  pairs.foldl (fun d pair => d.insert pair.1 pair.2) ∅

theorem lookup_foldl_insert {κ α : Type*} [DecidableEq κ] (pairs : List (κ × α)) (d : Dict κ α) (k : κ) (v : α)
    (nodup : (pairs.map Prod.fst).Nodup) (found : (k, v) ∈ pairs ∨ (k ∉ pairs.map Prod.fst ∧ d.lookup k = some v)) :
    (pairs.foldl (fun d pair => d.insert pair.1 pair.2) d).lookup k = some v := by
  induction pairs generalizing d with
  | nil => exact (found.resolve_left List.not_mem_nil).2
  | cons pair rest ih =>
    obtain ⟨fresh, restNodup⟩ := List.nodup_cons.mp nodup
    apply ih (d.insert pair.1 pair.2) restNodup
    rcases found with inside | ⟨outside, old⟩
    · rcases List.mem_cons.mp inside with rfl | inRest
      · exact .inr ⟨fresh, AList.lookup_insert d⟩
      · exact .inl inRest
    · have different : k ≠ pair.1 := fun same => outside (same ▸ List.mem_cons_self)
      refine .inr ⟨fun inRest => outside (List.mem_cons_of_mem _ inRest), ?_⟩
      rw [AList.lookup_insert_ne different, old]

/-- With distinct keys each pair is found. -/
theorem lookup_ofPairs {κ α : Type*} [DecidableEq κ] (pairs : List (κ × α)) (k : κ) (v : α)
    (nodup : (pairs.map Prod.fst).Nodup) (inside : (k, v) ∈ pairs) : (ofPairs pairs).lookup k = some v :=
  lookup_foldl_insert pairs ∅ k v nodup (.inl inside)

/-- The order in which dictionaries are walked. -/
structure Order where
  walk : ∀ {α : Type}, List α → List α
  perm : ∀ {α : Type} (items : List α), (walk items).Perm items

theorem mem_walk {κ α : Type} [DecidableEq κ] (order : Order) (d : Dict κ α) (k : κ) (v : α) :
    ⟨k, v⟩ ∈ order.walk d.entries ↔ d.lookup k = some v := by
  rw [(order.perm d.entries).mem_iff]
  exact AList.mem_lookup_iff.symm

/-- Where at most one item has a property, a search for it finds the same in every order. -/
theorem find?_perm {ι : Type*} (p : ι → Bool) (first second : List ι) (same : first.Perm second)
    (one : first.Pairwise (fun a b => ¬ (p a = true ∧ p b = true))) :
    first.find? p = second.find? p := by
  induction same with
  | nil => rfl
  | cons a rest ih =>
    rw [List.find?_cons, List.find?_cons, ih (List.pairwise_cons.mp one).2]
  | swap a b rest =>
    have apart := (List.pairwise_cons.mp one).1 a List.mem_cons_self
    rw [List.find?_cons, List.find?_cons, List.find?_cons, List.find?_cons]
    cases first : p a <;> cases second : p b <;> simp_all
  | trans first second ih ih' =>
    rw [ih one, ih' (first.pairwise one (fun apart both => apart both.symm))]

end Qira.Library.Dictionaries
