import Mathlib

/-!
Tries with a value at every node. Inserting a key makes the nodes on the way to it, and changes the
value of the key's own node only.
-/

namespace Qira.Library.Tries

inductive Trie (α β : Type*)
  | node (value : β) (children : List (α × Trie α β))

variable {α β : Type*} [DecidableEq α]

def setChild (a : α) (t : Trie α β) : List (α × Trie α β) → List (α × Trie α β)
  | [] => [(a, t)]
  | (b, u) :: rest => if b = a then (a, t) :: rest else (b, u) :: setChild a t rest

theorem lookup_cons_ite (a b : α) (t : Trie α β) (rest : List (α × Trie α β)) :
    ((a, t) :: rest).lookup b = if b = a then some t else rest.lookup b := by
  rw [List.lookup_cons]
  by_cases same : b = a
  · rw [if_pos same, beq_iff_eq.mpr same]
  · rw [if_neg same, beq_eq_false_iff_ne.mpr same]

theorem lookup_setChild (a b : α) (t : Trie α β) (children : List (α × Trie α β)) :
    (setChild a t children).lookup b = if b = a then some t else children.lookup b := by
  induction children with
  | nil => rw [setChild, lookup_cons_ite]
  | cons child rest ih =>
    obtain ⟨c, u⟩ := child
    rw [setChild]
    by_cases here : c = a
    · rw [if_pos here, lookup_cons_ite, lookup_cons_ite, here]
      split_ifs <;> rfl
    · rw [if_neg here, lookup_cons_ite, lookup_cons_ite, ih]
      by_cases there : b = c
      · rw [if_pos there, if_pos there, if_neg (fun same => here (there ▸ same))]
      · rw [if_neg there, if_neg there]

/-- Nodes that are missing on the way to the key get the value `zero`. -/
def Trie.insert (zero : β) : Trie α β → List α → β → Trie α β
  | .node _ children, [], v => .node v children
  | .node w children, a :: rest, v =>
      .node w (setChild a (((children.lookup a).getD (.node zero [])).insert zero rest v) children)

/-- The value of the node that a path leads to, if there is one. -/
def Trie.valueAt : Trie α β → List α → Option β
  | .node v _, [] => some v
  | .node _ children, a :: rest => (children.lookup a).bind (fun child => child.valueAt rest)

theorem Trie.valueAt_node_nil (zero : β) (path : List α) :
    (Trie.node zero []).valueAt path = if path = [] then some zero else none := by
  cases path with
  | nil => rfl
  | cons a rest => rfl

theorem Trie.valueAt_insert (zero v : β) (t : Trie α β) (key path : List α) :
    (t.insert zero key v).valueAt path =
      if path = key then some v
      else if path <+: key then some ((t.valueAt path).getD zero)
      else t.valueAt path := by
  induction key generalizing t path with
  | nil =>
    obtain ⟨w, children⟩ := t
    cases path with
    | nil => rfl
    | cons b more => simp [Trie.insert, Trie.valueAt]
  | cons a rest ih =>
    obtain ⟨w, children⟩ := t
    cases path with
    | nil => simp [Trie.insert, Trie.valueAt]
    | cons b more =>
      rw [Trie.insert, Trie.valueAt, Trie.valueAt, lookup_setChild]
      by_cases same : b = a
      · subst same
        rw [if_pos rfl, Option.bind_some, ih]
        have below : ((children.lookup b).getD (.node zero [])).valueAt more =
            if more = [] then some (((children.lookup b).bind (fun child => child.valueAt more)).getD zero)
            else (children.lookup b).bind (fun child => child.valueAt more) := by
          cases children.lookup b with
          | none => simp [Trie.valueAt_node_nil]
          | some child =>
            cases more with
            | nil => cases child; rfl
            | cons c more => rfl
        simp only [List.cons.injEq, true_and, List.cons_prefix_cons, below]
        by_cases empty : more = []
        · subst empty
          simp
        · simp [empty]
      · simp [same]

/-! Searching for the longest match, and what a sequence of insertions leaves at each node. -/

/-- The value of the last node on the way along a path. -/
def Trie.search : Trie α β → List α → β
  | .node v _, [] => v
  | .node v children, a :: rest =>
      match children.lookup a with
      | some child => child.search rest
      | none => v

/-- The longest beginning of a string that is present. -/
structure Longest (present : List α → Prop) (s q : List α) : Prop where
  begins : q <+: s
  holds : present q
  longest : ∀ q', q' <+: s → present q' → q'.length ≤ q.length

omit [DecidableEq α] in
theorem Longest.unique {present : List α → Prop} {s q q' : List α} (first : Longest present s q)
    (second : Longest present s q') : q = q' := by
  have lengths := Nat.le_antisymm (second.longest q first.begins first.holds)
    (first.longest q' second.begins second.holds)
  exact (List.prefix_of_prefix_length_le first.begins second.begins lengths.le).eq_of_length lengths

omit [DecidableEq α] in
theorem Longest.congr {present present' : List α → Prop} {s q : List α} (same : ∀ p, present p ↔ present' p) :
    Longest present s q ↔ Longest present' s q := by
  rw [show present = present' from funext fun p => propext (same p)]

/-- A search finds the value of the longest path that there is a node for. -/
theorem Trie.search_longest (t : Trie α β) (s : List α) :
    ∃ q, Longest (fun q => (t.valueAt q).isSome) s q ∧ t.valueAt q = some (t.search s) := by
  induction s generalizing t with
  | nil =>
    obtain ⟨v, children⟩ := t
    refine ⟨[], ⟨List.prefix_rfl, rfl, fun q' begins _ => ?_⟩, rfl⟩
    rw [List.prefix_nil.mp begins]
  | cons a rest ih =>
    obtain ⟨v, children⟩ := t
    cases there : children.lookup a with
    | none =>
      refine ⟨[], ⟨List.nil_prefix, rfl, fun q' begins present => ?_⟩, by rw [Trie.search, there]; rfl⟩
      rcases List.prefix_cons_iff.mp begins with rfl | ⟨more, rfl, -⟩
      · exact le_rfl
      · rw [Trie.valueAt, there] at present
        cases present
    | some child =>
      obtain ⟨q, longest, held⟩ := ih child
      have below : ∀ p, (Trie.node v children).valueAt (a :: p) = child.valueAt p := by
        intro p
        rw [Trie.valueAt, there, Option.bind_some]
      refine ⟨a :: q, ⟨?_, ?_, fun q' begins present => ?_⟩, ?_⟩
      · exact List.cons_prefix_cons.mpr ⟨rfl, longest.begins⟩
      · exact (below q).symm ▸ longest.holds
      · rcases List.prefix_cons_iff.mp begins with rfl | ⟨more, rfl, inRest⟩
        · exact Nat.zero_le _
        · rw [below] at present
          exact Nat.succ_le_succ (longest.longest more inRest present)
      · rw [below, held, Trie.search, there]

/-- The last value given to a key. -/
def lastValue (entries : List (List α × β)) (key : List α) : Option β := entries.reverse.lookup key

theorem lastValue_concat (entries : List (List α × β)) (e : List α × β) (key : List α) :
    lastValue (entries ++ [e]) key = if key = e.1 then some e.2 else lastValue entries key := by
  rw [lastValue, List.reverse_append, List.reverse_singleton, List.singleton_append, List.lookup_cons]
  by_cases same : key = e.1
  · rw [if_pos same, beq_iff_eq.mpr same]
  · rw [if_neg same, beq_eq_false_iff_ne.mpr same, lastValue]

theorem lastValue_isSome (entries : List (List α × β)) (key : List α) :
    (lastValue entries key).isSome ↔ ∃ e ∈ entries, e.1 = key := by
  induction entries using List.reverseRecOn with
  | nil => simp [lastValue]
  | append_singleton front e ih =>
    rw [lastValue_concat]
    by_cases same : key = e.1
    · rw [if_pos same]
      exact iff_of_true rfl ⟨e, by simp, same.symm⟩
    · rw [if_neg same, ih]
      simp [eq_comm, same]

/-- The first entry whose key goes through a path. -/
def firstThrough (entries : List (List α × β)) (path : List α) : Option (List α × β) :=
  entries.find? (fun e => path <+: e.1)

theorem firstThrough_concat (entries : List (List α × β)) (e : List α × β) (path : List α) :
    firstThrough (entries ++ [e]) path =
      (firstThrough entries path).or (if path <+: e.1 then some e else none) := by
  rw [firstThrough, List.find?_append, ← firstThrough]
  congr 1
  by_cases through : path <+: e.1
  · rw [if_pos through, List.find?_cons_of_pos (by simpa using through)]
  · rw [if_neg through, List.find?_cons_of_neg (by simpa using through)]
    rfl

theorem firstThrough_isSome (entries : List (List α × β)) (path : List α) :
    (firstThrough entries path).isSome ↔ ∃ e ∈ entries, path <+: e.1 := by
  rw [firstThrough, List.find?_isSome]
  simp only [decide_eq_true_eq]

/-- After a sequence of insertions, a node has the last value given to its key, or else the value it was made
with: at the root, or when a longer key went through for the first time. -/
theorem valueAt_foldl_insert (fill : List α × β → β) (entries : List (List α × β)) (root : Trie α β)
    (path : List α) :
    (entries.foldl (fun t e => t.insert (fill e) e.1 e.2) root).valueAt path =
      (lastValue entries path).or ((root.valueAt path).or ((firstThrough entries path).map fill)) := by
  induction entries using List.reverseRecOn with
  | nil => exact (Option.or_none ..).symm
  | append_singleton front e ih =>
    rw [List.foldl_append, List.foldl_cons, List.foldl_nil, Trie.valueAt_insert, ih, lastValue_concat,
      firstThrough_concat]
    by_cases own : path = e.1
    · rw [if_pos own, if_pos own, Option.some_or]
    · rw [if_neg own, if_neg own]
      by_cases through : path <+: e.1
      · rw [if_pos through, if_pos through]
        cases lastValue front path <;> cases root.valueAt path <;> cases firstThrough front path <;> rfl
      · rw [if_neg through, if_neg through, Option.or_none]

/-- Below a root of its own, insertions make the nodes on the way to what is inserted. -/
theorem valueAt_foldl_insert_isSome (fill : List α × β → β) (entries : List (List α × β)) (v : β) (path : List α) :
    ((entries.foldl (fun t e => t.insert (fill e) e.1 e.2) (Trie.node v [])).valueAt path).isSome ↔
      path = [] ∨ ∃ e ∈ entries, path <+: e.1 := by
  rw [valueAt_foldl_insert, Trie.valueAt_node_nil, Option.isSome_or, Option.isSome_or, Bool.or_eq_true,
    Bool.or_eq_true, lastValue_isSome, Option.isSome_map, firstThrough_isSome]
  constructor
  · rintro (⟨e, inside, rfl⟩ | root | through)
    · exact .inr ⟨e, inside, List.prefix_rfl⟩
    · by_contra other
      rw [if_neg fun empty => other (.inl empty)] at root
      cases root
    · exact .inr through
  · rintro (rfl | through)
    · exact .inr (.inl rfl)
    · exact .inr (.inr through)

end Qira.Library.Tries
