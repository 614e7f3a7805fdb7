import Qira.Library.Tries

/-!
The trie of `trie.ml`. The nodes made on the way to a longer key get its value, and keep it until they are
added themselves.
-/

namespace Qira.TrainerTrie
open Library.Tries

section Operations
variable {κ α : Type} [DecidableEq κ]

def init (v : α) : Trie κ α := .node v []

def add : Trie κ α → List κ → α → Trie κ α
  | trie, [], _ => trie
  | .node w m, [hd], v =>
      match m.lookup hd with
      | some (.node _ sub) => .node w (setChild hd (.node v sub) m)
      | none => .node w (setChild hd (init v) m)
  | .node w m, hd :: tl, v => .node w (setChild hd (add ((m.lookup hd).getD (init v)) tl v) m)

def recFind : Trie κ α → List κ → α → α
  | _, [], t_v => t_v
  | .node _ m, hd :: tl, t_v =>
      match m.lookup hd with
      | some (.node v sub) => recFind (.node v sub) tl v
      | none => t_v

/-- The longest match. -/
def find : Trie κ α → List κ → α
  | .node v m, k => recFind (.node v m) k v

/-- `init d`, and then a sequence of calls of `add`. -/
def addAll (d : α) (adds : List (List κ × α)) : Trie κ α := adds.foldl (fun trie e => add trie e.1 e.2) (init d)

def Added (adds : List (List κ × α)) (key : List κ) : Prop := ∃ e ∈ adds, e.1 = key

/-- What is last added for the longest added key that `k` begins with, or `d` if there is none. -/
structure LongestMatch (d : α) (adds : List (List κ × α)) (k : List κ) (v : α) : Prop where
  longest : ∀ key, Longest (Added adds) k key → lastValue adds key = some v
  none : (∀ key, Added adds key → ¬ key <+: k) → v = d

/-- Something was added under the path, or it is empty. -/
def OnTheWay (adds : List (List κ × α)) (path : List κ) : Prop := path = [] ∨ ∃ e ∈ adds, path <+: e.1

/-- As far as `k` leads on the way to any added key, it leads to an added key, or nowhere, or the first key that
was added through there came with the very value of the longest match. -/
def EndsWell (d : α) (adds : List (List κ × α)) (k : List κ) : Prop :=
  ∀ path, Longest (OnTheWay adds) k path →
    path = [] ∨ Added adds path ∨ ∃ e, firstThrough adds path = some e ∧ LongestMatch d adds k e.2

theorem add_eq_insert (trie : Trie κ α) (key : List κ) (v : α) (nonempty : key ≠ []) :
    add trie key v = trie.insert v key v := by
  induction key generalizing trie with
  | nil => exact absurd rfl nonempty
  | cons hd tl ih =>
    obtain ⟨w, m⟩ := trie
    cases tl with
    | nil =>
      rw [add, Trie.insert]
      cases there : m.lookup hd with
      | none => rfl
      | some child => cases child; rfl
    | cons next more =>
      rw [add, Trie.insert, ih _ (List.cons_ne_nil next more)]
      · rfl
      · exact List.cons_ne_nil next more

theorem recFind_eq_search (w : α) (m : List (κ × Trie κ α)) (k : List κ) :
    recFind (.node w m) k w = (Trie.node w m).search k := by
  induction k generalizing w m with
  | nil => rfl
  | cons hd tl ih =>
    rw [recFind, Trie.search]
    cases m.lookup hd with
    | none => rfl
    | some child =>
      obtain ⟨v, sub⟩ := child
      exact ih v sub

theorem find_eq_search (trie : Trie κ α) (k : List κ) : find trie k = trie.search k := by
  obtain ⟨w, m⟩ := trie
  exact recFind_eq_search w m k

theorem addAll_eq_inserts (d : α) (adds : List (List κ × α)) (nonempty : ∀ e ∈ adds, e.1 ≠ []) :
    addAll d adds = adds.foldl (fun t e => t.insert e.2 e.1 e.2) (init d) :=
  List.foldl_ext _ _ _ fun t e inside => add_eq_insert t e.1 e.2 (nonempty e inside)

theorem valueAt_addAll (d : α) (adds : List (List κ × α)) (nonempty : ∀ e ∈ adds, e.1 ≠ []) (path : List κ) :
    (addAll d adds).valueAt path = (lastValue adds path).or
      ((if path = [] then some d else none).or ((firstThrough adds path).map Prod.snd)) := by
  rw [addAll_eq_inserts d adds nonempty, valueAt_foldl_insert Prod.snd, init, Trie.valueAt_node_nil]

theorem added_iff (adds : List (List κ × α)) (key : List κ) : Added adds key ↔ (lastValue adds key).isSome :=
  (lastValue_isSome adds key).symm

section Searches
variable {d : α} {adds : List (List κ × α)} {k q : List κ}

theorem valueAt_isSome_iff (nonempty : ∀ e ∈ adds, e.1 ≠ []) (path : List κ) :
    ((addAll d adds).valueAt path).isSome ↔ OnTheWay adds path := by
  rw [addAll_eq_inserts d adds nonempty]
  exact valueAt_foldl_insert_isSome Prod.snd adds d path

/-- The path on which a search ends. -/
theorem exists_path (d : α) (nonempty : ∀ e ∈ adds, e.1 ≠ []) (k : List κ) :
    ∃ q, Longest (OnTheWay adds) k q ∧ (addAll d adds).valueAt q = some (find (addAll d adds) k) := by
  obtain ⟨q, deepest, held⟩ := (addAll d adds).search_longest k
  rw [Longest.congr (valueAt_isSome_iff nonempty)] at deepest
  exact ⟨q, deepest, held.trans (congrArg some (find_eq_search _ k).symm)⟩

/-- An added key at the end of the way is the longest match. -/
theorem longestMatch_of_added (deepest : Longest (OnTheWay adds) k q) (own : Added adds q) {v : α}
    (last : lastValue adds q = some v) : LongestMatch d adds k v := by
  have onTheWay : ∀ key, Added adds key → OnTheWay adds key := by
    rintro key ⟨e, inside, rfl⟩
    exact .inr ⟨e, inside, List.prefix_rfl⟩
  have most : Longest (Added adds) k q :=
    ⟨deepest.begins, own, fun key begins added => deepest.longest key begins (onTheWay key added)⟩
  exact ⟨fun key longest => most.unique longest ▸ last, fun none => absurd deepest.begins (none q own)⟩

/-- Where the way ends at once, nothing matches. -/
theorem longestMatch_of_empty (nonempty : ∀ e ∈ adds, e.1 ≠ []) (deepest : Longest (OnTheWay adds) k []) :
    LongestMatch d adds k d := by
  refine ⟨fun key longest => ?_, fun _ => rfl⟩
  obtain ⟨e, inside, rfl⟩ := longest.holds
  have short := deepest.longest e.1 longest.begins (.inr ⟨e, inside, List.prefix_rfl⟩)
  exact absurd (List.length_eq_zero_iff.mp (Nat.le_zero.mp short)) (nonempty e inside)

end Searches

/-- After any sequence of calls of `add`, `find` returns the longest match for a key exactly if its way through
the trie ends well. -/
theorem find_longestMatch_iff (d : α) (adds : List (List κ × α)) (nonempty : ∀ e ∈ adds, e.1 ≠ []) (k : List κ) :
    LongestMatch d adds k (find (addAll d adds) k) ↔ EndsWell d adds k := by
  obtain ⟨q, deepest, held⟩ := exists_path d nonempty k
  have only : ∀ P : List κ → Prop, (∀ path, Longest (OnTheWay adds) k path → P path) ↔ P q := fun P =>
    ⟨fun each => each q deepest, fun holds path other => deepest.unique other ▸ holds⟩
  rw [EndsWell, only]
  rw [valueAt_addAll d adds nonempty] at held
  by_cases own : Added adds q
  · obtain ⟨v, last⟩ := Option.isSome_iff_exists.mp ((added_iff adds q).mp own)
    rw [last, Option.some_or] at held
    obtain rfl := Option.some.inj held
    exact iff_of_true (longestMatch_of_added deepest own last) (.inr (.inl own))
  have missing : lastValue adds q = none := by
    rw [← Option.not_isSome_iff_eq_none, ← added_iff]
    exact own
  rw [missing, Option.none_or] at held
  by_cases empty : q = []
  · subst empty
    rw [if_pos rfl, Option.some_or] at held
    rw [← Option.some.inj held]
    exact iff_of_true (longestMatch_of_empty nonempty deepest) (.inl rfl)
  · rw [if_neg empty, Option.none_or] at held
    obtain ⟨e, first, same⟩ := Option.map_eq_some_iff.mp held
    rw [← same, or_iff_right empty, or_iff_right own]
    constructor
    · exact fun right => ⟨e, first, right⟩
    · rintro ⟨e', first', right⟩
      rw [first] at first'
      exact Option.some.inj first' ▸ right

end Operations

/-- One key of two letters. -/
def onlyLong : List (List Char × Nat) := [(['a', 'b'], 7)]

theorem find_longestMatch_iff_onlyLong :
    LongestMatch 0 onlyLong ['a', 'b'] (find (addAll 0 onlyLong) ['a', 'b']) ↔ EndsWell 0 onlyLong ['a', 'b'] :=
  find_longestMatch_iff 0 onlyLong (by decide) ['a', 'b']

/-- Its first letter was not added, and is found with its value. -/
theorem onlyLong_mismatched : find (addAll 0 onlyLong) ['a'] = 7 ∧ ¬ LongestMatch 0 onlyLong ['a'] 7 := by
  refine ⟨rfl, fun matched => ?_⟩
  have zero : 7 = 0 := by
    apply matched.none
    rintro key ⟨e, inside, rfl⟩
    obtain rfl := List.mem_singleton.mp inside
    decide
  cases zero

end Qira.TrainerTrie
