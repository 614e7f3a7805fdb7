import Qira.Byteweight

/-!
What `load` makes of any file. Its inner loop joins lines until an arrow shows up, also when there are no
lines any more.
-/

namespace Qira.SignatureLoading
open Byteweight Library.Words Library.ByteStrings Library.Doubles Library.Tries

/-- The records of a file, each up to the end of the line with its arrow, and what follows the last one. -/
def takeApart (file : List Byte) : List (List Byte) × List Byte :=
  match _found : cut ARROW file with
  | none => ([], file)
  | some (before, after) =>
      let rest := takeApart (readline after).2
      ((before ++ ARROW ++ (readline after).1) :: rest.1, rest.2)
termination_by file.length
decreasing_by
  have shorter := cut_shorter (by decide) _found
  have whole := congrArg List.length (readline_whole after)
  rw [List.length_append] at whole
  omega

def records (file : List Byte) : List (List Byte) := (takeApart file).1

def leftOver (file : List Byte) : List Byte := (takeApart file).2

/-- The trie after some records, or the error of the first that cannot be parsed. -/
def readAll (round : Rounding) : List (List Byte) → Node → Except Error Node
  | [], root => .ok root
  | line :: rest, root =>
      match parse round line with
      | .error e => .error e
      | .ok (sig, score) => readAll round rest (root.insert (.finite 0) sig score)

/-- What `load` ends with; `none` is no end. -/
def outcome (round : Rounding) (file : List Byte) (root : Node) : Option (Except Error Node) :=
  match readAll round (records file) root with
  | .error e => some (.error e)
  | .ok trie => if leftOver file = [] then some (.ok trie) else none

section Ends
variable {round : Rounding} {file before after : List Byte} {root : Node}

theorem takeApart_of_none (absent : cut ARROW file = none) : takeApart file = ([], file) := by
  rw [takeApart]
  split
  next => rfl
  next _ _ found => rw [absent] at found; cases found

theorem takeApart_of_some (found : cut ARROW file = some (before, after)) :
    takeApart file = ((before ++ ARROW ++ (readline after).1) :: records (readline after).2,
      leftOver (readline after).2) := by
  rw [takeApart]
  split
  next absent => rw [found] at absent; cases absent
  next _ _ found' =>
    obtain ⟨rfl, rfl⟩ := Prod.mk.inj (Option.some.inj (found.symm.trans found'))
    rfl

/-- With no arrow left in the file, lines are joined forever. -/
theorem joinLines_none (fuel : Nat) (line file : List Byte) (absent : ¬ ARROW <:+: line ++ file) :
    joinLines fuel line file = none := by
  induction fuel generalizing line file with
  | zero => rfl
  | succ fuel ih =>
    have early : cut ARROW line = none :=
      (cut_eq_none_iff ARROW line).mpr fun occurs => absent (occurs.trans (List.prefix_append line file).isInfix)
    rw [joinLines, early, if_neg (by decide)]
    apply ih
    rwa [List.append_assoc, readline_whole]

theorem joinLines_mono {fuel : Nat} {line file : List Byte} {read : List Byte × List Byte}
    (joined : joinLines fuel line file = some read) : joinLines (fuel + 1) line file = some read := by
  induction fuel generalizing line file with
  | zero => cases joined
  | succ fuel ih =>
    rw [joinLines] at joined ⊢
    split_ifs at joined ⊢
    · exact joined
    · exact ih joined

theorem loadFrom_mono {fuel : Nat} {result : Except Error Node} (loaded : loadFrom round fuel file root = some result) :
    loadFrom round (fuel + 1) file root = some result := by
  induction fuel generalizing file root with
  | zero => cases loaded
  | succ fuel ih =>
    rw [loadFrom] at loaded ⊢
    split_ifs at loaded ⊢
    · exact loaded
    · split at loaded
      next => cases loaded
      next line rest joined =>
        simp only [joinLines_mono joined]
        split at loaded
        next e parsed => exact loaded
        next sig score parsed => exact ih loaded

theorem loadFrom_le {fuel more : Nat} {result : Except Error Node} (enough : fuel ≤ more)
    (loaded : loadFrom round fuel file root = some result) : loadFrom round more file root = some result := by
  induction more, enough using Nat.le_induction with
  | base => exact loaded
  | succ more _ ih => exact loadFrom_mono ih

/-- One pass of the outer loop, over a record. -/
theorem loadFrom_record (found : cut ARROW file = some (before, after)) (fuel : Nat)
    (enough : before.length + 2 ≤ fuel) :
    loadFrom round (fuel + 1) file root =
      match parse round (before ++ ARROW ++ (readline after).1) with
      | .error e => some (.error e)
      | .ok (sig, score) => loadFrom round fuel (readline after).2 (root.insert (.finite 0) sig score) := by
  obtain ⟨rfl, apart⟩ := cut_eq_some found
  have unread : (readline (before ++ ARROW ++ after)).1 ≠ [] := by
    rw [Ne, readline_eq_nil_iff]
    simp [ARROW]
  have joined := joinLines_append before [] before after rfl (apart (by decide)) (fuel + 1) (by omega)
  rw [← joinLines_readline] at joined
  cases parsed : parse round (before ++ ARROW ++ (readline after).1) with
  | error e => simp only [loadFrom, if_neg unread, joined, parsed]
  | ok found => simp only [loadFrom, if_neg unread, joined, parsed]

/-- Behind the last record there is no end, unless the file is empty. -/
theorem loadFrom_leftOver (found : cut ARROW file = none) (nonempty : file ≠ []) (fuel : Nat) :
    loadFrom round fuel file root = none := by
  have absent := (cut_eq_none_iff ARROW file).mp found
  cases fuel with
  | zero => rfl
  | succ fuel =>
    rw [loadFrom, if_neg (mt (readline_eq_nil_iff file).mp nonempty), joinLines_readline,
      joinLines_none (fuel + 1) [] file absent]

section Outcome
variable {e : Error} {sig : List Byte} {score : Number}

theorem outcome_of_none (found : cut ARROW file = none) :
    outcome round file root = if file = [] then some (.ok root) else none := by
  rw [outcome, records, leftOver, takeApart_of_none found]
  rfl

theorem outcome_of_error (found : cut ARROW file = some (before, after))
    (parsed : parse round (before ++ ARROW ++ (readline after).1) = .error e) : outcome round file root = some (.error e) := by
  rw [outcome, records, takeApart_of_some found, readAll, parsed]

theorem outcome_of_ok (found : cut ARROW file = some (before, after))
    (parsed : parse round (before ++ ARROW ++ (readline after).1) = .ok (sig, score)) :
    outcome round file root = outcome round (readline after).2 (root.insert (.finite 0) sig score) := by
  rw [outcome, records, leftOver, takeApart_of_some found, readAll, parsed]
  rfl

theorem loadFrom_of_error (found : cut ARROW file = some (before, after))
    (parsed : parse round (before ++ ARROW ++ (readline after).1) = .error e) {fuel : Nat}
    (enough : before.length + 3 ≤ fuel) : loadFrom round fuel file root = some (.error e) := by
  obtain ⟨fuel, rfl⟩ : ∃ k, fuel = k + 1 := ⟨fuel - 1, by omega⟩
  rw [loadFrom_record found fuel (by omega), parsed]

theorem loadFrom_of_ok (found : cut ARROW file = some (before, after))
    (parsed : parse round (before ++ ARROW ++ (readline after).1) = .ok (sig, score)) {fuel : Nat}
    (enough : before.length + 2 ≤ fuel) :
    loadFrom round (fuel + 1) file root = loadFrom round fuel (readline after).2 (root.insert (.finite 0) sig score) := by
  rw [loadFrom_record found fuel enough, parsed]

end Outcome

theorem loadFrom_outcome (round : Rounding) (file : List Byte) (root : Node) :
    (∀ result, outcome round file root = some result →
        ∃ enough, ∀ fuel ≥ enough, loadFrom round fuel file root = some result) ∧
      (outcome round file root = none → ∀ fuel, loadFrom round fuel file root = none) := by
  induction length : file.length using Nat.strong_induction_on generalizing file root with
  | _ size ih =>
    cases found : cut ARROW file with
    | none =>
      rw [outcome_of_none found]
      by_cases empty : file = []
      · subst empty
        rw [if_pos rfl]
        refine ⟨fun result ends => ⟨1, fun fuel enough => ?_⟩, nofun⟩
        obtain ⟨fuel, rfl⟩ : ∃ k, fuel = k + 1 := ⟨fuel - 1, by omega⟩
        exact ends
      · rw [if_neg empty]
        exact ⟨nofun, fun _ => loadFrom_leftOver found empty⟩
    | some parts =>
      obtain ⟨before, after⟩ := parts
      cases parsed : parse round (before ++ ARROW ++ (readline after).1) with
      | error e =>
        rw [outcome_of_error found parsed]
        refine ⟨fun result ends => ⟨before.length + 3, fun fuel enough => ?_⟩, nofun⟩
        rw [loadFrom_of_error found parsed enough, ends]
      | ok read =>
        obtain ⟨sig, score⟩ := read
        have smaller : (readline after).2.length < size := by
          have shorter := cut_shorter (by decide) found
          have whole := congrArg List.length (readline_whole after)
          rw [List.length_append] at whole
          omega
        obtain ⟨ends, runs⟩ := ih _ smaller (readline after).2 (root.insert (.finite 0) sig score) rfl
        rw [outcome_of_ok found parsed]
        refine ⟨fun result there => ?_, fun there fuel => ?_⟩
        · obtain ⟨enough, loads⟩ := ends result there
          refine ⟨enough + before.length + 3, fun fuel more => ?_⟩
          obtain ⟨fuel, rfl⟩ : ∃ k, fuel = k + 1 := ⟨fuel - 1, by omega⟩
          rw [loadFrom_of_ok found parsed (by omega), loads fuel (by omega)]
        · -- with less fuel than a record takes, there is no end either
          by_contra ended
          obtain ⟨result, loaded⟩ := Option.ne_none_iff_exists'.mp ended
          have later := loadFrom_le (Nat.le_add_right fuel (before.length + 3)) loaded
          rw [← Nat.add_assoc fuel (before.length + 2) 1, loadFrom_of_ok found parsed (by omega), runs there] at later
          cases later

/-- The only thing that `load` can end with. -/
theorem outcome_of_loadFrom {fuel : Nat} {result : Except Error Node}
    (loaded : loadFrom round fuel file root = some result) : outcome round file root = some result := by
  cases ends : outcome round file root with
  | none =>
    rw [(loadFrom_outcome round file root).2 ends fuel] at loaded
    cases loaded
  | some other =>
    obtain ⟨enough, loads⟩ := (loadFrom_outcome round file root).1 other ends
    have first := loads (max enough fuel) (le_max_left _ _)
    rw [← first]
    exact loadFrom_le (le_max_right _ _) loaded

theorem readAll_error_iff (round : Rounding) (lines : List (List Byte)) (root : Node) :
    (∃ e, readAll round lines root = .error e) ↔ ∃ line ∈ lines, ∃ e, parse round line = .error e := by
  induction lines generalizing root with
  | nil => simp [readAll]
  | cons line rest ih =>
    rw [readAll]
    cases parsed : parse round line with
    | error e => exact iff_of_true ⟨e, rfl⟩ ⟨line, List.mem_cons_self, e, parsed⟩
    | ok read => simp [ih, parsed]

end Ends

/-- With doubles, loading a file ends exactly if nothing follows its last record, or one of the records cannot be
parsed. -/
theorem load_ends_iff (file : List Byte) :
    (∃ fuel result, load double fuel file = some result) ↔
      leftOver file = [] ∨ ∃ line ∈ records file, ∃ e, parse double line = .error e := by
  have ends : (∃ fuel result, load double fuel file = some result) ↔
      ∃ result, outcome double file (.node (.finite 0) []) = some result := by
    constructor
    · rintro ⟨fuel, result, loaded⟩
      exact ⟨result, outcome_of_loadFrom loaded⟩
    · rintro ⟨result, there⟩
      obtain ⟨enough, loads⟩ := (loadFrom_outcome double file _).1 result there
      exact ⟨enough, result, loads enough le_rfl⟩
  rw [ends, ← readAll_error_iff double (records file) (.node (.finite 0) []), outcome]
  cases readAll double (records file) (.node (.finite 0) []) with
  | error e => simp
  | ok trie => by_cases whole : leftOver file = [] <;> simp [whole]

/-- A file of one byte, with no arrow. -/
theorem load_forever (fuel : Nat) : load double fuel [ascii 'x'] = none := by
  have absent : ¬ ARROW <:+: [ascii 'x'] := by decide
  cases fuel with
  | zero => rfl
  | succ fuel =>
    rw [load, loadFrom, if_neg (by decide), joinLines_readline, joinLines_none _ [] _ absent]

theorem x_never_loaded : ¬ ∃ fuel result, load double fuel [ascii 'x'] = some result := by
  rintro ⟨fuel, result, loaded⟩
  rw [load_forever fuel] at loaded
  cases loaded

end Qira.SignatureLoading
