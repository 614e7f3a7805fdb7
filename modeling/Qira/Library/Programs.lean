import Mathlib

/-!
Structured programs over any commands and conditions: what it means that one runs from a state to another, and
interpreters that run it on a state of their own, with exceptions and with a bound on the rounds of each loop.
-/

namespace Qira.Library.Programs

inductive Program (κ π : Type*)
  | done
  | command (p : π) (rest : Program κ π)
  | branch (c : κ) (yes no rest : Program κ π)
  | loop (c : κ) (body rest : Program κ π)

/-- What conditions and commands mean in a state, where they mean anything. -/
structure Language (κ π σ : Type*) where
  condition : κ → σ → Option Bool
  command : π → σ → Option σ

section Running
variable {κ π σ : Type*} (lang : Language κ π σ)

inductive Runs : Program κ π → σ → σ → Prop
  | done (s : σ) : Runs .done s s
  | command {p : π} {rest : Program κ π} {s mid t : σ} (does : lang.command p s = some mid)
      (later : Runs rest mid t) : Runs (.command p rest) s t
  | yes {c : κ} {yes no rest : Program κ π} {s mid t : σ} (holds : lang.condition c s = some true)
      (first : Runs yes s mid) (later : Runs rest mid t) : Runs (.branch c yes no rest) s t
  | no {c : κ} {yes no rest : Program κ π} {s mid t : σ} (fails : lang.condition c s = some false)
      (first : Runs no s mid) (later : Runs rest mid t) : Runs (.branch c yes no rest) s t
  | again {c : κ} {body rest : Program κ π} {s mid t : σ} (holds : lang.condition c s = some true)
      (first : Runs body s mid) (later : Runs (.loop c body rest) mid t) : Runs (.loop c body rest) s t
  | leave {c : κ} {body rest : Program κ π} {s t : σ} (fails : lang.condition c s = some false)
      (later : Runs rest s t) : Runs (.loop c body rest) s t

/-- All conditions and commands of a program are of these kinds. -/
def Program.Within (conditions : κ → Prop) (commands : π → Prop) : Program κ π → Prop
  | .done => True
  | .command p rest => commands p ∧ rest.Within conditions commands
  | .branch c yes no rest => conditions c ∧ yes.Within conditions commands ∧ no.Within conditions commands ∧
      rest.Within conditions commands
  | .loop c body rest => conditions c ∧ body.Within conditions commands ∧ rest.Within conditions commands

end Running

section Interpreting
variable {κ π σ : Type*} {ε τ : Type}

/-- A round as long as the condition holds; the exception is that of a loop that is not through. -/
def rounds (unfinished : ε) (cond : EStateM ε τ Bool) (body : EStateM ε τ Unit) : Nat → EStateM ε τ Unit
  | 0 => throw unfinished
  | limit + 1 => do
      if ← cond then
        body
        rounds unfinished cond body limit

structure Interpreter (κ π : Type*) (ε τ : Type) where
  condition : κ → EStateM ε τ Bool
  command : π → EStateM ε τ Unit
  unfinished : ε

def Interpreter.visit (i : Interpreter κ π ε τ) (fuel : Nat) : Program κ π → EStateM ε τ Unit
  | .done => pure ()
  | .command p rest => do
      i.command p
      i.visit fuel rest
  | .branch c yes no rest => do
      (do if ← i.condition c then i.visit fuel yes else i.visit fuel no)
      i.visit fuel rest
  | .loop c body rest => do
      rounds i.unfinished (i.condition c) (i.visit fuel body) fuel
      i.visit fuel rest

theorem bind_of_ok {α β : Type} {first : EStateM ε τ α} {next : α → EStateM ε τ β} {e e' : τ} {a : α}
    (ran : first e = .ok a e') : (first >>= next) e = next a e' := by
  change EStateM.bind first next e = _
  rw [EStateM.bind, ran]

theorem bind_of_error {α β : Type} {first : EStateM ε τ α} {next : α → EStateM ε τ β} {e e' : τ} {stop : ε}
    (ran : first e = .error stop e') : (first >>= next) e = .error stop e' := by
  change EStateM.bind first next e = _
  rw [EStateM.bind, ran]

/-- What returns after a first part returned from that as well. -/
theorem bind_eq_ok_iff {α β : Type} {first : EStateM ε τ α} {next : α → EStateM ε τ β} {e e' : τ} {b : β} :
    (first >>= next) e = .ok b e' ↔ ∃ a mid, first e = .ok a mid ∧ next a mid = .ok b e' := by
  cases ran : first e with
  | ok a mid =>
    rw [bind_of_ok ran]
    constructor
    · exact fun later => ⟨a, mid, rfl, later⟩
    · rintro ⟨_, _, same, later⟩
      cases same
      exact later
  | error stop mid =>
    rw [bind_of_error ran]
    exact ⟨nofun, fun ⟨_, _, same, _⟩ => nomatch same⟩

variable (i : Interpreter κ π ε τ) (lang : Language κ π σ) (represents : τ → σ → Prop) (inv : σ → Prop)
  (conditions : κ → Prop) (commands : π → Prop)

/-- In states with the invariant the interpreter does what conditions and commands mean. -/
structure Implements : Prop where
  condition : ∀ c e s b, conditions c → inv s → represents e s → lang.condition c s = some b →
    ∃ e', i.condition c e = .ok b e' ∧ represents e' s
  command : ∀ p e s t, commands p → inv s → represents e s → lang.command p s = some t →
    inv t ∧ ∃ e', i.command p e = .ok () e' ∧ represents e' t

/-- And it does not return where they mean nothing. -/
structure Guards : Prop where
  condition : ∀ c e s b e', conditions c → inv s → represents e s → i.condition c e = .ok b e' →
    lang.condition c s ≠ none
  command : ∀ p e s e', commands p → inv s → represents e s → i.command p e = .ok () e' → lang.command p s ≠ none

variable {i lang represents inv conditions commands}

/-- The bound on the rounds of the outermost loop, apart from that on all others. -/
def Interpreter.visitFor (i : Interpreter κ π ε τ) (fuel limit : Nat) : Program κ π → EStateM ε τ Unit
  | .loop c body rest => do
      rounds i.unfinished (i.condition c) (i.visit fuel body) limit
      i.visit fuel rest
  | program => i.visit fuel program

theorem visitFor_self (fuel : Nat) (program : Program κ π) : i.visitFor fuel fuel program = i.visit fuel program := by
  cases program <;> rfl

/-- A program that runs is visited to its end, the same whatever the bounds are from some number on. -/
theorem Implements.visitFor (implements : Implements i lang represents inv conditions commands) {program : Program κ π}
    {s t : σ} (runs : Runs lang program s t) (within : program.Within conditions commands) (holds : inv s) {e : τ}
    (represented : represents e s) :
    inv t ∧ ∃ least e', represents e' t ∧ ∀ fuel limit, least ≤ fuel → least ≤ limit →
      i.visitFor fuel limit program e = .ok () e' := by
  induction runs generalizing e with
  | done s => exact ⟨holds, 0, e, represented, fun _ _ _ _ => rfl⟩
  | command does later ih =>
    obtain ⟨holdsMid, mid, ran, representedMid⟩ := implements.command _ e _ _ within.1 holds represented does
    obtain ⟨holdsEnd, least, e', representedEnd, ready⟩ := ih within.2 holdsMid representedMid
    refine ⟨holdsEnd, least, e', representedEnd, fun fuel limit enough _ => (bind_of_ok ran).trans ?_⟩
    rw [← visitFor_self]
    exact ready fuel fuel enough enough
  | yes condition first later ihFirst ihLater =>
    obtain ⟨tested, ran, representedTested⟩ := implements.condition _ e _ _ within.1 holds represented condition
    obtain ⟨holdsMid, least, mid, representedMid, ready⟩ := ihFirst within.2.1 holds representedTested
    obtain ⟨holdsEnd, least', e', representedEnd, ready'⟩ := ihLater within.2.2.2 holdsMid representedMid
    refine ⟨holdsEnd, max least least', e', representedEnd, fun fuel limit enough _ => ?_⟩
    have branch := ready fuel fuel (le_of_max_le_left enough) (le_of_max_le_left enough)
    have rest := ready' fuel fuel (le_of_max_le_right enough) (le_of_max_le_right enough)
    rw [visitFor_self] at branch rest
    exact (bind_of_ok ((bind_of_ok ran).trans branch)).trans rest
  | no condition first later ihFirst ihLater =>
    obtain ⟨tested, ran, representedTested⟩ := implements.condition _ e _ _ within.1 holds represented condition
    obtain ⟨holdsMid, least, mid, representedMid, ready⟩ := ihFirst within.2.2.1 holds representedTested
    obtain ⟨holdsEnd, least', e', representedEnd, ready'⟩ := ihLater within.2.2.2 holdsMid representedMid
    refine ⟨holdsEnd, max least least', e', representedEnd, fun fuel limit enough _ => ?_⟩
    have branch := ready fuel fuel (le_of_max_le_left enough) (le_of_max_le_left enough)
    have rest := ready' fuel fuel (le_of_max_le_right enough) (le_of_max_le_right enough)
    rw [visitFor_self] at branch rest
    exact (bind_of_ok ((bind_of_ok ran).trans branch)).trans rest
  | again condition first later ihFirst ihLater =>
    obtain ⟨tested, ran, representedTested⟩ := implements.condition _ e _ _ within.1 holds represented condition
    obtain ⟨holdsMid, least, mid, representedMid, ready⟩ := ihFirst within.2.1 holds representedTested
    obtain ⟨holdsEnd, least', e', representedEnd, ready'⟩ := ihLater within holdsMid representedMid
    refine ⟨holdsEnd, max least least' + 1, e', representedEnd, fun fuel limit enough enough' => ?_⟩
    obtain ⟨limit, rfl⟩ : ∃ rest, limit = rest + 1 := ⟨limit - 1, by omega⟩
    have body := ready fuel fuel (by omega) (by omega)
    have others := ready' fuel limit (by omega) (by omega)
    rw [visitFor_self] at body
    unfold Interpreter.visitFor at others ⊢
    obtain ⟨⟨⟩, left, roundsEnd, restEnd⟩ := bind_eq_ok_iff.mp others
    exact (bind_of_ok ((bind_of_ok ran).trans ((bind_of_ok body).trans roundsEnd))).trans restEnd
  | leave condition later ih =>
    obtain ⟨tested, ran, representedTested⟩ := implements.condition _ e _ _ within.1 holds represented condition
    obtain ⟨holdsEnd, least, e', representedEnd, ready⟩ := ih within.2.2 holds representedTested
    refine ⟨holdsEnd, least + 1, e', representedEnd, fun fuel limit enough enough' => ?_⟩
    obtain ⟨limit, rfl⟩ : ∃ rest, limit = rest + 1 := ⟨limit - 1, by omega⟩
    have rest := ready fuel fuel (by omega) (by omega)
    rw [visitFor_self] at rest
    have through (body : EStateM ε τ Unit) : rounds i.unfinished (i.condition _) body (limit + 1) e = .ok () tested :=
      bind_of_ok ran
    exact (bind_of_ok (through _)).trans rest

theorem Implements.visit (implements : Implements i lang represents inv conditions commands) {program : Program κ π}
    {s t : σ} (runs : Runs lang program s t) (within : program.Within conditions commands) (holds : inv s) {e : τ}
    (represented : represents e s) :
    ∃ least e', represents e' t ∧ ∀ fuel, least ≤ fuel → i.visit fuel program e = .ok () e' := by
  obtain ⟨-, least, e', representedEnd, ready⟩ := implements.visitFor runs within holds represented
  exact ⟨least, e', representedEnd, fun fuel enough => visitFor_self fuel program ▸ ready fuel fuel enough enough⟩

/-- A condition that is tested has a meaning, and is found as it is. -/
theorem Guards.tested (implements : Implements i lang represents inv conditions commands)
    (guards : Guards i lang represents inv conditions commands) {c : κ} {e e' : τ} {s : σ} {b : Bool}
    (within : conditions c) (holds : inv s) (represented : represents e s) (ran : i.condition c e = .ok b e') :
    lang.condition c s = some b ∧ represents e' s := by
  obtain ⟨b', means⟩ := Option.ne_none_iff_exists'.mp (guards.condition c e s b e' within holds represented ran)
  obtain ⟨e'', ran', represented'⟩ := implements.condition c e s b' within holds represented means
  cases ran.symm.trans ran'
  exact ⟨means, represented'⟩

/-- A program that is visited to its end runs. -/
theorem Guards.runs (implements : Implements i lang represents inv conditions commands)
    (guards : Guards i lang represents inv conditions commands) (fuel : Nat) {program : Program κ π}
    (within : program.Within conditions commands) {s : σ} (holds : inv s) {e e' : τ} (represented : represents e s)
    (visited : i.visit fuel program e = .ok () e') :
    ∃ t, Runs lang program s t ∧ inv t ∧ represents e' t := by
  induction program generalizing e s e' with
  | done =>
    cases visited
    exact ⟨s, .done s, holds, represented⟩
  | command p rest ih =>
    obtain ⟨⟨⟩, mid, ran, later⟩ := bind_eq_ok_iff.mp visited
    obtain ⟨t, does⟩ := Option.ne_none_iff_exists'.mp (guards.command p e s mid within.1 holds represented ran)
    obtain ⟨holdsMid, mid', ran', representedMid⟩ := implements.command p e s t within.1 holds represented does
    cases ran.symm.trans ran'
    obtain ⟨last, runs, ends⟩ := ih within.2 holdsMid representedMid later
    exact ⟨last, .command does runs, ends⟩
  | branch c yes no rest ihYes ihNo ihRest =>
    obtain ⟨⟨⟩, mid, whole, ranRest⟩ := bind_eq_ok_iff.mp visited
    obtain ⟨b, tested, ran, ranBranch⟩ := bind_eq_ok_iff.mp whole
    obtain ⟨means, representedTested⟩ := guards.tested implements within.1 holds represented ran
    cases b with
    | true =>
      obtain ⟨inner, runsBranch, holdsMid, representedMid⟩ := ihYes within.2.1 holds representedTested ranBranch
      obtain ⟨last, runs, ends⟩ := ihRest within.2.2.2 holdsMid representedMid ranRest
      exact ⟨last, .yes means runsBranch runs, ends⟩
    | false =>
      obtain ⟨inner, runsBranch, holdsMid, representedMid⟩ := ihNo within.2.2.1 holds representedTested ranBranch
      obtain ⟨last, runs, ends⟩ := ihRest within.2.2.2 holdsMid representedMid ranRest
      exact ⟨last, .no means runsBranch runs, ends⟩
  | loop c body rest ihBody ihRest =>
    obtain ⟨⟨⟩, left, ranLoop, ranRest⟩ := bind_eq_ok_iff.mp visited
    have every : ∀ limit e s, inv s → represents e s →
        rounds i.unfinished (i.condition c) (i.visit fuel body) limit e = .ok () left →
        ∃ t, Runs lang (.loop c body rest) s t ∧ inv t ∧ represents e' t := by
      intro limit
      induction limit with
      | zero => exact fun _ _ _ _ ranLoop => nomatch ranLoop
      | succ limit ih =>
        intro e s holds represented ranLoop
        obtain ⟨b, tested, ran, later⟩ := bind_eq_ok_iff.mp ranLoop
        obtain ⟨means, representedTested⟩ := guards.tested implements within.1 holds represented ran
        cases b with
        | true =>
          obtain ⟨⟨⟩, mid, ranBody, ranOthers⟩ := bind_eq_ok_iff.mp later
          obtain ⟨inner, runsBody, holdsMid, representedMid⟩ := ihBody within.2.1 holds representedTested ranBody
          obtain ⟨last, runs, ends⟩ := ih mid inner holdsMid representedMid ranOthers
          exact ⟨last, .again means runsBody runs, ends⟩
        | false =>
          cases later
          obtain ⟨last, runs, ends⟩ := ihRest within.2.2 holds representedTested ranRest
          exact ⟨last, .leave means runs, ends⟩
    exact every fuel e s holds represented ranLoop

end Interpreting

end Qira.Library.Programs
