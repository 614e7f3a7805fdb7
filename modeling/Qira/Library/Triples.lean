import Qira.Library.Programs

/-!
Visits of a state that may end with an exception. A triple says what holds where one returns; two visits of related
states are alike where both return the same or end with the same exception, and leave the states related.
-/

namespace Qira.Library.Triples
open Programs

section Returning
variable {ε τ α β : Type} {P : τ → Prop} {Q : α → τ → Prop} {R : β → τ → Prop}

def Triple (P : τ → Prop) (visit : EStateM ε τ α) (Q : α → τ → Prop) : Prop :=
  ∀ e a e', P e → visit e = .ok a e' → Q a e'

theorem Triple.pure {a : α} (holds : ∀ e, P e → Q a e) : Triple P (pure a : EStateM ε τ α) Q := by
  rintro e _ _ before ⟨⟩
  exact holds e before

theorem Triple.throw (stop : ε) : Triple P (throw stop : EStateM ε τ α) Q := fun _ _ _ _ ran => nomatch ran

theorem Triple.bind {first : EStateM ε τ α} {next : α → EStateM ε τ β} (before : Triple P first Q)
    (after : ∀ a, Triple (Q a) (next a) R) : Triple P (first >>= next) R := by
  intro e b e' holds ran
  obtain ⟨a, mid, ranFirst, ranNext⟩ := bind_eq_ok_iff.mp ran
  exact after a mid b e' (before e a mid holds ranFirst) ranNext

/-- What a round keeps, all rounds keep. -/
theorem Triple.rounds {inv : τ → Prop} {unfinished : ε} {cond : EStateM ε τ Bool} {body : EStateM ε τ Unit}
    (test : Triple inv cond fun _ => inv) (round : Triple inv body fun _ => inv) (limit : Nat) :
    Triple inv (rounds unfinished cond body limit) fun _ => inv := by
  induction limit with
  | zero => exact Triple.throw unfinished
  | succ limit ih =>
    refine test.bind fun b => ?_
    cases b with
    | true => exact round.bind fun _ => ih
    | false => exact Triple.pure fun _ holds => holds

/-- What the conditions and commands of a program keep, the program keeps. -/
theorem Triple.visit {κ π : Type*} {i : Interpreter κ π ε τ} {inv : τ → Prop} (conditions : κ → Prop)
    (commands : π → Prop) (condition : ∀ c, conditions c → Triple inv (i.condition c) fun _ => inv)
    (command : ∀ p, commands p → Triple inv (i.command p) fun _ => inv) (fuel : Nat) {program : Program κ π}
    (within : program.Within conditions commands) : Triple inv (i.visit fuel program) fun _ => inv := by
  induction program with
  | done => exact Triple.pure fun _ holds => holds
  | command p rest ih => exact (command p within.1).bind fun _ => ih within.2
  | branch c yes no rest ihYes ihNo ihRest =>
    refine Triple.bind ((condition c within.1).bind fun b => ?_) fun _ => ihRest within.2.2.2
    cases b with
    | true => exact ihYes within.2.1
    | false => exact ihNo within.2.2.1
  | loop c body rest ihBody ihRest =>
    exact (Triple.rounds (condition c within.1) (ihBody within.2.1) fuel).bind fun _ => ihRest within.2.2

end Returning

section Relating
variable {ε τ α β : Type} {R : τ → τ → Prop}

def Related (R : τ → τ → Prop) : EStateM.Result ε τ α → EStateM.Result ε τ α → Prop
  | .ok a e, .ok b f => a = b ∧ R e f
  | .error stop e, .error stop' f => stop = stop' ∧ R e f
  | _, _ => False

def Alike (R : τ → τ → Prop) (visit : EStateM ε τ α) : Prop := ∀ e f, R e f → Related R (visit e) (visit f)

theorem Alike.pure (a : α) : Alike R (pure a : EStateM ε τ α) := fun _ _ related => ⟨rfl, related⟩

theorem Alike.throw (stop : ε) : Alike R (throw stop : EStateM ε τ α) := fun _ _ related => ⟨rfl, related⟩

theorem Alike.bind {first : EStateM ε τ α} {next : α → EStateM ε τ β} (alike : Alike R first)
    (alikeNext : ∀ a, Alike R (next a)) : Alike R (first >>= next) := by
  intro e f related
  have same := alike e f related
  cases ran : first e with
  | ok a e' =>
    cases ran' : first f with
    | ok b f' =>
      rw [ran, ran'] at same
      obtain ⟨rfl, later⟩ := same
      rw [bind_of_ok ran, bind_of_ok ran']
      exact alikeNext a e' f' later
    | error stop f' =>
      rw [ran, ran'] at same
      exact same.elim
  | error stop e' =>
    cases ran' : first f with
    | ok b f' =>
      rw [ran, ran'] at same
      exact same.elim
    | error stop' f' =>
      rw [ran, ran'] at same
      rw [bind_of_error ran, bind_of_error ran']
      exact same

theorem Alike.mapM {visit : α → EStateM ε τ β} (alike : ∀ a, Alike R (visit a)) (items : List α) :
    Alike R (items.mapM visit) := by
  induction items with
  | nil => exact Alike.pure []
  | cons item rest ih =>
    rw [List.mapM_cons]
    exact (alike item).bind fun _ => ih.bind fun _ => Alike.pure _

theorem Alike.forM {visit : α → EStateM ε τ Unit} (alike : ∀ a, Alike R (visit a)) (items : List α) :
    Alike R (items.forM visit) := by
  induction items with
  | nil => exact Alike.pure ()
  | cons item rest ih => exact (alike item).bind fun _ => ih

theorem Alike.rounds {unfinished : ε} {cond : EStateM ε τ Bool} {body : EStateM ε τ Unit} (test : Alike R cond)
    (round : Alike R body) (limit : Nat) : Alike R (rounds unfinished cond body limit) := by
  induction limit with
  | zero => exact Alike.throw unfinished
  | succ limit ih =>
    refine test.bind fun b => ?_
    cases b with
    | true => exact round.bind fun _ => ih
    | false => exact Alike.pure ()

theorem Alike.visit {κ π : Type*} {i : Interpreter κ π ε τ} (conditions : κ → Prop) (commands : π → Prop)
    (condition : ∀ c, conditions c → Alike R (i.condition c)) (command : ∀ p, commands p → Alike R (i.command p))
    (fuel : Nat) {program : Program κ π} (within : program.Within conditions commands) :
    Alike R (i.visit fuel program) := by
  induction program with
  | done => exact Alike.pure ()
  | command p rest ih => exact (command p within.1).bind fun _ => ih within.2
  | branch c yes no rest ihYes ihNo ihRest =>
    refine Alike.bind ((condition c within.1).bind fun b => ?_) fun _ => ihRest within.2.2.2
    cases b with
    | true => exact ihYes within.2.1
    | false => exact ihNo within.2.2.1
  | loop c body rest ihBody ihRest =>
    exact (Alike.rounds (condition c within.1) (ihBody within.2.1) fuel).bind fun _ => ihRest within.2.2

end Relating

end Qira.Library.Triples
