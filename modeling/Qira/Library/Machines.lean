import Mathlib

/-!
Labelled machines with a partial step: a run takes a list of actions, and a step that cannot be
taken ends it. Invariants of a step are lifted to whole runs, also those that need a condition on
the steps taken, and those where the condition is exactly what keeps a run good.
-/

namespace Qira.Library.Machines

section Runs
variable {σ α : Type*} (step : σ → α → Option σ)

def run (s : σ) (actions : List α) : Option σ := actions.foldlM step s

/-- Every step of the run is taken in a state that allows it. -/
def Along (allows : σ → α → Prop) : σ → List α → Prop
  | _, [] => True
  | s, a :: rest => allows s a ∧ ∀ t, step s a = some t → Along allows t rest

/-- Every state the run goes through, first and last included, is good. -/
def Always (good : σ → Prop) : σ → List α → Prop
  | s, [] => good s
  | s, a :: rest => good s ∧ ∀ t, step s a = some t → Always good t rest

/-- Some run leads from one state to the other. -/
def Reaches (s t : σ) : Prop := ∃ actions, run step s actions = some t

theorem run_nil (s : σ) : run step s [] = some s := rfl

theorem run_cons (s : σ) (a : α) (rest : List α) :
    run step s (a :: rest) = (step s a).bind (fun t => run step t rest) := rfl

theorem run_cons_eq_some_iff (s t : σ) (a : α) (rest : List α) :
    run step s (a :: rest) = some t ↔ ∃ mid, step s a = some mid ∧ run step mid rest = some t := by
  rw [run_cons, Option.bind_eq_some_iff]

theorem run_append (s : σ) (first second : List α) :
    run step s (first ++ second) = (run step s first).bind (fun t => run step t second) := by
  induction first generalizing s with
  | nil => rfl
  | cons a rest ih =>
    rw [List.cons_append, run_cons, run_cons, Option.bind_assoc]
    congr 1
    funext t
    exact ih t

theorem Reaches.refl (s : σ) : Reaches step s s := ⟨[], rfl⟩

variable {step} {s t u : σ}

theorem Reaches.trans (first : Reaches step s t) (second : Reaches step t u) :
    Reaches step s u := by
  obtain ⟨front, ran⟩ := first
  obtain ⟨back, ran'⟩ := second
  refine ⟨front ++ back, ?_⟩
  rw [run_append, ran]
  exact ran'

theorem Reaches.of_step {a : α} (taken : step s a = some t) : Reaches step s t :=
  ⟨[a], by rw [run_cons, taken]; rfl⟩

/-- What every step preserves, every run preserves. -/
theorem run_invariant (inv : σ → Prop)
    (preserved : ∀ s a t, inv s → step s a = some t → inv t)
    {actions : List α} (start : inv s) (ran : run step s actions = some t) : inv t := by
  induction actions generalizing s with
  | nil => exact Option.some.inj ran ▸ start
  | cons a rest ih =>
    obtain ⟨mid, first, later⟩ := (run_cons_eq_some_iff step s t a rest).mp ran
    exact ih (preserved s a mid start first) later

/-- A run whose steps can all be taken ends, and what each step ensures holds then. -/
theorem run_returns (inv : σ → Prop) {actions : List α}
    (taken : ∀ s, ∀ a ∈ actions, inv s → ∃ t, step s a = some t ∧ inv t) (start : inv s) :
    ∃ t, run step s actions = some t ∧ inv t := by
  induction actions generalizing s with
  | nil => exact ⟨s, rfl, start⟩
  | cons a rest ih =>
    obtain ⟨mid, first, holds⟩ := taken s a List.mem_cons_self start
    obtain ⟨t, later, last⟩ := ih (fun s b member => taken s b (List.mem_cons_of_mem a member)) holds
    exact ⟨t, (run_cons_eq_some_iff step s t a rest).mpr ⟨mid, first, later⟩, last⟩

/-- Where some step always brings a state closer to the goal, the goal is reached. -/
theorem reaches_of_progress (inv goal : σ → Prop) (distance : σ → Nat)
    (progress : ∀ s, inv s → ¬ goal s → ∃ a t, step s a = some t ∧ inv t ∧ distance t < distance s)
    (start : inv s) : ∃ t, Reaches step s t ∧ inv t ∧ goal t := by
  induction left : distance s using Nat.strong_induction_on generalizing s with
  | _ left ih =>
    by_cases there : goal s
    · exact ⟨s, Reaches.refl step s, start, there⟩
    · obtain ⟨a, mid, taken, midInv, closer⟩ := progress s start there
      obtain ⟨t, later, holds, there⟩ := ih (distance mid) (by omega) midInv rfl
      exact ⟨t, (Reaches.of_step taken).trans later, holds, there⟩

/-- Actions allowed in every state are allowed along a run. -/
theorem along_of_forall {allows : σ → α → Prop} {actions : List α} (each : ∀ s, ∀ a ∈ actions, allows s a) :
    Along step allows s actions := by
  induction actions generalizing s with
  | nil => trivial
  | cons a rest ih =>
    refine ⟨each s a List.mem_cons_self, fun t _ => ?_⟩
    exact ih (fun u b member => each u b (List.mem_cons_of_mem a member))

/-- A step leads to one state only. -/
theorem forall_taken_iff {a : α} (taken : step s a = some t) (P : σ → Prop) :
    (∀ next, step s a = some next → P next) ↔ P t := by
  constructor
  · intro each
    exact each t taken
  · intro holds next taken'
    exact Option.some.inj (taken.symm.trans taken') ▸ holds

theorem along_append {allows : σ → α → Prop} {front back : List α} (ran : run step s front = some t) :
    Along step allows s (front ++ back) ↔ Along step allows s front ∧ Along step allows t back := by
  induction front generalizing s with
  | nil =>
    obtain rfl := Option.some.inj ran
    exact (and_iff_right trivial).symm
  | cons a rest ih =>
    obtain ⟨mid, first, later⟩ := (run_cons_eq_some_iff step s t a rest).mp ran
    rw [List.cons_append, Along, Along, forall_taken_iff first, forall_taken_iff first, ih later, and_assoc]

/-- What the allowed steps preserve holds all along a run that takes no others. -/
theorem always_of_along (inv good : σ → Prop) (allows : σ → α → Prop)
    (preserved : ∀ s a t, inv s → allows s a → step s a = some t → inv t) (ensures : ∀ s, inv s → good s)
    {actions : List α} (start : inv s) (along : Along step allows s actions) :
    Always step good s actions := by
  induction actions generalizing s with
  | nil => exact ensures s start
  | cons a rest ih =>
    refine ⟨ensures s start, fun t taken => ?_⟩
    exact ih (preserved s a t start along.1 taken) (along.2 t taken)

/-- What the allowed steps preserve holds at the end of a run that takes no others. -/
theorem run_invariant_along (inv : σ → Prop) (allows : σ → α → Prop)
    (preserved : ∀ s a t, inv s → allows s a → step s a = some t → inv t) {actions : List α} (start : inv s)
    (along : Along step allows s actions) (ran : run step s actions = some t) : inv t := by
  induction actions generalizing s with
  | nil => exact Option.some.inj ran ▸ start
  | cons a rest ih =>
    obtain ⟨mid, first, later⟩ := (run_cons_eq_some_iff step s t a rest).mp ran
    exact ih (preserved s a mid start along.1 first) (along.2 mid first) later

/-- Under an invariant, states may be judged by any condition equivalent there. -/
theorem always_congr (inv good good' : σ → Prop)
    (preserved : ∀ s a t, inv s → step s a = some t → inv t) (same : ∀ s, inv s → (good s ↔ good' s))
    {actions : List α} (holds : inv s) : Always step good s actions ↔ Always step good' s actions := by
  induction actions generalizing s with
  | nil => exact same s holds
  | cons a rest ih =>
    unfold Always
    rw [same s holds]
    apply and_congr_right
    intro _
    exact forall_congr' fun t => imp_congr_right fun taken => ih (preserved s a t holds taken)

/-- When, under an invariant, a good state is left good exactly by the allowed steps, all states of a
run are good exactly if all its steps were allowed. -/
theorem always_iff_along (inv good : σ → Prop) (allows : σ → α → Prop)
    (preserved : ∀ s a t, inv s → step s a = some t → inv t)
    (judged : ∀ s a t, inv s → good s → step s a = some t → (good t ↔ allows s a))
    {actions : List α} (holds : inv s) (start : good s) (ran : run step s actions = some t) :
    Always step good s actions ↔ Along step allows s actions := by
  induction actions generalizing s with
  | nil => exact iff_of_true start trivial
  | cons a rest ih =>
    obtain ⟨mid, first, later⟩ := (run_cons_eq_some_iff step s t a rest).mp ran
    have holdsMid := preserved s a mid holds first
    unfold Always Along
    rw [forall_taken_iff first, forall_taken_iff first, and_iff_right start, ← judged s a mid holds start first]
    constructor
    · intro always
      have goodMid : good mid := by
        cases rest with
        | nil => exact always
        | cons b more => exact always.1
      exact ⟨goodMid, (ih holdsMid goodMid later).mp always⟩
    · intro both
      exact (ih holdsMid both.1 later).mpr both.2

end Runs

end Qira.Library.Machines
