import Qira.Library.Machines
import Qira.Library.Overwrites

/-!
One changing object described twice. A coarse account has one entry for a moment, with what was there at the
places looked at; a fine account spells the same moment out in several items of one time. They agree when, asked
about any place at any time, the last word of both is the same. An observer of a machine gives a coarse account of
its run: after each step, the time on the observer's clock and what it can tell then.
-/

namespace Qira.Library.Sightings
open Overwrites Machines

section Accounts
variable {τ α β ι : Type*} [LinearOrder τ]

/-- The last word on a place among the items that are not after a time. -/
def lastSeen (stamp : ι → τ) (write : ι → α → Option β) (items : List ι) (time : τ) (place : α) : Option β :=
  lastWrite ((items.filter (fun item => stamp item ≤ time)).map write) place

/-- A coarse account. -/
abbrev Account (τ α β : Type*) := List (τ × (α → Option β))

def Account.lastBy (account : Account τ α β) (time : τ) (place : α) : Option β :=
  lastSeen Prod.fst Prod.snd account time place

def Agree (stamp : ι → τ) (write : ι → α → Option β) (fine : List ι) (coarse : Account τ α β) : Prop :=
  ∀ time place, lastSeen stamp write fine time place = coarse.lastBy time place

theorem Agree.nil (stamp : ι → τ) (write : ι → α → Option β) : Agree stamp write [] [] := fun _ _ => rfl

theorem lastWrite_singleton (write : α → Option β) (place : α) : lastWrite [write] place = write place := by
  cases covered : write place <;> simp [lastWrite, covered]

/-- Items of one time are all asked about or none. -/
theorem lastSeen_append (stamp : ι → τ) (write : ι → α → Option β) (items made : List ι) (now time : τ) (place : α)
    (current : ∀ item ∈ made, stamp item = now) :
    lastSeen stamp write (items ++ made) time place =
      if now ≤ time then (lastWrite (made.map write) place).or (lastSeen stamp write items time place)
      else lastSeen stamp write items time place := by
  unfold lastSeen
  rw [List.filter_append, List.map_append, lastWrite_append]
  by_cases reached : now ≤ time
  · have whole : made.filter (fun item => stamp item ≤ time) = made := by
      apply List.filter_eq_self.mpr
      intro item member
      exact decide_eq_true (current item member ▸ reached)
    rw [whole, if_pos reached]
  · have dropped : made.filter (fun item => stamp item ≤ time) = [] := by
      apply List.filter_eq_nil_iff.mpr
      intro item member
      simpa [current item member] using reached
    rw [dropped, if_neg reached]
    rfl

theorem Account.lastBy_concat (account : Account τ α β) (now : τ) (seen : α → Option β) (time : τ) (place : α) :
    Account.lastBy (account ++ [(now, seen)]) time place =
      if now ≤ time then (seen place).or (account.lastBy time place) else account.lastBy time place := by
  unfold Account.lastBy
  rw [lastSeen_append Prod.fst Prod.snd account [(now, seen)] now time place (by simp)]
  simp only [List.map_singleton, lastWrite_singleton]

/-- A moment told in several items, and in one entry. -/
theorem Agree.append {stamp : ι → τ} {write : ι → α → Option β} {fine : List ι} {coarse : Account τ α β}
    (agree : Agree stamp write fine coarse) (made : List ι) (now : τ) (current : ∀ item ∈ made, stamp item = now)
    (seen : α → Option β) (told : ∀ place, lastWrite (made.map write) place = seen place) :
    Agree stamp write (fine ++ made) (coarse ++ [(now, seen)]) := by
  intro time place
  rw [lastSeen_append stamp write fine made now time place current, Account.lastBy_concat, told place,
    agree time place]

end Accounts

section Observers
variable {σ ε τ α β ι : Type*} [LinearOrder τ] (step : σ → ε → Option σ) (now : σ → Option τ)

/-- The account of an observer that is there when its clock shows a time. -/
def account (seen : ε → σ → α → Option β) : σ → List ε → Account τ α β
  | _, [] => []
  | s, e :: rest =>
      match step s e with
      | none => []
      | some t => ((now t).map (fun time => (time, seen e t))).toList ++ account seen t rest

/-- The full account, which says everything of each moment. -/
def everything (value : σ → α → β) (_ : ε) (s : σ) : α → Option β := fun place => some (value s place)

/-- In one step the fine account goes on with items of the time it is afterwards, which tell what is seen. -/
structure Logged (stamp : ι → τ) (write : ι → α → Option β) (log : σ → List ι) (seen : ε → σ → α → Option β)
    (s t : σ) (e : ε) : Prop where
  present : ∀ time, now t = some time → ∃ made, log t = log s ++ made ∧ (∀ item ∈ made, stamp item = time) ∧
    ∀ place, lastWrite (made.map write) place = seen e t place
  absent : now t = none → log t = log s

variable {step now}

/-- An invariant may speak of what is still to come. -/
theorem run_remaining {inv : σ → List ε → Prop}
    (preserved : ∀ s e rest t, inv s (e :: rest) → step s e = some t → inv t rest) {s t : σ} {events : List ε}
    (start : inv s events) (ran : run step s events = some t) : inv t [] := by
  induction events generalizing s with
  | nil => exact Option.some.inj ran ▸ start
  | cons e rest ih =>
    obtain ⟨mid, taken, later⟩ := (run_cons_eq_some_iff step s t e rest).mp ran
    exact ih (preserved s e rest mid start taken) later

/-- Over a run, a log that is right at each step agrees with the account. -/
theorem run_agree {stamp : ι → τ} {write : ι → α → Option β} {log : σ → List ι} {seen : ε → σ → α → Option β}
    (inv : σ → List ε → Prop)
    (preserved : ∀ s e rest t, inv s (e :: rest) → step s e = some t → inv t rest)
    (logged : ∀ s e rest t, inv s (e :: rest) → step s e = some t → Logged now stamp write log seen s t e)
    {s t : σ} {events : List ε} {coarse : Account τ α β} (start : inv s events) (agree : Agree stamp write (log s) coarse)
    (ran : run step s events = some t) :
    Agree stamp write (log t) (coarse ++ account step now seen s events) := by
  induction events generalizing s coarse with
  | nil =>
    obtain rfl := Option.some.inj ran
    simpa [account] using agree
  | cons e rest ih =>
    obtain ⟨mid, taken, later⟩ := (run_cons_eq_some_iff step s t e rest).mp ran
    have right := logged s e rest mid start taken
    simp only [account, taken, ← List.append_assoc]
    apply ih (preserved s e rest mid start taken) _ later
    cases time : now mid with
    | none =>
      rw [right.absent time]
      simpa using agree
    | some time' =>
      obtain ⟨made, grown, current, told⟩ := right.present time' time
      rw [grown]
      exact agree.append made time' current (seen e mid) told

/-- What an account says of a moment is how things are then, and what it says nothing of is as it was. -/
def Faithful (now : σ → Option τ) (seen : ε → σ → α → Option β) (value : σ → α → β) (s t : σ) (e : ε) : Prop :=
  ∀ place, (∀ said, seen e t place = some said → said = value t place) ∧
    (seen e t place = none → (now s).isSome → value t place = value s place)

/-- A clock that is there stays and does not go back. -/
def Forward (now : σ → Option τ) (s t : σ) : Prop := ∀ time, now s = some time → ∃ later, now t = some later ∧ time ≤ later

/-- An account and the full one. -/
structure Current (now : σ → Option τ) (value : σ → α → β) (s : σ) (partly fully : Account τ α β) : Prop where
  said : ∀ time place, partly.lastBy time place = none ∨ partly.lastBy time place = fully.lastBy time place
  upToDate : ∀ time later place, now s = some time → time ≤ later → fully.lastBy later place = some (value s place)
  absent : now s = none → partly = []

theorem Current.next {seen : ε → σ → α → Option β} {value : σ → α → β} {s t : σ} {e : ε} {partly fully : Account τ α β}
    (current : Current now value s partly fully) (faithful : Faithful now seen value s t e) (forward : Forward now s t) :
    Current now value t (partly ++ ((now t).map (fun time => (time, seen e t))).toList)
      (fully ++ ((now t).map (fun time => (time, everything value e t))).toList) := by
  cases present : now t with
  | none =>
    have before : now s = none := by
      cases was : now s with
      | none => rfl
      | some time =>
        obtain ⟨later, isLater, -⟩ := forward time was
        exact absurd (present.symm.trans isLater) nofun
    simp only [Option.map_none, Option.toList_none, List.append_nil]
    exact ⟨current.said, fun _ _ _ is => absurd (present.symm.trans is) nofun, fun _ => current.absent before⟩
  | some time =>
    simp only [Option.map_some, Option.toList_some]
    have full : ∀ later place, time ≤ later →
        Account.lastBy (fully ++ [(time, everything value e t)]) later place = some (value t place) := by
      intro later place reached
      rw [Account.lastBy_concat, if_pos reached]
      rfl
    refine ⟨fun asked place => ?_, ?_, fun gone => absurd (present.symm.trans gone) nofun⟩
    · rw [Account.lastBy_concat]
      by_cases reached : time ≤ asked
      · obtain ⟨told, untold⟩ := faithful place
        rw [if_pos reached, full asked place reached]
        cases isSeen : seen e t place with
        | some said =>
          rw [Option.some_or, told said isSeen]
          exact Or.inr rfl
        | none =>
          rw [Option.none_or]
          cases before : now s with
          | none =>
            rw [current.absent before]
            exact Or.inl rfl
          | some earlier =>
            obtain ⟨later, isLater, notBack⟩ := forward earlier before
            obtain rfl := Option.some.inj (present.symm.trans isLater)
            rw [untold isSeen (by rw [before]; rfl), ← current.upToDate earlier asked place before (notBack.trans reached)]
            exact current.said asked place
      · rw [if_neg reached, Account.lastBy_concat, if_neg reached]
        exact current.said asked place
    · intro stamp later place is reached
      obtain rfl := Option.some.inj (present.symm.trans is)
      exact full later place reached

/-- Where an account is faithful at every step, the last it says of a place by a time is how things were then. -/
theorem run_current {seen : ε → σ → α → Option β} {value : σ → α → β} (inv : σ → List ε → Prop)
    (preserved : ∀ s e rest t, inv s (e :: rest) → step s e = some t → inv t rest)
    (forward : ∀ s e rest t, inv s (e :: rest) → step s e = some t → Forward now s t) {s t : σ} {events : List ε}
    (faithful : ∀ e ∈ events, ∀ s t, step s e = some t → Faithful now seen value s t e)
    {partly fully : Account τ α β} (start : inv s events) (current : Current now value s partly fully)
    (ran : run step s events = some t) :
    Current now value t (partly ++ account step now seen s events)
      (fully ++ account step now (everything value) s events) := by
  induction events generalizing s partly fully with
  | nil =>
    obtain rfl := Option.some.inj ran
    simpa [account] using current
  | cons e rest ih =>
    obtain ⟨mid, taken, later⟩ := (run_cons_eq_some_iff step s t e rest).mp ran
    simp only [account, taken, ← List.append_assoc]
    exact ih (fun e' member => faithful e' (List.mem_cons_of_mem _ member)) (preserved s e rest mid start taken)
      (current.next (faithful e List.mem_cons_self s mid taken) (forward s e rest mid start taken)) later

end Observers

end Qira.Library.Sightings
