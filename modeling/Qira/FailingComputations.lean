import Qira.FakeMeteor

/-!
Computations that fail. An exception in one of the functions of the queue leaves the loop of `_process`, and with it
the functions behind; the old queue has been given up by then. A key that a function sets in its first run is set
before the function is registered for it.
-/

namespace Qira.FailingComputations
open FakeMeteor Library.Machines

variable {Fxn Key Value : Type} [DecidableEq Fxn] [DecidableEq Key]

/-- The function has been started after the last set of each key it is registered for. -/
def StartedSince (s : State Fxn Key Value) (fxn : Fxn) : Prop :=
  ∀ name, fxn ∈ s.deps name → ∀ time, s.lastSet name = some time →
    ∃ started reads, s.lastRun fxn = some (started, reads) ∧ time < started

/-- Where no timer is pending, no function has missed a set. -/
def NothingMissed (s : State Fxn Key Value) : Prop := s.pendTimeout = false → ∀ fxn, StartedSince s fxn

/-- The functions behind the one that throws, in a queue that is drained. -/
def leftBehind (body : Fxn → Body Key Value) : List Fxn → State Fxn Key Value → List Fxn
  | [], _ => []
  | fxn :: rest, s => if (call body fxn s).2 then leftBehind body rest (call body fxn s).1 else rest

/-- Whether a run of the body returns, from a session. -/
def returns : Body Key Value → (Key → Option Value) → Bool
  | .ret, _ => true
  | .throw, _ => false
  | .get name _ next, session => returns (next (session name)) session
  | .set name data next, session => returns next (Function.update session name data)

/-- The keys that the run reads with tracking. -/
def tracked : Body Key Value → (Key → Option Value) → List Key
  | .ret, _ => []
  | .throw, _ => []
  | .get name donttrack next, session =>
      if donttrack then tracked (next (session name)) session else name :: tracked (next (session name)) session
  | .set name data next, session => tracked next (Function.update session name data)

/-- The keys that the run sets. -/
def keysSet : Body Key Value → (Key → Option Value) → List Key
  | .ret, _ => []
  | .throw, _ => []
  | .get name _ next, session => keysSet (next (session name)) session
  | .set name data next, session => name :: keysSet next (Function.update session name data)

/-- A first run that returns sets no key that it tracks, and no function throws that has others behind it. -/
def Allowed (body : Fxn → Body Key Value) (s : State Fxn Key Value) : Action Fxn Key Value → Prop
  | .autorun fxn => returns (body fxn) s.session = true →
      ∀ name ∈ tracked (body fxn) s.session, name ∉ keysSet (body fxn) s.session
  | .set .. => True
  | .process => leftBehind body s.pend { s with pend := [], pendTimeout := false } = []

/-- While a queue is drained, each function has been started since, is queued again, or is still to come. -/
structure Accounted (s : State Fxn Key Value) (toCome : List Fxn) : Prop where
  timed : s.pendTimeout = false → s.pend = []
  sets : ∀ name time, s.lastSet name = some time → time < s.clock
  each : ∀ fxn, fxn ∈ s.pend ∨ fxn ∈ toCome ∨ StartedSince s fxn

section Draining
variable {body : Fxn → Body Key Value} {s t : State Fxn Key Value} {toCome : List Fxn}

theorem Accounted.set (accounted : Accounted s toCome) (name : Key) (data : Option Value) :
    Accounted (s.set name data) toCome where
  timed := set_timed accounted.timed name data
  sets := set_sets accounted.sets name data
  each := by
    intro fxn
    have queued := mem_foldl_enqueue (s.deps name) s.pend fxn
    rcases accounted.each fxn with inside | coming | since
    · exact .inl (queued.mpr (.inr inside))
    · exact .inr (.inl coming)
    · by_cases watches : fxn ∈ s.deps name
      · exact .inl (queued.mpr (.inl watches))
      · refine .inr (.inr fun k registered' time set => ?_)
        have other : k ≠ name := fun same => watches (same ▸ registered')
        exact since k registered' time ((Function.update_of_ne other ..).symm.trans set)

omit [DecidableEq Key] in
theorem get_session (s : State Fxn Key Value) (fxn : Fxn) (name : Key) (donttrack : Bool) :
    (s.get fxn name donttrack).session = s.session := by
  unfold State.get
  split <;> rfl

omit [DecidableEq Key] in
/-- Reading a key changes nothing of the account. -/
theorem Accounted.get (accounted : Accounted s toCome) (fxn : Fxn) (name : Key) (donttrack : Bool) :
    Accounted (s.get fxn name donttrack) toCome := by
  unfold State.get
  split
  · exact accounted
  · refine ⟨accounted.timed, accounted.sets, fun g => (accounted.each g).imp_right (Or.imp_right ?_)⟩
    intro since k registered' time set
    obtain ⟨started, reads, run, later⟩ := since k registered' time set
    by_cases own : g = fxn
    · subst own
      refine ⟨started, reads ++ [name], ?_, later⟩
      change Function.update s.lastRun g _ g = _
      rw [Function.update_self, run]
      rfl
    · exact ⟨started, reads, (Function.update_of_ne own ..).trans run, later⟩

/-- However a function ends, what it has done is accounted for. -/
theorem Accounted.exec (accounted : Accounted s toCome) (fxn : Fxn) (b : Body Key Value) :
    Accounted (exec fxn b s).1 toCome := by
  induction b generalizing s with
  | ret => exact accounted
  | throw => exact accounted
  | get name donttrack next ih => exact ih _ (accounted.get fxn name donttrack)
  | set name data next ih => exact ih (accounted.set name data)

/-- A function that is started has missed no set so far. -/
theorem Accounted.call {fxn : Fxn} (accounted : Accounted s (fxn :: toCome)) :
    Accounted (call body fxn s).1 toCome := by
  apply Accounted.exec
  refine ⟨accounted.timed, fun name time set => Nat.lt_succ_of_lt (accounted.sets name time set), fun g => ?_⟩
  by_cases own : g = fxn
  · subst own
    exact .inr (.inr fun name _ time set => ⟨s.clock, [], Function.update_self .., accounted.sets name time set⟩)
  · refine (accounted.each g).imp_right (Or.imp (fun coming => (List.mem_cons.mp coming).resolve_left own) ?_)
    intro since name registered' time set
    obtain ⟨started, reads, run, later⟩ := since name registered' time set
    exact ⟨started, reads, (Function.update_of_ne own ..).trans run, later⟩

/-- After the loop only the functions behind the one that threw are still to come. -/
theorem Accounted.callAll (queue : List Fxn) (accounted : Accounted s queue) :
    Accounted (callAll body queue s) (leftBehind body queue s) := by
  induction queue generalizing s with
  | nil => exact accounted
  | cons fxn rest ih =>
    rw [FakeMeteor.callAll, leftBehind]
    split
    · exact ih accounted.call
    · exact accounted.call

theorem Accounted.process (accounted : Accounted s []) :
    Accounted (s.process body) (leftBehind body s.pend { s with pend := [], pendTimeout := false }) := by
  apply Accounted.callAll
  refine ⟨fun _ => rfl, accounted.sets, fun fxn => .inr ?_⟩
  rcases accounted.each fxn with queued | coming | since
  · exact .inl queued
  · cases coming
  · exact .inr since

/-- How a run ends, and what it leaves in the fields of the session that it can reach. -/
theorem exec_returns (fxn : Fxn) (b : Body Key Value) (s : State Fxn Key Value) :
    (exec fxn b s).2 = returns b s.session := by
  induction b generalizing s with
  | ret => rfl
  | throw => rfl
  | get name donttrack next ih =>
    rw [FakeMeteor.exec, ih, returns, get_session]
  | set name data next ih => exact ih (s.set name data)

theorem exec_track (fxn : Fxn) (b : Body Key Value) (s : State Fxn Key Value) :
    (exec fxn b s).1.track = s.track.map (fun track => track ++ tracked b s.session) := by
  induction b generalizing s with
  | ret => simp [FakeMeteor.exec, tracked]
  | throw => simp [FakeMeteor.exec, tracked]
  | get name donttrack next ih =>
    rw [FakeMeteor.exec, ih, get_session, tracked]
    cases donttrack with
    | true => rfl
    | false => simp [State.get, Function.comp_def]
  | set name data next ih => exact ih (s.set name data)

/-- A key that the run does not set was set last before it. -/
theorem exec_lastSet (fxn : Fxn) (b : Body Key Value) (s : State Fxn Key Value) {name : Key}
    (unset : name ∉ keysSet b s.session) : (exec fxn b s).1.lastSet name = s.lastSet name := by
  induction b generalizing s with
  | ret => rfl
  | throw => rfl
  | get other donttrack next ih =>
    rw [FakeMeteor.exec, ih _ _ (by rw [get_session]; exact unset)]
    unfold State.get
    split <;> rfl
  | set other data next ih =>
    rw [keysSet, List.mem_cons, not_or] at unset
    rw [FakeMeteor.exec, ih _ unset.2]
    exact Function.update_of_ne unset.1 ..

theorem exec_started (fxn : Fxn) (b : Body Key Value) (s : State Fxn Key Value) {started : Nat} {reads : List Key}
    (running : s.lastRun fxn = some (started, reads)) :
    ∃ reads', (exec fxn b s).1.lastRun fxn = some (started, reads') := by
  induction b generalizing s reads with
  | ret => exact ⟨reads, running⟩
  | throw => exact ⟨reads, running⟩
  | get name donttrack next ih =>
    cases donttrack with
    | true => exact ih _ s running
    | false =>
      have read : (s.get fxn name false).lastRun fxn = some (started, reads ++ [name]) := by simp [State.get, running]
      exact ih _ _ read
  | set name data next ih => exact ih (s.set name data) running

omit [DecidableEq Fxn] in
theorem mem_register_iff (fxn g : Fxn) (names : List Key) (deps : Key → List Fxn) (name : Key) :
    g ∈ names.foldl (register fxn) deps name ↔ g ∈ deps name ∨ g = fxn ∧ name ∈ names := by
  induction names generalizing deps with
  | nil => simp
  | cons first rest ih =>
    rw [List.foldl_cons, ih, List.mem_cons]
    unfold register
    by_cases here : name = first
    · subst here
      rw [Function.update_self, List.mem_append, List.mem_singleton]
      tauto
    · rw [Function.update_of_ne here]
      tauto

/-- After a first run, the function has missed no set of a key that it was registered for by it. -/
theorem Accounted.autorun (accounted : Accounted s []) {fxn : Fxn} (allowed : Allowed body s (.autorun fxn)) :
    Accounted (s.autorun body fxn) [] := by
  have begun : Accounted { s with track := some [] } [fxn] :=
    ⟨accounted.timed, accounted.sets, fun g => (accounted.each g).imp_right (Or.imp_left (absurd · List.not_mem_nil))⟩
  have ran : Accounted (FakeMeteor.call body fxn { s with track := some [] }).1 [] := begun.call
  rw [State.autorun]
  dsimp only
  split
  next returned =>
    refine ⟨ran.timed, ran.sets, fun g => (ran.each g).imp_right (Or.imp_right ?_)⟩
    intro since name registered time set
    rcases (mem_register_iff fxn g _ _ name).mp registered with before | ⟨rfl, reads⟩
    · exact since name before time set
    · -- the key was tracked in this run, and was set before it
      rw [FakeMeteor.call, exec_returns] at returned
      rw [FakeMeteor.call, exec_track, Option.map_some, Option.getD_some, List.nil_append] at reads
      let start : State Fxn Key Value := { s with
        track := some [], clock := s.clock + 1, lastRun := Function.update s.lastRun g (some (s.clock, [])) }
      obtain ⟨later, run⟩ := exec_started g (body g) start (Function.update_self ..)
      have unset : name ∉ keysSet (body g) start.session := allowed returned name reads
      refine ⟨s.clock, later, run, accounted.sets name time ?_⟩
      exact (exec_lastSet g (body g) start unset).symm.trans set
  next threw => exact ran

theorem step_accounted (action : Action Fxn Key Value) (accounted : Accounted s []) (allowed : Allowed body s action)
    (taken : step body s action = some t) : Accounted t [] := by
  cases action with
  | autorun fxn => exact Option.some.inj taken ▸ accounted.autorun allowed
  | set name data => exact Option.some.inj taken ▸ accounted.set name data
  | process =>
    obtain ⟨-, processed⟩ := Option.ite_none_right_eq_some.mp taken
    obtain rfl := Option.some.inj processed
    have drained := @Accounted.process _ _ _ _ _ body _ accounted
    rwa [show leftBehind body s.pend { s with pend := [], pendTimeout := false } = [] from allowed] at drained

omit [DecidableEq Fxn] [DecidableEq Key] in
theorem Accounted.nothingMissed (accounted : Accounted s []) : NothingMissed s := by
  intro stopped fxn
  rcases accounted.each fxn with queued | coming | since
  · rw [accounted.timed stopped] at queued
    cases queued
  · cases coming
  · exact since

omit [DecidableEq Fxn] [DecidableEq Key] in
theorem initial_accounted : Accounted (State.initial : State Fxn Key Value) [] :=
  ⟨fun _ => rfl, nofun, fun _ => .inr (.inr nofun)⟩

/-- However functions are registered, keys set and the timer fires: where no first run sets a key that it tracks, and
no function throws with others behind it, no function misses a set. -/
theorem always_nothingMissed (body : Fxn → Body Key Value) (actions : List (Action Fxn Key Value))
    (allowed : Along (step body) (Allowed body) State.initial actions) :
    Always (step body) NothingMissed State.initial actions := by
  apply always_of_along (fun s => Accounted s []) NothingMissed (Allowed body) _ _ _ allowed
  · exact fun s action t accounted allowed taken => step_accounted action accounted allowed taken
  · exact fun s accounted => accounted.nothingMissed
  · exact initial_accounted

end Draining

inductive Autorun
  | updates
  | watches
  | throws
  | counts
  deriving DecidableEq

/-- One function sets the key another one reads, one throws once the trace has changelists, and one counts its runs
in a key that it reads. -/
def autorunBody : Autorun → Body TimelineKey Nat
  | .updates => .get .maxClnum false fun _ => .set .cview (some 1) .ret
  | .watches => .get .cview false fun _ => .ret
  | .throws => .get .maxClnum false fun
    | none => .ret
    | some _ => .throw
  | .counts => .get .cview false fun runs => .set .cview (runs.map Nat.succ) .ret

/-- With the thrower registered last. -/
theorem always_nothingMissed_throwsLast :
    Always (step autorunBody) NothingMissed State.initial
      [.autorun .watches, .autorun .updates, .autorun .throws, .process, .set .maxClnum (some 5), .process, .process] := by
  apply always_nothingMissed
  refine ⟨fun _ => by decide, ?_⟩
  rintro _ ⟨⟩
  refine ⟨fun _ => by decide, ?_⟩
  rintro _ ⟨⟩
  refine ⟨fun _ => by decide, ?_⟩
  rintro _ ⟨⟩
  refine ⟨rfl, ?_⟩
  rintro _ ⟨⟩
  refine ⟨trivial, ?_⟩
  rintro _ ⟨⟩
  refine ⟨rfl, ?_⟩
  rintro _ ⟨⟩
  refine ⟨rfl, ?_⟩
  rintro _ ⟨⟩
  trivial

/-- With the thrower registered first, and with a function that sets the key it reads. -/
theorem throwsFirst_missed :
    (¬ Always (step autorunBody) NothingMissed State.initial
      [.autorun .throws, .autorun .updates, .set .maxClnum (some 5), .process]) ∧
      ¬ Always (step autorunBody) NothingMissed State.initial [.autorun .counts] := by
  constructor
  · intro always
    have last := (((always.2 _ rfl).2 _ rfl).2 _ rfl).2 _ rfl
    obtain ⟨started, reads, run, later⟩ := last rfl .updates .maxClnum (by decide) 3 rfl
    cases run
    exact absurd later (by decide)
  · intro always
    have last := always.2 _ rfl
    obtain ⟨started, reads, run, later⟩ := last rfl .counts .cview (by decide) 1 rfl
    cases run
    exact absurd later (by decide)

end Qira.FailingComputations
