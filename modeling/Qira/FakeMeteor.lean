import Qira.Library.Machines

/-!
`fakemeteor.js`: the session keys of the client, and the functions that are to be run again when a key
they read is set. A function is registered for the keys read in its first run, under `autorun`; later
runs come from a queue that a timer empties, and are not tracked.
-/

namespace Qira.FakeMeteor
open Library.Machines

/-- What a function does with the session; a value is missing where it is `undefined`. -/
inductive Body (Key Value : Type)
  | ret
  | throw
  | get (name : Key) (donttrack : Bool) (next : Option Value → Body Key Value)
  | set (name : Key) (data : Option Value) (next : Body Key Value)

/-- The fields of `Deps` and `Session`; `deps` is empty where it is `undefined`, and `pendTimeout` tells
whether a run of `_process` is pending. The last three record when keys were set and functions were
started last, and what they have read with tracking since. -/
structure State (Fxn Key Value : Type) where
  deps : Key → List Fxn
  pend : List Fxn
  pendTimeout : Bool
  track : Option (List Key)
  session : Key → Option Value
  clock : Nat
  lastSet : Key → Option Nat
  lastRun : Fxn → Option (Nat × List Key)

variable {Fxn Key Value : Type} [DecidableEq Fxn] [DecidableEq Key]

def State.initial : State Fxn Key Value where
  deps := fun _ => []
  pend := []
  pendTimeout := false
  track := none
  session := fun _ => none
  clock := 0
  lastSet := fun _ => none
  lastRun := fun _ => none

/-- What `Session.get` leaves behind when a function calls it. -/
def State.get (s : State Fxn Key Value) (fxn : Fxn) (name : Key) (donttrack : Bool) : State Fxn Key Value :=
  if donttrack then s
  else { s with
    track := s.track.map (fun track => track ++ [name])
    lastRun := Function.update s.lastRun fxn ((s.lastRun fxn).map (fun last => (last.1, last.2 ++ [name]))) }

/-- The queue after `_pend.push(fxn)`, unless it is in there. -/
def enqueue (pend : List Fxn) (fxn : Fxn) : List Fxn := if fxn ∈ pend then pend else pend ++ [fxn]

/-- `Session.set`; every registered function starts the timer anew. -/
def State.set (s : State Fxn Key Value) (name : Key) (data : Option Value) : State Fxn Key Value :=
  { s with
    session := Function.update s.session name data
    pend := (s.deps name).foldl enqueue s.pend
    pendTimeout := s.pendTimeout || !(s.deps name).isEmpty
    clock := s.clock + 1
    lastSet := Function.update s.lastSet name (some s.clock) }

/-- Runs what is left of a function's body, and tells whether it returned. -/
def exec (fxn : Fxn) : Body Key Value → State Fxn Key Value → State Fxn Key Value × Bool
  | .ret, s => (s, true)
  | .throw, s => (s, false)
  | .get name donttrack next, s => exec fxn (next (s.session name)) (s.get fxn name donttrack)
  | .set name data next, s => exec fxn next (s.set name data)

/-- `fxn()` -/
def call (body : Fxn → Body Key Value) (fxn : Fxn) (s : State Fxn Key Value) :
    State Fxn Key Value × Bool :=
  exec fxn (body fxn)
    { s with clock := s.clock + 1, lastRun := Function.update s.lastRun fxn (some (s.clock, [])) }

/-- The loop of `_process`, which an exception ends. -/
def callAll (body : Fxn → Body Key Value) : List Fxn → State Fxn Key Value → State Fxn Key Value
  | [], s => s
  | fxn :: rest, s => if (call body fxn s).2 then callAll body rest (call body fxn s).1 else (call body fxn s).1

def State.process (body : Fxn → Body Key Value) (s : State Fxn Key Value) : State Fxn Key Value :=
  callAll body s.pend { s with pend := [], pendTimeout := false }

/-- `Deps._deps[name].push(fxn)` -/
def register (fxn : Fxn) (deps : Key → List Fxn) (name : Key) : Key → List Fxn :=
  Function.update deps name (deps name ++ [fxn])

/-- `Deps.autorun`; an exception leaves the tracking on. -/
def State.autorun (body : Fxn → Body Key Value) (s : State Fxn Key Value) (fxn : Fxn) :
    State Fxn Key Value :=
  let called := call body fxn { s with track := some [] }
  if called.2 then
    { called.1 with
      track := none
      deps := (called.1.track.getD []).foldl (register fxn) called.1.deps }
  else called.1

inductive Action (Fxn Key Value : Type)
  | autorun (fxn : Fxn)
  | set (name : Key) (data : Option Value)
  | process

/-- `_process` runs when the timer fires. -/
def step (body : Fxn → Body Key Value) (s : State Fxn Key Value) :
    Action Fxn Key Value → Option (State Fxn Key Value)
  | .autorun fxn => some (s.autorun body fxn)
  | .set name data => some (s.set name data)
  | .process => if s.pendTimeout then some (s.process body) else none

/-- A function that reads session keys with tracking, and returns. -/
def Body.ReadsOnly : Body Key Value → Prop
  | .ret => True
  | .throw => False
  | .get _ donttrack next => donttrack = false ∧ ∀ value, (next value).ReadsOnly
  | .set .. => False

/-- The function's last run started after each set of a key it read. -/
def Fresh (s : State Fxn Key Value) (fxn : Fxn) : Prop :=
  ∀ started reads, s.lastRun fxn = some (started, reads) →
    ∀ name ∈ reads, ∀ time, s.lastSet name = some time → time < started

/-- Where no run of `_process` is pending, now or after the pending one, every function is fresh. -/
def Settles (body : Fxn → Body Key Value) (s : State Fxn Key Value) : Prop :=
  (s.pendTimeout = false → ∀ fxn, Fresh s fxn) ∧
    ∀ t, step body s .process = some t → t.pendTimeout = false → ∀ fxn, Fresh t fxn

/-- A key is set only when all functions that read it in their last run are registered for it or queued. -/
def Watched (s : State Fxn Key Value) : Action Fxn Key Value → Prop
  | .set name _ => ∀ fxn started reads, s.lastRun fxn = some (started, reads) → name ∈ reads →
      fxn ∈ s.deps name ∨ fxn ∈ s.pend
  | _ => True

theorem mem_foldl_enqueue (deps pend : List Fxn) (fxn : Fxn) :
    fxn ∈ deps.foldl enqueue pend ↔ fxn ∈ deps ∨ fxn ∈ pend := by
  induction deps generalizing pend with
  | nil => simp
  | cons g rest ih =>
    have pushed : fxn ∈ enqueue pend g ↔ fxn = g ∨ fxn ∈ pend := by
      unfold enqueue
      split_ifs with queued
      · exact (or_iff_right_of_imp fun same => same ▸ queued).symm
      · rw [List.mem_append, List.mem_singleton, or_comm]
    rw [List.foldl_cons, ih, pushed, List.mem_cons, or_left_comm, or_assoc]

section Reading
variable {body : Fxn → Body Key Value} {s t : State Fxn Key Value} {fxn : Fxn}

theorem exec_readsOnly (fxn : Fxn) (b : Body Key Value) (readsOnly : b.ReadsOnly) (s : State Fxn Key Value)
    (started : Nat) (old : List Key) (running : s.lastRun fxn = some (started, old)) :
    ∃ reads, exec fxn b s =
      ({ s with
          track := s.track.map (fun track => track ++ reads)
          lastRun := Function.update s.lastRun fxn (some (started, old ++ reads)) }, true) := by
  induction b generalizing s old with
  | ret =>
    refine ⟨[], ?_⟩
    have sameRun : Function.update s.lastRun fxn (some (started, old)) = s.lastRun := by
      rw [← running, Function.update_eq_self]
    simp only [exec, List.append_nil, Option.map_id', sameRun]
  | throw => exact readsOnly.elim
  | get name donttrack next ih =>
    obtain ⟨rfl, later⟩ := readsOnly
    obtain ⟨reads, ran⟩ := ih (s.session name) (later _) (s.get fxn name false) (old ++ [name])
      (by simp [State.get, running])
    refine ⟨name :: reads, ?_⟩
    rw [exec, ran]
    simp only [State.get, Bool.false_eq_true, if_false, Option.map_map, Function.comp_def,
      Function.update_idem, List.append_assoc, List.singleton_append]
  | set => exact readsOnly.elim

/-- A call of such a function notes its reads, and changes nothing else. -/
theorem call_readsOnly (readsOnly : (body fxn).ReadsOnly) (s : State Fxn Key Value) :
    ∃ reads, call body fxn s =
      ({ s with
          clock := s.clock + 1
          track := s.track.map (fun track => track ++ reads)
          lastRun := Function.update s.lastRun fxn (some (s.clock, reads)) }, true) := by
  obtain ⟨reads, ran⟩ := exec_readsOnly fxn (body fxn) readsOnly
    { s with clock := s.clock + 1, lastRun := Function.update s.lastRun fxn (some (s.clock, [])) }
    s.clock [] (Function.update_self ..)
  refine ⟨reads, ?_⟩
  rw [call, ran]
  simp only [Function.update_idem, List.nil_append]

/-- Exactly the functions of the queue have been started, between two times. -/
def RunSince (clock : Nat) (lastRun : Fxn → Option (Nat × List Key)) (clock' : Nat)
    (lastRun' : Fxn → Option (Nat × List Key)) (queue : List Fxn) (fxn : Fxn) : Prop :=
  (fxn ∉ queue ∧ lastRun' fxn = lastRun fxn) ∨
    (fxn ∈ queue ∧ ∃ started reads, lastRun' fxn = some (started, reads) ∧
      clock ≤ started ∧ started < clock')

theorem callAll_readsOnly (readsOnly : ∀ fxn, (body fxn).ReadsOnly) (queue : List Fxn)
    (s : State Fxn Key Value) (untracked : s.track = none) :
    ∃ clock lastRun, callAll body queue s = { s with clock, lastRun } ∧ s.clock ≤ clock ∧
      ∀ fxn, RunSince s.clock s.lastRun clock lastRun queue fxn := by
  induction queue generalizing s with
  | nil => exact ⟨s.clock, s.lastRun, rfl, le_rfl, fun fxn => .inl ⟨List.not_mem_nil, rfl⟩⟩
  | cons g rest ih =>
    obtain ⟨reads, called⟩ := call_readsOnly (readsOnly g) s
    rw [untracked, Option.map_none, ← untracked] at called
    obtain ⟨clock, lastRun, ran, later, since⟩ := ih
      { s with clock := s.clock + 1, lastRun := Function.update s.lastRun g (some (s.clock, reads)) } untracked
    refine ⟨clock, lastRun, ?_, Nat.le_of_succ_le later, fun fxn => ?_⟩
    · rw [callAll, called, if_pos rfl, ran]
    · rcases since fxn with ⟨outside, same⟩ | ⟨inside, started, reads', run, after, before⟩
      · by_cases own : fxn = g
        · subst own
          exact .inr ⟨List.mem_cons_self, s.clock, reads, same.trans (Function.update_self ..), le_rfl, later⟩
        · exact .inl ⟨fun inside => (List.mem_cons.mp inside).elim own outside,
            same.trans (Function.update_of_ne own ..)⟩
      · exact .inr ⟨List.mem_cons_of_mem g inside, started, reads', run, Nat.le_of_succ_le after, before⟩

/-- Between actions nothing is tracked, the queue has a timer, and the clock is ahead. -/
structure Quiet (s : State Fxn Key Value) : Prop where
  untracked : s.track = none
  timed : s.pendTimeout = false → s.pend = []
  sets : ∀ name time, s.lastSet name = some time → time < s.clock
  runs : ∀ fxn started reads, s.lastRun fxn = some (started, reads) → started < s.clock

omit [DecidableEq Fxn] [DecidableEq Key] in
theorem Quiet.initial : Quiet (State.initial : State Fxn Key Value) := ⟨rfl, fun _ => rfl, nofun, nofun⟩

/-- A set that queues functions starts the timer. -/
theorem set_timed (timed : s.pendTimeout = false → s.pend = []) (name : Key) (data : Option Value) :
    (s.set name data).pendTimeout = false → (s.set name data).pend = [] := by
  intro stopped
  obtain ⟨before, unregistered⟩ := Bool.or_eq_false_iff.mp stopped
  have none : s.deps name = [] := by simpa using unregistered
  change (s.deps name).foldl enqueue s.pend = []
  rw [none, timed before]
  rfl

/-- The clock stays ahead of all sets. -/
theorem set_sets (sets : ∀ name time, s.lastSet name = some time → time < s.clock) (name : Key)
    (data : Option Value) (k : Key) (time : Nat) :
    (s.set name data).lastSet k = some time → time < (s.set name data).clock := by
  change Function.update s.lastSet name (some s.clock) k = some time → time < s.clock + 1
  by_cases same : k = name
  · rw [same, Function.update_self]
    rintro ⟨⟩
    exact Nat.lt_succ_self _
  · rw [Function.update_of_ne same]
    exact fun earlier => Nat.lt_succ_of_lt (sets k time earlier)

theorem Quiet.set (quiet : Quiet s) (name : Key) (data : Option Value) : Quiet (s.set name data) where
  untracked := quiet.untracked
  timed := set_timed quiet.timed name data
  sets := set_sets quiet.sets name data
  runs := fun fxn started reads run => Nat.lt_succ_of_lt (quiet.runs fxn started reads run)

/-- The pending run empties the queue, and leaves each function as it was or run since. -/
theorem process_eq (readsOnly : ∀ fxn, (body fxn).ReadsOnly) (quiet : Quiet s) :
    ∃ clock lastRun, s.process body = { s with pend := [], pendTimeout := false, clock, lastRun } ∧
      s.clock ≤ clock ∧ ∀ fxn, RunSince s.clock s.lastRun clock lastRun s.pend fxn :=
  callAll_readsOnly readsOnly s.pend { s with pend := [], pendTimeout := false } quiet.untracked

theorem Quiet.process (readsOnly : ∀ fxn, (body fxn).ReadsOnly) (quiet : Quiet s) :
    Quiet (s.process body) := by
  obtain ⟨clock, lastRun, ran, later, since⟩ := process_eq readsOnly quiet
  rw [ran]
  refine ⟨quiet.untracked, fun _ => rfl, fun name time set => (quiet.sets name time set).trans_le later, ?_⟩
  intro fxn started reads run
  rcases since fxn with ⟨-, same⟩ | ⟨-, started', reads', run', -, before⟩
  · exact (quiet.runs fxn started reads (same.symm.trans run)).trans_le later
  · obtain ⟨rfl, -⟩ := Prod.mk.inj (Option.some.inj (run.symm.trans run'))
    exact before

/-- The first run registers a function, and is like the later ones otherwise. -/
theorem autorun_eq (readsOnly : ∀ fxn, (body fxn).ReadsOnly) (quiet : Quiet s) (fxn : Fxn) :
    ∃ reads deps, s.autorun body fxn =
      { s with
        deps
        clock := s.clock + 1
        lastRun := Function.update s.lastRun fxn (some (s.clock, reads)) } := by
  obtain ⟨reads, called⟩ := call_readsOnly (readsOnly fxn) { s with track := some [] }
  refine ⟨reads, reads.foldl (register fxn) s.deps, ?_⟩
  rw [State.autorun, called, if_pos rfl, ← quiet.untracked]
  rfl

theorem Quiet.autorun (readsOnly : ∀ fxn, (body fxn).ReadsOnly) (quiet : Quiet s) (fxn : Fxn) :
    Quiet (s.autorun body fxn) := by
  obtain ⟨reads, deps, ran⟩ := autorun_eq readsOnly quiet fxn
  rw [ran]
  refine ⟨quiet.untracked, quiet.timed, fun name time set => Nat.lt_succ_of_lt (quiet.sets name time set), ?_⟩
  intro g started reads'
  change Function.update s.lastRun fxn (some (s.clock, reads)) g = some (started, reads') →
    started < s.clock + 1
  by_cases own : g = fxn
  · rw [own, Function.update_self]
    rintro ⟨⟩
    exact Nat.lt_succ_self _
  · rw [Function.update_of_ne own]
    exact fun run => Nat.lt_succ_of_lt (quiet.runs g started reads' run)

theorem step_quiet (readsOnly : ∀ fxn, (body fxn).ReadsOnly) (action : Action Fxn Key Value) (quiet : Quiet s)
    (taken : step body s action = some t) : Quiet t := by
  cases action with
  | autorun fxn => exact Option.some.inj taken ▸ quiet.autorun readsOnly fxn
  | set name data => exact Option.some.inj taken ▸ quiet.set name data
  | process =>
    obtain ⟨-, processed⟩ := Option.ite_none_right_eq_some.mp taken
    exact Option.some.inj processed ▸ quiet.process readsOnly

/-- Functions that are not queued are fresh. -/
def FreshOutside (s : State Fxn Key Value) : Prop := ∀ fxn, fxn ∉ s.pend → Fresh s fxn

theorem process_fresh (readsOnly : ∀ fxn, (body fxn).ReadsOnly) (quiet : Quiet s) (fxn : Fxn) :
    Fresh (s.process body) fxn ↔ fxn ∈ s.pend ∨ Fresh s fxn := by
  obtain ⟨clock, lastRun, ran, later, since⟩ := process_eq readsOnly quiet
  rw [ran]
  rcases since fxn with ⟨outside, same⟩ | ⟨queued, started, reads, run, after, -⟩
  · rw [or_iff_right outside]
    unfold Fresh
    simp only [same]
  · refine iff_of_true ?_ (.inl queued)
    intro started' reads' run' name _ time set
    obtain ⟨rfl, -⟩ := Prod.mk.inj (Option.some.inj (run.symm.trans run'))
    exact (quiet.sets name time set).trans_le after

/-- Letting the pending run happen leaves nothing stale exactly if what is not queued is fresh. -/
theorem settles_iff (readsOnly : ∀ fxn, (body fxn).ReadsOnly) (quiet : Quiet s) :
    Settles body s ↔ FreshOutside s := by
  constructor
  · rintro ⟨now, after⟩ fxn outside
    by_cases pending : s.pendTimeout = true
    · obtain ⟨clock, lastRun, ran, -⟩ := process_eq readsOnly quiet
      have settled := after (s.process body) (if_pos pending) (by rw [ran]) fxn
      exact ((process_fresh readsOnly quiet fxn).mp settled).resolve_left outside
    · exact now (Bool.eq_false_iff.mpr pending) fxn
  · intro fresh
    constructor
    · intro stopped fxn
      exact fresh fxn (quiet.timed stopped ▸ List.not_mem_nil)
    · intro t taken _ fxn
      obtain ⟨-, processed⟩ := Option.ite_none_right_eq_some.mp taken
      obtain rfl := Option.some.inj processed
      exact (process_fresh readsOnly quiet fxn).mpr (Classical.or_iff_not_imp_left.mpr (fresh fxn))

theorem autorun_freshOutside (readsOnly : ∀ fxn, (body fxn).ReadsOnly) (quiet : Quiet s)
    (fresh : FreshOutside s) (fxn : Fxn) : FreshOutside (s.autorun body fxn) := by
  obtain ⟨reads, deps, ran⟩ := autorun_eq readsOnly quiet fxn
  rw [ran]
  intro g outside started reads' run name inReads time set
  by_cases own : g = fxn
  · subst own
    have last : some (s.clock, reads) = some (started, reads') :=
      (Function.update_self g (some (s.clock, reads)) s.lastRun).symm.trans run
    obtain ⟨rfl, -⟩ := Prod.mk.inj (Option.some.inj last)
    exact quiet.sets name time set
  · exact fresh g outside started reads' ((Function.update_of_ne own ..).symm.trans run) name inReads time set

/-- A set makes stale who read the key, so all of these have to be queued. -/
theorem set_freshOutside_iff (quiet : Quiet s) (fresh : FreshOutside s) (name : Key) (data : Option Value) :
    FreshOutside (s.set name data) ↔ Watched s (.set name data) := by
  have queued : ∀ fxn, fxn ∈ (s.set name data).pend ↔ fxn ∈ s.deps name ∨ fxn ∈ s.pend :=
    mem_foldl_enqueue (s.deps name) s.pend
  constructor
  · intro still fxn started reads run inReads
    by_contra outside
    have before := still fxn ((queued fxn).not.mpr outside) started reads run name inReads s.clock
      (Function.update_self ..)
    exact absurd (quiet.runs fxn started reads run) before.not_gt
  · intro watched fxn outside started reads run k inReads time set
    rw [queued] at outside
    by_cases same : k = name
    · subst same
      exact absurd (watched fxn started reads run inReads) outside
    · exact fresh fxn (fun inside => outside (.inr inside)) started reads run k inReads time
        ((Function.update_of_ne same ..).symm.trans set)

/-- What a step does to freshness depends on the sets only. -/
theorem step_freshOutside_iff (readsOnly : ∀ fxn, (body fxn).ReadsOnly) (action : Action Fxn Key Value)
    (quiet : Quiet s) (fresh : FreshOutside s) (taken : step body s action = some t) :
    FreshOutside t ↔ Watched s action := by
  cases action with
  | autorun fxn =>
    exact iff_of_true (Option.some.inj taken ▸ autorun_freshOutside readsOnly quiet fresh fxn) trivial
  | set name data => exact Option.some.inj taken ▸ set_freshOutside_iff quiet fresh name data
  | process =>
    obtain ⟨-, processed⟩ := Option.ite_none_right_eq_some.mp taken
    obtain rfl := Option.some.inj processed
    refine iff_of_true (fun fxn _ => (process_fresh readsOnly quiet fxn).mpr ?_) trivial
    exact Classical.or_iff_not_imp_left.mpr (fresh fxn)

/-- Throughout a run, functions are fresh once no run of `_process` is pending exactly if every key set was
watched by those that had read it. -/
theorem always_settles_iff (body : Fxn → Body Key Value) (readsOnly : ∀ fxn, (body fxn).ReadsOnly)
    (actions : List (Action Fxn Key Value)) (t : State Fxn Key Value)
    (ran : run (step body) State.initial actions = some t) :
    Always (step body) (Settles body) State.initial actions ↔
      Along (step body) Watched State.initial actions := by
  have preserved : ∀ s a t, Quiet s → step body s a = some t → Quiet t :=
    fun s a t quiet taken => step_quiet readsOnly a quiet taken
  rw [always_congr Quiet (Settles body) FreshOutside preserved (fun s => settles_iff readsOnly) Quiet.initial]
  exact always_iff_along Quiet FreshOutside Watched preserved
    (fun s a t quiet fresh taken => step_freshOutside_iff readsOnly a quiet fresh taken) Quiet.initial nofun ran

end Reading

inductive TimelineKey
  | maxClnum
  | cview
  deriving DecidableEq

/-- The reads of "updating bounds flags" and of `redraw_flags`, which it ends with. -/
def updateBoundsFlags (_ : Unit) : Body TimelineKey Nat :=
  .get .maxClnum false fun
    | none => .ret
    | some _ => .get .cview false fun
      | none => .ret
      | some _ => .get .maxClnum false fun _ => .ret

theorem updateBoundsFlags_readsOnly : ∀ fxn, (updateBoundsFlags fxn).ReadsOnly := by
  intro fxn
  refine ⟨rfl, fun maxclnum => ?_⟩
  cases maxclnum with
  | none => trivial
  | some _ =>
    refine ⟨rfl, fun cview => ?_⟩
    cases cview with
    | none => trivial
    | some _ => exact ⟨rfl, fun _ => trivial⟩

/-- The bounds arrive after the first run, and the view is set after the second. -/
def lateView : List (Action Unit TimelineKey Nat) :=
  [.autorun (), .set .maxClnum (some 1), .process, .set .cview (some 2)]

theorem always_settles_iff_lateView :
    Always (step updateBoundsFlags) (Settles updateBoundsFlags) State.initial lateView ↔
      Along (step updateBoundsFlags) Watched State.initial lateView :=
  always_settles_iff updateBoundsFlags updateBoundsFlags_readsOnly lateView _ rfl

theorem lateView_stale :
    (∀ fxn, (updateBoundsFlags fxn).ReadsOnly) ∧
      ∃ s, run (step updateBoundsFlags) State.initial lateView = some s ∧ s.pendTimeout = false ∧
        ¬ ∀ fxn, Fresh s fxn := by
  refine ⟨updateBoundsFlags_readsOnly, _, rfl, rfl, fun fresh => ?_⟩
  have before : 3 < 2 := fresh () 2 [.maxClnum, .cview] rfl .cview (by decide) 3 rfl
  omega

end Qira.FakeMeteor
