import Qira.QemuReplay
import Qira.Library.Machines
import Qira.Library.Pointers

/-!
The tree of forked traces. Each trace file on disk names its parent; ids are handed out by two rules,
come free when a trace is deleted, and may still be in use by a running process or as a parent.
-/

namespace Qira.ForkTree
open ChangeRecord QemuReplay Library.Machines Library.Pointers

/-- What `get_forkbase_from_log` and `run_QIRA_log` read of a trace file: the header's parent, none
standing for -1, and first changelist, and the records. -/
structure TraceFile where
  parentId : Option Nat
  firstChangelistNumber : Clnum
  log : List Change

/-- The trace files under `TRACE_FILE_BASE`, by id. -/
abbrev Disk := List (Nat × TraceFile)

def fileOf (disk : Disk) (n : Nat) : Option TraceFile :=
  (disk.find? (fun f => f.1 = n)).map Prod.snd

def unlink (disk : Disk) (n : Nat) : Disk := disk.filter (fun f => f.1 ≠ n)

/-- `init_QIRA` unlinks the name before it creates the file. -/
def create (disk : Disk) (n : Nat) (f : TraceFile) : Disk := (n, f) :: unlink disk n

def append (disk : Disk) (n : Nat) (c : Change) : Disk :=
  disk.map (fun f => if f.1 = n then (f.1, { f.2 with log := f.2.log ++ [c] }) else f)

theorem mem_of_fileOf {disk : Disk} {n : Nat} {f : TraceFile} (found : fileOf disk n = some f) :
    (n, f) ∈ disk := by
  obtain ⟨entry, first, rfl⟩ := Option.map_eq_some_iff.mp found
  have named := List.find?_some first
  rw [decide_eq_true_eq] at named
  rw [← named]
  exact List.mem_of_find?_eq_some first

/-- The loop of `get_next_id`: ids from 0 on, until `stat` fails. -/
def getNextIdFrom (disk : Disk) (thisId : Nat) : Nat :=
  if (fileOf disk thisId).isSome then getNextIdFrom disk (thisId + 1) else thisId
termination_by (disk.filter (fun f => thisId ≤ f.1)).length
decreasing_by
  next present =>
    obtain ⟨f, found⟩ := Option.isSome_iff_exists.mp present
    have narrower : disk.filter (fun f => thisId + 1 ≤ f.1) =
        (disk.filter (fun f => thisId ≤ f.1)).filter (fun f => thisId + 1 ≤ f.1) := by
      rw [List.filter_filter]
      apply List.filter_congr
      intro g _
      rw [← Bool.decide_and]
      exact decide_eq_decide.mpr ⟨fun above => ⟨above, by omega⟩, And.left⟩
    rw [narrower]
    apply List.length_filter_lt_length_iff_exists.mpr
    exact ⟨(thisId, f), List.mem_filter.mpr ⟨mem_of_fileOf found, by simp⟩, by simp⟩

def getNextId (disk : Disk) : Nat := getNextIdFrom disk 0

/-- One more than the greatest id on disk. -/
def getNextRunId (disk : Disk) : Nat :=
  (disk.foldl (fun ret f => max ret (f.1 : Int)) (-1) + 1).toNat

/-- `none` is running out of fuel; `some none` is the exception for a missing file. -/
def getForkbaseFromLog (disk : Disk) : Nat → Nat → Option (Option Nat)
  | 0, _ => none
  | fuel + 1, n =>
      match fileOf disk n with
      | none => some none
      | some f =>
          match f.parentId with
          | none => some (some n)
          | some ret => getForkbaseFromLog disk fuel ret

/-- The parent's log up to the fork first, then the trace's own; nothing for a missing header. -/
def runQiraLog (emulator : Emulator) (disk : Disk) : Nat → Nat → Clnum → Guest → Option Guest
  | 0, _, _, _ => none
  | fuel + 1, thisId, toChange, guest =>
      match fileOf disk thisId with
      | none => some guest
      | some f =>
          match f.parentId with
          | none => some (runQiraLogFromFd emulator toChange f.log guest).1
          | some parent =>
              (runQiraLog emulator disk fuel parent f.firstChangelistNumber guest).map
                (fun guest => (runQiraLogFromFd emulator toChange f.log guest).1)

def parentOf (disk : Disk) (n : Nat) : Option Nat := (fileOf disk n).bind TraceFile.parentId

/-- The files on disk, and the trace ids of the processes still running. -/
structure World where
  disk : Disk
  running : List Nat

def World.start : World := ⟨[], []⟩

inductive Action
  | root
  | forkat (forknum : Nat) (clnum : Clnum)
  | guestFork (id : Nat) (lastForkChange : Clnum)
  | trace (id : Nat) (c : Change)
  | exit (id : Nat)
  | deletefork (forknum : Nat)

def World.step (w : World) : Action → Option World
  | .root =>
      let id := getNextId w.disk
      some ⟨create w.disk id ⟨none, 1, []⟩, id :: w.running⟩
  | .forkat forknum clnum =>
      if (fileOf w.disk forknum).isSome then
        let id := getNextRunId w.disk
        some ⟨create w.disk id ⟨some forknum, clnum, []⟩, id :: w.running⟩
      else none
  | .guestFork parent lastForkChange =>
      if parent ∈ w.running then
        let id := getNextId w.disk
        some ⟨create w.disk id ⟨some parent, lastForkChange + 1, []⟩, id :: w.running⟩
      else none
  | .trace id c => if id ∈ w.running then some { w with disk := append w.disk id c } else none
  | .exit id => if id ∈ w.running then some { w with running := w.running.erase id } else none
  | .deletefork forknum =>
      if (fileOf w.disk forknum).isSome then some { w with disk := unlink w.disk forknum } else none

/-- Every chain of parents from a file on disk is finite, and both recursions over it return. -/
structure Grounded (w : World) : Prop where
  finite : ∀ n, (fileOf w.disk n).isSome → Ends (parentOf w.disk) n
  forkbase : ∀ n, ∃ fuel, (getForkbaseFromLog w.disk fuel n).isSome
  replay : ∀ emulator n toChange guest, ∃ fuel,
    (runQiraLog emulator w.disk fuel n toChange guest).isSome

/-- The parent and the id of the trace that a fork creates. -/
def World.creates (w : World) : Action → Option (Nat × Nat)
  | .forkat forknum _ => some (forknum, getNextRunId w.disk)
  | .guestFork parent _ => some (parent, getNextId w.disk)
  | _ => none

/-- The id a fork is given is not one that its parent's chain leads to. -/
def NewIdOffChain (w : World) (action : Action) : Prop :=
  ∀ parent id, w.creates action = some (parent, id) → ¬ Meets (parentOf w.disk) parent id

section Files
variable {disk : Disk} {n m : Nat}

theorem fileOf_unlink (disk : Disk) (n m : Nat) :
    fileOf (unlink disk n) m = if m = n then none else fileOf disk m := by
  unfold fileOf unlink
  rw [List.find?_filter]
  by_cases same : m = n
  · rw [if_pos same, Option.map_eq_none_iff, List.find?_eq_none]
    intro f _ both
    simp only [ne_eq, decide_not, Bool.not_eq_true', decide_eq_false_iff_not, decide_eq_true_eq,
      Bool.decide_and, Bool.and_eq_true] at both
    exact both.1 (both.2.trans same)
  · rw [if_neg same]
    congr 2
    funext f
    by_cases named : f.1 = m
    · simp [named, same]
    · simp [named]

theorem fileOf_create (disk : Disk) (n m : Nat) (f : TraceFile) :
    fileOf (create disk n f) m = if m = n then some f else fileOf disk m := by
  by_cases same : m = n
  · rw [if_pos same]
    simp [fileOf, create, same]
  · have skipped : fileOf (create disk n f) m = fileOf (unlink disk n) m := by
      unfold fileOf create
      rw [List.find?_cons_of_neg (by simpa using fun equal => same equal.symm)]
    rw [if_neg same, skipped, fileOf_unlink, if_neg same]

theorem fileOf_append (disk : Disk) (n m : Nat) (c : Change) :
    (fileOf (append disk n c) m).bind TraceFile.parentId =
      (fileOf disk m).bind TraceFile.parentId := by
  unfold fileOf append
  rw [List.find?_map]
  have named : ((fun f : Nat × TraceFile => decide (f.1 = m)) ∘ fun f =>
      if f.1 = n then (f.1, { f.2 with log := f.2.log ++ [c] }) else f) =
      fun f => decide (f.1 = m) := by
    funext f
    by_cases here : f.1 = n <;> simp [here]
  rw [named]
  cases disk.find? (fun f => decide (f.1 = m)) with
  | none => rfl
  | some f => by_cases here : f.1 = n <;> simp [here]

theorem parentOf_create (disk : Disk) (n : Nat) (f : TraceFile) :
    parentOf (create disk n f) = Function.update (parentOf disk) n f.parentId := by
  funext m
  rw [parentOf, fileOf_create, Function.update_apply]
  by_cases same : m = n
  · rw [if_pos same, if_pos same]
    rfl
  · rw [if_neg same, if_neg same]
    rfl

theorem parentOf_missing (missing : fileOf disk n = none) : parentOf disk n = none := by
  rw [parentOf, missing]
  rfl

theorem getNextId_missing (disk : Disk) : fileOf disk (getNextId disk) = none := by
  have from_ : ∀ id, fileOf disk (getNextIdFrom disk id) = none := by
    intro id
    induction id using getNextIdFrom.induct disk with
    | case1 id present ih =>
      rw [getNextIdFrom, if_pos present]
      exact ih
    | case2 id absent =>
      rw [getNextIdFrom, if_neg absent]
      simpa using absent
  exact from_ 0

theorem isSome_fileOf_iff : (fileOf disk n).isSome ↔ ∃ f, (n, f) ∈ disk := by
  constructor
  · intro present
    obtain ⟨f, found⟩ := Option.isSome_iff_exists.mp present
    exact ⟨f, mem_of_fileOf found⟩
  · rintro ⟨f, member⟩
    rw [fileOf, Option.isSome_map, List.find?_isSome]
    exact ⟨(n, f), member, decide_eq_true rfl⟩

theorem getNextRunId_le_iff : getNextRunId disk ≤ m ↔ ∀ n, (fileOf disk n).isSome → n < m := by
  have greatest : ∀ (files : Disk) (ret : Int),
      files.foldl (fun ret f => max ret (f.1 : Int)) ret < m ↔ ret < m ∧ ∀ f ∈ files, f.1 < m := by
    intro files
    induction files with
    | nil => simp
    | cons f rest ih =>
      intro ret
      rw [List.foldl_cons, ih, max_lt_iff, List.forall_mem_cons, Nat.cast_lt, and_assoc]
  have listed := greatest disk (-1)
  rw [getNextRunId, Int.toNat_le]
  constructor
  · intro bound n present
    obtain ⟨f, member⟩ := isSome_fileOf_iff.mp present
    exact (listed.mp (by omega)).2 _ member
  · intro below
    have inside : ∀ f ∈ disk, f.1 < m := fun f member => below f.1 (isSome_fileOf_iff.mpr ⟨f.2, member⟩)
    have bound := listed.mpr ⟨by omega, inside⟩
    omega

theorem getNextRunId_missing (disk : Disk) : fileOf disk (getNextRunId disk) = none := by
  apply Option.not_isSome_iff_eq_none.mp
  intro present
  exact lt_irrefl _ (getNextRunId_le_iff.mp le_rfl _ present)

/-- Only which ids are taken matters. -/
theorem getNextRunId_congr {disk' : Disk}
    (same : ∀ n, (fileOf disk n).isSome ↔ (fileOf disk' n).isSome) :
    getNextRunId disk = getNextRunId disk' := by
  apply le_antisymm
  · exact getNextRunId_le_iff.mpr fun n present => getNextRunId_le_iff.mp le_rfl n ((same n).mp present)
  · exact getNextRunId_le_iff.mpr fun n present => getNextRunId_le_iff.mp le_rfl n ((same n).mpr present)

end Files

section Chains
variable {disk : Disk} {n : Nat}

/-- `get_forkbase_from_log` returns exactly where the chain of parents ends. -/
theorem getForkbaseFromLog_iff :
    (∃ fuel, (getForkbaseFromLog disk fuel n).isSome) ↔ Ends (parentOf disk) n := by
  constructor
  · intro returns
    obtain ⟨fuel, returned⟩ := returns
    induction fuel generalizing n with
    | zero => cases returned
    | succ fuel ih =>
      rw [getForkbaseFromLog] at returned
      split at returned
      next missing => exact Ends.stop (parentOf_missing missing)
      next f found =>
        split at returned
        next base => exact Ends.stop (by rw [parentOf, found]; exact base)
        next parent pointer => exact Ends.follow (by rw [parentOf, found]; exact pointer) (ih returned)
  · intro ends
    induction ends with
    | stop last =>
      rename_i n
      refine ⟨1, ?_⟩
      rw [getForkbaseFromLog]
      cases found : fileOf disk n with
      | none => rfl
      | some f =>
        rw [parentOf, found, Option.bind_some] at last
        simp only [last]
        rfl
    | follow pointer rest ih =>
      rename_i n parent
      obtain ⟨fuel, returned⟩ := ih
      refine ⟨fuel + 1, ?_⟩
      obtain ⟨f, found, isParent⟩ := Option.bind_eq_some_iff.mp pointer
      rw [getForkbaseFromLog]
      simp only [found, isParent]
      exact returned

/-- So does the replay of a trace's ancestors. -/
theorem runQiraLog_returns (emulator : Emulator) (ends : Ends (parentOf disk) n) (toChange : Clnum)
    (guest : Guest) : ∃ fuel, (runQiraLog emulator disk fuel n toChange guest).isSome := by
  induction ends generalizing toChange with
  | stop last =>
    rename_i n
    refine ⟨1, ?_⟩
    rw [runQiraLog]
    cases found : fileOf disk n with
    | none => rfl
    | some f =>
      rw [parentOf, found, Option.bind_some] at last
      simp only [last]
      rfl
  | follow pointer rest ih =>
    rename_i n parent
    obtain ⟨f, found, isParent⟩ := Option.bind_eq_some_iff.mp pointer
    obtain ⟨fuel, returned⟩ := ih f.firstChangelistNumber
    refine ⟨fuel + 1, ?_⟩
    rw [runQiraLog]
    simp only [found, isParent, Option.isSome_map]
    exact returned

theorem grounded_iff (w : World) : Grounded w ↔ ∀ n, Ends (parentOf w.disk) n := by
  constructor
  · intro grounded n
    exact getForkbaseFromLog_iff.mp (grounded.forkbase n)
  · intro ends
    exact ⟨fun n _ => ends n, fun n => getForkbaseFromLog_iff.mpr (ends n),
      fun emulator n toChange guest => runQiraLog_returns emulator (ends n) toChange guest⟩

end Chains

/-- A new trace under `parent` keeps the tree grounded exactly when its id is off the chain. -/
theorem grounded_create_iff {w : World} (grounded : Grounded w) (parent id : Nat) (first : Clnum)
    (running : List Nat) (missing : fileOf w.disk id = none) :
    Grounded ⟨create w.disk id ⟨some parent, first, []⟩, running⟩ ↔
      ¬ Meets (parentOf w.disk) parent id := by
  rw [grounded_iff] at grounded ⊢
  change (∀ n, Ends (parentOf (create w.disk id _)) n) ↔ _
  rw [parentOf_create]
  exact ends_update_iff grounded (parentOf_missing missing)

theorem grounded_of_fewer {w t : World} (grounded : Grounded w)
    (fewer : ∀ n parent, parentOf t.disk n = some parent → parentOf w.disk n = some parent) :
    Grounded t := by
  rw [grounded_iff] at grounded ⊢
  exact fun n => (grounded n).of_fewer fewer

/-- From a grounded state, a step leads to a grounded one exactly when the id it hands out is not
one its parent's chain leads to. -/
theorem step_grounded_iff {w t : World} {action : Action} (grounded : Grounded w)
    (taken : w.step action = some t) : Grounded t ↔ NewIdOffChain w action := by
  cases action with
  | root =>
    obtain rfl := Option.some.inj taken
    refine iff_of_true (grounded_of_fewer grounded ?_) nofun
    intro n parent pointer
    change parentOf (create w.disk _ _) n = _ at pointer
    rw [parentOf_create, Function.update_apply] at pointer
    split_ifs at pointer with new
    exact pointer
  | forkat forknum clnum =>
    simp only [World.step] at taken
    split_ifs at taken with existing
    obtain rfl := Option.some.inj taken
    rw [grounded_create_iff grounded _ _ _ _ (getNextRunId_missing w.disk)]
    simp [NewIdOffChain, World.creates]
  | guestFork parent lastForkChange =>
    simp only [World.step] at taken
    split_ifs at taken with alive
    obtain rfl := Option.some.inj taken
    rw [grounded_create_iff grounded _ _ _ _ (getNextId_missing w.disk)]
    simp [NewIdOffChain, World.creates]
  | trace id c =>
    simp only [World.step] at taken
    split_ifs at taken with alive
    obtain rfl := Option.some.inj taken
    refine iff_of_true (grounded_of_fewer grounded ?_) nofun
    intro n parent pointer
    exact (fileOf_append w.disk id n c).symm.trans pointer
  | exit id =>
    simp only [World.step] at taken
    split_ifs at taken with alive
    obtain rfl := Option.some.inj taken
    exact iff_of_true (grounded_of_fewer grounded (fun _ _ pointer => pointer)) nofun
  | deletefork forknum =>
    simp only [World.step] at taken
    split_ifs at taken with existing
    obtain rfl := Option.some.inj taken
    refine iff_of_true (grounded_of_fewer grounded ?_) nofun
    intro n parent pointer
    change (fileOf (unlink w.disk forknum) n).bind _ = _ at pointer
    rw [fileOf_unlink] at pointer
    split_ifs at pointer with gone
    · cases pointer
    · exact pointer

theorem start_grounded : Grounded World.start :=
  (grounded_iff World.start).mpr (fun _ => Ends.stop rfl)

/-- For every sequence of runs, forks and deletions, all states are grounded if and only if no fork
was given an id that its parent's chain leads to. -/
theorem grounded_iff_newIdOffChain (actions : List Action) (t : World)
    (ran : run World.step World.start actions = some t) :
    Always World.step Grounded World.start actions ↔
      Along World.step NewIdOffChain World.start actions :=
  always_iff_along (fun _ => True) Grounded NewIdOffChain (fun _ _ _ _ _ => trivial)
    (fun _ _ _ _ grounded taken => step_grounded_iff grounded taken) trivial start_grounded ran

private theorem getNextId_nil : getNextId [] = 0 := by
  rw [getNextId, getNextIdFrom]
  rfl

/-- After a root run and a fork from it. -/
def rootAndFork : World :=
  ⟨[(1, ⟨some 0, 7, []⟩), (0, ⟨none, 1, []⟩)], [1, 0]⟩

theorem grounded_iff_newIdOffChain_fork :
    run World.step World.start [.root, .forkat 0 7] = some rootAndFork ∧
      (Always World.step Grounded World.start [.root, .forkat 0 7] ↔
        Along World.step NewIdOffChain World.start [.root, .forkat 0 7]) := by
  have ran : run World.step World.start [.root, .forkat 0 7] = some rootAndFork := by
    rw [run_cons]
    simp only [World.step, World.start, getNextId_nil, Option.bind_some]
    rfl
  exact ⟨ran, grounded_iff_newIdOffChain [.root, .forkat 0 7] rootAndFork ran⟩

/-- The root's log is deleted while its process runs on; when that process forks, the freed id makes
the new trace its own parent. -/
theorem reused_id_loops :
    ∃ t, run World.step World.start [.root, .deletefork 0, .guestFork 0 5] = some t ∧
      parentOf t.disk 0 = some 0 ∧ (∀ fuel, getForkbaseFromLog t.disk fuel 0 = none) ∧
      ¬ Grounded t := by
  have ran : run World.step World.start [.root, .deletefork 0, .guestFork 0 5] =
      some ⟨[(0, ⟨some 0, 6, []⟩)], [0, 0]⟩ := by
    rw [run_cons]
    simp only [World.step, World.start, getNextId_nil, Option.bind_some]
    rw [run_cons]
    change run World.step ⟨[], [0]⟩ [.guestFork 0 5] = _
    rw [run_cons]
    simp only [World.step, List.mem_singleton, if_true, getNextId_nil, Option.bind_some]
    rfl
  have loops : ∀ fuel, getForkbaseFromLog [(0, ⟨some 0, 6, []⟩)] fuel 0 = none := by
    intro fuel
    induction fuel with
    | zero => rfl
    | succ fuel ih => exact ih
  refine ⟨_, ran, rfl, loops, ?_⟩
  intro grounded
  obtain ⟨fuel, returned⟩ := grounded.forkbase 0
  rw [loops fuel] at returned
  cases returned

end Qira.ForkTree
