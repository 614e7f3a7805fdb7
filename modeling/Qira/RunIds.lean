import Qira.ForkTree

/-!
How the web server names runs: a fork request or a connection draws its id from the directory, and the
tracer that is started with it creates the log later.
-/

namespace Qira.RunIds
open ChangeRecord ForkTree Library.Machines

/-- One entry of `pending`: an address, its new data, and how long the data's hex string is. -/
structure Pending where
  daddr : Address
  ddata : BitVec 64
  ddataLength : Nat
  deriving DecidableEq

/-- Whether `qira` runs with `-s`, and the program's register size. -/
structure Config where
  server : Bool
  REGSIZE : Nat

def modOf (cfg : Config) (clnum : Clnum) (p : Pending) : Change :=
  let dsize := if p.ddataLength > 4 then cfg.REGSIZE else 1
  let flags := IS_VALID ||| IS_WRITE
  let flags := if p.daddr ≥ 0x1000 then flags ||| IS_MEM else flags
  ⟨p.daddr, p.ddata, clnum - 1, flags ||| BitVec.ofNat 32 (dsize * 8)⟩

inductive Phase
  | drawn
  | modded
  | done
  deriving DecidableEq

/-- A fork request or an accepted connection, from `get_next_run_id` on. `dat` is what it leaves in the
`_mods` file of its id; `traced` says that a tracer is started with the id. -/
structure Request where
  runId : Nat
  parentId : Option Nat
  startCl : Clnum
  dat : List Change
  traced : Bool
  phase : Phase
  deriving DecidableEq

/-- A process listening in `start_bindserver`. -/
structure Bindserver where
  parentId : Option Nat
  startCl : Clnum
  loop : Bool
  deriving DecidableEq

/-- `disk` has the logs and `mods` the `_mods` files, by id; which request wrote a file is kept beside it,
in `creator` and `modder`. -/
structure System where
  disk : Disk
  creator : Nat → Option Nat
  mods : Nat → Option (List Change)
  modder : Nat → Option Nat
  requests : List Request
  servers : List Bindserver

def System.start (cfg : Config) (disk : Disk) (mods : Nat → Option (List Change)) : System :=
  ⟨disk, fun _ => none, mods, fun _ => none, [], if cfg.server then [⟨none, 1, true⟩] else []⟩

inductive Action
  | forkat (forknum : Nat) (clnum : Clnum) (pending : List Pending)
  | accept (k : Nat)
  | writeMods (k : Nat)
  | startBindserver (k : Nat)
  | initQIRA (k : Nat)

def Request.log (r : Request) : TraceFile := ⟨r.parentId, r.startCl, []⟩

def System.setPhase (s : System) (k : Nat) (r : Request) (phase : Phase) : System :=
  { s with requests := s.requests.set k { r with phase } }

def System.draw (s : System) (parentId : Option Nat) (startCl : Clnum) (dat : List Change)
    (traced : Bool) (phase : Phase) : System :=
  { s with requests := s.requests ++ [⟨getNextRunId s.disk, parentId, startCl, dat, traced, phase⟩] }

/-- `write_log` is called only for modifications that are there. -/
def System.writeLog (s : System) (k : Nat) (r : Request) : System :=
  if r.dat = [] then s
  else { s with
    mods := Function.update s.mods r.runId (some r.dat)
    modder := Function.update s.modder r.runId (some k) }

def System.step (cfg : Config) (s : System) : Action → Option System
  | .forkat forknum clnum pending =>
      some (s.draw (some forknum) clnum (pending.map (modOf cfg clnum)) (!cfg.server) .drawn)
  | .accept k =>
      match s.servers[k]? with
      | none => none
      | some b =>
          some { s.draw b.parentId b.startCl [] true .modded with
            servers := if b.loop then s.servers else s.servers.eraseIdx k }
  | .writeMods k =>
      match s.requests[k]? with
      | none => none
      | some r =>
          if r.phase = .drawn then some ((s.setPhase k r .modded).writeLog k r) else none
  | .startBindserver k =>
      match s.requests[k]? with
      | none => none
      | some r =>
          if r.traced = false ∧ r.phase = .modded then
            some { s.setPhase k r .done with servers := s.servers ++ [⟨r.parentId, r.startCl, false⟩] }
          else none
  | .initQIRA k =>
      match s.requests[k]? with
      | none => none
      | some r =>
          if r.traced = true ∧ r.phase = .modded then
            some { s.setPhase k r .done with
              disk := create s.disk r.runId r.log
              creator := Function.update s.creator r.runId (some k) }
          else none

/-- Both start a tracer with their id, or both leave modifications under it. -/
def Request.Competes (a b : Request) : Prop :=
  (a.traced = true ∧ b.traced = true) ∨ (a.dat ≠ [] ∧ b.dat ≠ [])

/-- The runs that were there before still have their logs and their `_mods` files. -/
structure Kept (before s : System) : Prop where
  logs : ∀ (n : Nat) (f : TraceFile), fileOf before.disk n = some f → fileOf s.disk n = some f
  mods : ∀ n : Nat, (fileOf before.disk n).isSome → s.mods n = before.mods n

/-- No id is given twice, each log and each `_mods` file is still the one its request wrote, and so are
those of earlier runs. -/
structure Unshared (before s : System) : Prop where
  kept : Kept before s
  ids : ∀ (i j : Nat) (a b : Request), s.requests[i]? = some a → s.requests[j]? = some b → i ≠ j →
    a.Competes b → a.runId ≠ b.runId
  logs : ∀ (k : Nat) (r : Request), s.requests[k]? = some r → r.traced = true → r.phase = .done →
    s.creator r.runId = some k ∧ fileOf s.disk r.runId = some r.log
  mods : ∀ (k : Nat) (r : Request), s.requests[k]? = some r → r.dat ≠ [] → r.phase ≠ .drawn →
    s.modder r.runId = some k ∧ s.mods r.runId = some r.dat

/-- When an id is drawn for a tracer, each request that was given one for a tracer before has a log under
it; and so for the ids that modifications are left under. -/
def Settled (cfg : Config) (s : System) : Action → Prop
  | .forkat _ _ pending => ∀ r ∈ s.requests,
      (r.traced = true ∧ cfg.server = false) ∨ (r.dat ≠ [] ∧ pending ≠ []) →
        (fileOf s.disk r.runId).isSome
  | .accept _ => ∀ r ∈ s.requests, r.traced = true → (fileOf s.disk r.runId).isSome
  | _ => True

/-- What a request was given has a log on disk, or would be given out again; and it is no earlier run's. -/
structure Given (before s : System) : Prop where
  next : ∀ r ∈ s.requests, (fileOf s.disk r.runId).isSome ∨ r.runId = getNextRunId s.disk
  fresh : ∀ r ∈ s.requests, fileOf before.disk r.runId = none
  kept : Kept before s

section Requests
variable {s : System} {k : Nat} {r : Request} {phase : Phase}

@[simp] theorem requests_writeLog : (s.writeLog k r).requests = s.requests := by
  unfold System.writeLog
  split_ifs <;> rfl

@[simp] theorem disk_writeLog : (s.writeLog k r).disk = s.disk := by
  unfold System.writeLog
  split_ifs <;> rfl

@[simp] theorem creator_writeLog : (s.writeLog k r).creator = s.creator := by
  unfold System.writeLog
  split_ifs <;> rfl

/-- The `_mods` files of other ids stay. -/
theorem mods_writeLog_of_ne {n : Nat} (other : r.dat ≠ [] → n ≠ r.runId) :
    (s.writeLog k r).modder n = s.modder n ∧ (s.writeLog k r).mods n = s.mods n := by
  unfold System.writeLog
  split_ifs with empty
  · exact ⟨rfl, rfl⟩
  · exact ⟨Function.update_of_ne (other empty) _ _, Function.update_of_ne (other empty) _ _⟩

theorem mods_writeLog_self (modifies : r.dat ≠ []) :
    (s.writeLog k r).modder r.runId = some k ∧ (s.writeLog k r).mods r.runId = some r.dat := by
  unfold System.writeLog
  rw [if_neg modifies]
  exact ⟨Function.update_self _ _ _, Function.update_self _ _ _⟩

/-- Requests only move on in their phase. -/
theorem getElem?_setPhase (found : s.requests[k]? = some r) (i : Nat) (a : Request)
    (there : (s.setPhase k r phase).requests[i]? = some a) :
    (i = k ∧ a = { r with phase }) ∨ (i ≠ k ∧ s.requests[i]? = some a) := by
  have inside : k < s.requests.length := (List.getElem?_eq_some_iff.mp found).1
  change (s.requests.set k { r with phase })[i]? = some a at there
  by_cases same : k = i
  · subst same
    rw [List.getElem?_set_self inside] at there
    exact Or.inl ⟨rfl, (Option.some.inj there).symm⟩
  · rw [List.getElem?_set_ne same] at there
    exact Or.inr ⟨Ne.symm same, there⟩

theorem mem_setPhase (found : s.requests[k]? = some r) (a : Request)
    (there : a ∈ (s.setPhase k r phase).requests) : ∃ old ∈ s.requests, a.runId = old.runId := by
  obtain ⟨i, placed⟩ := List.getElem?_of_mem there
  rcases getElem?_setPhase found i a placed with ⟨-, rfl⟩ | ⟨-, old⟩
  · exact ⟨r, List.mem_of_getElem? found, rfl⟩
  · exact ⟨a, List.mem_of_getElem? old, rfl⟩

/-- Ids stay apart when a request moves on. -/
theorem ids_setPhase {before : System} (unshared : Unshared before s)
    (found : s.requests[k]? = some r) (i j : Nat) (a b : Request)
    (atI : (s.setPhase k r phase).requests[i]? = some a)
    (atJ : (s.setPhase k r phase).requests[j]? = some b) (apart : i ≠ j) (competes : a.Competes b) :
    a.runId ≠ b.runId := by
  rcases getElem?_setPhase found i a atI with ⟨rfl, rfl⟩ | ⟨-, oldI⟩
  · rcases getElem?_setPhase found j b atJ with ⟨rfl, -⟩ | ⟨-, oldJ⟩
    · exact absurd rfl apart
    · exact unshared.ids i j r b found oldJ apart competes
  · rcases getElem?_setPhase found j b atJ with ⟨rfl, rfl⟩ | ⟨-, oldJ⟩
    · exact unshared.ids i j a r oldI found apart competes
    · exact unshared.ids i j a b oldI oldJ apart competes

end Requests

section Steps
variable {cfg : Config} {before s t : System}

/-- The id drawn is no earlier run's. -/
theorem fresh_next (kept : Kept before s) : fileOf before.disk (getNextRunId s.disk) = none := by
  cases earlier : fileOf before.disk (getNextRunId s.disk) with
  | none => rfl
  | some f => cases (getNextRunId_missing s.disk).symm.trans (kept.logs _ f earlier)

theorem given_draw (given : Given before s) (parentId : Option Nat) (startCl : Clnum)
    (dat : List Change) (traced : Bool) (phase : Phase) (servers : List Bindserver) :
    Given before { s.draw parentId startCl dat traced phase with servers } := by
  refine ⟨?_, ?_, ⟨given.kept.logs, given.kept.mods⟩⟩
  · intro r member
    rcases List.mem_append.mp member with old | new
    · exact given.next r old
    · obtain rfl := List.mem_singleton.mp new
      exact Or.inr rfl
  · intro r member
    rcases List.mem_append.mp member with old | new
    · exact given.fresh r old
    · obtain rfl := List.mem_singleton.mp new
      exact fresh_next given.kept

theorem given_setPhase {k : Nat} {r : Request} (given : Given before s)
    (found : s.requests[k]? = some r) (phase : Phase) (servers : List Bindserver) :
    Given before { s.setPhase k r phase with servers } := by
  refine ⟨?_, ?_, ⟨given.kept.logs, given.kept.mods⟩⟩
  · intro a member
    obtain ⟨old, there, same⟩ := mem_setPhase found a member
    rw [same]
    exact given.next old there
  · intro a member
    obtain ⟨old, there, same⟩ := mem_setPhase found a member
    rw [same]
    exact given.fresh old there

/-- A request's modifications go under its own id, where no earlier run has any. -/
theorem given_writeLog {k : Nat} {r : Request} (given : Given before s)
    (fresh : fileOf before.disk r.runId = none) : Given before (s.writeLog k r) := by
  refine ⟨?_, ?_, ⟨?_, ?_⟩⟩
  · rw [requests_writeLog, disk_writeLog]
    exact given.next
  · rw [requests_writeLog]
    exact given.fresh
  · rw [disk_writeLog]
    exact given.kept.logs
  · intro n earlier
    have apart : n ≠ r.runId := by
      rintro rfl
      rw [fresh] at earlier
      cases earlier
    exact (mods_writeLog_of_ne fun _ => apart).2.trans (given.kept.mods n earlier)

/-- Creating the log of an id that was given makes every other id settled or leaves it as it was. -/
theorem next_create {disk : Disk} {n m : Nat} (f : TraceFile)
    (created : (fileOf disk n).isSome ∨ n = getNextRunId disk)
    (given : (fileOf disk m).isSome ∨ m = getNextRunId disk) :
    (fileOf (create disk n f) m).isSome ∨ m = getNextRunId (create disk n f) := by
  rw [fileOf_create]
  by_cases same : m = n
  · rw [if_pos same]
    exact Or.inl rfl
  · rw [if_neg same]
    refine given.imp_right fun next => ?_
    have present : (fileOf disk n).isSome := created.resolve_right fun equal => same (next.trans equal.symm)
    rw [next]
    apply getNextRunId_congr
    intro i
    rw [fileOf_create]
    split_ifs with here
    · rw [here]
      exact iff_of_true present rfl
    · exact Iff.rfl

theorem given_initQIRA {k : Nat} {r : Request} (given : Given before s)
    (found : s.requests[k]? = some r) :
    Given before { s.setPhase k r .done with
      disk := create s.disk r.runId r.log
      creator := Function.update s.creator r.runId (some k) } := by
  have member : r ∈ s.requests := List.mem_of_getElem? found
  have moved := given_setPhase given found .done s.servers
  refine ⟨?_, moved.fresh, ⟨?_, moved.kept.mods⟩⟩
  · intro a there
    exact next_create r.log (given.next r member) (moved.next a there)
  · intro n f earlier
    have apart : n ≠ r.runId := by
      rintro rfl
      cases (given.fresh r member).symm.trans earlier
    exact (fileOf_create _ _ _ _).trans ((if_neg apart).trans (given.kept.logs n f earlier))

theorem getElem?_draw {requests : List Request} {new a : Request} {i : Nat}
    (there : (requests ++ [new])[i]? = some a) :
    requests[i]? = some a ∨ (i = requests.length ∧ a = new) := by
  by_cases before : i < requests.length
  · rw [List.getElem?_append_left before] at there
    exact Or.inl there
  · rw [List.getElem?_append_right (not_lt.mp before), List.getElem?_singleton] at there
    split_ifs at there with last
    exact Or.inr ⟨by omega, (Option.some.inj there).symm⟩

/-- A new id keeps the ids apart exactly when there is a log under each id it must differ from. -/
theorem unshared_draw_iff (given : Given before s) (unshared : Unshared before s)
    (parentId : Option Nat) (startCl : Clnum) (dat : List Change) (traced : Bool) (phase : Phase)
    (servers : List Bindserver) (waits : phase ≠ .done) (unwritten : dat ≠ [] → phase = .drawn) :
    Unshared before { s.draw parentId startCl dat traced phase with servers } ↔
      ∀ r ∈ s.requests, (r.traced = true ∧ traced = true) ∨ (r.dat ≠ [] ∧ dat ≠ []) →
        (fileOf s.disk r.runId).isSome := by
  constructor
  · intro after r member competes
    obtain ⟨i, there⟩ := List.getElem?_of_mem member
    have inside : i < s.requests.length := (List.getElem?_eq_some_iff.mp there).1
    have different := after.ids i s.requests.length r
      ⟨getNextRunId s.disk, parentId, startCl, dat, traced, phase⟩
      ((List.getElem?_append_left inside).trans there) List.getElem?_concat_length
      (Nat.ne_of_lt inside) competes
    exact (given.next r member).resolve_right different
  · intro settled
    have fresh : ∀ r ∈ s.requests, (r.traced = true ∧ traced = true) ∨ (r.dat ≠ [] ∧ dat ≠ []) →
        r.runId ≠ getNextRunId s.disk := by
      intro r member competes same
      have present := settled r member competes
      rw [same, getNextRunId_missing] at present
      cases present
    refine ⟨(given_draw given _ _ _ _ _ _).kept, ?_, ?_, ?_⟩
    · intro i j a b atI atJ apart competes
      rcases getElem?_draw atI with oldI | ⟨rfl, rfl⟩
      · rcases getElem?_draw atJ with oldJ | ⟨rfl, rfl⟩
        · exact unshared.ids i j a b oldI oldJ apart competes
        · exact fresh a (List.mem_of_getElem? oldI) competes
      · rcases getElem?_draw atJ with oldJ | ⟨rfl, rfl⟩
        · exact (fresh b (List.mem_of_getElem? oldJ) (competes.imp And.symm And.symm)).symm
        · exact absurd rfl apart
    · intro k r there isTraced done
      rcases getElem?_draw there with old | ⟨-, rfl⟩
      · exact unshared.logs k r old isTraced done
      · exact absurd done waits
    · intro k r there modifies written
      rcases getElem?_draw there with old | ⟨-, rfl⟩
      · exact unshared.mods k r old modifies written
      · exact absurd (unwritten modifies) written

/-- Writing the modifications touches no other request's. -/
theorem unshared_writeMods {k : Nat} {r : Request} (unshared : Unshared before s)
    (found : s.requests[k]? = some r) (kept : Kept before ((s.setPhase k r .modded).writeLog k r)) :
    Unshared before ((s.setPhase k r .modded).writeLog k r) := by
  refine ⟨kept, ?_, ?_, ?_⟩
  · rw [requests_writeLog]
    intro i j a b
    exact ids_setPhase unshared found i j a b
  · rw [requests_writeLog, disk_writeLog, creator_writeLog]
    intro i a there isTraced done
    rcases getElem?_setPhase found i a there with ⟨-, rfl⟩ | ⟨-, old⟩
    · cases done
    · exact unshared.logs i a old isTraced done
  · rw [requests_writeLog]
    intro i a there modifies written
    rcases getElem?_setPhase found i a there with ⟨rfl, rfl⟩ | ⟨other, old⟩
    · exact mods_writeLog_self modifies
    · have apart : r.dat ≠ [] → a.runId ≠ r.runId := fun modifiesToo =>
        unshared.ids i k a r old found other (Or.inr ⟨modifies, modifiesToo⟩)
      obtain ⟨author, file⟩ := unshared.mods i a old modifies written
      obtain ⟨authorStays, fileStays⟩ := mods_writeLog_of_ne (s := s.setPhase k r .modded) (k := k) apart
      exact ⟨authorStays.trans author, fileStays.trans file⟩

theorem unshared_startBindserver {k : Nat} {r : Request} (unshared : Unshared before s)
    (found : s.requests[k]? = some r) (untraced : r.traced = false) (modded : r.phase = .modded)
    (servers : List Bindserver) : Unshared before { s.setPhase k r .done with servers } := by
  refine ⟨⟨unshared.kept.logs, unshared.kept.mods⟩, fun i j a b => ids_setPhase unshared found i j a b,
    ?_, ?_⟩
  · intro i a there isTraced done
    rcases getElem?_setPhase found i a there with ⟨-, rfl⟩ | ⟨-, old⟩
    · cases untraced.symm.trans isTraced
    · exact unshared.logs i a old isTraced done
  · intro i a there modifies written
    rcases getElem?_setPhase found i a there with ⟨rfl, rfl⟩ | ⟨-, old⟩
    · exact unshared.mods i r found modifies (by rw [modded]; nofun)
    · exact unshared.mods i a old modifies written

/-- The tracer's log replaces no other tracer's. -/
theorem unshared_initQIRA {k : Nat} {r : Request} (given : Given before s)
    (unshared : Unshared before s) (found : s.requests[k]? = some r) (traces : r.traced = true)
    (modded : r.phase = .modded) :
    Unshared before { s.setPhase k r .done with
      disk := create s.disk r.runId r.log
      creator := Function.update s.creator r.runId (some k) } := by
  refine ⟨(given_initQIRA given found).kept, fun i j a b => ids_setPhase unshared found i j a b, ?_, ?_⟩
  · intro i a there isTraced done
    rcases getElem?_setPhase found i a there with ⟨rfl, rfl⟩ | ⟨other, old⟩
    · refine ⟨Function.update_self _ _ _, ?_⟩
      exact (fileOf_create _ _ _ _).trans (if_pos rfl)
    · have different := unshared.ids i k a r old found other (Or.inl ⟨isTraced, traces⟩)
      obtain ⟨author, file⟩ := unshared.logs i a old isTraced done
      refine ⟨(Function.update_of_ne different _ _).trans author, ?_⟩
      exact (fileOf_create _ _ _ _).trans ((if_neg different).trans file)
  · intro i a there modifies written
    rcases getElem?_setPhase found i a there with ⟨rfl, rfl⟩ | ⟨-, old⟩
    · exact unshared.mods i r found modifies (by rw [modded]; nofun)
    · exact unshared.mods i a old modifies written

/-- A step leaves every id with a log or next to be given, and leaves an unshared state unshared exactly
when it was settled. -/
theorem step_judged (action : Action) (given : Given before s) (taken : s.step cfg action = some t) :
    Given before t ∧ (Unshared before s → (Unshared before t ↔ Settled cfg s action)) := by
  cases action with
  | forkat forknum clnum pending =>
    obtain rfl := Option.some.inj taken
    refine ⟨given_draw given _ _ _ _ _ _, fun unshared => ?_⟩
    refine (unshared_draw_iff given unshared (some forknum) clnum (pending.map (modOf cfg clnum))
      (!cfg.server) .drawn s.servers nofun (fun _ => rfl)).trans ?_
    simp [Settled]
  | accept k =>
    simp only [System.step] at taken
    split at taken
    · cases taken
    next b _ =>
      obtain rfl := Option.some.inj taken
      refine ⟨given_draw given _ _ _ _ _ _, fun unshared => ?_⟩
      refine (unshared_draw_iff given unshared b.parentId b.startCl [] true .modded _ nofun
        (fun nonempty => absurd rfl nonempty)).trans ?_
      simp [Settled]
  | writeMods k =>
    simp only [System.step] at taken
    split at taken
    · cases taken
    next r found =>
      split_ifs at taken
      obtain rfl := Option.some.inj taken
      have moved := given_setPhase given found .modded s.servers
      have written := given_writeLog moved (given.fresh r (List.mem_of_getElem? found)) (k := k)
      exact ⟨written,
        fun unshared => iff_of_true (unshared_writeMods unshared found written.kept) trivial⟩
  | startBindserver k =>
    simp only [System.step] at taken
    split at taken
    · cases taken
    next r found =>
      split_ifs at taken with ready
      obtain rfl := Option.some.inj taken
      exact ⟨given_setPhase given found .done _, fun unshared =>
        iff_of_true (unshared_startBindserver unshared found ready.1 ready.2 _) trivial⟩
  | initQIRA k =>
    simp only [System.step] at taken
    split at taken
    · cases taken
    next r found =>
      split_ifs at taken with ready
      obtain rfl := Option.some.inj taken
      exact ⟨given_initQIRA given found, fun unshared =>
        iff_of_true (unshared_initQIRA given unshared found ready.1 ready.2) trivial⟩

end Steps

section Runs
variable (cfg : Config) (disk : Disk) (mods : Nat → Option (List Change))

theorem start_given : Given (System.start cfg disk mods) (System.start cfg disk mods) :=
  ⟨nofun, nofun, ⟨fun _ _ earlier => earlier, fun _ _ => rfl⟩⟩

theorem start_unshared : Unshared (System.start cfg disk mods) (System.start cfg disk mods) :=
  ⟨(start_given cfg disk mods).kept, nofun, nofun, nofun⟩

/-- For any logs and `_mods` files on disk and any interleaving of fork requests, connections and tracers,
nothing is shared or replaced if and only if every id was drawn when the earlier ones had their logs. -/
theorem unshared_iff_settled (actions : List Action) (t : System)
    (ran : run (System.step cfg) (System.start cfg disk mods) actions = some t) :
    Always (System.step cfg) (Unshared (System.start cfg disk mods)) (System.start cfg disk mods)
        actions ↔
      Along (System.step cfg) (Settled cfg) (System.start cfg disk mods) actions :=
  always_iff_along (Given (System.start cfg disk mods)) (Unshared (System.start cfg disk mods))
    (Settled cfg)
    (fun _ action _ given taken => (step_judged action given taken).1)
    (fun _ action _ given unshared taken => (step_judged action given taken).2 unshared)
    (start_given cfg disk mods) (start_unshared cfg disk mods) ran

end Runs

/-- A directory with the root run's log. -/
def rootLog : Disk := [(0, ⟨none, 1, []⟩)]

/-- No run has modifications. -/
def noMods : Nat → Option (List Change) := fun _ => none

/-- Two forks of the root run, each with a byte changed. -/
def forkBoth : List Action := [.forkat 0 7 [⟨0x1000, 1, 3⟩], .forkat 0 9 [⟨0x1000, 2, 3⟩]]

/-- The same, but the second is made when the first has its log. -/
def forkInTurn : List Action :=
  [.forkat 0 7 [⟨0x1000, 1, 3⟩], .writeMods 0, .initQIRA 0, .forkat 0 9 [⟨0x1000, 2, 3⟩], .writeMods 1, .initQIRA 1]

theorem unshared_iff_settled_in_turn :
    ∃ t, run (System.step ⟨false, 8⟩) (System.start ⟨false, 8⟩ rootLog noMods) forkInTurn = some t ∧
      t.requests.map Request.runId = [1, 2] ∧
      (Always (System.step ⟨false, 8⟩) (Unshared (System.start ⟨false, 8⟩ rootLog noMods))
          (System.start ⟨false, 8⟩ rootLog noMods) forkInTurn ↔
        Along (System.step ⟨false, 8⟩) (Settled ⟨false, 8⟩) (System.start ⟨false, 8⟩ rootLog noMods) forkInTurn) :=
  ⟨_, rfl, rfl, unshared_iff_settled ⟨false, 8⟩ rootLog noMods forkInTurn _ rfl⟩

/-- Two fork requests draw before either tracer has created its log: both are run 1, and the second
one's modifications and log replace the first one's. -/
theorem forks_share_id :
    ∃ t, run (System.step ⟨false, 8⟩) (System.start ⟨false, 8⟩ rootLog noMods)
        (forkBoth ++ [.writeMods 0, .writeMods 1, .initQIRA 0, .initQIRA 1]) = some t ∧
      t.requests.map Request.runId = [1, 1] ∧ t.creator 1 = some 1 ∧ t.modder 1 = some 1 ∧
      ¬ Unshared (System.start ⟨false, 8⟩ rootLog noMods) t := by
  refine ⟨_, rfl, rfl, rfl, rfl, ?_⟩
  intro unshared
  exact unshared.ids 0 1 _ _ rfl rfl (by decide) (Or.inl ⟨rfl, rfl⟩) rfl

end Qira.RunIds
