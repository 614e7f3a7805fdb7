import Qira.Library.Numerals

/-!
The ids under which the PIN tracer writes its files: a process makes one of its pid, and each thread
mixes in how many were started before it.
-/

namespace Qira.PinFileIds
open Library.Words Library.Numerals

/-- What `Thread_State` is constructed with, and gives in the header as `this_pid` and `parent_id`. -/
structure Thread where
  fileid : BitVec 32
  parent : BitVec 32

structure ProcessState where
  mainId : BitVec 32
  threadsCreated : BitVec 32

/-- At the start of the process, and in a child after a fork. -/
def ProcessState.init (pid : BitVec 32) : ProcessState := ⟨0x7FFFFFFF &&& (pid <<< 16), 0⟩

def ProcessState.threadStart (p : ProcessState) : Thread × ProcessState :=
  let t := p.threadsCreated
  let qiraFileid := p.mainId ^^^ t
  (⟨qiraFileid, if p.mainId = qiraFileid then -1 else p.mainId⟩,
    { p with threadsCreated := p.threadsCreated + 1 })

/-- The path a thread's log is opened at, for the knob's output directory. -/
def Thread.path (dir : List Char) (s : Thread) : List Char := dir ++ '/' :: Nat.toDigits 10 s.fileid.toNat

/-- The thread of a process that was started after `t` others. -/
def thread (pid : BitVec 32) (t : Nat) : Thread :=
  ((fun p : ProcessState => p.threadStart.2)^[t] (ProcessState.init pid)).threadStart.1

/-- Two threads write files of their own, and two processes are not one parent. -/
structure Apart (pid : BitVec 32) (t : Nat) (pid' : BitVec 32) (t' : Nat) : Prop where
  ids : (thread pid t).fileid ≠ (thread pid' t').fileid
  files : ∀ dir, (thread pid t).path dir ≠ (thread pid' t').path dir
  parents : (ProcessState.init pid).mainId = (ProcessState.init pid').mainId → pid = pid'

theorem started (pid : BitVec 32) (t : Nat) :
    (fun p : ProcessState => p.threadStart.2)^[t] (ProcessState.init pid) =
      ⟨(ProcessState.init pid).mainId, BitVec.ofNat 32 t⟩ := by
  induction t with
  | zero => rfl
  | succ t ih =>
    have counted : BitVec.ofNat 32 (t + 1) = BitVec.ofNat 32 t + 1 := by
      simp [BitVec.ofNat_add]
    rw [Function.iterate_succ_apply', ih, counted]
    rfl

/-- The sign bit is masked, which leaves 15 bits of the pid. -/
theorem toNat_mainId (pid : BitVec 32) :
    (ProcessState.init pid).mainId.toNat = pid.toNat % 2 ^ 15 * 2 ^ 16 := by
  have masked : (0x7FFFFFFF &&& (pid <<< 16) : BitVec 32).toNat = pid.toNat * 2 ^ 16 % 2 ^ 32 % 2 ^ 31 := by
    rw [BitVec.toNat_and, BitVec.toNat_shiftLeft, Nat.shiftLeft_eq, Nat.and_comm]
    exact Nat.and_two_pow_sub_one_eq_mod _ 31
  rw [ProcessState.init, masked]
  omega

/-- The index takes the bits that the shift has cleared. -/
theorem toNat_fileid (pid : BitVec 32) (t : Nat) (few : t < 2 ^ 16) :
    (thread pid t).fileid.toNat = pid.toNat % 2 ^ 15 * 2 ^ 16 + t := by
  have index : (BitVec.ofNat 32 t).toNat = t := by
    rw [BitVec.toNat_ofNat, Nat.mod_eq_of_lt (by omega)]
  rw [thread, started]
  change ((ProcessState.init pid).mainId ^^^ BitVec.ofNat 32 t).toNat = _
  rw [BitVec.toNat_xor, toNat_mainId, index, mul_two_pow_xor _ _ _ few]

theorem fileid_eq_iff (pid pid' : BitVec 32) (t t' : Nat) (few : t < 2 ^ 16) (few' : t' < 2 ^ 16) :
    (thread pid t).fileid = (thread pid' t').fileid ↔
      pid.toNat % 2 ^ 15 = pid'.toNat % 2 ^ 15 ∧ t = t' := by
  rw [← BitVec.toNat_inj, toNat_fileid _ _ few, toNat_fileid _ _ few']
  omega

theorem mainId_eq_iff (pid pid' : BitVec 32) :
    (ProcessState.init pid).mainId = (ProcessState.init pid').mainId ↔
      pid.toNat % 2 ^ 15 = pid'.toNat % 2 ^ 15 := by
  rw [← BitVec.toNat_inj, toNat_mainId, toNat_mainId]
  omega

/-- Paths differ when the ids do: both are written in decimal. -/
theorem path_injective (dir : List Char) (s s' : Thread) (same : s.path dir = s'.path dir) :
    s.fileid = s'.fileid := by
  have digits := (List.cons.inj (List.append_cancel_left same)).2
  exact BitVec.eq_of_toNat_eq (toDigits_injective 10 (by decide) (by decide) _ _ digits)

/-- Distinct threads are kept apart exactly when their processes are the same or have pids that differ
in the last 15 bits. -/
theorem apart_iff (pid pid' : BitVec 32) (t t' : Nat) (few : t < 2 ^ 16) (few' : t' < 2 ^ 16)
    (distinct : (pid, t) ≠ (pid', t')) :
    Apart pid t pid' t' ↔ pid = pid' ∨ pid.toNat % 2 ^ 15 ≠ pid'.toNat % 2 ^ 15 := by
  constructor
  · intro apart
    by_cases low : pid.toNat % 2 ^ 15 = pid'.toNat % 2 ^ 15
    · exact Or.inl (apart.parents ((mainId_eq_iff pid pid').mpr low))
    · exact Or.inr low
  · intro condition
    have ids : (thread pid t).fileid ≠ (thread pid' t').fileid := by
      intro same
      obtain ⟨low, index⟩ := (fileid_eq_iff pid pid' t t' few few').mp same
      rcases condition with process | different
      · exact distinct (Prod.ext process index)
      · exact different low
    refine ⟨ids, fun dir same => ids (path_injective dir _ _ same), ?_⟩
    intro same
    rcases condition with process | different
    · exact process
    · exact absurd ((mainId_eq_iff pid pid').mp same) different

theorem apart_iff_two_processes :
    Apart 4711 0 4712 3 ↔ (4711 : BitVec 32) = 4712 ∨
      (4711 : BitVec 32).toNat % 2 ^ 15 ≠ (4712 : BitVec 32).toNat % 2 ^ 15 :=
  apart_iff 4711 4712 0 3 (by decide) (by decide) (by decide)

/-- The first threads of two processes whose pids are 2 ^ 15 apart write one file. -/
theorem threads_share_file :
    (thread 1 0).path ['.'] = (thread 32769 0).path ['.'] ∧ ¬ Apart 1 0 32769 0 := by
  have shared : (thread 1 0).fileid = (thread 32769 0).fileid :=
    (fileid_eq_iff 1 32769 0 0 (by decide) (by decide)).mpr ⟨by decide, rfl⟩
  exact ⟨by rw [Thread.path, shared, Thread.path], fun apart => apart.ids shared⟩

end Qira.PinFileIds
