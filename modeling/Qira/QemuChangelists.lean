import Qira.QemuTracer
import Qira.TraceChangelists

/-!
Every log the QEMU tracer writes falls into changelists, whatever is filtered, held back and
committed on the way, so `FetchChangesByClnum` returns each changelist exactly.
-/

namespace Qira.QemuChangelists
open ChangeRecord QemuTracer TraceIndex TraceProcess TraceChangelists Library.Words

/-- What holds of the tracer between any two of its steps. -/
structure Sound (t : Tracer) : Prop where
  inChangelists : InChangelists t.log
  reached : ∀ c ∈ t.log, c.clnum ≤ t.changelistNumber
  valid : ∀ c ∈ t.log, has c.flags IS_VALID = true
  pending : ∀ slot ∈ t.pending.toList, has slot.flags IS_START = false

/-- A stretch of tracing inside one changelist. -/
def Keeps (t t' : Tracer) : Prop :=
  Sound t → Sound t' ∧ t'.changelistNumber = t.changelistNumber

section Stretches
variable {t t' t'' : Tracer}

theorem Sound.of_same (sound : Sound t) (log : t'.log = t.log)
    (number : t'.changelistNumber = t.changelistNumber) (pending : t'.pending = t.pending) :
    Sound t' := by
  refine ⟨?_, ?_, ?_, ?_⟩
  · exact log ▸ sound.inChangelists
  · rw [log, number]
    exact sound.reached
  · exact log ▸ sound.valid
  · exact pending ▸ sound.pending

theorem Keeps.refl (t : Tracer) : Keeps t t := fun sound => ⟨sound, rfl⟩

theorem Keeps.trans (first : Keeps t t') (second : Keeps t' t'') : Keeps t t'' := by
  intro sound
  obtain ⟨mid, same⟩ := first sound
  obtain ⟨last, again⟩ := second mid
  exact ⟨last, again.trans same⟩

theorem Keeps.of_same (first : Keeps t t') (log : t''.log = t'.log)
    (number : t''.changelistNumber = t'.changelistNumber) (pending : t''.pending = t'.pending) :
    Keeps t t'' :=
  first.trans (fun sound => ⟨sound.of_same log number pending, number⟩)

theorem Keeps.foldl {ι : Type*} (advance : Tracer → ι → Tracer) (items : List ι) (t : Tracer)
    (each : ∀ t, ∀ item ∈ items, Keeps t (advance t item)) : Keeps t (items.foldl advance t) := by
  induction items generalizing t with
  | nil => exact Keeps.refl t
  | cons item rest ih =>
    have first := each t item List.mem_cons_self
    exact first.trans (ih _ (fun t other member => each t other (List.mem_cons_of_mem _ member)))

end Stretches

/-- A record appended with the number the tracer is at, or has just moved up to. -/
theorem Sound.append {t : Tracer} (sound : Sound t) (c : Change) (number : Clnum)
    (stamp : c.clnum = number) (ahead : t.changelistNumber ≤ number)
    (valid : has c.flags IS_VALID = true) (opens : c.type = 'I' → t.changelistNumber < number) :
    Sound { t with log := t.log ++ [c], changelistNumber := number } where
  inChangelists := by
    refine List.pairwise_append.mpr ⟨sound.inChangelists, List.pairwise_singleton _ _, ?_⟩
    intro b before d isLast
    obtain rfl := List.mem_singleton.mp isLast
    have reached := sound.reached b before
    rw [stamp]
    exact ⟨reached.trans ahead, fun isStart => reached.trans_lt (opens isStart)⟩
  reached := by
    intro b member
    rcases List.mem_append.mp member with before | isLast
    · exact (sound.reached b before).trans ahead
    · rw [List.mem_singleton.mp isLast, stamp]
  valid := by
    intro b member
    rcases List.mem_append.mp member with before | isLast
    · exact sound.valid b before
    · rw [List.mem_singleton.mp isLast]
      exact valid
  pending := sound.pending

theorem keeps_addChange (t : Tracer) (addr : Address) (data : BitVec 64) (flags : BitVec 32)
    (plain : has flags IS_START = false) : Keeps t (t.addChange addr data flags) := by
  intro sound
  refine ⟨?_, rfl⟩
  apply sound.append _ t.changelistNumber rfl le_rfl (has_valid_or flags)
  intro isStart
  have start := ((type_eq_start_iff _).mp isStart).2
  rw [has_start_or, plain] at start
  cases start

theorem keeps_addPendingChange (t : Tracer) (addr : Address) (data : BitVec 64) (flags : BitVec 32)
    (plain : has flags IS_START = false) : Keeps t (t.addPendingChange addr data flags) := by
  unfold Tracer.addPendingChange
  split
  next small =>
    intro sound
    refine ⟨⟨sound.inChangelists, sound.reached, sound.valid, ?_⟩, rfl⟩
    intro slot member
    rw [Vector.toList_set] at member
    rcases List.mem_or_eq_of_mem_set member with old | new
    · exact sound.pending slot old
    · rw [new]
      exact (has_start_or flags).trans plain
  next large => exact Keeps.refl t

private theorem noPending_plain : ∀ slot ∈ noPending.toList, has slot.flags IS_START = false := by
  intro slot member
  rw [noPending, Vector.toList_replicate] at member
  rw [List.eq_of_mem_replicate member]
  decide

theorem keeps_commitPendingChanges (t : Tracer) : Keeps t t.commitPendingChanges := by
  intro sound
  have commits : Keeps t (t.pending.toList.foldl Tracer.commitPending t) := by
    apply Keeps.foldl
    intro t slot member
    unfold Tracer.commitPending
    split
    · exact keeps_addChange t _ _ _ (sound.pending slot member)
    · exact Keeps.refl t
  obtain ⟨committed, number⟩ := commits sound
  exact ⟨⟨committed.inChangelists, committed.reached, committed.valid, noPending_plain⟩, number⟩

theorem keeps_commitIfFiltered (t : Tracer) :
    Keeps t (if t.isFiltered then t.commitPendingChanges else t) := by
  split
  · exact keeps_commitPendingChanges t
  · exact Keeps.refl t

private theorem width_plain (size : Width) :
    has size.bits IS_START = false ∧ has (IS_WRITE ||| size.bits) IS_START = false ∧
      has (IS_MEM ||| size.bits) IS_START = false ∧
      has (IS_MEM ||| IS_WRITE ||| size.bits) IS_START = false := by
  cases size <;> decide

/-- The record of a system call, whatever data it ends up with. -/
theorem keeps_syscallRecord (target : Target) (t : Tracer) (env : Address → BitVec 64)
    (sysnr : Address) (data : BitVec 64) :
    Keeps t { t.trackSyscallBegin target env sysnr with
      log := (t.trackSyscallBegin target env sysnr).log.modifyLast
        (fun a => { a with data := data }) } := by
  have words : Keeps t (if t.isFiltered then
      [0x00, 0x04, 0x08, 0x0C, 0x10, 0x14, 0x18, 0x1C].foldl
        (fun t i => t.addChange i (env i) (IS_WRITE ||| target.ulong.bits)) t
    else t) := by
    split
    · apply Keeps.foldl
      intro t i _
      exact keeps_addChange t i _ _ (width_plain target.ulong).2.1
    · exact Keeps.refl t
  have plain : has IS_SYSCALL IS_START = false := by decide
  refine (words.trans (keeps_addChange _ sysnr data IS_SYSCALL plain)).of_same ?_ rfl rfl
  rw [Tracer.trackSyscallBegin, Tracer.addChange, List.modifyLast_concat]
  rfl

theorem keeps_trackSyscallBegin (target : Target) (t : Tracer) (env : Address → BitVec 64)
    (sysnr : Address) : Keeps t (t.trackSyscallBegin target env sysnr) := by
  refine (keeps_syscallRecord target t env sysnr 0).of_same ?_ rfl rfl
  rw [Tracer.trackSyscallBegin, Tracer.addChange, List.modifyLast_concat]

theorem keeps_trackKernelWrite (t : Tracer) (guestAddr : Address) (bytes : List Byte) :
    Keeps t (t.trackKernelWrite guestAddr bytes) := by
  induction bytes generalizing t guestAddr with
  | nil => exact Keeps.refl t
  | cons byte rest ih => exact (keeps_addChange t guestAddr _ _ (by decide)).trans (ih _ _)

theorem keeps_trackSyscallResult (target : Target) (t : Tracer) (env : Address → BitVec 64) :
    Keeps t (t.trackSyscallResult target env) := by
  have plain := (width_plain target.ulong).2.1
  unfold Tracer.trackSyscallResult
  split
  · cases target.hook with
    | eax offset => exact (keeps_addChange t offset (env offset) _ plain).of_same rfl rfl rfl
    | r0 offset => exact (keeps_addChange t offset (env offset) _ plain).of_same rfl rfl rfl
    | none => exact (Keeps.refl t).of_same rfl rfl rfl
  · exact Keeps.refl t

theorem keeps_raiseSyscall (target : Target) (t : Tracer) (env : Address → BitVec 64) :
    Keeps t (t.raiseSyscall target env) := by
  have begins := fun sysnr =>
    (keeps_commitIfFiltered t).trans (keeps_trackSyscallBegin target _ env sysnr)
  unfold Tracer.raiseSyscall
  cases target.hook with
  | eax offset => exact (begins (env offset)).of_same rfl rfl rfl
  | r0 offset => exact (begins (env offset)).of_same rfl rfl rfl
  | none => exact Keeps.refl t

theorem keeps_loadSeg (target : Target) (t : Tracer) (env : Address → BitVec 64)
    (selector value : BitVec 64) : Keeps t (t.loadSeg target env selector value) := by
  unfold Tracer.loadSeg
  cases target.hook with
  | eax offset => exact (keeps_commitIfFiltered t).trans (keeps_syscallRecord target _ env _ _)
  | r0 offset => exact Keeps.refl t
  | none => exact Keeps.refl t

/-- An unfiltered block opens the next changelist, and its start record is the first of it. -/
theorem startChangelist_sound {t : Tracer} (sound : Sound t) (pc : Address) (size : BitVec 64)
    (room : t.changelistNumber.toNat + 1 < 2 ^ 32) :
    Sound (t.startChangelist pc size) ∧
      (t.startChangelist pc size).changelistNumber.toNat = t.changelistNumber.toNat + 1 := by
  have leave : Keeps t
      (if t.isFiltered then { t.commitPendingChanges with isFiltered := false } else t) := by
    split
    · exact (keeps_commitPendingChanges t).of_same rfl rfl rfl
    · exact Keeps.refl t
  obtain ⟨left, same⟩ := leave sound
  unfold Tracer.startChangelist
  generalize (if t.isFiltered then { t.commitPendingChanges with isFiltered := false } else t) = u
    at left same
  have next : (u.changelistNumber + 1).toNat = t.changelistNumber.toNat + 1 := by
    rw [same, toNat_succ _ room]
  have above : u.changelistNumber < u.changelistNumber + 1 := by
    change u.changelistNumber.toNat < (u.changelistNumber + 1).toNat
    rw [next, same]
    exact Nat.lt_succ_self _
  exact ⟨left.append _ _ rfl above.le (has_valid_or _) (fun _ => above), next⟩

/-- One step keeps the tracer sound, and moves to the next changelist on an unfiltered block only. -/
theorem step_sound (target : Target) {t : Tracer} (sound : Sound t) (event : Event)
    (room : t.changelistNumber.toNat + changelists [event] < 2 ^ 32) :
    Sound (t.step target event) ∧
      (t.step target event).changelistNumber.toNat =
        t.changelistNumber.toNat + changelists [event] := by
  have inside : ∀ {t' : Tracer}, Keeps t t' →
      Sound t' ∧ t'.changelistNumber.toNat = t.changelistNumber.toNat + 0 := by
    intro t' keeps
    obtain ⟨kept, same⟩ := keeps sound
    exact ⟨kept, congrArg BitVec.toNat same⟩
  cases event with
  | block env filtered pc size =>
    obtain ⟨resumed, same⟩ := keeps_trackSyscallResult target t env sound
    cases filtered with
    | true => exact inside ((keeps_trackSyscallResult target t env).of_same rfl rfl rfl)
    | false =>
      rw [← same] at room ⊢
      exact startChangelist_sound resumed pc size room
  | load addr data size => exact inside (keeps_addChange t addr data _ (width_plain size).2.2.1)
  | store addr data size => exact inside (keeps_addChange t addr data _ (width_plain size).2.2.2)
  | read offset data size =>
    apply inside
    change Keeps t (t.trackRead offset data size)
    unfold Tracer.trackRead
    split_ifs
    · exact Keeps.refl t
    · exact keeps_addChange t offset data _ (width_plain size).1
    · exact Keeps.refl t
  | write offset data size =>
    apply inside
    change Keeps t (t.trackWrite offset data size)
    unfold Tracer.trackWrite
    split_ifs
    · exact Keeps.refl t
    · exact keeps_addChange t offset data _ (width_plain size).2.1
    · exact keeps_addPendingChange t offset data _ (width_plain size).2.1
  | kernelWrite guestAddr bytes => exact inside (keeps_trackKernelWrite t guestAddr bytes)
  | syscall env => exact inside (keeps_raiseSyscall target t env)
  | loadSeg env selector value => exact inside (keeps_loadSeg target t env selector value)

theorem changelists_cons (event : Event) (rest : List Event) :
    changelists (event :: rest) = changelists [event] + changelists rest := by
  cases event with
  | block env filtered pc size =>
    cases filtered with
    | true => exact (Nat.zero_add _).symm
    | false => exact Nat.add_comm _ _
  | load | store | read | write | kernelWrite | syscall | loadSeg => exact (Nat.zero_add _).symm

theorem run_sound (target : Target) {t : Tracer} (sound : Sound t) (events : List Event)
    (room : t.changelistNumber.toNat + changelists events < 2 ^ 32) :
    Sound (t.run target events) := by
  induction events generalizing t with
  | nil => exact sound
  | cons event rest ih =>
    rw [changelists_cons] at room
    obtain ⟨next, number⟩ := step_sound target sound event (by omega)
    exact ih next (by omega)

theorem init_sound (startClnum : Clnum) : Sound (Tracer.init startClnum) where
  inChangelists := List.Pairwise.nil
  reached := by simp [Tracer.init]
  valid := by simp [Tracer.init]
  pending := noPending_plain

/-- Changelist retrieval is exact. For every run of the tracer that stays within the changelist
numbers, a number with a start record yields the records stamped with it, in log order, from the
start record on, and cut at the limit; any other number yields nothing. -/
theorem fetchChangesByClnum_exact (cfg : Config) (target : Target) (startClnum : Clnum)
    (positive : 1 ≤ startClnum) (events : List Event)
    (room : startClnum.toNat - 1 + changelists events < 2 ^ 32) (log : List Change)
    (written : log = ((Tracer.init startClnum).run target events).log) (conn : Connection cfg)
    (connected : Connected cfg log conn) (clnum : Clnum) (limit : BitVec 32) :
    conn.fetchChangesByClnum log clnum limit =
        some (if ∃ c ∈ log, has c.flags IS_START = true ∧ c.clnum = clnum
          then truncated limit (log.filter (fun c => c.clnum = clnum)) else []) ∧
      ∀ c ∈ log, has c.flags IS_START = true → c.clnum = clnum →
        (log.filter (fun c => c.clnum = clnum)).head? = some c := by
  have first : (startClnum - 1).toNat = startClnum.toNat - 1 :=
    BitVec.toNat_sub_of_le positive
  have sound := run_sound target (init_sound startClnum) events (first ▸ room)
  have inOrder : InChangelists log := written ▸ sound.inChangelists
  have starts : ∀ c ∈ log, (c.type = 'I' ↔ has c.flags IS_START = true) := by
    intro c member
    rw [written] at member
    rw [type_eq_start_iff]
    exact and_iff_right (sound.valid c member)
  have present : (∃ c ∈ log, c.type = 'I' ∧ c.clnum = clnum) ↔
      ∃ c ∈ log, has c.flags IS_START = true ∧ c.clnum = clnum := by
    apply exists_congr
    intro c
    apply and_congr_right
    intro member
    rw [starts c member]
  refine ⟨?_, ?_⟩
  · rw [fetchChangesByClnum_eq cfg log conn connected inOrder clnum limit]
    simp only [present]
  · intro c member start same
    obtain ⟨front, rest, rfl⟩ := List.append_of_mem member
    rw [← same, ← takeWhile_changelist front rest c ((starts c member).mpr start) inOrder]
    simp

/-- A block, a store in it, a filtered block that writes a register twice, and the next block. -/
def filteredRun : List Event :=
  [.block (fun _ => 0) false 0x8000 4, .store 0x1000 7 .word, .block (fun _ => 0) true 0x90000000 4,
    .write 0x10 5 .word, .write 0x10 6 .word, .block (fun _ => 0) false 0x8004 4]

def filteredLog : List Change :=
  [⟨0x8000, 4, 1, 0x90000000⟩, ⟨0x1000, 7, 1, 0xE0000020⟩, ⟨0x10, 6, 1, 0xC0000020⟩,
    ⟨0x8004, 4, 2, 0x90000000⟩]

theorem fetchChangesByClnum_exact_filteredRun :
    ∃ conn, Connected ⟨false, 4, 9⟩ filteredLog conn ∧
      conn.fetchChangesByClnum filteredLog 1 2 =
        some (if ∃ c ∈ filteredLog, has c.flags IS_START = true ∧ c.clnum = 1
          then truncated 2 (filteredLog.filter (fun c => c.clnum = 1)) else []) ∧
      ∀ c ∈ filteredLog, has c.flags IS_START = true → c.clnum = 1 →
        (filteredLog.filter (fun c => c.clnum = 1)).head? = some c := by
  obtain ⟨conn, connected⟩ := exists_connected ⟨false, 4, 9⟩ filteredLog (by decide)
  exact ⟨conn, connected, fetchChangesByClnum_exact ⟨false, 4, 9⟩ ⟨.word, .eax 0⟩ 1 (by decide)
    filteredRun (by decide) filteredLog (by decide) conn connected 1 2⟩

end Qira.QemuChangelists
