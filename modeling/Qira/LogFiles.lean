import Qira.Library.ByteRecords
import Qira.QemuReplay

/-!
Logs of changes as files: the one that the middleware writes for the modifications of a fork, and the
three that read such files, the middleware itself, the replayer and the trace database.
-/

namespace Qira.LogFiles
open ChangeRecord TraceIndex TraceProcess QemuReplay
open Library.Words Library.ByteRecords

/-- `struct change`, or "QQII": 24 bytes. -/
def change : Format Change where
  size := 0x18
  write c := bytesOf c.address 8 ++ bytesOf c.data 8 ++ bytesOf c.clnum 4 ++ bytesOf c.flags 4
  read bytes := ⟨wordOf 64 (bytes.take 8), wordOf 64 ((bytes.drop 8).take 8),
    wordOf 32 ((bytes.drop 16).take 4), wordOf 32 ((bytes.drop 20).take 4)⟩
  positive := by decide
  length_write c := by simp
  read_write c := by
    have address := wordOf_bytesOf c.address 8 rfl
    have data := wordOf_bytesOf c.data 8 rfl
    have clnum := wordOf_bytesOf c.clnum 4 rfl
    have flags := wordOf_bytesOf c.flags 4 rfl
    simp [List.drop_append, List.take_of_length_le, List.drop_of_length_le, address, data, clnum, flags]

/-- The first four bytes; there are none to unpack in a file that is shorter. -/
def getLogLength (f : List Byte) : Option Nat :=
  if 4 ≤ f.length then some (littleEndian (f.take 4)) else none

/-- The loop of `read_log`. Unpacking fails on a record that is cut short. -/
def readRecords (dat : List Byte) : Option (List Change) :=
  if dat = [] then some []
  else if dat.length < 0x18 then none
  else if has (change.read (dat.take 0x18)).flags IS_VALID = false then some []
  else (readRecords (dat.drop 0x18)).map (change.read (dat.take 0x18) :: ·)
termination_by dat.length
decreasing_by
  rw [List.length_drop]
  omega

def readLog (f : List Byte) (seek cnt : Nat) : Option (List Change) :=
  let rest := f.drop (seek * 0x18)
  readRecords (if cnt = 0 then rest else rest.take (cnt * 0x18))

/-- The header is a count and zeros. A count of more than 32 bits cannot be packed. -/
def writeLog (dat : List Change) : Option (List Byte) :=
  if dat.length < 2 ^ 32 then
    some (bytesOf (BitVec.ofNat 32 dat.length) 4 ++ List.replicate 0x14 0 ++ change.writeAll dat)
  else none

/-- The records behind the header, as many as are whole. -/
def records (f : List Byte) : List Change := change.readAll (f.drop 0x18)

/-- `run_QIRA_mods`, which ends at a short read. -/
def runQiraMods (emulator : Emulator) (f : List Byte) (guest : Guest) : Guest × Nat :=
  runQiraLogFromFd emulator 0xFFFFFFFF (records f) guest

/-- `*((EntryNumber*)backing_)`. -/
def entryCount (f : List Byte) : EntryNumber := wordOf 32 (f.take 4)

/-- The database on a file that nobody writes to any more, after so many calls of `process`. -/
def processFile (cfg : Config) (f : List Byte) (calls : Nat) : Option (Trace cfg) :=
  polls (records f) (Trace.new cfg) (List.replicate calls (entryCount f))

/-- There is a file, and all three read the list from it: the replayer runs through it in order, and
the database comes to have taken it in. -/
def ReadBackWhole (dat : List Change) : Prop :=
  ∃ f, writeLog dat = some f ∧
    readLog f 1 0 = some dat ∧
    (∀ emulator guest, runQiraMods emulator f guest =
      (dat.foldl (fun guest c => replayWrite c (replaySyscall emulator c guest)) guest, dat.length)) ∧
    ∀ cfg, ∃ calls t, processFile cfg f calls = some t ∧ t = ingestAll cfg dat ∧
      t.entriesDone.toNat = dat.length + 1

section Written
variable {dat : List Change} {f : List Byte}

theorem writeLog_eq (written : writeLog dat = some f) :
    dat.length < 2 ^ 32 ∧ f.take 4 = bytesOf (BitVec.ofNat 32 dat.length) 4 ∧
      f.drop 0x18 = change.writeAll dat := by
  unfold writeLog at written
  split_ifs at written with small
  obtain rfl := Option.some.inj written
  refine ⟨small, ?_, ?_⟩
  · rw [List.append_assoc]
    exact List.take_left' (length_bytesOf _ _)
  · apply List.drop_left'
    simp

theorem records_writeLog (written : writeLog dat = some f) : records f = dat := by
  rw [records, (writeLog_eq written).2.2, Format.readAll_writeAll]

/-- The middleware counts the records, not the header in front of them. -/
theorem getLogLength_writeLog (written : writeLog dat = some f) : getLogLength f = some dat.length := by
  obtain ⟨small, header, -⟩ := writeLog_eq written
  have long : 4 ≤ f.length := by
    have length := congrArg List.length header
    rw [List.length_take, length_bytesOf] at length
    omega
  have count : littleEndian (f.take 4) = dat.length := by
    rw [header, bytesOf, littleEndian_bytes_mod, BitVec.toNat_ofNat, Nat.mod_eq_of_lt small]
    exact Nat.mod_eq_of_lt small
  rw [getLogLength, if_pos long, count]

theorem entryCount_writeLog (written : writeLog dat = some f) : (entryCount f).toNat = dat.length := by
  have length := getLogLength_writeLog written
  unfold getLogLength at length
  split_ifs at length with long
  rw [entryCount, wordOf, Option.some.inj length, BitVec.toNat_ofNat,
    Nat.mod_eq_of_lt (writeLog_eq written).1]

/-- As long as all records are valid, `read_log` goes on to the end of the file. -/
theorem readRecords_writeAll (valid : ∀ c ∈ dat, has c.flags IS_VALID = true) :
    readRecords (change.writeAll dat) = some dat := by
  induction dat with
  | nil =>
    rw [readRecords]
    exact if_pos rfl
  | cons c rest ih =>
    have first : change.writeAll (c :: rest) = change.write c ++ change.writeAll rest := List.flatMap_cons
    have size : (change.write c).length = 0x18 := change.length_write c
    have front : (change.write c ++ change.writeAll rest).take 0x18 = change.write c :=
      change.take_write_append c _
    have behind : (change.write c ++ change.writeAll rest).drop 0x18 = change.writeAll rest :=
      change.drop_write_append c _
    have nonempty : change.write c ++ change.writeAll rest ≠ [] := by
      intro none
      have length := congrArg List.length none
      rw [List.length_append, size, List.length_nil] at length
      omega
    have whole : ¬ (change.write c ++ change.writeAll rest).length < 0x18 := by
      rw [List.length_append, size]
      omega
    rw [first, readRecords, if_neg nonempty, if_neg whole, front, behind, change.read_write,
      if_neg (by simp [valid c List.mem_cons_self]),
      ih (fun d member => valid d (List.mem_cons_of_mem _ member))]
    rfl

theorem readLog_writeLog (written : writeLog dat = some f)
    (valid : ∀ c ∈ dat, has c.flags IS_VALID = true) : readLog f 1 0 = some dat := by
  rw [readLog, if_pos rfl, (writeLog_eq written).2.2, readRecords_writeAll valid]

end Written

/-- The replayer runs through records that are valid and before its end. -/
theorem runQiraLogFromFd_whole (emulator : Emulator) (toChange : Clnum) (dat : List Change)
    (guest : Guest) (valid : ∀ c ∈ dat, has c.flags IS_VALID = true)
    (before : ∀ c ∈ dat, c.clnum < toChange) :
    runQiraLogFromFd emulator toChange dat guest =
      (dat.foldl (fun guest c => replayWrite c (replaySyscall emulator c guest)) guest, dat.length) := by
  induction dat generalizing guest with
  | nil => rfl
  | cons c rest ih =>
    have later := ih (replayWrite c (replaySyscall emulator c guest))
      (fun d member => valid d (List.mem_cons_of_mem _ member))
      (fun d member => before d (List.mem_cons_of_mem _ member))
    rw [runQiraLogFromFd, if_neg (by simp [valid c List.mem_cons_self]),
      if_neg (not_le.mpr (before c List.mem_cons_self)), later]
    rfl

/-- What is mapped for a count has no slot for records from the count on. -/
theorem mapped_take (log : List Change) (count : EntryNumber) :
    mapped log count = mapped (log.take (count.toNat - 1)) count := by
  funext k
  unfold mapped
  by_cases inside : 0 < k ∧ k < count
  · have early : k.toNat - 1 < count.toNat - 1 := by
      obtain ⟨positive, below⟩ := inside
      bv_omega
    rw [if_pos inside, if_pos inside, List.getElem?_take_of_lt early]
  · rw [if_neg inside, if_neg inside]

theorem process_take {cfg : Config} (log : List Change) (count : EntryNumber) (t : Trace cfg) :
    process log t count = process (log.take (count.toNat - 1)) t count := by
  unfold process
  rw [mapped_take log count]

theorem polls_take {cfg : Config} (log : List Change) (count : EntryNumber) (calls : Nat) (t : Trace cfg) :
    polls log t (List.replicate calls count) =
      polls (log.take (count.toNat - 1)) t (List.replicate calls count) := by
  have oneCall : ∀ (log : List Change) (calls : Nat) (t : Trace cfg),
      polls log t (List.replicate (calls + 1) count) =
        (process log t count).bind (fun t => polls log t (List.replicate calls count)) := by
    intro log calls t
    rw [List.replicate_succ]
    rfl
  induction calls generalizing t with
  | zero =>
    have idle : ∀ log : List Change, polls log t (List.replicate 0 count) = some t := fun _ => rfl
    rw [idle, idle]
  | succ calls ih => rw [oneCall, oneCall, process_take, funext ih]

/-- The database takes the header for one of the records that it counts. -/
theorem processFile_misses_last (cfg : Config) {dat : List Change} {f : List Byte}
    (written : writeLog dat = some f) (calls : Nat) {t : Trace cfg}
    (ran : processFile cfg f calls = some t) : t.entriesDone.toNat ≤ max 1 dat.length := by
  rw [processFile, records_writeLog written, polls_take, entryCount_writeLog written] at ran
  obtain ⟨k, held⟩ := polls_holds _ (Holds.new _) ran
  have few := held.inLog
  rw [List.length_take] at few
  rw [held.entriesDone]
  omega

theorem processFile_empty (cfg : Config) {f : List Byte} (written : writeLog [] = some f) (calls : Nat) :
    processFile cfg f calls = some (Trace.new cfg) := by
  have nothing : entryCount f = 0 := by
    apply BitVec.eq_of_toNat_eq
    rw [entryCount_writeLog written]
    rfl
  rw [processFile, nothing]
  induction calls with
  | zero => rfl
  | succ calls ih =>
    rw [List.replicate_succ, polls, List.foldlM_cons, process, if_pos (show (0 : EntryNumber) ≤ (Trace.new cfg).entriesDone from Nat.zero_le _)]
    exact ih

/-- The middleware and the replayer read back whole what was written. The database does not get the last
record, so all three do only when there is none. -/
theorem readBackWhole_iff (dat : List Change) (valid : ∀ c ∈ dat, has c.flags IS_VALID = true)
    (before : ∀ c ∈ dat, c.clnum < 0xFFFFFFFF) :
    (∀ f, writeLog dat = some f → readLog f 1 0 = some dat ∧
      ∀ emulator guest, runQiraMods emulator f guest =
        (dat.foldl (fun guest c => replayWrite c (replaySyscall emulator c guest)) guest, dat.length)) ∧
      (ReadBackWhole dat ↔ dat = []) := by
  have readers : ∀ f, writeLog dat = some f → readLog f 1 0 = some dat ∧
      ∀ emulator guest, runQiraMods emulator f guest =
        (dat.foldl (fun guest c => replayWrite c (replaySyscall emulator c guest)) guest, dat.length) := by
    intro f written
    refine ⟨readLog_writeLog written valid, fun emulator guest => ?_⟩
    rw [runQiraMods, records_writeLog written]
    exact runQiraLogFromFd_whole emulator _ dat guest valid before
  refine ⟨readers, ?_⟩
  constructor
  · rintro ⟨f, written, -, -, database⟩
    obtain ⟨calls, t, ran, -, done⟩ := database ⟨false, 8, 17⟩
    have missed := processFile_misses_last _ written calls ran
    exact List.eq_nil_of_length_eq_zero (by omega)
  · rintro rfl
    obtain ⟨f, written⟩ : ∃ f, writeLog [] = some f := ⟨_, rfl⟩
    obtain ⟨middleware, replayer⟩ := readers f written
    refine ⟨f, written, middleware, replayer, fun cfg => ⟨0, _, processFile_empty cfg written 0, rfl, rfl⟩⟩

def oneStore : Change := ⟨0x601040, 0x2A, 7, 0xE0000008⟩

theorem readBackWhole_iff_one :
    (∀ f, writeLog [oneStore] = some f → readLog f 1 0 = some [oneStore] ∧
      ∀ emulator guest, runQiraMods emulator f guest =
        ([oneStore].foldl (fun guest c => replayWrite c (replaySyscall emulator c guest)) guest, 1)) ∧
      (ReadBackWhole [oneStore] ↔ [oneStore] = []) :=
  readBackWhole_iff [oneStore] (by decide) (by decide)

/-- The only modification of a fork is not read back. -/
theorem one_store_missed : ¬ ReadBackWhole [oneStore] := by
  rintro ⟨f, written, -, -, database⟩
  obtain ⟨calls, t, ran, -, done⟩ := database ⟨false, 8, 17⟩
  have missed := processFile_misses_last _ written calls ran
  rw [done] at missed
  simp at missed

end Qira.LogFiles
