import Qira.TraceMemory
import Qira.TraceRegisters

/-!
A forked run starts by replaying its parent's log into the guest: `run_QIRA_log_from_fd` copies the
data of each write record over the CPU state or over guest memory. The database reads the same
records its own way. This module says exactly when the two agree.
-/

namespace Qira.QemuReplay
open ChangeRecord TraceIndex TraceProcess TraceMemory TraceRegisters
open Library.Words Library.Timelines Library.Overwrites

def FAKE_SYSCALL_LOADSEG : Address := 0x10001

/-- The guest a log is replayed into: the bytes of `CPUArchState` by offset, and guest memory. -/
structure Guest where
  env : Nat → Byte
  memory : Address → Byte

/-- What the replayer calls in the emulator: `helper_load_seg`, and `do_syscall` on the registers
with its result put in the first. -/
structure Emulator where
  helperLoadSeg : BitVec 64 → BitVec 64 → Guest → Guest
  doSyscall : Guest → Guest

/-- `memcpy` of a record's data on a little-endian host, over guest memory. -/
def hostWrite (c : Change) : Address → Option Byte :=
  fun x => if c.covers x = true then some (byteOf c.data (c.offset x)) else none

/-- The same over the CPU state. -/
def envWrite (c : Change) : Nat → Option Byte :=
  fun k => if c.address.toNat ≤ k ∧ k < c.address.toNat + c.byteCount
    then some (byteOf c.data (k - c.address.toNat)) else none

def replaySyscall (emulator : Emulator) (c : Change) (guest : Guest) : Guest :=
  if has c.flags IS_SYSCALL then
    if c.address = FAKE_SYSCALL_LOADSEG then
      emulator.helperLoadSeg (c.data >>> 32) (c.data &&& 0xFFFFFFFF) guest
    else if c.address ≠ 3 then emulator.doSyscall guest
    else guest
  else guest

def replayWrite (c : Change) (guest : Guest) : Guest :=
  if has c.flags IS_WRITE then
    if has c.flags IS_MEM then { guest with memory := overwrite guest.memory (hostWrite c) }
    else { guest with env := overwrite guest.env (envWrite c) }
  else guest

/-- The records after the header, up to the first that is invalid or not before `toChange`, with the
count of those replayed. -/
def runQiraLogFromFd (emulator : Emulator) (toChange : Clnum) : List Change → Guest → Guest × Nat
  | [], guest => (guest, 0)
  | c :: rest, guest =>
      if has c.flags IS_VALID = false then (guest, 0)
      else if toChange ≤ c.clnum then (guest, 0)
      else
        let (guest, ret) := runQiraLogFromFd emulator toChange rest
          (replayWrite c (replaySyscall emulator c guest))
        (guest, ret + 1)

/-- A memory store record of 1 to 8 bytes. -/
def StoreRecord (c : Change) : Prop :=
  ∃ n, 1 ≤ n ∧ n ≤ 8 ∧ c.flags = IS_VALID ||| IS_WRITE ||| IS_MEM ||| BitVec.ofNat 32 (8 * n)

/-- A register write record of 8, 16, 32 or 64 bits. -/
def RegisterRecord (c : Change) : Prop :=
  ∃ n ∈ [1, 2, 4, 8], c.flags = IS_VALID ||| IS_WRITE ||| BitVec.ofNat 32 (8 * n)

theorem StoreRecord.facts {c : Change} (store : StoreRecord c) :
    has c.flags IS_VALID = true ∧ has c.flags IS_SYSCALL = false ∧ has c.flags IS_WRITE = true ∧
      has c.flags IS_MEM = true ∧ c.type = 'S' := by
  obtain ⟨n, positive, small, flags⟩ := store
  unfold Change.type
  rw [flags]
  interval_cases n <;> decide

theorem RegisterRecord.facts {c : Change} (register : RegisterRecord c) :
    has c.flags IS_VALID = true ∧ has c.flags IS_SYSCALL = false ∧ has c.flags IS_WRITE = true ∧
      has c.flags IS_MEM = false ∧ c.type = 'W' ∧ 0 < c.byteCount := by
  obtain ⟨n, size, flags⟩ := register
  unfold Change.type Change.byteCount
  rw [flags]
  simp only [List.mem_cons, List.not_mem_nil, or_false] at size
  rcases size with rfl | rfl | rfl | rfl <;> decide

theorem replay_store (emulator : Emulator) {c : Change} (store : StoreRecord c) (guest : Guest) :
    replayWrite c (replaySyscall emulator c guest) =
      { guest with memory := overwrite guest.memory (hostWrite c) } := by
  obtain ⟨-, quiet, write, memory, -⟩ := store.facts
  simp [replayWrite, replaySyscall, quiet, write, memory]

theorem replay_register (emulator : Emulator) {c : Change} (register : RegisterRecord c)
    (guest : Guest) :
    replayWrite c (replaySyscall emulator c guest) =
      { guest with env := overwrite guest.env (envWrite c) } := by
  obtain ⟨-, quiet, write, memory, -⟩ := register.facts
  simp [replayWrite, replaySyscall, quiet, write, memory]

/-- On valid records the replayer goes through those before `toChange`. -/
theorem run_eq_foldl (emulator : Emulator) (toChange : Clnum) (log : List Change) (guest : Guest)
    (valid : ∀ c ∈ log, has c.flags IS_VALID = true) :
    (runQiraLogFromFd emulator toChange log guest).1 =
      (log.takeWhile (fun c => c.clnum < toChange)).foldl
        (fun guest c => replayWrite c (replaySyscall emulator c guest)) guest := by
  induction log generalizing guest with
  | nil => rfl
  | cons c rest ih =>
    have validHere := valid c List.mem_cons_self
    have validRest : ∀ d ∈ rest, has d.flags IS_VALID = true :=
      fun d member => valid d (List.mem_cons_of_mem _ member)
    unfold runQiraLogFromFd
    by_cases before : c.clnum < toChange
    · rw [if_neg (by simp [validHere]), if_neg (not_le.mpr before)]
      simp only [List.takeWhile_cons, before, decide_true, if_true, List.foldl_cons]
      exact ih _ validRest
    · rw [if_neg (by simp [validHere]), if_pos (not_lt.mp before)]
      simp [before]

private theorem takeWhile_before (toChange : Clnum) (log : List Change)
    (ordered : log.Pairwise (fun b c => b.clnum ≤ c.clnum)) :
    log.takeWhile (fun c => c.clnum < toChange) = log.filter (fun c => c.clnum < toChange) := by
  apply takeWhile_eq_filter _ log (ordered.imp _)
  intro a b below early
  exact decide_eq_true (below.trans_lt (of_decide_eq_true early))

private theorem foldl_stores (emulator : Emulator) (log : List Change) (guest : Guest)
    (stores : ∀ c ∈ log, StoreRecord c) :
    (log.foldl (fun guest c => replayWrite c (replaySyscall emulator c guest)) guest).memory =
      replay guest.memory (log.map hostWrite) := by
  induction log generalizing guest with
  | nil => rfl
  | cons c rest ih =>
    rw [List.foldl_cons, replay_store emulator (stores c List.mem_cons_self),
      ih _ (fun d member => stores d (List.mem_cons_of_mem _ member))]
    rfl

private theorem foldl_registers (emulator : Emulator) (log : List Change) (guest : Guest)
    (registers : ∀ c ∈ log, RegisterRecord c) :
    (log.foldl (fun guest c => replayWrite c (replaySyscall emulator c guest)) guest).env =
      replay guest.env (log.map envWrite) := by
  induction log generalizing guest with
  | nil => rfl
  | cons c rest ih =>
    rw [List.foldl_cons, replay_register emulator (registers c List.mem_cons_self),
      ih _ (fun d member => registers d (List.mem_cons_of_mem _ member))]
    rfl

/-- Guest memory after a log of stores is replayed. -/
theorem run_memory (emulator : Emulator) (toChange : Clnum) (log : List Change) (guest : Guest)
    (stores : ∀ c ∈ log, StoreRecord c) (ordered : log.Pairwise (fun b c => b.clnum ≤ c.clnum)) :
    (runQiraLogFromFd emulator toChange log guest).1.memory =
      replay guest.memory ((log.filter (fun c => c.clnum < toChange)).map hostWrite) := by
  rw [run_eq_foldl emulator toChange log guest (fun c member => (stores c member).facts.1),
    takeWhile_before toChange log ordered]
  exact foldl_stores emulator _ guest (fun c member => stores c (List.mem_of_mem_filter member))

/-- The CPU state after a log of register writes is replayed. -/
theorem run_env (emulator : Emulator) (toChange : Clnum) (log : List Change) (guest : Guest)
    (registers : ∀ c ∈ log, RegisterRecord c)
    (ordered : log.Pairwise (fun b c => b.clnum ≤ c.clnum)) :
    (runQiraLogFromFd emulator toChange log guest).1.env =
      replay guest.env ((log.filter (fun c => c.clnum < toChange)).map envWrite) := by
  rw [run_eq_foldl emulator toChange log guest (fun c member => (registers c member).facts.1),
    takeWhile_before toChange log ordered]
  exact foldl_registers emulator _ guest (fun c member => registers c (List.mem_of_mem_filter member))

/-- The last store before `toChange` that covers the address. -/
def lastStore (log : List Change) (toChange : Clnum) (x : Address) : Option Change :=
  ((log.filter (fun c => c.clnum < toChange)).filter (fun c => c.covers x)).getLast?

private theorem accessWrite_store (isBigEndian : Bool) {c : Change} (store : StoreRecord c)
    (x : Address) : accessWrite isBigEndian c x =
      if c.covers x = true then some (c.laidByte isBigEndian (c.offset x)) else none := by
  obtain ⟨-, -, -, -, type⟩ := store.facts
  simp [accessWrite, type]

theorem fetchMemory_one {cfg : Config} (t : Trace cfg) (clnum : Clnum) (x : Address) :
    t.fetchMemory clnum x 1 = if x = -1 then [] else [t.getByte clnum x] := by
  have one : BitVec.ofInt 64 1 = 1 := by decide
  unfold Trace.fetchMemory
  rw [one, Trace.fetchMemoryLoop]
  by_cases last : x = -1
  · subst last
    simp
  · have next : x < x + 1 := by bv_omega
    rw [if_pos next, if_neg last, Trace.fetchMemoryLoop, if_neg (by bv_omega)]

section LastStore
variable {log : List Change} {toChange : Clnum} {x : Address}

theorem exists_lastStore (written : ∃ c ∈ log, c.clnum < toChange ∧ c.covers x = true) :
    ∃ c, lastStore log toChange x = some c := by
  obtain ⟨early, member, before, covered⟩ := written
  refine Option.ne_none_iff_exists'.mp fun none => ?_
  have inside : early ∈ (log.filter (fun c => c.clnum < toChange)).filter (fun c => c.covers x) :=
    List.mem_filter.mpr ⟨List.mem_filter.mpr ⟨member, decide_eq_true before⟩, covered⟩
  rw [List.getLast?_eq_none_iff.mp none] at inside
  cases inside

/-- The index answers the byte that the last store has laid down. -/
theorem getByte_lastStore (cfg : Config) {c : Change} (stores : ∀ c ∈ log, StoreRecord c)
    (ordered : log.Pairwise (fun b c => b.clnum ≤ c.clnum)) (positive : toChange ≠ 0)
    (last : lastStore log toChange x = some c) :
    (ingestAll cfg log).getByte (toChange - 1) x =
      MEMORY_VALID ||| (c.laidByte cfg.isBigEndian (c.offset x)).setWidth 16 := by
  have cut : log.filter (fun c => c.clnum ≤ toChange - 1) = log.filter (fun c => c.clnum < toChange) := by
    apply List.filter_congr
    intro c _
    apply decide_eq_decide.mpr
    constructor <;> intro near <;> bv_omega
  rw [getByte_ingestAll cfg log (toChange - 1) x ordered, cut,
    lastWrite_covering _ _ x _ (fun c => c.laidByte cfg.isBigEndian (c.offset x))
      (fun c member => accessWrite_store _ (stores c (List.mem_of_mem_filter member)) x)]
  rw [lastStore] at last
  rw [last]
  rfl

/-- The replay leaves the byte of the last store, least significant first. -/
theorem run_lastStore (emulator : Emulator) (guest : Guest) {c : Change} (stores : ∀ c ∈ log, StoreRecord c)
    (ordered : log.Pairwise (fun b c => b.clnum ≤ c.clnum)) (last : lastStore log toChange x = some c) :
    (runQiraLogFromFd emulator toChange log guest).1.memory x = byteOf c.data (c.offset x) := by
  rw [run_memory emulator toChange log guest stores ordered, replay_eq_lastWrite,
    lastWrite_covering _ _ x _ (fun c => byteOf c.data (c.offset x)) (fun _ _ => rfl)]
  rw [lastStore] at last
  rw [last]
  rfl

end LastStore

/-- Memory shown by the database agrees with memory restored by replay at an address exactly when
the address is below the top of the address space and, on a big-endian trace, the last store over it
has the same byte at its place in either order. -/
theorem fetchMemory_replay_iff (cfg : Config) (emulator : Emulator) (guest : Guest)
    (log : List Change) (t : Trace cfg) (ingested : Ingested cfg log t)
    (stores : ∀ c ∈ log, StoreRecord c) (ordered : log.Pairwise (fun b c => b.clnum ≤ c.clnum))
    (toChange : Clnum) (x : Address)
    (written : ∃ c ∈ log, c.clnum < toChange ∧ c.covers x = true) :
    t.fetchMemory (toChange - 1) x 1 =
        [MEMORY_VALID |||
          ((runQiraLogFromFd emulator toChange log guest).1.memory x).setWidth 16] ↔
      x ≠ -1 ∧ (cfg.isBigEndian = true → ∀ c, lastStore log toChange x = some c →
        byteOf c.data (c.byteCount - 1 - c.offset x) = byteOf c.data (c.offset x)) := by
  obtain ⟨c, last⟩ := exists_lastStore written
  obtain ⟨early, -, before, -⟩ := written
  have shown : t.getByte (toChange - 1) x =
      MEMORY_VALID ||| (c.laidByte cfg.isBigEndian (c.offset x)).setWidth 16 := by
    rw [ingested.eq_ingestAll, getByte_lastStore cfg stores ordered (by bv_omega) last]
  have restored := run_lastStore emulator guest stores ordered last
  rw [fetchMemory_one, shown, restored, last]
  by_cases top : x = -1
  · simp [top]
  · rw [if_neg top, List.cons.injEq]
    have bytes : c.laidByte cfg.isBigEndian (c.offset x) = byteOf c.data (c.offset x) ↔
        (cfg.isBigEndian = true →
          byteOf c.data (c.byteCount - 1 - c.offset x) = byteOf c.data (c.offset x)) := by
      cases order : cfg.isBigEndian <;> simp [Change.laidByte]
    constructor
    · intro same
      exact ⟨top, fun order d isLast =>
        Option.some.inj isLast ▸ bytes.mp (valid_injective _ _ same.1) order⟩
    · intro agree
      exact ⟨by rw [bytes.mpr (fun order => agree.2 order c rfl)], rfl⟩

/-- A four-byte store and, over its second byte, a one-byte store. -/
def storeLog : List Change :=
  [⟨0x1000, 0x11223344, 1, 0xE0000020⟩, ⟨0x1001, 0x55, 1, 0xE0000008⟩]

def idle : Emulator := ⟨fun _ _ guest => guest, fun guest => guest⟩
def zeroGuest : Guest := ⟨fun _ => 0, fun _ => 0⟩

private theorem storeLog_stores : ∀ c ∈ storeLog, StoreRecord c := by
  intro c member
  simp only [storeLog, List.mem_cons, List.not_mem_nil, or_false] at member
  rcases member with rfl | rfl
  · exact ⟨4, by decide, by decide, by decide⟩
  · exact ⟨1, by decide, by decide, by decide⟩

theorem fetchMemory_replay_iff_one_byte :
    ∃ t, Ingested ⟨true, 4, 32⟩ storeLog t ∧
      (t.fetchMemory (2 - 1) 0x1001 1 =
          [MEMORY_VALID ||| ((runQiraLogFromFd idle 2 storeLog zeroGuest).1.memory 0x1001).setWidth 16] ↔
        (0x1001 : Address) ≠ -1 ∧ (true = true → ∀ c, lastStore storeLog 2 0x1001 = some c →
          byteOf c.data (c.byteCount - 1 - c.offset 0x1001) = byteOf c.data (c.offset 0x1001))) := by
  obtain ⟨t, ingested⟩ := exists_ingested ⟨true, 4, 32⟩ storeLog (by decide)
  exact ⟨t, ingested, fetchMemory_replay_iff ⟨true, 4, 32⟩ idle zeroGuest storeLog t ingested
    storeLog_stores (by decide) 2 0x1001 (by decide)⟩

/-- On a big-endian trace the database shows the most significant byte of a store at its address;
the replay leaves the least significant one there. -/
theorem fetchMemory_replay_bigEndian :
    ∃ t, Ingested ⟨true, 4, 32⟩ storeLog t ∧ (∀ c ∈ storeLog, StoreRecord c) ∧
      storeLog.Pairwise (fun b c => b.clnum ≤ c.clnum) ∧
      (∃ c ∈ storeLog, c.clnum < 2 ∧ c.covers 0x1000 = true) ∧
      t.fetchMemory (2 - 1) 0x1000 1 = [MEMORY_VALID ||| 0x11] ∧
      (runQiraLogFromFd idle 2 storeLog zeroGuest).1.memory 0x1000 = 0x44 := by
  obtain ⟨t, ingested⟩ := exists_ingested ⟨true, 4, 32⟩ storeLog (by decide)
  refine ⟨t, ingested, storeLog_stores, by decide, by decide, ?_, by decide⟩
  rw [fetchMemory_one, ingested.eq_ingestAll,
    getByte_ingestAll ⟨true, 4, 32⟩ storeLog (2 - 1) 0x1000 (by decide)]
  decide

/-- The last record up to `clnum` whose address falls in the register, as the database keys it. -/
def lastKeyed (registerSize : Nat) (log : List Change) (clnum : Clnum) (i : Nat) : Option Change :=
  ((log.filter (fun c => c.clnum ≤ clnum)).filter
    (fun c => c.address.toNat / registerSize = i)).getLast?

/-- The last record before `toChange` that copies a byte to the offset, as the replayer does. -/
def lastCopied (log : List Change) (toChange : Clnum) (k : Nat) : Option Change :=
  ((log.filter (fun c => c.clnum < toChange)).filter
    (fun c => c.address.toNat ≤ k ∧ k < c.address.toNat + c.byteCount)).getLast?

/-- Byte by byte, the data of the last record keyed to the register is what the last record over
each of its bytes carries for it, and is zero above the register's width. -/
def LastWritesAgree (registerSize : Nat) (log : List Change) (clnum : Clnum) (i : Nat) : Prop :=
  ∀ k, (lastKeyed registerSize log clnum i).elim 0 (fun c => byteOf c.data k) =
    if k < registerSize then
      (lastCopied log (clnum + 1) (i * registerSize + k)).elim 0
        (fun c => byteOf c.data (i * registerSize + k - c.address.toNat))
    else 0

theorem fetchRegisters_last (cfg : Config) (log : List Change) (t : Trace cfg)
    (ingested : Ingested cfg log t) (registers : ∀ c ∈ log, RegisterRecord c)
    (inside : ∀ c ∈ log, c.address.toNat + c.byteCount ≤ cfg.registerSize * cfg.registerCount)
    (ordered : log.Pairwise (fun b c => b.clnum ≤ c.clnum)) (clnum : Clnum) (i : Nat)
    (inFile : i < cfg.registerCount) :
    (t.fetchRegisters clnum)[i] =
      (lastKeyed cfg.registerSize log clnum i).elim 0 (fun c => c.data) := by
  rw [ingested.eq_ingestAll, fetchRegisters_ingestAll cfg log clnum i inFile ordered,
    lastWrite_covering _ _ i (fun c => c.address.toNat / cfg.registerSize = i) Change.data]
  · rw [lastKeyed]
    cases List.getLast? _ <;> rfl
  · intro c member
    have facts := (registers c (List.mem_of_mem_filter member)).facts
    have fits := inside c (List.mem_of_mem_filter member)
    have low : c.address.toNat < cfg.registerSize * cfg.registerCount := by omega
    simp [registerWrite, facts.2.2.2.2.1, low]

theorem run_env_last (emulator : Emulator) (toChange : Clnum) (log : List Change) (guest : Guest)
    (registers : ∀ c ∈ log, RegisterRecord c)
    (ordered : log.Pairwise (fun b c => b.clnum ≤ c.clnum)) (k : Nat) :
    (runQiraLogFromFd emulator toChange log guest).1.env k =
      (lastCopied log toChange k).elim (guest.env k)
        (fun c => byteOf c.data (k - c.address.toNat)) := by
  rw [run_env emulator toChange log guest registers ordered, replay_eq_lastWrite,
    lastWrite_covering _ _ k (fun c => c.address.toNat ≤ k ∧ k < c.address.toNat + c.byteCount)
      (fun c => byteOf c.data (k - c.address.toNat)) (fun c _ => by simp [envWrite])]
  rw [lastCopied]
  cases List.getLast? _ <;> rfl

/-- Registers shown by the database agree with registers restored by replay exactly when the last
record keyed to the register carries, in every byte, what the last record over that byte does. -/
theorem fetchRegisters_replay_iff (cfg : Config) (emulator : Emulator) (guest : Guest)
    (zero : ∀ k, guest.env k = 0) (log : List Change) (t : Trace cfg)
    (ingested : Ingested cfg log t) (registers : ∀ c ∈ log, RegisterRecord c)
    (inside : ∀ c ∈ log, c.address.toNat + c.byteCount ≤ cfg.registerSize * cfg.registerCount)
    (ordered : log.Pairwise (fun b c => b.clnum ≤ c.clnum)) (clnum : Clnum) (i : Nat)
    (inFile : i < cfg.registerCount) :
    ((t.fetchRegisters clnum)[i]).toNat = littleEndian ((List.range cfg.registerSize).map
        (fun k => (runQiraLogFromFd emulator (clnum + 1) log guest).1.env
          (i * cfg.registerSize + k))) ↔
      LastWritesAgree cfg.registerSize log clnum i := by
  rw [toNat_eq_littleEndian_iff, fetchRegisters_last cfg log t ingested registers inside ordered
    clnum i inFile]
  apply forall_congr'
  intro k
  have shown : byteOf ((lastKeyed cfg.registerSize log clnum i).elim 0 (fun c => c.data)) k =
      (lastKeyed cfg.registerSize log clnum i).elim 0 (fun c => byteOf c.data k) := by
    cases lastKeyed cfg.registerSize log clnum i with
    | none => simp [byteOf]
    | some c => rfl
  rw [shown, run_env_last emulator (clnum + 1) log guest registers ordered, zero]

/-- An aligned value of this size is in a slot exactly if it covers the bytes of the slot. -/
theorem slot_iff {size address i k : Nat} (aligned : size ∣ address) (below : k < size) :
    address / size = i ↔ address ≤ i * size + k ∧ i * size + k < address + size := by
  obtain ⟨slot, rfl⟩ := aligned
  rw [Nat.mul_div_cancel_left _ (Nat.zero_lt_of_lt below), Nat.mul_comm size slot]
  constructor
  · rintro rfl
    omega
  · intro near
    have low : slot * size < (i + 1) * size := by
      rw [Nat.add_mul]
      omega
    have high : i * size < (slot + 1) * size := by
      rw [Nat.add_mul]
      omega
    have := Nat.lt_of_mul_lt_mul_right low
    have := Nat.lt_of_mul_lt_mul_right high
    omega

theorem byteOf_of_small {data : BitVec 64} {size k : Nat} (small : data.toNat < 256 ^ size) (above : size ≤ k) :
    byteOf data k = 0 := by
  apply BitVec.eq_of_toNat_eq
  have room : data.toNat < 256 ^ k := lt_of_lt_of_le small (Nat.pow_le_pow_right (by decide) above)
  rw [byteOf_toNat, Nat.div_eq_of_lt room]
  rfl

/-- A log of whole, aligned register writes is one where they agree. -/
theorem lastWritesAgree_of_whole (registerSize : Nat) (log : List Change) (clnum : Clnum) (i : Nat)
    (notLast : clnum ≠ INVALID_CLNUM)
    (whole : ∀ c ∈ log, c.byteCount = registerSize ∧ registerSize ∣ c.address.toNat ∧
      c.data.toNat < 256 ^ registerSize) :
    LastWritesAgree registerSize log clnum i := by
  have cut : log.filter (fun c => c.clnum < clnum + 1) = log.filter (fun c => c.clnum ≤ clnum) := by
    apply List.filter_congr
    intro c _
    apply decide_eq_decide.mpr
    unfold INVALID_CLNUM at notLast
    constructor <;> intro near <;> bv_omega
  intro k
  by_cases below : k < registerSize
  · have place : ∀ c ∈ log, (c.address.toNat / registerSize = i ↔
        c.address.toNat ≤ i * registerSize + k ∧
          i * registerSize + k < c.address.toNat + c.byteCount) := by
      intro c member
      obtain ⟨width, aligned, -⟩ := whole c member
      rw [width]
      exact slot_iff aligned below
    have same : lastCopied log (clnum + 1) (i * registerSize + k) =
        lastKeyed registerSize log clnum i := by
      rw [lastCopied, lastKeyed, cut]
      congr 1
      apply List.filter_congr
      intro c member
      exact decide_eq_decide.mpr (place c (List.mem_of_mem_filter member)).symm
    rw [if_pos below, same]
    cases last : lastKeyed registerSize log clnum i with
    | none => rfl
    | some c =>
      have keyed := List.mem_filter.mp (List.mem_of_getLast? last)
      obtain ⟨-, aligned, -⟩ := whole c (List.mem_of_mem_filter keyed.1)
      have start : c.address.toNat = i * registerSize := by
        rw [← of_decide_eq_true keyed.2, Nat.div_mul_cancel aligned]
      rw [Option.elim_some, Option.elim_some, start, Nat.add_sub_cancel_left]
  · rw [if_neg below]
    cases last : lastKeyed registerSize log clnum i with
    | none => rfl
    | some c =>
      have keyed := List.mem_filter.mp (List.mem_of_getLast? last)
      obtain ⟨-, -, small⟩ := whole c (List.mem_of_mem_filter keyed.1)
      rw [Option.elim_some]
      exact (byteOf_of_small small (not_lt.mp below)).trans rfl

/-- A 32-bit write of a register and an 8-bit write of its low byte. -/
def subRegisterLog : List Change :=
  [⟨0, 0xAABBCCDD, 1, 0xC0000020⟩, ⟨0, 0x11, 2, 0xC0000008⟩]

private theorem subRegisterLog_registers : ∀ c ∈ subRegisterLog, RegisterRecord c := by
  intro c member
  simp only [subRegisterLog, List.mem_cons, List.not_mem_nil, or_false] at member
  rcases member with rfl | rfl
  · exact ⟨4, by decide, by decide⟩
  · exact ⟨1, by decide, by decide⟩

theorem fetchRegisters_replay_iff_subRegister :
    ∃ t, Ingested ⟨false, 4, 9⟩ subRegisterLog t ∧
      (((t.fetchRegisters 1)[0]).toNat = littleEndian ((List.range 4).map
          (fun k => (runQiraLogFromFd idle (1 + 1) subRegisterLog zeroGuest).1.env (0 * 4 + k))) ↔
        LastWritesAgree 4 subRegisterLog 1 0) := by
  obtain ⟨t, ingested⟩ := exists_ingested ⟨false, 4, 9⟩ subRegisterLog (by decide)
  exact ⟨t, ingested, fetchRegisters_replay_iff ⟨false, 4, 9⟩ idle zeroGuest (fun _ => rfl)
    subRegisterLog t ingested subRegisterLog_registers (by decide) (by decide) 1 0 (by decide)⟩

/-- The database takes the data of a sub-register write for the whole register; the replay keeps the
other bytes. -/
theorem fetchRegisters_replay_subRegister :
    ∃ t, Ingested ⟨false, 4, 9⟩ subRegisterLog t ∧ (∀ c ∈ subRegisterLog, RegisterRecord c) ∧
      (∀ c ∈ subRegisterLog, c.address.toNat + c.byteCount ≤ 4 * 9) ∧
      subRegisterLog.Pairwise (fun b c => b.clnum ≤ c.clnum) ∧
      (t.fetchRegisters 2)[0] = 0x11 ∧
      littleEndian ((List.range 4).map (fun k =>
        (runQiraLogFromFd idle (2 + 1) subRegisterLog zeroGuest).1.env (0 * 4 + k))) =
          0xAABBCC11 := by
  obtain ⟨t, ingested⟩ := exists_ingested ⟨false, 4, 9⟩ subRegisterLog (by decide)
  refine ⟨t, ingested, subRegisterLog_registers, by decide, by decide, ?_, by decide⟩
  rw [ingested.eq_ingestAll,
    fetchRegisters_ingestAll ⟨false, 4, 9⟩ subRegisterLog 2 0 (by decide) (by decide)]
  decide

end Qira.QemuReplay
