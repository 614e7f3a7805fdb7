import Qira.Library.Sightings
import Qira.PendingRegisters
import Qira.PinGuest

/-!
What the records of the analysis routines tell a database: the bytes of the memory operands, and the parts of the
registers that were written.
-/

namespace Qira.PinRoutines
open ChangeRecord PinTracer PinSyscalls PinGuest TraceIndex TraceMemory TraceRegisters
open Library.Words Library.Overwrites Library.Sightings

/-- The database of an x86-64 trace. -/
abbrev x64 : Config := PendingRegisters.Arch.x64.config

/-- Of the last operand that names the register, what its part of the register is. -/
def lastValue (regs : Registers) (writes : List RegOperand) (n : Nat) : Option (BitVec 64) :=
  (writes.reverse.find? (fun op => op.register.val = n)).map (fun op => op.part.value (regs op.register))

/-- From the one state to the other, records were made with its number that tell these bytes and registers. -/
structure Tells (t t' : ThreadState) (bytes : Address → Option Byte) (registers : Nat → Option (BitVec 64)) : Prop where
  number : t'.changelistNumber = t.changelistNumber
  made : ∃ made, t'.log = t.log ++ made ∧ (∀ c ∈ made, c.clnum = t.changelistNumber) ∧
    (∀ a, lastWrite (made.map (accessWrite false)) a = bytes a) ∧
    ∀ n, lastWrite (made.map (registerWrite x64)) n = registers n

section Telling
variable {t t' t'' : ThreadState}

theorem Tells.nothing (t : ThreadState) : Tells t t (fun _ => none) (fun _ => none) :=
  ⟨rfl, [], by simp, by simp, fun _ => rfl, fun _ => rfl⟩

theorem Tells.trans {bytes bytes' : Address → Option Byte} {registers registers' : Nat → Option (BitVec 64)}
    (first : Tells t t' bytes registers) (second : Tells t' t'' bytes' registers') :
    Tells t t'' (fun a => (bytes' a).or (bytes a)) (fun n => (registers' n).or (registers n)) := by
  obtain ⟨number, made, grown, stamps, told, kept⟩ := first
  obtain ⟨number', made', grown', stamps', told', kept'⟩ := second
  refine ⟨number'.trans number, made ++ made', by rw [grown', grown, List.append_assoc], ?_, ?_, ?_⟩
  · intro c member
    rcases List.mem_append.mp member with early | late
    · exact stamps c early
    · exact (stamps' c late).trans number
  · intro a
    rw [List.map_append, lastWrite_append, told, told']
  · intro n
    rw [List.map_append, lastWrite_append, kept, kept']

/-- The same in other words. -/
theorem Tells.congr {bytes bytes' : Address → Option Byte} {registers registers' : Nat → Option (BitVec 64)}
    (tells : Tells t t' bytes registers) (same : ∀ a, bytes a = bytes' a) (same' : ∀ n, registers n = registers' n) :
    Tells t t' bytes' registers' :=
  funext same ▸ funext same' ▸ tells

/-- One record tells what it is indexed for. -/
theorem tells_addChange (t : ThreadState) (addr : Address) (data : BitVec 64) (flags : BitVec 32) :
    let c : Change := ⟨addr, data, t.changelistNumber, flags ||| IS_VALID⟩
    Tells t (t.addChange addr data flags) (accessWrite false c) (registerWrite x64 c) := by
  exact ⟨rfl, [_], rfl, by simp, fun a => lastWrite_singleton _ a, fun n => lastWrite_singleton _ n⟩

/-- A start or a system call tells nothing of either. -/
theorem tells_other (t : ThreadState) (addr : Address) (data : BitVec 64) (flags : BitVec 32)
    (other : getTypeFromFlags (flags ||| IS_VALID) ∈ ['I', 's', 'R']) :
    Tells t (t.addChange addr data flags) (fun _ => none) (fun _ => none) := by
  refine (tells_addChange t addr data flags).congr (fun a => ?_) (fun n => ?_)
  · unfold accessWrite Change.type
    rw [if_neg]
    rintro ⟨access, -⟩
    rcases access with load | store <;> simp_all
  · unfold registerWrite Change.type
    rw [if_neg]
    rintro ⟨⟨written, -⟩, -⟩
    simp_all

/-- The flags of a tail say how many bytes it has, for loads and for stores. -/
theorem accessFlags (flags : BitVec 32) (access : flags = IS_MEM ∨ flags = IS_MEM ||| IS_WRITE) (size : Nat)
    (small : size ≤ 8) :
    getTypeFromFlags (flags ||| BitVec.ofNat 32 (size * 8) ||| IS_VALID) ∈ ['L', 'S'] ∧
      ((flags ||| BitVec.ofNat 32 (size * 8) ||| IS_VALID) &&& SIZE_MASK).toNat / 8 = size := by
  rcases access with rfl | rfl <;> interval_cases size <;> decide

theorem tells_access (t : ThreadState) (addr : Address) (data : BitVec 64) (flags : BitVec 32)
    (access : flags = IS_MEM ∨ flags = IS_MEM ||| IS_WRITE) (size : Nat) (small : size ≤ 8) :
    Tells t (t.addChange addr data (flags ||| BitVec.ofNat 32 (size * 8)))
      (laid addr (byteOf data) size) (fun _ => none) := by
  obtain ⟨type, count⟩ := accessFlags flags access size small
  refine (tells_addChange t addr data _).congr (fun a => ?_) (fun n => ?_)
  · unfold accessWrite laid Change.covers Change.type Change.byteCount Change.offset
    simp only [count, decide_eq_true_eq]
    have isAccess := List.mem_pair.mp type
    by_cases near : (a - addr).toNat < size
    · rw [if_pos ⟨isAccess, near⟩, if_pos near]
      rfl
    · rw [if_neg (fun both => near both.2), if_neg near]
  · unfold registerWrite Change.type
    rw [if_neg]
    rintro ⟨⟨written, -⟩, -⟩
    rw [written] at type
    exact absurd type (by decide)

/-- The words and the tail of `add_big_change` tell the buffer. -/
theorem tells_addBigChange (t : ThreadState) (addr : Address) (data : Nat → Byte) (flags : BitVec 32)
    (access : flags = IS_MEM ∨ flags = IS_MEM ||| IS_WRITE) (size : Nat) (small : size < 2 ^ 64) :
    Tells t (t.addBigChange addr data flags size) (laid addr data size) (fun _ => none) := by
  induction size using Nat.strong_induction_on generalizing t addr data with
  | _ size ih =>
    rw [ThreadState.addBigChange]
    by_cases whole : 8 ≤ size
    · rw [if_pos whole]
      have first := tells_access t addr (wordAt data) flags access 8 le_rfl
      refine (first.trans (ih (size - 8) (by omega) _ (addr + 8) _ (by omega))).congr (fun a => ?_) (fun _ => rfl)
      unfold laid
      by_cases inWord : (a - addr).toNat < 8
      · have past : ¬ (a - (addr + 8)).toNat < size - 8 := by bv_omega
        rw [if_neg past, if_pos inWord, if_pos (by omega), byteOf_wordAt data _ inWord, Option.none_or]
      · have next : (a - (addr + 8)).toNat = (a - addr).toNat - 8 := by bv_omega
        rw [if_neg inWord, next, Option.or_none]
        by_cases inside : (a - addr).toNat < size
        · have back : (a - addr).toNat - 8 + 8 = (a - addr).toNat := by omega
          rw [if_pos (by omega), if_pos inside]
          exact congrArg (fun k => some (data k)) back
        · rw [if_neg (by omega), if_neg inside]
    · rw [if_neg whole]
      by_cases empty : size = 0
      · rw [if_neg (not_not.mpr empty)]
        exact (Tells.nothing t).congr (fun a => by simp [laid, empty]) (fun _ => rfl)
      · rw [if_pos empty]
        refine (tells_access t addr _ flags access size (by omega)).congr (fun a => ?_) (fun _ => rfl)
        unfold laid
        by_cases inside : (a - addr).toNat < size
        · rw [if_pos inside, if_pos inside, byteOf_masked _ _ _ inside (by omega), byteOf_wordAt data _ (by omega)]
        · rw [if_neg inside, if_neg inside]

/-- What is copied from memory and laid at the addresses it was copied from is what memory holds there. -/
theorem laid_copied (memory : Address → Byte) (addr : Address) (size : Nat) (object : List Byte) (a : Address) :
    laid addr (fun k => (safeCopy memory addr size object).getD k 0) size a =
      if (a - addr).toNat < size then some (memory a) else none := by
  unfold laid
  by_cases near : (a - addr).toNat < size
  · have byte := safeCopy_getD memory addr size object (a - addr).toNat near
    rw [add_ofNat_sub] at byte
    rw [if_pos near, if_pos near]
    exact congrArg some byte
  · rw [if_neg near, if_neg near]

theorem recordMemRead_eq (memory : Address → Byte) (t : ThreadState) (op : MemOperand) :
    recordMemRead memory t op =
      if op.size.toNat ≤ sizeofValue
      then some (t.addBigChange op.ea (fun k => (safeCopy memory op.ea op.size.toNat op.value.toList).getD k 0)
        IS_MEM op.size.toNat)
      else none := by
  unfold recordMemRead
  by_cases fits : op.size.toNat ≤ sizeofValue
  · rw [if_pos fits, if_pos fits, addBigChange_safeCopy memory op.value t op.ea IS_MEM op.size.toNat fits]
  · rw [if_neg fits, if_neg fits]

/-- A routine that goes through has told the operand it copied. -/
theorem tells_recordMemRead {op : MemOperand} {memory : Address → Byte} {t t' : ThreadState}
    (ran : recordMemRead memory t op = some t') :
    Tells t t' (fun a => if op.covers a = true then some (memory a) else none) (fun _ => none) := by
  rw [recordMemRead_eq] at ran
  split at ran
  next fits =>
    obtain rfl := Option.some.inj ran
    have told := tells_addBigChange t op.ea
      (fun k => (safeCopy memory op.ea op.size.toNat op.value.toList).getD k 0) IS_MEM (Or.inl rfl)
      op.size.toNat (by unfold sizeofValue at fits; omega)
    apply told.congr _ (fun _ => rfl)
    intro a
    simp only [laid_copied, MemOperand.covers, decide_eq_true_eq]
  next => cases ran

theorem tells_recordMemReads {memory : Address → Byte} {reads : List MemOperand} {t t' : ThreadState}
    (ran : recordMemReads t memory reads = some t') :
    Tells t t' (fun a => if reads.any (·.covers a) = true then some (memory a) else none) (fun _ => none) := by
  unfold recordMemReads at ran
  induction reads generalizing t with
  | nil =>
    obtain rfl := Option.some.inj ran
    exact (Tells.nothing t).congr (by simp) (fun _ => rfl)
  | cons op rest ih =>
    obtain ⟨middle, first, later⟩ := Option.bind_eq_some_iff.mp ran
    apply ((tells_recordMemRead first).trans (ih later)).congr _ (fun _ => rfl)
    intro a
    rw [List.any_cons]
    by_cases here : op.covers a = true <;> by_cases after : rest.any (·.covers a) = true <;> simp [here, after]

theorem tells_recordMemWrite2 {memory : Address → Byte} {value : Vector Byte sizeofValue} {t t' : ThreadState}
    {addr : Address} {size : BitVec 32} (ran : recordMemWrite2 memory value t addr size = some t') :
    Tells t t' (fun a => if (a - addr).toNat < size.toNat then some (memory a) else none) (fun _ => none) := by
  rw [recordMemWrite2_eq] at ran
  split at ran
  next fits =>
    obtain rfl := Option.some.inj ran
    have told := tells_addBigChange t addr (fun k => (safeCopy memory addr size.toNat value.toList).getD k 0)
      (IS_MEM ||| IS_WRITE) (Or.inr rfl) size.toNat (by unfold sizeofValue at fits; omega)
    exact told.congr (laid_copied memory addr size.toNat value.toList) (fun _ => rfl)
  next => cases ran

/-- Above its tail's mask a word is zero. -/
theorem byteOf_masked_above (word : BitVec 64) (size k : Nat) (above : size ≤ k) :
    byteOf (word &&& ~~~(BitVec.allOnes 64 <<< (size * 8))) k = 0 := by
  apply BitVec.eq_of_getLsbD_eq
  intro i low
  simp only [byteOf, BitVec.getLsbD_extractLsb', BitVec.getLsbD_and, BitVec.getLsbD_not,
    BitVec.getLsbD_shiftLeft, BitVec.getLsbD_allOnes]
  have kept : ¬ 8 * k + i < size * 8 := by omega
  by_cases width : 8 * k + i < 64
  · have inside : 8 * k + i - size * 8 < 64 := by omega
    simp [kept, width, inside]
  · simp [width]

/-- A word that has the bytes of a part, and zeros above them, is its value. -/
theorem eq_value (part : Part) (contents word : BitVec 64)
    (bytes : ∀ k, byteOf word k = if k < part.size then part.bytes contents k else 0) :
    word = part.value contents := by
  have spelled := (toNat_eq_littleEndian_iff word part.size (part.bytes contents)).mpr bytes
  rw [Part.value, ← spelled, BitVec.ofNat_toNat, BitVec.setWidth_eq]

/-- A part of a register is logged in one record, with its value. -/
theorem addBigChange_part (t : ThreadState) (addr : Address) (part : Part) (contents : BitVec 64) (flags : BitVec 32) :
    t.addBigChange addr (part.bytes contents) flags part.size =
      t.addChange addr (part.value contents) (flags ||| BitVec.ofNat 32 (part.size * 8)) := by
  rw [ThreadState.addBigChange]
  by_cases whole : 8 ≤ part.size
  · obtain rfl : part = .whole := by
      cases part <;> first | rfl | exact absurd whole (by decide)
    have word : wordAt (Part.whole.bytes contents) = Part.whole.value contents := by
      apply eq_value
      intro k
      by_cases inside : k < 8
      · rw [byteOf_wordAt _ k inside]
        exact (if_pos inside).symm
      · rw [byteOf_above _ k (by omega)]
        exact (if_neg inside).symm
    rw [if_pos whole, word, ThreadState.addBigChange]
    simp [Part.size]
  · have some : part.size ≠ 0 := by cases part <;> decide
    have word : wordAt (part.bytes contents) &&& ~~~(BitVec.allOnes 64 <<< (part.size * 8)) =
        part.value contents := by
      apply eq_value
      intro k
      by_cases inside : k < part.size
      · rw [if_pos inside, byteOf_masked _ _ _ inside (by omega), byteOf_wordAt _ k (by omega)]
      · rw [if_neg inside, byteOf_masked_above _ _ _ (by omega)]
    rw [if_neg whole, if_pos some, word]

theorem tells_recordRegReads (t : ThreadState) (regs : Registers) (reads : List RegOperand) :
    Tells t (recordRegReads t regs reads) (fun _ => none) (fun _ => none) := by
  induction reads generalizing t with
  | nil => exact Tells.nothing t
  | cons op rest ih =>
    have read := tells_other t (regToQiraRegAddr op.register) (op.part.value (regs op.register))
      (0 ||| BitVec.ofNat 32 (op.part.size * 8)) (by cases op.part <;> decide)
    rw [← addBigChange_part] at read
    exact (read.trans (ih _)).congr (fun _ => rfl) (fun _ => rfl)

theorem tells_recordRegWrite (t : ThreadState) (regs : Registers) (op : RegOperand) :
    Tells t (t.recordRegWrite (regToQiraRegAddr op.register) (op.part.bytes (regs op.register)) op.part.size)
      (fun _ => none) (fun n => if op.register.val = n then some (op.part.value (regs op.register)) else none) := by
  have type : getTypeFromFlags (IS_WRITE ||| BitVec.ofNat 32 (op.part.size * 8) ||| IS_VALID) = 'W' := by
    cases op.part <;> decide
  have address : (regToQiraRegAddr op.register).toNat = 8 * op.register.val := by
    have number := op.register.isLt
    rw [regToQiraRegAddr, BitVec.toNat_ofNat, Nat.mod_eq_of_lt (by omega)]
  rw [ThreadState.recordRegWrite, addBigChange_part]
  refine (tells_addChange t _ _ _).congr (fun a => ?_) (fun n => ?_)
  · unfold accessWrite Change.type
    rw [type, if_neg]
    rintro ⟨access, -⟩
    exact absurd access (by decide)
  · have number := op.register.isLt
    have inFile : 8 * op.register.val < x64.registerSize * x64.registerCount := by
      change 8 * op.register.val < 8 * 17
      omega
    have keyed : 8 * op.register.val / x64.registerSize = op.register.val :=
      Nat.mul_div_cancel_left _ (by decide : 0 < 8)
    unfold registerWrite Change.type
    simp only [type, address, inFile, keyed, and_self, true_and]

theorem tells_recordRegWrites (t : ThreadState) (regs : Registers) (writes : List RegOperand) :
    Tells t (recordRegWrites t regs writes) (fun _ => none) (lastValue regs writes) := by
  induction writes using List.reverseRecOn with
  | nil => exact Tells.nothing t
  | append_singleton front op ih =>
    rw [recordRegWrites, List.foldl_append]
    refine (ih.trans (tells_recordRegWrite _ regs op)).congr (fun _ => rfl) (fun n => ?_)
    unfold lastValue
    rw [List.reverse_append, List.reverse_singleton, List.singleton_append, List.find?_cons]
    by_cases named : op.register.val = n <;> simp [named]

theorem tells_syscall (t : ThreadState) (syscall : Option Address) :
    Tells t (syscall.elim t t.recordSyscall) (fun _ => none) (fun _ => none) := by
  cases syscall with
  | none => exact Tells.nothing t
  | some num => exact tells_other t num 0 IS_SYSCALL (by decide)

/-- Memory that an instruction does not write is as it was. -/
theorem memoryAfter_unwritten (i : Instruction) (memory : Address → Byte) (a : Address)
    (unwritten : i.memWrite.any (·.1.covers a) = false) : i.memoryAfter memory a = memory a := by
  unfold Instruction.memoryAfter
  split
  · cases written : i.memWrite with
    | none => rfl
    | some write =>
      rw [written] at unwritten
      have outside : ¬ (a - write.1.ea).toNat < write.1.size.toNat := by
        simpa [MemOperand.covers] using unwritten
      rw [Option.elim_some, overwrite, laid, if_neg outside]
      rfl
  · rfl

/-- The thread at the number that the instruction's records get. -/
def numbered (filter : Filter) (number : Clnum) (i : Instruction) (t : ThreadState) : ThreadState :=
  if filter.filtered i.ip = false then { t with changelistNumber := number } else t

/-- Before an instruction it is told what its memory operands hold, and their address is put by. -/
theorem tells_recordBefore {filter : Filter} {number : Clnum} {i : Instruction} {regs : Registers}
    {memory : Address → Byte} {t t' : ThreadState} {scratch scratch' : Address}
    (ran : i.recordBefore filter number regs memory t scratch = some (t', scratch')) :
    Tells (numbered filter number i t) t'
        (fun a => if (i.active && (!filter.filtered i.ip && i.memReads.any (·.covers a))) = true
          then some (memory a) else none)
        (fun _ => none) ∧
      ∀ write, i.active = true → i.memWrite = some write → scratch' = write.1.ea := by
  have kept : ∀ {scratch scratch' : Address},
      i.memWrite.elim (some scratch) (fun write => recordMemWrite1 write.1.ea scratch) = some scratch' →
      ∀ write, i.memWrite = some write → scratch' = write.1.ea := by
    intro scratch scratch' put write isWrite
    rw [isWrite, Option.elim_some, recordMemWrite1] at put
    split at put
    next => exact (Option.some.inj put).symm
    next => cases put
  unfold Instruction.recordBefore at ran
  unfold numbered
  cases filtered : filter.filtered i.ip with
  | true =>
    cases active : i.active with
    | false =>
      simp only [filtered, active, Bool.false_eq_true, Bool.true_eq_false, if_false, Option.some.injEq,
        Prod.mk.injEq] at ran
      obtain ⟨rfl, rfl⟩ := ran
      exact ⟨(Tells.nothing t).congr (by simp) (by simp), nofun⟩
    | true =>
      simp only [filtered, active, Bool.true_eq_false, if_false, if_true] at ran
      obtain ⟨read, first, ran⟩ := Option.bind_eq_some_iff.mp ran
      obtain rfl := Option.some.inj first
      obtain ⟨put, second, ran⟩ := Option.bind_eq_some_iff.mp ran
      obtain ⟨rfl, rfl⟩ := Prod.mk.inj (Option.some.inj ran)
      exact ⟨(tells_syscall t i.syscall).congr (by simp) (fun _ => rfl), fun write _ => kept second write⟩
  | false =>
    have start := tells_other { t with changelistNumber := number } i.ip (i.size.setWidth 64) IS_START (by decide)
    cases active : i.active with
    | false =>
      simp only [filtered, active, Bool.false_eq_true, if_false, if_true, Option.some.injEq,
        Prod.mk.injEq] at ran
      obtain ⟨rfl, rfl⟩ := ran
      exact ⟨start.congr (by simp) (by simp), nofun⟩
    | true =>
      simp only [filtered, active, if_true] at ran
      obtain ⟨read, first, ran⟩ := Option.bind_eq_some_iff.mp ran
      obtain ⟨put, second, ran⟩ := Option.bind_eq_some_iff.mp ran
      obtain ⟨rfl, rfl⟩ := Prod.mk.inj (Option.some.inj ran)
      have told := ((start.trans (tells_recordRegReads _ regs i.regReads)).trans
        (tells_recordMemReads first)).trans (tells_syscall _ i.syscall)
      exact ⟨told.congr (by simp) (fun _ => rfl), fun write _ => kept second write⟩

/-- And after it what it has written. -/
theorem tells_recordAfter {filter : Filter} {i : Instruction} {regs : Registers} {memory : Address → Byte}
    {t t' : ThreadState} {scratch scratch' : Address}
    (ran : i.recordAfter filter regs memory t scratch = some (t', scratch'))
    (kept : ∀ write, i.active = true → i.memWrite = some write → scratch = write.1.ea) :
    Tells t t'
      (fun a => if (i.active && (i.reachesWrites && i.memWrite.any (·.1.covers a))) = true
        then some (memory a) else none)
      (fun n => if (i.active && i.reachesWrites) = true ∧ filter.filtered i.ip = false then
        lastValue regs (i.regWrites.map Prod.fst) n else none) := by
  unfold Instruction.recordAfter at ran
  by_cases reached : (i.active && i.reachesWrites) = true
  swap
  · rw [if_neg reached] at ran
    obtain ⟨rfl, rfl⟩ := Prod.mk.inj (Option.some.inj ran)
    have none_any : ∀ a, ¬ (i.active && (i.reachesWrites && i.memWrite.any (·.1.covers a))) = true := by
      intro a all
      rw [← Bool.and_assoc, Bool.and_eq_true] at all
      exact reached all.1
    exact (Tells.nothing t).congr (fun a => (if_neg (none_any a)).symm) (fun n => (if_neg (fun h => reached h.1)).symm)
  · obtain ⟨active, reaches⟩ := Bool.and_eq_true_iff.mp reached
    rw [if_pos reached] at ran
    -- the registers come before the memory operand, and only unfiltered
    have registers : Tells t
        (if filter.filtered i.ip = false then recordRegWrites t regs (i.regWrites.map Prod.fst) else t)
        (fun _ => none)
        (fun n => if filter.filtered i.ip = false then lastValue regs (i.regWrites.map Prod.fst) n else none) := by
      by_cases unfiltered : filter.filtered i.ip = false
      · rw [if_pos unfiltered]
        exact (tells_recordRegWrites t regs _).congr (fun _ => rfl) (fun n => (if_pos unfiltered).symm)
      · rw [if_neg unfiltered]
        exact (Tells.nothing t).congr (fun _ => rfl) (fun n => (if_neg unfiltered).symm)
    cases isWrite : i.memWrite with
    | none =>
      rw [isWrite] at ran
      obtain ⟨rfl, rfl⟩ := Prod.mk.inj (Option.some.inj ran)
      exact registers.congr (by simp) (fun n => by simp [active, reaches])
    | some write =>
      rw [isWrite, Option.elim_some] at ran
      obtain ⟨logged, made, same⟩ := Option.map_eq_some_iff.mp ran
      obtain ⟨rfl, rfl⟩ := Prod.mk.inj same
      rw [kept write active isWrite] at made
      apply (registers.trans (tells_recordMemWrite2 made)).congr
      · intro a
        simp [active, reaches, MemOperand.covers]
      · intro n
        simp [active, reaches]

/-- What is logged of an instruction tells the registers it has written, and the memory it accessed, as it is
afterwards, if what it writes there is logged. -/
theorem tells_execute {filter : Filter} {number : Clnum} {i : Instruction} {memory : Address → Byte}
    {thread thread' : Thread} (ran : i.execute filter number memory thread = some thread') :
    thread'.regs = i.regsAfter thread.regs ∧
      ∃ bytes, Tells (numbered filter number i thread.state) thread'.state bytes
          (fun n => if (i.active && i.reachesWrites) = true ∧ filter.filtered i.ip = false then
            lastValue thread'.regs (i.regWrites.map Prod.fst) n else none) ∧
        (i.WritesLogged → ∀ a, bytes a = if i.sees filter a = true then some (i.memoryAfter memory a) else none) := by
  obtain ⟨⟨t, scratch⟩, before, ran⟩ := Option.bind_eq_some_iff.mp ran
  obtain ⟨⟨t', scratch'⟩, after, ran⟩ := Option.bind_eq_some_iff.mp ran
  obtain rfl := Option.some.inj ran
  obtain ⟨read, kept⟩ := tells_recordBefore before
  have written := tells_recordAfter after kept
  refine ⟨rfl, _, (read.trans written).congr (fun _ => rfl) (fun _ => Option.or_none), fun logged a => ?_⟩
  unfold Instruction.sees
  cases active : i.active with
  | false => rfl
  | true =>
    cases covered : i.memWrite.any (·.1.covers a) with
    | true =>
      have isWrite : i.memWrite.isSome = true := by
        cases none : i.memWrite with
        | none => rw [none] at covered; cases covered
        | some write => rfl
      simp [logged active isWrite]
    | false => simp [memoryAfter_unwritten i memory a covered]

end Telling

end Qira.PinRoutines
