import Qira.PinMemory

/-!
A `read` as the PIN tracer logs it: what the system call returns becomes the size of a memory write,
and `add_big_change` cuts that many bytes from an array of sixteen words on the stack.
-/

namespace Qira.PinSyscalls
open ChangeRecord PinTracer PinMemory TraceMemory
open Library.Words Library.Overwrites

/-- `sizeof(value)`, for `UINT64 value[16]`. -/
def sizeofValue : Nat := 128

/-- `*v`, for a pointer into an object: there is such a word only when all of it lies inside. -/
def load (object : List Byte) (position : Nat) : Option (BitVec 64) :=
  if position + 8 ≤ object.length then some (wordAt (fun k => object.getD (position + k) 0)) else none

/-- `add_big_change` with the object that `data` points to; `none` when it reads outside. -/
def addBigChange (object : List Byte) (position : Nat) (t : ThreadState) (addr : Address)
    (flags : BitVec 32) (size : Nat) : Option ThreadState :=
  if 8 ≤ size then
    (load object position).bind (fun word =>
      addBigChange object (position + 8) (t.addChange addr word (flags ||| 64)) (addr + 8) flags
        (size - 8))
  else if size ≠ 0 then
    -- the tail is read as a whole word too, and masked afterwards
    (load object position).map (fun word =>
      t.addChange addr (word &&& ~~~(BitVec.allOnes 64 <<< (size * 8)))
        (flags ||| BitVec.ofNat 32 (size * 8)))
  else some t
termination_by size

/-- `PIN_SafeCopy`, from guest memory over the first bytes of an object. -/
def safeCopy (memory : Address → Byte) (addr : Address) (size : Nat) (object : List Byte) : List Byte :=
  (List.range size).map (fun k => memory (addr + BitVec.ofNat 64 k)) ++ object.drop size

/-- `value` is what the array holds before anything is copied to it. -/
def recordMemWrite2 (memory : Address → Byte) (value : Vector Byte sizeofValue) (t : ThreadState)
    (addr : Address) (size : BitVec 32) : Option ThreadState :=
  if sizeofValue < size.toNat then
    addBigChange value.toList 0 t addr (IS_MEM ||| IS_WRITE) size.toNat
  else
    addBigChange (safeCopy memory addr size.toNat value.toList) 0 t addr (IS_MEM ||| IS_WRITE)
      size.toNat

/-- SYS_READ of 64-bit Linux. -/
def SYS_READ : BitVec 32 := 0

/-- What `SyscallEntry` keeps of a call for `SyscallExit`. -/
structure SyscallTLS where
  syscall : BitVec 32
  arg : Vector Address 6

/-- Where the arguments of a read say that the bytes go. -/
def readBuffer (arg : Vector Address 6) : Address := arg[1]

/-- `syscall_return` has 64 bits and is passed for a `UINT32`. -/
def syscallExit (memory : Address → Byte) (value : Vector Byte sizeofValue) (t : ThreadState)
    (tls : SyscallTLS) (syscallReturn : BitVec 64) : Option ThreadState :=
  if tls.syscall = SYS_READ then
    recordMemWrite2 memory value t tls.arg[1] (syscallReturn.setWidth 32)
  else some t

/-- Store records that hold, at each of `count` addresses from `buf` on and nowhere else, one byte: the
one in memory. -/
structure Describes (memory : Address → Byte) (buf : Address) (count : Nat) (clnum : Clnum)
    (made : List Change) : Prop where
  stores : ∀ c ∈ made, c.type = 'S'
  bytes : ∀ x, stamped Change.clnum (accessWrite false) made x =
    if (x - buf).toNat < count then [(clnum, memory x)] else []

/-- The records made for a `read` that returned `r` are about what the kernel wrote, and nothing outside
the array was read for them. -/
def ReadLogged (memory : Address → Byte) (buf : Address) (r : BitVec 64) (t : ThreadState)
    (after : Option ThreadState) : Prop :=
  ∃ t' made, after = some t' ∧ t'.log = t.log ++ made ∧
    (0 < r.toInt → r.toInt < 2 ^ 32 → Describes memory buf r.toNat t.changelistNumber made) ∧
    (r.toInt ≤ 0 → made = [])

/-- Whole words are read, so the object must have room for the size rounded up to words. -/
theorem addBigChange_eq (object : List Byte) (position : Nat) (t : ThreadState) (addr : Address)
    (flags : BitVec 32) (size : Nat) (start : position ≤ object.length) :
    addBigChange object position t addr flags size =
      if position + (size + 7) / 8 * 8 ≤ object.length
      then some (t.addBigChange addr (fun k => object.getD (position + k) 0) flags size)
      else none := by
  induction size using Nat.strong_induction_on generalizing position t addr with
  | _ size ih =>
    rw [addBigChange, ThreadState.addBigChange]
    by_cases whole : 8 ≤ size
    · rw [if_pos whole, if_pos whole, load]
      by_cases room : position + 8 ≤ object.length
      · have words : position + 8 + (size - 8 + 7) / 8 * 8 = position + (size + 7) / 8 * 8 := by omega
        have shifted : ∀ k, position + 8 + k = position + (k + 8) := by omega
        rw [if_pos room, Option.bind_some, ih (size - 8) (by omega) _ _ _ room, words]
        simp only [shifted]
      · have outside : ¬ position + (size + 7) / 8 * 8 ≤ object.length := by omega
        rw [if_neg room, if_neg outside, Option.bind_none]
    · rw [if_neg whole, if_neg whole]
      by_cases empty : size = 0
      · subst empty
        simpa using start
      · have oneWord : (size + 7) / 8 * 8 = 8 := by omega
        rw [if_pos empty, if_pos empty, oneWord, load]
        split_ifs <;> rfl

theorem addBigChange_safeCopy (memory : Address → Byte) (value : Vector Byte sizeofValue) (t : ThreadState)
    (addr : Address) (flags : BitVec 32) (size : Nat) (fits : size ≤ sizeofValue) :
    addBigChange (safeCopy memory addr size value.toList) 0 t addr flags size =
      some (t.addBigChange addr (fun k => (safeCopy memory addr size value.toList).getD k 0) flags size) := by
  have declared : value.toList.length = sizeofValue := by simp
  have copied : (safeCopy memory addr size value.toList).length = sizeofValue := by
    rw [safeCopy, List.length_append, List.length_map, List.length_range, List.length_drop, declared]
    omega
  have room : 0 + (size + 7) / 8 * 8 ≤ sizeofValue := by
    unfold sizeofValue at fits ⊢
    omega
  rw [addBigChange_eq _ _ _ _ _ _ (Nat.zero_le _), copied, if_pos room]
  simp only [Nat.zero_add]

/-- The array has room for what it was declared to hold. -/
theorem recordMemWrite2_eq (memory : Address → Byte) (value : Vector Byte sizeofValue)
    (t : ThreadState) (addr : Address) (size : BitVec 32) :
    recordMemWrite2 memory value t addr size =
      if size.toNat ≤ sizeofValue
      then some (t.recordMemWrite2 addr
        (fun k => (safeCopy memory addr size.toNat value.toList).getD k 0) size.toNat)
      else none := by
  unfold recordMemWrite2
  by_cases fits : size.toNat ≤ sizeofValue
  · rw [if_neg (by omega), if_pos fits, addBigChange_safeCopy memory value t addr _ size.toNat fits]
    rfl
  · have declared : value.toList.length = sizeofValue := by simp
    have outside : ¬ 0 + (size.toNat + 7) / 8 * 8 ≤ sizeofValue := by omega
    rw [if_pos (by omega), if_neg fits, addBigChange_eq _ _ _ _ _ _ (Nat.zero_le _), declared,
      if_neg outside]

theorem safeCopy_getD (memory : Address → Byte) (addr : Address) (size : Nat) (object : List Byte)
    (k : Nat) (inside : k < size) :
    (safeCopy memory addr size object).getD k 0 = memory (addr + BitVec.ofNat 64 k) := by
  rw [safeCopy, List.getD_eq_getElem?_getD, List.getElem?_append_left (by simpa using inside)]
  simp [inside]

/-- Up to the size of the array, the records are about the bytes that were copied. -/
theorem recordMemWrite2_describes (memory : Address → Byte) (value : Vector Byte sizeofValue)
    (t : ThreadState) (addr : Address) (size : BitVec 32) (fits : size.toNat ≤ sizeofValue) :
    ∃ t' made, recordMemWrite2 memory value t addr size = some t' ∧ t'.log = t.log ++ made ∧
      Describes memory addr size.toNat t.changelistNumber made ∧ (made = [] ↔ size.toNat = 0) := by
  have small := size.isLt
  let data : Nat → Byte := fun k => (safeCopy memory addr size.toNat value.toList).getD k 0
  obtain ⟨made, grown, stores, empty⟩ := log_addBigChange t addr data size.toNat
  refine ⟨t.recordMemWrite2 addr data size.toNat, made, ?_, grown, ⟨stores, ?_⟩, empty⟩
  · rw [recordMemWrite2_eq, if_pos fits]
  · intro x
    have entered := stamped_addBigChange t addr x data size.toNat (by omega)
    rw [grown, stamped, List.filterMap_append] at entered
    rw [stamped, List.append_cancel_left entered]
    by_cases inside : (x - addr).toNat < size.toNat
    · have copied : data (x - addr).toNat = memory x :=
        (safeCopy_getD _ _ _ _ _ inside).trans (congrArg memory (add_ofNat_sub addr x))
      rw [if_pos inside, if_pos inside, copied]
    · rw [if_neg inside, if_neg inside]

/-- A `read` is logged as it should be exactly when the low half of what it returned fits the array,
and is zero unless bytes were read. An error is not, and a read of more than sixteen words is not. -/
theorem syscallExit_logs_read_iff (memory : Address → Byte) (value : Vector Byte sizeofValue)
    (t : ThreadState) (arg : Vector Address 6) (r : BitVec 64) :
    ReadLogged memory arg[1] r t (syscallExit memory value t ⟨SYS_READ, arg⟩ r) ↔
      (0 < r.toInt ∧ r.toNat % 2 ^ 32 ≤ sizeofValue) ∨ (r.toInt ≤ 0 ∧ r.toNat % 2 ^ 32 = 0) := by
  have size : (r.setWidth 32).toNat = r.toNat % 2 ^ 32 := BitVec.toNat_setWidth 32 r
  have run : syscallExit memory value t ⟨SYS_READ, arg⟩ r =
      recordMemWrite2 memory value t arg[1] (r.setWidth 32) := if_pos rfl
  rw [run, ← size]
  by_cases fits : (r.setWidth 32).toNat ≤ sizeofValue
  · obtain ⟨logged, made, ran, grown, describes, empty⟩ :=
      recordMemWrite2_describes memory value t arg[1] (r.setWidth 32) fits
    rw [ran]
    constructor
    · rintro ⟨t', made', same, grown', -, nothing⟩
      rw [← Option.some.inj same, grown] at grown'
      rw [← List.append_cancel_left grown'] at nothing
      rcases lt_or_ge 0 r.toInt with positive | failed
      · exact Or.inl ⟨positive, fits⟩
      · exact Or.inr ⟨failed, empty.mp (nothing failed)⟩
    · intro condition
      refine ⟨logged, made, rfl, grown, ?_, ?_⟩
      · intro positive bounded
        have whole : (r.setWidth 32).toNat = r.toNat := by
          rw [size, Nat.mod_eq_of_lt]
          rw [BitVec.toInt_eq_toNat_cond] at positive bounded
          split at positive <;> omega
        rw [← whole]
        exact describes
      · intro failed
        rcases condition with ⟨positive, -⟩ | ⟨-, zero⟩
        · omega
        · exact empty.mpr zero
  · rw [recordMemWrite2_eq, if_neg fits]
    constructor
    · rintro ⟨t', made, impossible, -⟩
      cases impossible
    · rintro (⟨-, inside⟩ | ⟨-, zero⟩)
      · exact absurd inside fits
      · exact absurd (zero.trans_le (Nat.zero_le _)) fits

/-- A `read` that failed and one of 200 bytes. -/
theorem syscallExit_reads_past_value :
    (0xFFFFFFFFFFFFFFFF : BitVec 64).toInt = -1 ∧
    ¬ ReadLogged (fun _ => 0) 0x1000 0xFFFFFFFFFFFFFFFF oneStart
        (syscallExit (fun _ => 0) (Vector.replicate sizeofValue 0) oneStart
          ⟨SYS_READ, #v[0, 0x1000, 512, 0, 0, 0]⟩ 0xFFFFFFFFFFFFFFFF) ∧
    ¬ ReadLogged (fun _ => 0) 0x1000 200 oneStart
        (syscallExit (fun _ => 0) (Vector.replicate sizeofValue 0) oneStart
          ⟨SYS_READ, #v[0, 0x1000, 512, 0, 0, 0]⟩ 200) := by
  refine ⟨by decide, ?_, ?_⟩
  · rintro ⟨t', made, ran, -⟩
    rw [syscallExit, if_pos rfl, recordMemWrite2_eq, if_neg (by decide)] at ran
    cases ran
  · rintro ⟨t', made, ran, -⟩
    rw [syscallExit, if_pos rfl, recordMemWrite2_eq, if_neg (by decide)] at ran
    cases ran

end Qira.PinSyscalls
