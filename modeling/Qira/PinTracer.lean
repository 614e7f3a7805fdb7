import Qira.ChangeRecord

/-!
The PIN tracer as one thread writes its log: `add_change`, the words and the tail that
`add_big_change` cuts a buffer into, and the analysis routines over them.
-/

namespace Qira.PinTracer
open ChangeRecord Library.Words

/-- The header's `changelist_number` and the records of one thread's file. -/
structure ThreadState where
  changelistNumber : Clnum
  log : List Change

def ThreadState.addChange (t : ThreadState) (addr : Address) (data : BitVec 64)
    (flags : BitVec 32) : ThreadState :=
  { t with log := t.log ++ [⟨addr, data, t.changelistNumber, flags ||| IS_VALID⟩] }

/-- `*(const UINT64 *)data` on a little-endian host, for the bytes at the pointer and after it. -/
def wordAt (data : Nat → Byte) : BitVec 64 := BitVec.ofNat 64 (littleEndian ((List.range 8).map data))

def ThreadState.addBigChange (t : ThreadState) (addr : Address) (data : Nat → Byte)
    (flags : BitVec 32) (size : Nat) : ThreadState :=
  if 8 ≤ size then
    (t.addChange addr (wordAt data) (flags ||| 64)).addBigChange (addr + 8)
      (fun k => data (k + 8)) flags (size - 8)
  else if size ≠ 0 then
    t.addChange addr (wordAt data &&& ~~~(BitVec.allOnes 64 <<< (size * 8)))
      (flags ||| BitVec.ofNat 32 (size * 8))
  else t
termination_by size

def ThreadState.recordRegRead (t : ThreadState) (regaddr : Address) (value : Nat → Byte)
    (size : Nat) : ThreadState :=
  t.addBigChange regaddr value 0 size

def ThreadState.recordRegWrite (t : ThreadState) (regaddr : Address) (value : Nat → Byte)
    (size : Nat) : ThreadState :=
  t.addBigChange regaddr value IS_WRITE size

def ThreadState.recordMemRead (t : ThreadState) (addr : Address) (value : Nat → Byte)
    (size : Nat) : ThreadState :=
  t.addBigChange addr value IS_MEM size

def ThreadState.recordMemWrite2 (t : ThreadState) (addr : Address) (value : Nat → Byte)
    (size : Nat) : ThreadState :=
  t.addBigChange addr value (IS_MEM ||| IS_WRITE) size

def ThreadState.recordSyscall (t : ThreadState) (num : Address) : ThreadState :=
  t.addChange num 0 IS_SYSCALL

theorem byteOf_wordAt (data : Nat → Byte) (k : Nat) (inside : k < 8) :
    byteOf (wordAt data) k = data k := by
  have spelled : (wordAt data).toNat = littleEndian ((List.range 8).map data) := by
    have bound := littleEndian_lt ((List.range 8).map data)
    rw [List.length_map, List.length_range] at bound
    rw [wordAt, BitVec.toNat_ofNat, Nat.mod_eq_of_lt (bound.trans_eq (by norm_num))]
  have bytes := (toNat_eq_littleEndian_iff (wordAt data) 8 data).mp spelled k
  rw [bytes, if_pos inside]

/-- The tail's mask keeps the bytes below its size. -/
theorem byteOf_masked (word : BitVec 64) (size k : Nat) (inside : k < size) (small : size ≤ 8) :
    byteOf (word &&& ~~~(BitVec.allOnes 64 <<< (size * 8))) k = byteOf word k := by
  apply BitVec.eq_of_getLsbD_eq
  intro i low
  simp only [byteOf, BitVec.getLsbD_extractLsb', BitVec.getLsbD_and, BitVec.getLsbD_not,
    BitVec.getLsbD_shiftLeft]
  have below : 8 * k + i < size * 8 := by omega
  have width : 8 * k + i < 64 := by omega
  simp [low, below, width]

end Qira.PinTracer
