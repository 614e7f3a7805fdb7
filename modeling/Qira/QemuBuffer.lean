import Qira.SharedLog

/-!
The growing buffer behind the QEMU tracer's `add_change`: each process has its own
`GLOBAL_change_size` and its own mapping of the log file.
-/

namespace Qira.QemuBuffer
open ChangeRecord TraceIndex SharedLog

/-- `GLOBAL_change_size`, and the records that the mapping at `GLOBAL_change_buffer` covers. -/
structure Buffer where
  changeSize : BitVec 32
  capacity : Nat

/-- Bytes past a shorter length are gone; those added are zero. -/
def ftruncate (file : LogFile) (size : Nat) : LogFile where
  changeCount := file.changeCount
  length := size
  slots := fun k => if CHANGE_SIZE * (k + 1) ≤ size then file.slots k else zeroChange

/-- After `init_QIRA`: room for the header only. -/
def initLog : LogFile := ⟨1, CHANGE_SIZE, fun _ => zeroChange⟩
def initBuffer : Buffer := ⟨1, 1⟩

/-- `if (cc == GLOBAL_change_size)`, then `resize_change_buffer` and the doubling, in `uint32_t`. -/
def growBuffer (cc : EntryNumber) (b : Buffer) (file : LogFile) : Buffer × LogFile :=
  if cc = b.changeSize then
    (⟨b.changeSize * 2, b.changeSize.toNat * 2⟩,
      ftruncate file (b.changeSize.toNat * CHANGE_SIZE * 2))
  else (b, file)

/-- `GLOBAL_change_buffer + cc` lies in the mapping; `cc` is an `int`. -/
def Buffer.fits (b : Buffer) (cc : EntryNumber) : Prop := cc.msb = false ∧ cc.toNat < b.capacity

instance (b : Buffer) (cc : EntryNumber) : Decidable (b.fits cc) :=
  inferInstanceAs (Decidable (_ ∧ _))

def putChange (file : LogFile) (cc : EntryNumber) (c : Change) : LogFile :=
  { file with slots := Function.update file.slots cc.toNat c }

theorem msb_false_iff (cc : EntryNumber) : cc.msb = false ↔ cc.toNat < 2 ^ 31 := by
  rw [BitVec.msb_eq_false_iff_two_mul_lt]
  omega

end Qira.QemuBuffer
