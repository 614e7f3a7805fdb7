import Qira.Library.Words

/-! The 24-byte change record shared by the tracers, the replayer and the trace database. -/

namespace Qira.ChangeRecord
open Library.Words

abbrev Address := BitVec 64
abbrev Clnum := BitVec 32
abbrev EntryNumber := BitVec 32

/-- `struct change`, as the tracers write it and `Trace.h` reads it. -/
structure Change where
  address : Address
  data : BitVec 64
  clnum : Clnum
  flags : BitVec 32
  deriving DecidableEq, Repr

def IS_VALID : BitVec 32 := 0x80000000
def IS_WRITE : BitVec 32 := 0x40000000
def IS_MEM : BitVec 32 := 0x20000000
def IS_START : BitVec 32 := 0x10000000
def IS_SYSCALL : BitVec 32 := 0x08000000
def SIZE_MASK : BitVec 32 := 0xFF

def INVALID_CLNUM : Clnum := 0xFFFFFFFF

/-- `flags & mask`, as a condition. -/
def has (flags mask : BitVec 32) : Bool := flags &&& mask != 0

def getTypeFromFlags (flags : BitVec 32) : Char :=
  if !has flags IS_VALID then '?'
  else if has flags IS_START then 'I'
  else if has flags IS_SYSCALL then 's'
  else if has flags IS_MEM then
    if has flags IS_WRITE then 'S' else 'L'
  else
    if has flags IS_WRITE then 'W' else 'R'

def Change.type (c : Change) : Char := getTypeFromFlags c.flags

/-- `(flags & SIZE_MASK) / 8`: how many bytes the record is about. -/
def Change.byteCount (c : Change) : Nat := (c.flags &&& SIZE_MASK).toNat / 8

/-- Distance from the record's address, modulo the address space. -/
def Change.offset (c : Change) (x : Address) : Nat := (x - c.address).toNat

def Change.covers (c : Change) (x : Address) : Bool := c.offset x < c.byteCount

theorem Change.byteCount_lt (c : Change) : c.byteCount < 32 := by
  have small : (c.flags &&& SIZE_MASK).toNat ≤ SIZE_MASK.toNat := by
    rw [BitVec.toNat_and]
    exact Nat.and_le_right
  have mask : SIZE_MASK.toNat = 255 := rfl
  unfold Change.byteCount
  omega

theorem Change.offset_add (c : Change) (i : Nat) (small : i < 2 ^ 64) :
    c.offset (c.address + BitVec.ofNat 64 i) = i :=
  toNat_add_ofNat_sub c.address i small

/-- The addresses a record covers are its own and the ones after it. -/
theorem Change.covers_iff (c : Change) (x : Address) :
    c.covers x = true ↔ ∃ i < c.byteCount, x = c.address + BitVec.ofNat 64 i := by
  have few := c.byteCount_lt
  rw [Change.covers, decide_eq_true_eq]
  constructor
  · intro near
    exact ⟨c.offset x, near, (add_ofNat_sub c.address x).symm⟩
  · rintro ⟨i, small, rfl⟩
    rw [c.offset_add i (by omega)]
    exact small

/-- Where byte `offset` of a record's data sits: most significant first when big endian. -/
def Change.laidByte (isBigEndian : Bool) (c : Change) (offset : Nat) : Byte :=
  byteOf c.data (if isBigEndian then c.byteCount - 1 - offset else offset)

theorem has_valid_or (flags : BitVec 32) : has (IS_VALID ||| flags) IS_VALID = true := by
  have absorbed : (IS_VALID ||| flags) &&& IS_VALID = IS_VALID := by
    ext i
    simp only [BitVec.getElem_and, BitVec.getElem_or]
    cases IS_VALID[i] <;> simp
  rw [has, absorbed]
  rfl

theorem has_or (a b mask : BitVec 32) : has (a ||| b) mask = (has a mask || has b mask) := by
  have bothZero : a &&& mask ||| b &&& mask = 0 ↔ a &&& mask = 0 ∧ b &&& mask = 0 := BitVec.or_eq_zero_iff
  rw [has, has, has, BitVec.and_or_distrib_right, Bool.eq_iff_iff, Bool.or_eq_true, bne_iff_ne,
    bne_iff_ne, bne_iff_ne, ne_eq, bothZero, not_and_or]

theorem has_start_or (flags : BitVec 32) : has (IS_VALID ||| flags) IS_START = has flags IS_START :=
  has_or IS_VALID flags IS_START

theorem type_eq_start_iff (c : Change) :
    c.type = 'I' ↔ has c.flags IS_VALID = true ∧ has c.flags IS_START = true := by
  unfold Change.type getTypeFromFlags
  split_ifs <;> simp_all

end Qira.ChangeRecord
