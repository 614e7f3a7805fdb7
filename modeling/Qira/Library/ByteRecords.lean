import Qira.Library.Words

/-!
Records of one size in a sequence of bytes. Words are laid out least significant byte first, and
records written one behind the other are read back in order, up to a last one that is cut short.
-/

namespace Qira.Library.ByteRecords
open Words

section Fields
variable {width : Nat}

/-- The low bytes of a word, as they lie in a file. -/
def bytesOf (word : BitVec width) (count : Nat) : List Byte := (List.range count).map (byteOf word)

def wordOf (width : Nat) (bytes : List Byte) : BitVec width := BitVec.ofNat width (littleEndian bytes)

@[simp] theorem length_bytesOf (word : BitVec width) (count : Nat) : (bytesOf word count).length = count := by
  rw [bytesOf, List.length_map, List.length_range]

theorem wordOf_bytesOf (word : BitVec width) (count : Nat) (whole : width = 8 * count) :
    wordOf width (bytesOf word count) = word := by
  have bound : 256 ^ count = 2 ^ width := by
    rw [whole, Nat.pow_mul]
  apply BitVec.eq_of_toNat_eq
  rw [wordOf, bytesOf, BitVec.toNat_ofNat, littleEndian_bytes_mod, bound, Nat.mod_mod,
    Nat.mod_eq_of_lt word.isLt]

end Fields

/-- What is written for a value has a fixed size and tells the value. -/
structure Format (α : Type*) where
  size : Nat
  write : α → List Byte
  read : List Byte → α
  positive : 0 < size
  length_write : ∀ a, (write a).length = size
  read_write : ∀ a, read (write a) = a

namespace Format
variable {α : Type*} (format : Format α)

def writeAll (items : List α) : List Byte := items.flatMap format.write

/-- All whole records. -/
def readAll (bytes : List Byte) : List α :=
  if bytes.length < format.size then []
  else format.read (bytes.take format.size) :: readAll (bytes.drop format.size)
termination_by bytes.length
decreasing_by
  have := format.positive
  rw [List.length_drop]
  omega

theorem take_write_append (a : α) (rest : List Byte) : (format.write a ++ rest).take format.size = format.write a := by
  rw [← format.length_write a, List.take_left]

theorem drop_write_append (a : α) (rest : List Byte) : (format.write a ++ rest).drop format.size = rest := by
  rw [← format.length_write a, List.drop_left]

theorem readAll_write_append (a : α) (rest : List Byte) :
    format.readAll (format.write a ++ rest) = a :: format.readAll rest := by
  have whole : ¬ (format.write a ++ rest).length < format.size := by
    rw [List.length_append, format.length_write]
    omega
  rw [readAll, if_neg whole, take_write_append, drop_write_append, format.read_write]

theorem readAll_writeAll (items : List α) : format.readAll (format.writeAll items) = items := by
  induction items with
  | nil =>
    rw [readAll]
    exact if_pos format.positive
  | cons a rest ih =>
    have first : format.writeAll (a :: rest) = format.write a ++ format.writeAll rest := List.flatMap_cons
    rw [first, readAll_write_append, ih]

end Format

end Qira.Library.ByteRecords
