import Mathlib

/-! Bytes of a machine word. A word is read as the sequence of its bytes, least significant first,
and two words are compared through those bytes. -/

namespace Qira.Library.Words

abbrev Byte := BitVec 8

instance bitVecLinearOrder (width : Nat) : LinearOrder (BitVec width) where
  le := (· ≤ ·)
  lt := (· < ·)
  le_refl := BitVec.le_refl
  le_trans _ _ _ := BitVec.le_trans
  le_antisymm _ _ := BitVec.le_antisymm
  le_total := BitVec.le_total
  lt_iff_le_not_ge _ _ := Std.lt_iff_le_and_not_ge
  toDecidableLE := inferInstance
  toDecidableEq := inferInstance
  toDecidableLT := inferInstance

theorem toNat_succ {width : Nat} (word : BitVec width) (room : word.toNat + 1 < 2 ^ width) :
    (word + 1).toNat = word.toNat + 1 := by
  rw [BitVec.toNat_add]
  have one : (1 : BitVec width).toNat = 1 % 2 ^ width := BitVec.toNat_ofNat 1 width
  rw [one, Nat.add_mod_mod, Nat.mod_eq_of_lt room]

/-- An address is its distance behind any other one. -/
theorem add_ofNat_sub {width : Nat} (base x : BitVec width) : base + BitVec.ofNat width (x - base).toNat = x := by
  rw [BitVec.ofNat_toNat, BitVec.setWidth_eq, BitVec.add_comm, BitVec.sub_add_cancel]

theorem toNat_add_ofNat_sub {width : Nat} (base : BitVec width) (k : Nat) (small : k < 2 ^ width) :
    (base + BitVec.ofNat width k - base).toNat = k := by
  rw [BitVec.add_comm, BitVec.add_sub_cancel, BitVec.toNat_ofNat, Nat.mod_eq_of_lt small]

/-- A field put under a multiple of its range by xor is added to it. -/
theorem mul_two_pow_xor (high low width : Nat) (small : low < 2 ^ width) :
    high * 2 ^ width ^^^ low = high * 2 ^ width + low := by
  have front : (high * 2 ^ width ^^^ low) / 2 ^ width = high := by
    rw [Nat.xor_div_two_pow, Nat.mul_div_cancel _ (Nat.two_pow_pos width),
      Nat.div_eq_of_lt small, Nat.xor_zero]
  have back : (high * 2 ^ width ^^^ low) % 2 ^ width = low := by
    rw [Nat.xor_mod_two_pow, Nat.mul_mod_left, Nat.zero_xor, Nat.mod_eq_of_lt small]
  rw [← Nat.div_add_mod (high * 2 ^ width ^^^ low) (2 ^ width), front, back, Nat.mul_comm]

/-- Byte `k` of a word, byte 0 being the least significant; 0 above the width. -/
def byteOf {width : Nat} (word : BitVec width) (k : Nat) : Byte := word.extractLsb' (8 * k) 8

theorem byteOf_zero (word : BitVec 64) : byteOf word 0 = word.setWidth 8 := by
  apply BitVec.eq_of_toNat_eq
  simp [byteOf]

theorem byteOf_shift {width : Nat} (word : BitVec width) (k : Nat) :
    byteOf (word >>> 8) k = byteOf word (k + 1) := by
  apply BitVec.eq_of_toNat_eq
  simp only [byteOf, BitVec.extractLsb'_toNat, BitVec.toNat_ushiftRight]
  rw [← Nat.shiftRight_add, Nat.mul_add, Nat.add_comm 8]

theorem byteOf_toNat {width : Nat} (word : BitVec width) (k : Nat) :
    (byteOf word k).toNat = word.toNat / 256 ^ k % 256 := by
  rw [byteOf, BitVec.extractLsb'_toNat, Nat.shiftRight_eq_div_pow, Nat.pow_mul]

theorem byteOf_above (word : BitVec 64) (k : Nat) (above : 8 ≤ k) : byteOf word k = 0 := by
  apply BitVec.eq_of_toNat_eq
  rw [byteOf_toNat]
  have small : word.toNat < 256 ^ k :=
    lt_of_lt_of_le word.isLt (by simpa using Nat.pow_le_pow_right (by decide : 0 < 256) above)
  simp [Nat.div_eq_of_lt small]

/-- The number whose bytes, least significant first, are listed. -/
def littleEndian (bytes : List Byte) : Nat := Nat.ofDigits 256 (bytes.map BitVec.toNat)

theorem littleEndian_lt (bytes : List Byte) : littleEndian bytes < 256 ^ bytes.length := by
  rw [← bytes.length_map BitVec.toNat]
  apply Nat.ofDigits_lt_base_pow_length (by decide)
  simp only [List.mem_map]
  rintro _ ⟨byte, -, rfl⟩
  exact byte.isLt

theorem littleEndian_injective (first second : List Byte) (lengths : first.length = second.length)
    (same : littleEndian first = littleEndian second) : first = second := by
  apply List.map_injective_iff.mpr (fun _ _ equal => BitVec.eq_of_toNat_eq equal)
  refine Nat.ofDigits_inj_of_len_eq (by decide) (by simpa using lengths) ?_ ?_ same
  · simp only [List.mem_map]
    rintro _ ⟨byte, -, rfl⟩
    exact byte.isLt
  · simp only [List.mem_map]
    rintro _ ⟨byte, -, rfl⟩
    exact byte.isLt

theorem littleEndian_append_zeros (bytes : List Byte) (count : Nat) :
    littleEndian (bytes ++ List.replicate count 0) = littleEndian bytes := by
  simp [littleEndian, Nat.ofDigits_append, Nat.ofDigits_replicate_zero]

theorem littleEndian_bytes_mod {width : Nat} (word : BitVec width) (count : Nat) :
    littleEndian ((List.range count).map (byteOf word)) = word.toNat % 256 ^ count := by
  induction count with
  | zero => simp [littleEndian, Nat.mod_one]
  | succ count ih =>
    simp only [littleEndian] at ih ⊢
    rw [List.range_succ, List.map_append, List.map_append, Nat.ofDigits_append, ih]
    simp only [List.map_cons, List.map_nil, Nat.ofDigits_singleton, List.length_map,
      List.length_range, byteOf_toNat]
    rw [Nat.pow_succ, Nat.mod_mul]

theorem littleEndian_bytes (word : BitVec 64) (count : Nat) (whole : 8 ≤ count) :
    littleEndian ((List.range count).map (byteOf word)) = word.toNat := by
  rw [littleEndian_bytes_mod]
  apply Nat.mod_eq_of_lt
  exact lt_of_lt_of_le word.isLt (by simpa using Nat.pow_le_pow_right (by decide : 0 < 256) whole)

/-- A word equals the number that `size` bytes spell exactly when it has those bytes, and zeros
above them. -/
theorem toNat_eq_littleEndian_iff (word : BitVec 64) (size : Nat) (bytes : Nat → Byte) :
    word.toNat = littleEndian ((List.range size).map bytes) ↔
      ∀ k, byteOf word k = if k < size then bytes k else 0 := by
  have padded : littleEndian ((List.range size).map bytes) = littleEndian
      ((List.range (max 8 size)).map (fun k => if k < size then bytes k else 0)) := by
    rw [← littleEndian_append_zeros _ (max 8 size - size)]
    congr 1
    apply List.ext_getElem
    · simp only [List.length_append, List.length_map, List.length_range, List.length_replicate]
      omega
    · intro k inLeft inRight
      by_cases inside : k < size
      · rw [List.getElem_append_left (by simpa using inside)]
        simp [inside]
      · rw [List.getElem_append_right (by simpa using inside)]
        simp [inside]
  rw [padded, ← littleEndian_bytes word (max 8 size) (le_max_left _ _)]
  constructor
  · intro same k
    have lists := List.map_inj_left.mp (littleEndian_injective _ _ (by simp) same)
    by_cases small : k < max 8 size
    · exact lists k (List.mem_range.mpr small)
    · rw [byteOf_above word k (by omega), if_neg (by omega)]
  · intro bytewise
    congr 1
    exact List.map_inj_left.mpr (fun k _ => bytewise k)

end Qira.Library.Words
