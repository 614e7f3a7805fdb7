import Qira.BilMeaning
import Qira.SignedOperators

/-!
The operators of the executor on the vectors of words: those that the types leave in give the vector of what they
mean, and raise where they mean nothing.
-/

namespace Qira.BilOperators
open ConcreteExecution BitVectors Bil BilMeaning SignedOperators Library.TwosComplement

/-- The vector of a word. -/
def vector (w : Word) : ConcreteBitVector := ⟨w.1, w.2.toNat, w.2.isLt⟩

section Vectors

theorem ofInt_eq_vector (n : Nat) (value : Int) : ConcreteBitVector.ofInt n value = vector ⟨n, BitVec.ofInt n value⟩ := by
  apply ext rfl
  change (value % 2 ^ n).toNat = (BitVec.ofInt n value).toNat
  rw [BitVec.toNat_ofInt]
  norm_cast

theorem ofInt_eq {n : Nat} {value : Int} {w : BitVec n} (same : BitVec.ofInt n value = w) :
    ConcreteBitVector.ofInt n value = vector ⟨n, w⟩ :=
  (ofInt_eq_vector n value).trans (congrArg (fun w => vector ⟨n, w⟩) same)

theorem ofInt_natCast_eq {n value : Nat} {w : BitVec n} (same : w.toNat = value % 2 ^ n) :
    ConcreteBitVector.ofInt n value = vector ⟨n, w⟩ := by
  apply ofInt_eq
  rw [BitVec.ofInt_natCast]
  exact BitVec.eq_of_toNat_eq (same ▸ BitVec.toNat_ofNat value n)

/-- The methods that take both values to a new one of the common size. -/
theorem binary_eq {n value : Nat} {x y w : BitVec n} {op : Int → Int → Int} (result : op x.toNat y.toNat = value)
    (same : w.toNat = value % 2 ^ n) : binary op (vector ⟨n, x⟩) (.vector (vector ⟨n, y⟩)) = vector ⟨n, w⟩ := by
  change ConcreteBitVector.ofInt (max n n) (op x.toNat y.toNat) = _
  rw [max_self, result]
  exact ofInt_natCast_eq same

variable {n : Nat} (x y : BitVec n)

theorem onSame_same (op : ∀ n, BitVec n → BitVec n → Option Word) : onSame ⟨n, x⟩ ⟨n, y⟩ op = op n x y := by
  rw [onSame, if_pos rfl, BitVec.setWidth_eq]

theorem signed_vector (positive : 0 < n) (small : n ≤ maxsize) : signed (vector ⟨n, x⟩) = some x.toInt := by
  have whole : 2 * half (vector ⟨n, x⟩) = 2 ^ n := two_mul_half positive
  rw [signed_eq positive small, Option.some_inj, BitVec.toInt_eq_toNat_cond, toSigned]
  change (if x.toNat < _ then (x.toNat : Int) else x.toNat - 2 * (half (vector ⟨n, x⟩) : Int)) = _
  by_cases low : x.toNat < half (vector ⟨n, x⟩)
  · rw [if_pos low, if_pos (by omega)]
  · rw [if_neg low, if_neg (by omega), ← whole, Nat.cast_mul, Nat.cast_ofNat]

theorem truth_eq (b : Bool) : truth b = vector (bit b) := by
  cases b <;> rfl

end Vectors

/-- A result of the executor that is the vector of a word of a width, or an exception where there is no word. -/
inductive Gives (n : Nat) : Option ConcreteBitVector → Option Word → Prop
  | word (w : BitVec n) : Gives n (some (vector ⟨n, w⟩)) (some ⟨n, w⟩)
  | nothing : Gives n none none

section Operators
variable {n : Nat} (x y : BitVec n)

theorem gives_of_eq {result : ConcreteBitVector} {w : BitVec n} (same : result = vector ⟨n, w⟩) :
    Gives n (some result) (some ⟨n, w⟩) := same ▸ .word w

/-- Division and remainder, by the numbers. -/
theorem gives_divided (result : Option ConcreteBitVector) (value : Nat) (w : BitVec n)
    (divided : y.toNat ≠ 0 → result = some (.ofInt n value)) (undefined : y.toNat = 0 → result = none)
    (same : w.toNat = value) : Gives n result (if y = 0 then none else some ⟨n, w⟩) := by
  by_cases zero : y = 0
  · rw [if_pos zero, undefined (zero ▸ BitVec.toNat_ofNat 0 n ▸ Nat.zero_mod _)]
    exact .nothing
  · have nonzero : y.toNat ≠ 0 := fun is => zero (BitVec.eq_of_toNat_eq (is.trans (BitVec.toNat_ofNat 0 n).symm))
    rw [if_neg zero, divided nonzero]
    exact gives_of_eq (ofInt_natCast_eq (same ▸ (Nat.mod_eq_of_lt w.isLt).symm))

theorem divide_of_zero (op : Int → Int → Int) (zero : y.toNat = 0) :
    divide op (vector ⟨n, x⟩) (.vector (vector ⟨n, y⟩)) = none :=
  if_pos (Int.natCast_eq_zero.mpr zero)

theorem gives_arithmetic {op : BinOp} (plain : op ∈ [.plus, .minus, .times, .divide, .mod, .and, .or, .xor]) :
    Gives n (visitBinOp op (vector ⟨n, x⟩) (vector ⟨n, y⟩)) (operation op ⟨n, x⟩ ⟨n, y⟩) := by
  simp only [List.mem_cons, List.not_mem_nil, or_false] at plain
  rcases plain with rfl | rfl | rfl | rfl | rfl | rfl | rfl | rfl <;> simp only [operation, onSame_same, visitBinOp]
  · exact gives_of_eq (binary_eq rfl (BitVec.toNat_add x y))
  · have difference : BitVec.ofInt n (x.toNat - y.toNat) = x - y := by
      rw [sub_eq_add_neg, BitVec.ofInt_add, BitVec.ofInt_neg, BitVec.ofInt_natCast, BitVec.ofInt_natCast,
        BitVec.ofNat_toNat, BitVec.ofNat_toNat, BitVec.setWidth_eq, BitVec.setWidth_eq, BitVec.sub_eq_add_neg]
    have size : (Operand.vector (vector ⟨n, y⟩)).sizeWith n = n := max_self n
    exact gives_of_eq ((congrArg (ConcreteBitVector.ofInt · _) size).trans (ofInt_eq difference))
  · exact gives_of_eq (binary_eq rfl (BitVec.toNat_mul x y))
  · exact gives_divided y _ _ _ (fun nonzero => div_eq rfl nonzero) (divide_of_zero x y _) BitVec.toNat_udiv
  · exact gives_divided y _ _ _ (fun nonzero => mod_eq rfl nonzero) (divide_of_zero x y _) BitVec.toNat_umod
  · exact gives_of_eq (binary_eq rfl ((Nat.mod_eq_of_lt (x &&& y).isLt).symm))
  · exact gives_of_eq (binary_eq rfl ((Nat.mod_eq_of_lt (x ||| y).isLt).symm))
  · exact gives_of_eq (binary_eq rfl ((Nat.mod_eq_of_lt (x ^^^ y).isLt).symm))

theorem gives_truth {b b' : Bool} (same : b = b') : Gives 1 (some (truth b)) (some (bit b')) :=
  same ▸ truth_eq b ▸ .word _

theorem gives_comparison {op : BinOp} (plain : op ∈ [.eq, .neq, .lt, .le]) :
    Gives 1 (visitBinOp op (vector ⟨n, x⟩) (vector ⟨n, y⟩)) (operation op ⟨n, x⟩ ⟨n, y⟩) := by
  have equal : ((x.toNat : Int) = y.toNat) = (x = y) := by rw [Int.natCast_inj, BitVec.toNat_eq]
  simp only [List.mem_cons, List.not_mem_nil, or_false] at plain
  rcases plain with rfl | rfl | rfl | rfl <;> simp only [operation, onSame_same, visitBinOp] <;> apply gives_truth
  · exact decide_eq_decide.mpr (iff_of_eq equal)
  · exact decide_eq_decide.mpr (not_congr (iff_of_eq equal))
  · exact decide_eq_decide.mpr Int.ofNat_lt
  · exact decide_eq_decide.mpr Int.ofNat_le

theorem gives_signedComparison {op : BinOp} (plain : op ∈ [.slt, .sle]) (positive : 0 < n) (small : n ≤ maxsize) :
    Gives 1 (visitBinOp op (vector ⟨n, x⟩) (vector ⟨n, y⟩)) (operation op ⟨n, x⟩ ⟨n, y⟩) := by
  have second : (Operand.vector (vector ⟨n, y⟩)).signed = signed (vector ⟨n, y⟩) := rfl
  simp only [List.mem_cons, List.not_mem_nil, or_false] at plain
  rcases plain with rfl | rfl <;>
    simp only [operation, onSame_same, visitBinOp, slt, sle, second, signed_vector _ positive small]
  · exact gives_truth rfl
  · exact gives_truth rfl

theorem gives_shift {m : Nat} {z : BitVec m} {op : BinOp} (plain : op ∈ [.lshift, .rshift])
    (small : z.toNat ≤ maxsize) :
    Gives n (visitBinOp op (vector ⟨n, x⟩) (vector ⟨m, z⟩)) (operation op ⟨n, x⟩ ⟨m, z⟩) := by
  have amount : (Operand.vector (vector ⟨m, z⟩)).value = z.toNat := rfl
  simp only [List.mem_cons, List.not_mem_nil, or_false] at plain
  rcases plain with rfl | rfl
  · have shifted : (x <<< z.toNat).toNat = x.toNat * 2 ^ z.toNat % 2 ^ n := by
      rw [BitVec.toNat_shiftLeft, Nat.shiftLeft_eq]
    rw [visitBinOp, lshift_of_le _ amount small]
    exact gives_of_eq (ofInt_natCast_eq shifted)
  · have within : x.toNat / 2 ^ z.toNat < 2 ^ n := (Nat.div_le_self _ _).trans_lt x.isLt
    have shifted : (x >>> z.toNat).toNat = x.toNat / 2 ^ z.toNat % 2 ^ n := by
      rw [BitVec.toNat_ushiftRight, Nat.shiftRight_eq_div_pow, Nat.mod_eq_of_lt within]
    rw [visitBinOp, rshift_of_le _ amount small]
    exact gives_of_eq (ofInt_natCast_eq shifted)

theorem gives_signedShift {m : Nat} {z : BitVec m} (positive : 0 < n) (small : n ≤ maxsize) (inside : z.toNat ≤ n) :
    Gives n (visitBinOp .arshift (vector ⟨n, x⟩) (vector ⟨m, z⟩)) (operation .arshift ⟨n, x⟩ ⟨m, z⟩) := by
  have amount : (Operand.vector (vector ⟨m, z⟩)).value = z.toNat := rfl
  have value : toSigned (half (vector ⟨n, x⟩)) (vector ⟨n, x⟩).value = x.toInt :=
    Option.some_inj.mp ((signed_eq positive small).symm.trans (signed_vector x positive small))
  have shifted : BitVec.ofInt n (x.toInt / 2 ^ z.toNat) = x.sshiftRight z.toNat := by
    have divided : x.toInt / 2 ^ z.toNat = x.toInt >>> z.toNat := by
      rw [Int.shiftRight_eq_div_pow, Nat.cast_pow, Nat.cast_ofNat]
    rw [divided, ← BitVec.toInt_sshiftRight, BitVec.ofInt_toInt]
  rw [visitBinOp, arshift_of_le amount positive small inside, value]
  exact gives_of_eq (ofInt_eq shifted)

end Operators

section Others
variable {n : Nat} (x : BitVec n)

theorem gives_not : Gives n (visitUnOp .not (vector ⟨n, x⟩)) (some (unary .not ⟨n, x⟩)) := by
  have inverted : (~~~x).toNat = (x.toNat ^^^ (1 <<< n - 1)) % 2 ^ n := by
    rw [← BitVec.xor_allOnes, Nat.one_shiftLeft, ← BitVec.toNat_allOnes, ← BitVec.toNat_xor]
    exact (Nat.mod_eq_of_lt (x ^^^ BitVec.allOnes n).isLt).symm
  exact gives_of_eq (ofInt_natCast_eq inverted)

theorem gives_unsigned {size : Nat} (small : size ≤ maxsize) :
    Gives size (visitCast .unsigned size (vector ⟨n, x⟩)) (resized .unsigned size ⟨n, x⟩) := by
  rw [visitCast, make_of_le small]
  exact gives_of_eq (ofInt_natCast_eq (BitVec.toNat_setWidth size x))

/-- To a smaller size a value is cut, and its sign does not matter. -/
theorem gives_signed {size : Nat} (small : size ≤ maxsize) (narrower : size ≤ n) :
    Gives size (visitCast .signed size (vector ⟨n, x⟩)) (resized .signed size ⟨n, x⟩) := by
  rw [visitCast, make_of_le small, resized, BitVec.signExtend_eq_setWidth_of_le x narrower]
  exact gives_of_eq (ofInt_natCast_eq (BitVec.toNat_setWidth size x))

theorem gives_part {op : Cast} {size : Nat} (isPart : op = .high ∨ op = .low) (small : n ≤ maxsize)
    (narrower : size ≤ n) : Gives size (visitCast op size (vector ⟨n, x⟩)) (resized op size ⟨n, x⟩) := by
  rcases isPart with rfl | rfl
  · have parts : n - size + size = (vector ⟨n, x⟩).size := Nat.sub_add_cancel narrower
    rw [visitCast, getHighBits_eq _ parts small, resized, if_pos narrower]
    refine gives_of_eq (ofInt_natCast_eq ?_)
    rw [BitVec.extractLsb'_toNat, Nat.shiftRight_eq_div_pow]
    rfl
  · rw [visitCast, getLowBits_eq _ (show size ≤ (vector ⟨n, x⟩).size from narrower) small, resized, if_pos narrower]
    refine gives_of_eq (ofInt_natCast_eq ?_)
    rw [BitVec.extractLsb'_toNat, Nat.shiftRight_zero]
    rfl

theorem gives_extracted {lowBit highBit : Nat} (order : lowBit ≤ highBit) (small : highBit < maxsize) :
    Gives (highBit - lowBit + 1) (getBits (vector ⟨n, x⟩) lowBit highBit) (extracted highBit lowBit ⟨n, x⟩) := by
  have length : (highBit : Int) - lowBit + 1 = (highBit - lowBit + 1 : Nat) := by omega
  have bits : (x.extractLsb' lowBit (highBit - lowBit + 1)).toNat =
      x.toNat / 2 ^ lowBit % 2 ^ (highBit - lowBit + 1) := by
    rw [BitVec.extractLsb'_toNat, Nat.shiftRight_eq_div_pow]
  rw [getBits_eq _ length (by omega) (by omega), extracted, if_pos order]
  exact gives_of_eq (ofInt_natCast_eq bits)

theorem gives_appended (y : BitVec n) (small : n + n ≤ maxsize) :
    Gives (n + n) (BitVectors.concat (vector ⟨n, x⟩) (vector ⟨n, y⟩)) (some (appended ⟨n, x⟩ ⟨n, y⟩)) := by
  have joined : (x ++ y).toNat = (x.toNat <<< n ||| y.toNat) % 2 ^ (n + n) := by
    rw [← BitVec.toNat_append]
    exact (Nat.mod_eq_of_lt (x ++ y).isLt).symm
  rw [concat_of_le (show (vector ⟨n, x⟩).size + (vector ⟨n, y⟩).size ≤ maxsize from small)]
  exact gives_of_eq (ofInt_natCast_eq joined)

end Others

end Qira.BilOperators
