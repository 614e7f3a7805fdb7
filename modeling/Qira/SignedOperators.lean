import Qira.Bil

/-!
The operators of BIL on signed values. Division and the signed cast work on the values of the vectors as they are;
only the comparisons look at the signs.
-/

namespace Qira.SignedOperators
open ConcreteExecution BitVectors Bil Library.TwosComplement

/-- Both vectors stand for a number, and these two numbers are related. -/
def OnSigned (x y : ConcreteBitVector) (relation : Int → Int → Prop) : Prop :=
  ∃ v w, signed x = some v ∧ signed y = some w ∧ relation v w

section Operators
variable {x y : ConcreteBitVector}

theorem onSigned_iff (positive : 0 < x.size) (small : x.size ≤ maxsize) (positive' : 0 < y.size)
    (small' : y.size ≤ maxsize) (relation : Int → Int → Prop) :
    OnSigned x y relation ↔ relation (toSigned (half x) x.value) (toSigned (half y) y.value) := by
  constructor
  · rintro ⟨v, w, first, second, related⟩
    rw [signed_eq positive small, Option.some_inj] at first
    rw [signed_eq positive' small', Option.some_inj] at second
    exact first ▸ second ▸ related
  · exact fun related => ⟨_, _, signed_eq positive small, signed_eq positive' small', related⟩

theorem div_eq (sizes : x.size = y.size) (nonzero : y.value ≠ 0) :
    div x (.vector y) = some (.ofInt x.size (x.value / y.value : Nat)) := by
  have divisor : (Operand.vector y).value = y.value := rfl
  have size : (Operand.vector y).sizeWith x.size = x.size := max_eq_left sizes.ge
  rw [div, divide, if_neg (divisor ▸ Nat.cast_ne_zero.mpr nonzero), binary, size, divisor,
    Int.fdiv_eq_ediv_of_nonneg _ (Nat.cast_nonneg _), Int.natCast_ediv]

theorem mod_eq (sizes : x.size = y.size) (nonzero : y.value ≠ 0) :
    mod x (.vector y) = some (.ofInt x.size (x.value % y.value : Nat)) := by
  have divisor : (Operand.vector y).value = y.value := rfl
  have size : (Operand.vector y).sizeWith x.size = x.size := max_eq_left sizes.ge
  rw [mod, divide, if_neg (divisor ▸ Nat.cast_ne_zero.mpr nonzero), binary, size, divisor,
    Int.fmod_eq_emod_of_nonneg _ (Nat.cast_nonneg _), Int.natCast_emod]

/-- A signed cast to a size that is possible keeps the value, and with it the number only where there is no sign. -/
theorem signedCast_iff (positive : 0 < x.size) {size : Nat} (wider : x.size ≤ size) :
    (∃ w, visitCast .signed size x = some w ∧ w.size = size ∧ OnSigned w x (· = ·)) ↔
      size ≤ maxsize ∧ (size = x.size ∨ x.value < half x) := by
  by_cases small : size ≤ maxsize
  · have result : visitCast .signed size x = some (.ofInt size x.value) := make_of_le small _
    have wide : 0 < (ConcreteBitVector.ofInt size x.value).size := positive.trans_le wider
    have kept : (ConcreteBitVector.ofInt size x.value).value = x.value :=
      (ConcreteBitVector.ofInt_value _ _).trans
        (Nat.mod_eq_of_lt (x.masked.trans_le (Nat.pow_le_pow_right (by decide) wider)))
    have agree : (∃ w, visitCast .signed size x = some w ∧ w.size = size ∧ OnSigned w x (· = ·)) ↔
        toSigned (2 ^ (size - 1)) x.value = toSigned (half x) x.value := by
      have related := onSigned_iff wide small positive (wider.trans small) (· = ·)
      rw [kept] at related
      rw [result]
      constructor
      · rintro ⟨w, same, -, signs⟩
        cases same
        exact related.mp signs
      · exact fun signs => ⟨_, rfl, rfl, related.mpr signs⟩
    rw [agree, and_iff_right small]
    rcases wider.eq_or_lt with rfl | more
    · exact iff_of_true rfl (.inl rfl)
    · have room : 2 * half x ≤ 2 ^ (size - 1) := by
        rw [two_mul_half positive]
        exact Nat.pow_le_pow_right (by decide) (by omega)
      rw [toSigned_extended_iff (value_lt positive) room, toSigned_nonneg_iff (value_lt positive),
        or_iff_right more.ne']
  · have result : visitCast .signed size x = none := by
      rw [visitCast, make, count_of_gt (not_le.mp small), Option.map_none]
    rw [result]
    refine iff_of_false ?_ fun both => small both.1
    rintro ⟨w, same, -⟩
    cases same

theorem half_eq (sizes : x.size = y.size) : half y = half x := by rw [half, half, sizes]

/-- A result is right if it is congruent to the signed one. -/
theorem result_eq_iff (positive : 0 < x.size) (found : Nat) (right : Int) :
    (some (ConcreteBitVector.ofInt x.size found) = some (.ofInt x.size right)) ↔
      (found : Int) ≡ right [ZMOD (2 * half x : Nat)] := by
  rw [Option.some_inj, ofInt_eq_iff, two_mul_half positive]

theorem sdivide_iff (positive : 0 < x.size) (small : x.size ≤ maxsize) (sizes : x.size = y.size) (nonzero : y.value ≠ 0) :
    OnSigned x y (fun v w => visitBinOp .sdivide x y = some (.ofInt x.size (v.tdiv w))) ↔
      QuotientAgrees (half x) x.value y.value := by
  have inside := half_eq sizes ▸ value_lt (sizes ▸ positive)
  rw [onSigned_iff positive small (sizes ▸ positive) (sizes ▸ small), visitBinOp, div_eq sizes nonzero,
    result_eq_iff positive, half_eq sizes, quotient_modEq_iff (value_lt positive) inside nonzero]

theorem smod_iff (positive : 0 < x.size) (small : x.size ≤ maxsize) (sizes : x.size = y.size) (nonzero : y.value ≠ 0) :
    OnSigned x y (fun v w => visitBinOp .smod x y = some (.ofInt x.size (v.tmod w))) ↔
      RemainderAgrees (half x) x.value y.value := by
  have inside := half_eq sizes ▸ value_lt (sizes ▸ positive)
  rw [onSigned_iff positive small (sizes ▸ positive) (sizes ▸ small), visitBinOp, mod_eq sizes nonzero,
    result_eq_iff positive, half_eq sizes, remainder_modEq_iff (value_lt positive) inside nonzero]

/-- The comparisons decide the orders of the numbers. -/
theorem comparisons_signed (positive : 0 < x.size) (small : x.size ≤ maxsize) (positive' : 0 < y.size)
    (small' : y.size ≤ maxsize) :
    OnSigned x y (fun v w => visitBinOp .slt x y = some (truth (v < w)) ∧ visitBinOp .sle x y = some (truth (v ≤ w))) := by
  have second : (Operand.vector y).signed = signed y := rfl
  rw [onSigned_iff positive small positive' small', visitBinOp, slt, visitBinOp, sle, second,
    signed_eq positive small, signed_eq positive' small']
  exact ⟨rfl, rfl⟩

end Operators

/-- On operands of one size, `NEG` is never right, `SDIVIDE` and `SMOD` are right where dividing the words divides
the numbers, `SIGNED` is right where there is no sign to extend, and `SLT` and `SLE` are always right. -/
theorem signedOperators_iff (x y : ConcreteBitVector) (positive : 0 < x.size) (small : x.size ≤ maxsize)
    (sizes : x.size = y.size) :
    visitUnOp .neg x ≠ some (.ofInt x.size (-x.value)) ∧
    (y.value ≠ 0 →
      (OnSigned x y (fun v w => visitBinOp .sdivide x y = some (.ofInt x.size (v.tdiv w))) ↔
        QuotientAgrees (half x) x.value y.value)) ∧
    (y.value ≠ 0 →
      (OnSigned x y (fun v w => visitBinOp .smod x y = some (.ofInt x.size (v.tmod w))) ↔
        RemainderAgrees (half x) x.value y.value)) ∧
    (∀ size, x.size ≤ size →
      ((∃ w, visitCast .signed size x = some w ∧ w.size = size ∧ OnSigned w x (· = ·)) ↔
        size ≤ maxsize ∧ (size = x.size ∨ x.value < half x))) ∧
    OnSigned x y (fun v w =>
      visitBinOp .slt x y = some (truth (v < w)) ∧ visitBinOp .sle x y = some (truth (v ≤ w))) :=
  ⟨nofun, sdivide_iff positive small sizes, smod_iff positive small sizes,
    fun _ wider => signedCast_iff positive wider,
    comparisons_signed positive small (sizes ▸ positive) (sizes ▸ small)⟩

/-- -4 and 2 in a byte. -/
theorem signedOperators_iff_byte :
    visitUnOp .neg (.ofInt 8 0xfc) ≠ some (.ofInt 8 (-0xfc)) ∧
    (2 ≠ 0 →
      (OnSigned (.ofInt 8 0xfc) (.ofInt 8 2)
          (fun v w => visitBinOp .sdivide (.ofInt 8 0xfc) (.ofInt 8 2) = some (.ofInt 8 (v.tdiv w))) ↔
        QuotientAgrees (2 ^ 7) 0xfc 2)) ∧
    (2 ≠ 0 →
      (OnSigned (.ofInt 8 0xfc) (.ofInt 8 2)
          (fun v w => visitBinOp .smod (.ofInt 8 0xfc) (.ofInt 8 2) = some (.ofInt 8 (v.tmod w))) ↔
        RemainderAgrees (2 ^ 7) 0xfc 2)) ∧
    (∀ size, 8 ≤ size →
      ((∃ w, visitCast .signed size (.ofInt 8 0xfc) = some w ∧ w.size = size ∧
          OnSigned w (.ofInt 8 0xfc) (· = ·)) ↔
        size ≤ maxsize ∧ (size = 8 ∨ 0xfc < 2 ^ 7))) ∧
    OnSigned (.ofInt 8 0xfc) (.ofInt 8 2) (fun v w =>
      visitBinOp .slt (.ofInt 8 0xfc) (.ofInt 8 2) = some (truth (v < w)) ∧
      visitBinOp .sle (.ofInt 8 0xfc) (.ofInt 8 2) = some (truth (v ≤ w))) :=
  signedOperators_iff (.ofInt 8 0xfc) (.ofInt 8 2) (by decide) (by decide) rfl

theorem signed_ignored :
    visitUnOp .neg (.ofInt 8 1) = none ∧
    visitBinOp .sdivide (.ofInt 8 0xfc) (.ofInt 8 2) = some (.ofInt 8 0x7e) ∧
    visitBinOp .smod (.ofInt 8 0xff) (.ofInt 8 2) = some (.ofInt 8 1) ∧
    visitCast .signed 16 (.ofInt 8 0xff) = some (.ofInt 16 0x00ff) ∧
    signed (.ofInt 8 0xfc) = some (-4) ∧ signed (.ofInt 8 2) = some 2 ∧ signed (.ofInt 8 0xff) = some (-1) ∧
    ConcreteBitVector.ofInt 8 0x7e ≠ .ofInt 8 (Int.tdiv (-4) 2) ∧
    ConcreteBitVector.ofInt 8 1 ≠ .ofInt 8 (Int.tmod (-1) 2) ∧
    signed (.ofInt 16 0x00ff) ≠ some (-1) := by
  decide

end Qira.SignedOperators
