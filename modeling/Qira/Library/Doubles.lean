import Mathlib

/-!
Numbers that are finite, infinite or none. The result of an operation is the exact one, rounded; with IEEE doubles a
rounding goes to the nearest number of 53 binary digits, of two to the even one. Zeros have no sign here.
-/

namespace Qira.Library.Doubles

inductive Number
  | finite (value : ℚ)
  | infinite (negative : Bool)
  | nan
  deriving DecidableEq

abbrev Rounding := ℚ → Number

def exactly : Rounding := .finite

/-- The nearest integer, and of two the even one. -/
def roundEven (q : ℚ) : ℤ :=
  if q - ⌊q⌋ < 1 / 2 then ⌊q⌋
  else if 1 / 2 < q - ⌊q⌋ then ⌊q⌋ + 1
  else if ⌊q⌋ % 2 = 0 then ⌊q⌋ else ⌊q⌋ + 1

/-- How far doubles lie apart around a number; below 2^-1022 they are no closer. -/
def quantum (q : ℚ) : ℚ := 2 ^ max (Int.log 2 |q| - 52) (-1074)

def double : Rounding := fun q =>
  let rounded := roundEven (q / quantum q) * quantum q
  if 2 ^ 1024 ≤ |rounded| then .infinite (decide (q < 0)) else .finite rounded

/-- The sum of opposite infinities is none. -/
def Number.add (round : Rounding) : Number → Number → Number
  | .finite a, .finite b => round (a + b)
  | .infinite negative, .finite _ => .infinite negative
  | .finite _, .infinite negative => .infinite negative
  | .infinite first, .infinite second => if first = second then .infinite first else .nan
  | _, _ => .nan

/-- `none` where the divisor is zero. -/
def Number.div (round : Rounding) (a b : Number) : Option Number :=
  if b = .finite 0 then none
  else match a, b with
    | .finite a, .finite b => some (round (a / b))
    | .infinite negative, .finite b => some (.infinite (negative != decide (b < 0)))
    | .finite _, .infinite _ => some (.finite 0)
    | _, _ => some .nan

/-- `a > b` -/
def Number.exceeds : Number → ℚ → Bool
  | .finite a, b => b < a
  | .infinite negative, _ => !negative
  | .nan, _ => false

theorem roundEven_intCast (i : ℤ) : roundEven (i : ℚ) = i := by
  have none : (i : ℚ) - ⌊(i : ℚ)⌋ < 1 / 2 := by
    rw [Int.floor_intCast, sub_self]
    norm_num
  rw [roundEven, if_pos none, Int.floor_intCast]

theorem quantum_pos (q : ℚ) : 0 < quantum q := zpow_pos (by norm_num) _

/-- Multiples of their distance that are not too large are doubles. -/
theorem double_of_multiple {q : ℚ} (i : ℤ) (multiple : q = i * quantum q) (small : |q| < 2 ^ 1024) :
    double q = .finite q := by
  have whole : q / quantum q = i := by
    rw [div_eq_iff (quantum_pos q).ne']
    exact multiple
  have same : (roundEven (q / quantum q) : ℚ) * quantum q = q := by
    rw [whole, roundEven_intCast]
    exact multiple.symm
  rw [double]
  simp only [same]
  exact if_neg (not_le.mpr small)

/-- Natural numbers of 53 binary digits are doubles. -/
theorem double_natCast {n : ℕ} (small : n < 2 ^ 53) : double n = .finite n := by
  have digits : Int.log 2 |(n : ℚ)| ≤ 52 := by
    rw [Nat.abs_cast, Int.log_natCast]
    have below : Nat.log 2 n < 53 := Nat.log_lt_of_lt_pow' (by decide) small
    omega
  obtain ⟨k, exponent⟩ : ∃ k : ℕ, max (Int.log 2 |(n : ℚ)| - 52) (-1074) = -(k : ℤ) :=
    ⟨(-max (Int.log 2 |(n : ℚ)| - 52) (-1074)).toNat, by omega⟩
  apply double_of_multiple (n * 2 ^ k)
  · rw [quantum, exponent, zpow_neg, zpow_natCast]
    push_cast
    rw [mul_inv_cancel_right₀ (by positivity)]
  · rw [Nat.abs_cast]
    have large : (n : ℚ) < 2 ^ 53 := by exact_mod_cast small
    exact large.trans (pow_lt_pow_right₀ one_lt_two (by decide))

example : double 9007199254740993 = .finite 9007199254740992 := by decide +kernel
example : double (10 ^ 400) = .infinite false := by decide +kernel
example : double (1 / 10 ^ 400) = .finite 0 := by decide +kernel

end Qira.Library.Doubles
