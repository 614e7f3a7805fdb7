import Mathlib

/-!
Words of which the upper half stands for the negative numbers: where dividing the words themselves gives the
quotient and the remainder, rounded towards zero, of the numbers they stand for.
-/

namespace Qira.Library.TwosComplement

/-- The number that a word below `2 * half` stands for. -/
def toSigned (half word : Nat) : Int := if word < half then word else word - 2 * half

section Readings
variable {half word : Nat}

theorem toSigned_of_lt (small : word < half) : toSigned half word = word := if_pos small

/-- A word of the upper half, by its distance from the top. -/
theorem toSigned_of_ge (large : half ≤ word) (inside : word < 2 * half) :
    toSigned half word = -((2 * half - word : Nat) : Int) := by
  rw [toSigned, if_neg (not_lt.mpr large)]
  omega

theorem toSigned_modEq (half word : Nat) : toSigned half word ≡ word [ZMOD (2 * half : Nat)] := by
  unfold toSigned
  split
  next => rfl
  next =>
    refine Int.modEq_iff_dvd.mpr ⟨1, ?_⟩
    push_cast
    ring

theorem toSigned_range (inside : word < 2 * half) : -(half : Int) ≤ toSigned half word ∧ toSigned half word < half := by
  unfold toSigned
  split <;> omega

/-- It is the only number of the signed range that is congruent to the word. -/
theorem eq_toSigned_iff (inside : word < 2 * half) (v : Int) :
    v = toSigned half word ↔ v ≡ word [ZMOD (2 * half : Nat)] ∧ -(half : Int) ≤ v ∧ v < half := by
  have range := toSigned_range inside
  constructor
  · rintro rfl
    exact ⟨toSigned_modEq half word, range⟩
  · rintro ⟨congruent, low, high⟩
    have divides := Int.modEq_iff_dvd.mp (congruent.trans (toSigned_modEq half word).symm)
    have near : |toSigned half word - v| < (2 * half : Nat) := abs_lt.mpr (by omega)
    have apart := Int.eq_zero_of_abs_lt_dvd divides near
    omega

theorem toSigned_nonneg_iff (inside : word < 2 * half) : 0 ≤ toSigned half word ↔ word < half := by
  unfold toSigned
  split <;> omega

/-- Read in a larger word, the same word stands for itself. -/
theorem toSigned_extended_iff {half' : Nat} (inside : word < 2 * half) (wider : 2 * half ≤ half') :
    toSigned half' word = toSigned half word ↔ 0 ≤ toSigned half word := by
  rw [toSigned_nonneg_iff inside, toSigned_of_lt (inside.trans_le wider)]
  unfold toSigned
  split <;> omega

end Readings

theorem natCast_modEq_neg_iff (modulus a b : Nat) : (a : Int) ≡ -(b : Int) [ZMOD modulus] ↔ modulus ∣ a + b := by
  rw [Int.modEq_comm, Int.modEq_iff_dvd, sub_neg_eq_add]
  exact_mod_cast Iff.rfl

/-- Where the quotient of two words is the quotient of the numbers they stand for. -/
def QuotientAgrees (half x y : Nat) : Prop :=
  (x < half ∧ y < half) ∨ x = y ∨ y = 1 ∨ (x < half ∧ half ≤ y ∧ x + y < 2 * half)

/-- Where the remainder of two words is the remainder of the numbers they stand for. -/
def RemainderAgrees (half x y : Nat) : Prop :=
  (x < half ∧ y < half) ∨ x = y ∨ (y ∣ x ∧ y ∣ 2 * half) ∨ (x < half ∧ half ≤ y ∧ x + y < 2 * half)

section Division
variable {half x y : Nat}

theorem quotient_by_negative (below : x < half) (large : half ≤ y) (inside : y < 2 * half) :
    ((x / y : Nat) : Int) ≡ (x : Int).tdiv (-((2 * half - y : Nat) : Int)) [ZMOD (2 * half : Nat)] ↔
      x + y < 2 * half := by
  have short : x / (2 * half - y) < 2 * half := (Nat.div_le_self _ _).trans_lt (by omega)
  rw [Int.tdiv_neg, ← Int.ofNat_tdiv, natCast_modEq_neg_iff, Nat.div_eq_of_lt (below.trans_le large), Nat.zero_add,
    Nat.dvd_iff_mod_eq_zero, Nat.mod_eq_of_lt short, Nat.div_eq_zero_iff]
  omega

theorem quotient_of_negative (large : half ≤ x) (inside : x < 2 * half) (nonzero : y ≠ 0) (below : y < half) :
    ((x / y : Nat) : Int) ≡ (-((2 * half - x : Nat) : Int)).tdiv y [ZMOD (2 * half : Nat)] ↔ y = 1 := by
  rw [Int.neg_tdiv, ← Int.ofNat_tdiv, natCast_modEq_neg_iff]
  constructor
  · intro multiple
    by_contra other
    have positive : 0 < x / y := Nat.div_pos (by omega) (by omega)
    have halves : ∀ n, n / y ≤ n / 2 := fun n => Nat.div_le_div_left (by omega) (by omega)
    have first := halves x
    have second := halves (2 * half - x)
    have few := Nat.le_of_dvd (Nat.add_pos_left positive _) multiple
    omega
  · rintro rfl
    rw [Nat.div_one, Nat.div_one, Nat.add_sub_cancel' inside.le]

theorem quotient_of_negatives (large : half ≤ x) (inside : x < 2 * half) (large' : half ≤ y) (inside' : y < 2 * half) :
    ((x / y : Nat) : Int) ≡ (-((2 * half - x : Nat) : Int)).tdiv (-((2 * half - y : Nat) : Int))
      [ZMOD (2 * half : Nat)] ↔ x = y := by
  rw [Int.neg_tdiv, Int.tdiv_neg, neg_neg, ← Int.ofNat_tdiv, Int.natCast_modEq_iff]
  have short : (2 * half - x) / (2 * half - y) < 2 * half := (Nat.div_le_self _ _).trans_lt (by omega)
  have short' : x / y < 2 * half := (Nat.div_le_self _ _).trans_lt inside
  constructor
  · intro agree
    have same := agree.eq_of_lt_of_lt short' short
    rcases lt_trichotomy x y with less | equal | more
    · rw [Nat.div_eq_of_lt less] at same
      have positive := Nat.div_pos (show 2 * half - y ≤ 2 * half - x by omega) (by omega)
      omega
    · exact equal
    · rw [Nat.div_eq_of_lt (show 2 * half - x < 2 * half - y by omega)] at same
      have positive := Nat.div_pos more.le (by omega)
      omega
  · rintro rfl
    rw [Nat.div_self (by omega), Nat.div_self (by omega)]

/-- Dividing words is dividing the numbers they stand for exactly where `QuotientAgrees`. -/
theorem quotient_modEq_iff (inside : x < 2 * half) (inside' : y < 2 * half) (nonzero : y ≠ 0) :
    ((x / y : Nat) : Int) ≡ (toSigned half x).tdiv (toSigned half y) [ZMOD (2 * half : Nat)] ↔
      QuotientAgrees half x y := by
  unfold QuotientAgrees
  by_cases small : x < half <;> by_cases small' : y < half
  · rw [toSigned_of_lt small, toSigned_of_lt small', ← Int.ofNat_tdiv]
    exact iff_of_true rfl (.inl ⟨small, small'⟩)
  · rw [toSigned_of_lt small, toSigned_of_ge (not_lt.mp small') inside',
      quotient_by_negative small (not_lt.mp small') inside']
    omega
  · rw [toSigned_of_ge (not_lt.mp small) inside, toSigned_of_lt small',
      quotient_of_negative (not_lt.mp small) inside nonzero small']
    omega
  · rw [toSigned_of_ge (not_lt.mp small) inside, toSigned_of_ge (not_lt.mp small') inside',
      quotient_of_negatives (not_lt.mp small) inside (not_lt.mp small') inside']
    omega

theorem remainder_by_negative (below : x < half) (large : half ≤ y) (inside : y < 2 * half) :
    ((x % y : Nat) : Int) ≡ (x : Int).tmod (-((2 * half - y : Nat) : Int)) [ZMOD (2 * half : Nat)] ↔
      x + y < 2 * half := by
  rw [Int.tmod_neg, ← Int.ofNat_tmod, Int.natCast_modEq_iff, Nat.mod_eq_of_lt (below.trans_le large)]
  have short : x % (2 * half - y) < 2 * half := (Nat.mod_le _ _).trans_lt (by omega)
  constructor
  · intro agree
    have same := agree.eq_of_lt_of_lt (by omega) short
    have bound := Nat.mod_lt x (show 0 < 2 * half - y by omega)
    omega
  · intro room
    rw [Nat.mod_eq_of_lt (show x < 2 * half - y by omega)]

theorem remainder_of_negative (inside : x < 2 * half) (nonzero : y ≠ 0) (below : y < half) :
    ((x % y : Nat) : Int) ≡ (-((2 * half - x : Nat) : Int)).tmod y [ZMOD (2 * half : Nat)] ↔
      y ∣ x ∧ y ∣ 2 * half := by
  rw [Int.neg_tmod, ← Int.ofNat_tmod, natCast_modEq_neg_iff]
  have first := Nat.mod_lt x (Nat.pos_of_ne_zero nonzero)
  have second := Nat.mod_lt (2 * half - x) (Nat.pos_of_ne_zero nonzero)
  constructor
  · intro multiple
    have none := Nat.eq_zero_of_dvd_of_lt multiple (by omega)
    have divides : y ∣ x := Nat.dvd_of_mod_eq_zero (by omega)
    have divides' : y ∣ 2 * half - x := Nat.dvd_of_mod_eq_zero (by omega)
    exact ⟨divides, Nat.add_sub_cancel' inside.le ▸ divides.add divides'⟩
  · rintro ⟨divides, whole⟩
    rw [Nat.mod_eq_zero_of_dvd divides, Nat.mod_eq_zero_of_dvd (Nat.dvd_sub whole divides)]
    exact dvd_zero _

theorem remainder_of_negatives (large : half ≤ x) (inside : x < 2 * half) (large' : half ≤ y)
    (inside' : y < 2 * half) :
    ((x % y : Nat) : Int) ≡ (-((2 * half - x : Nat) : Int)).tmod (-((2 * half - y : Nat) : Int))
      [ZMOD (2 * half : Nat)] ↔ x = y := by
  rw [Int.neg_tmod, Int.tmod_neg, ← Int.ofNat_tmod, natCast_modEq_neg_iff]
  have bound := Nat.mod_lt (2 * half - x) (show 0 < 2 * half - y by omega)
  constructor
  · intro multiple
    rcases lt_trichotomy x y with less | equal | more
    · rw [Nat.mod_eq_of_lt less] at multiple
      have few := Nat.le_of_dvd (by omega) multiple
      omega
    · exact equal
    · have once : x % y = x - y := by
        rw [Nat.mod_eq_sub_mod more.le, Nat.mod_eq_of_lt (by omega)]
      rw [once, Nat.mod_eq_of_lt (show 2 * half - x < 2 * half - y by omega)] at multiple
      have few := Nat.eq_zero_of_dvd_of_lt multiple (by omega)
      omega
  · rintro rfl
    rw [Nat.mod_self, Nat.mod_self]
    exact dvd_zero _

/-- The remainder of words is the one of the numbers they stand for exactly where `RemainderAgrees`. -/
theorem remainder_modEq_iff (inside : x < 2 * half) (inside' : y < 2 * half) (nonzero : y ≠ 0) :
    ((x % y : Nat) : Int) ≡ (toSigned half x).tmod (toSigned half y) [ZMOD (2 * half : Nat)] ↔
      RemainderAgrees half x y := by
  unfold RemainderAgrees
  by_cases small : x < half <;> by_cases small' : y < half
  · rw [toSigned_of_lt small, toSigned_of_lt small', ← Int.ofNat_tmod]
    exact iff_of_true rfl (.inl ⟨small, small'⟩)
  · have multiple : y ∣ x → x = 0 := fun divides => Nat.eq_zero_of_dvd_of_lt divides (by omega)
    rw [toSigned_of_lt small, toSigned_of_ge (not_lt.mp small') inside',
      remainder_by_negative small (not_lt.mp small') inside']
    omega
  · rw [toSigned_of_ge (not_lt.mp small) inside, toSigned_of_lt small',
      remainder_of_negative inside nonzero small']
    omega
  · have multiple : y ∣ x → x = y := by
      rintro ⟨factor, rfl⟩
      have once : factor = 1 := by nlinarith
      rw [once, Nat.mul_one]
    rw [toSigned_of_ge (not_lt.mp small) inside, toSigned_of_ge (not_lt.mp small') inside',
      remainder_of_negatives (not_lt.mp small) inside (not_lt.mp small') inside']
    omega

end Division

end Qira.Library.TwosComplement
