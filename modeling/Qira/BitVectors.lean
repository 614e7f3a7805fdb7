import Qira.ConcreteExecution
import Qira.Library.TwosComplement

/-!
The methods of `ConcreteBitVector`; `none` is an exception. Only the constructor masks, so that a method is right
if what it passes there is right in the bits that are kept.
-/

namespace Qira.BitVectors
open ConcreteExecution Library.TwosComplement

/-- `sys.maxsize`: a shift by more raises `OverflowError`, so that there are no larger vectors. -/
def maxsize : Nat := 2 ^ 63 - 1

/-- The count of a shift; a negative one raises `ValueError`. -/
def count (n : Int) : Option Nat := if 0 ≤ n ∧ n ≤ maxsize then some n.toNat else none

/-- `ConcreteBitVector(size, value)`, where `size` need not be the size of a vector. -/
def make (size value : Int) : Option ConcreteBitVector := (count size).map (fun size => .ofInt size value)

/-- What a method is given as `other`: a `ConcreteBitVector` or a number. -/
inductive Operand
  | vector (other : ConcreteBitVector)
  | number (other : Int)

def Operand.value : Operand → Int
  | .vector other => other.value
  | .number other => other

/-- The size of the result. -/
def Operand.sizeWith (size : Nat) : Operand → Nat
  | .vector other => max size other.size
  | .number _ => size

def binary (op : Int → Int → Int) (self : ConcreteBitVector) (other : Operand) : ConcreteBitVector :=
  .ofInt (other.sizeWith self.size) (op self.value other.value)

def add : ConcreteBitVector → Operand → ConcreteBitVector := binary (· + ·)

def sub : ConcreteBitVector → Operand → ConcreteBitVector := binary (· - ·)

example (x : ConcreteBitVector) (n : Int) : add x (.number n) = x.add n ∧ sub x (.number n) = x.sub n := ⟨rfl, rfl⟩

def mul : ConcreteBitVector → Operand → ConcreteBitVector := binary (· * ·)

/-- `div` and `mod`, which raise `ZeroDivisionError`. -/
def divide (op : Int → Int → Int) (self : ConcreteBitVector) (other : Operand) : Option ConcreteBitVector :=
  if other.value = 0 then none else some (binary op self other)

def div : ConcreteBitVector → Operand → Option ConcreteBitVector := divide Int.fdiv

def mod : ConcreteBitVector → Operand → Option ConcreteBitVector := divide Int.fmod

def band : ConcreteBitVector → Operand → ConcreteBitVector := binary Int.land

def xor : ConcreteBitVector → Operand → ConcreteBitVector := binary Int.xor

def bor : ConcreteBitVector → Operand → ConcreteBitVector := binary Int.lor

def bnot (self : ConcreteBitVector) : ConcreteBitVector :=
  let bitmask := (1 <<< self.size) - 1
  .ofInt self.size (self.value ^^^ bitmask : Nat)

/-- `neg(self, other)`; a call without `other` raises `TypeError`. -/
def neg (self : ConcreteBitVector) (other : Option Operand) : Option ConcreteBitVector :=
  other.map (fun _ => add (bnot self) (.number 1))

/-- `__neg__`, which calls `self.neg()`. -/
def negated (self : ConcreteBitVector) : Option ConcreteBitVector := neg self none

def lshift (self : ConcreteBitVector) (other : Operand) : Option ConcreteBitVector :=
  (count other.value).map (fun n => .ofInt self.size (self.value <<< n : Nat))

def rshift (self : ConcreteBitVector) (other : Operand) : Option ConcreteBitVector :=
  (count other.value).map (fun n => .ofInt self.size (self.value >>> n : Nat))

def arshift (self : ConcreteBitVector) (other : Operand) : Option ConcreteBitVector := do
  let otherval := other.value
  let top ← count (self.size - 1)
  let highbit := (self.value &&& 1 <<< top) >>> top
  let mask := (1 <<< (← count otherval) - 1) * highbit
  let mask := mask <<< (← count (self.size - otherval))
  let newval := self.value >>> (← count otherval)
  return .ofInt self.size (newval ||| mask : Nat)

def getBits (self : ConcreteBitVector) (low high : Int) : Option ConcreteBitVector := do
  let length := high - low + 1
  let bitmask := 1 <<< (← count length) - 1
  let value ← rshift self (.number low)
  make length (band value (.number (bitmask : Nat))).value

def getHighBits (self : ConcreteBitVector) (num : Nat) : Option ConcreteBitVector :=
  if num ≤ self.size then getBits self (self.size - num) (self.size - 1) else none

def getLowBits (self : ConcreteBitVector) (num : Nat) : Option ConcreteBitVector :=
  if num ≤ self.size then getBits self 0 (num - 1) else none

def signed (self : ConcreteBitVector) : Option Int := do
  let mask := 1 <<< (← count (self.size - 1))
  if self.value &&& mask ≠ 0 then return -(2 ^ self.size - self.value) else return self.value

/-- The first value is shifted by its own size. -/
def concat (self other : ConcreteBitVector) : Option ConcreteBitVector :=
  make (self.size + other.size : Nat) (self.value <<< self.size ||| other.value : Nat)

def eq (self : ConcreteBitVector) (other : Operand) : Bool := self.value = other.value

def neq (self : ConcreteBitVector) (other : Operand) : Bool := self.value ≠ other.value

def lt (self : ConcreteBitVector) (other : Operand) : Bool := self.value < other.value

def le (self : ConcreteBitVector) (other : Operand) : Bool := self.value ≤ other.value

def Operand.signed : Operand → Option Int
  | .vector other => BitVectors.signed other
  | .number other => some other

def slt (self : ConcreteBitVector) (other : Operand) : Option Bool := do
  return (← signed self) < (← other.signed)

def sle (self : ConcreteBitVector) (other : Operand) : Option Bool := do
  return (← signed self) ≤ (← other.signed)

section Constructor

theorem count_of_le {n : Nat} (small : n ≤ maxsize) : count n = some n := by
  rw [count, if_pos ⟨Int.natCast_nonneg n, Int.ofNat_le.mpr small⟩, Int.toNat_natCast]

theorem count_of_gt {n : Nat} (large : maxsize < n) : count n = none :=
  if_neg fun inside => (Int.ofNat_lt.mpr large).not_ge inside.2

theorem count_of_neg {n : Int} (negative : n < 0) : count n = none := if_neg fun inside => negative.not_ge inside.1

theorem make_of_le {size : Nat} (small : size ≤ maxsize) (value : Int) : make size value = some (.ofInt size value) := by
  rw [make, count_of_le small, Option.map_some]

theorem ext {x y : ConcreteBitVector} (sizes : x.size = y.size) (values : x.value = y.value) : x = y := by
  obtain ⟨size, value, masked⟩ := x
  obtain ⟨size', value', masked'⟩ := y
  obtain rfl : size = size' := sizes
  obtain rfl : value = value' := values
  rfl

theorem ofInt_eq_iff {size : Nat} {a b : Int} :
    ConcreteBitVector.ofInt size a = .ofInt size b ↔ a ≡ b [ZMOD (2 ^ size : Nat)] := by
  have positive : (0 : Int) < 2 ^ size := Int.pow_pos (by decide)
  have values : (a % 2 ^ size).toNat = (b % 2 ^ size).toNat ↔ a % 2 ^ size = b % 2 ^ size := by
    have first := Int.emod_nonneg a positive.ne'
    have second := Int.emod_nonneg b positive.ne'
    omega
  rw [Int.ModEq, Nat.cast_pow, Nat.cast_ofNat, ← values]
  exact ⟨congrArg ConcreteBitVector.value, fun same => ext (by rfl) same⟩

theorem ofInt_eq_self_iff (x : ConcreteBitVector) (value : Nat) :
    ConcreteBitVector.ofInt x.size value = x ↔ value % 2 ^ x.size = x.value := by
  rw [← ConcreteBitVector.ofInt_value]
  exact ⟨congrArg ConcreteBitVector.value, fun same => ext (by rfl) same⟩

end Constructor

section Parts

theorem rshift_of_le (x : ConcreteBitVector) {other : Operand} {n : Nat} (amount : other.value = n)
    (small : n ≤ maxsize) : rshift x other = some (.ofInt x.size (x.value / 2 ^ n : Nat)) := by
  rw [rshift, amount, count_of_le small, Option.map_some, Nat.shiftRight_eq_div_pow]

/-- Nothing is masked off a value that was shifted right. -/
theorem ofInt_shifted (x : ConcreteBitVector) (low : Nat) :
    (ConcreteBitVector.ofInt x.size (x.value / 2 ^ low : Nat)).value = x.value / 2 ^ low :=
  (ConcreteBitVector.ofInt_value _ _).trans (Nat.mod_eq_of_lt ((Nat.div_le_self _ _).trans_lt x.masked))

theorem band_ones (x : ConcreteBitVector) (len : Nat) :
    (band x (.number (1 <<< len - 1 : Nat))).value = x.value % 2 ^ len := by
  change (ConcreteBitVector.ofInt x.size (x.value &&& (1 <<< len - 1) : Nat)).value = _
  rw [ConcreteBitVector.ofInt_value, Nat.one_shiftLeft, Nat.and_two_pow_sub_one_eq_mod,
    Nat.mod_eq_of_lt ((Nat.mod_le _ _).trans_lt x.masked)]

/-- `len` bits from `low` on. -/
theorem getBits_eq (x : ConcreteBitVector) {low len : Nat} {high : Int} (bits : high - low + 1 = len)
    (small : low ≤ maxsize) (small' : len ≤ maxsize) :
    getBits x low high = some (.ofInt len (x.value / 2 ^ low : Nat)) := by
  have kept := (band_ones (.ofInt x.size (x.value / 2 ^ low : Nat)) len).trans
    (congrArg (· % 2 ^ len) (ofInt_shifted x low))
  have masked : (.ofInt len (x.value / 2 ^ low % 2 ^ len : Nat) : ConcreteBitVector) =
      .ofInt len (x.value / 2 ^ low : Nat) := by
    rw [ofInt_eq_iff, Int.natCast_modEq_iff]
    exact Nat.mod_modEq _ _
  simp only [getBits, bits, count_of_le small', rshift_of_le x (show (Operand.number low).value = low from rfl) small,
    Option.bind_eq_bind, Option.bind_some, kept, make_of_le small', masked]

theorem getHighBits_eq (x : ConcreteBitVector) {num rest : Nat} (parts : rest + num = x.size) (small : x.size ≤ maxsize) :
    getHighBits x num = some (.ofInt num (x.value / 2 ^ rest : Nat)) := by
  rw [getHighBits, if_pos (by omega), show (x.size : Int) - num = rest by omega]
  exact getBits_eq x (by omega) (by omega) (by omega)

theorem getLowBits_eq (x : ConcreteBitVector) {num : Nat} (inside : num ≤ x.size) (small : x.size ≤ maxsize) :
    getLowBits x num = some (.ofInt num x.value) := by
  have bits := getBits_eq x (show (num : Int) - 1 - (0 : Nat) + 1 = num by omega) (Nat.zero_le _) (inside.trans small)
  rw [Nat.pow_zero, Nat.div_one] at bits
  rw [getLowBits, if_pos inside]
  exact bits

/-- What `concat` returns where it returns. -/
def joined (hi lo : ConcreteBitVector) : ConcreteBitVector :=
  .ofInt (hi.size + lo.size) (hi.value <<< hi.size ||| lo.value : Nat)

theorem concat_of_le {hi lo : ConcreteBitVector} (small : hi.size + lo.size ≤ maxsize) :
    concat hi lo = some (joined hi lo) :=
  make_of_le small _

theorem concat_of_gt {hi lo : ConcreteBitVector} (large : maxsize < hi.size + lo.size) : concat hi lo = none := by
  rw [concat, make, count_of_gt large, Option.map_none]

end Parts

section Concatenation
variable {highSize lowSize high low : Nat}

/-- What stands above the low part, where the high part was shifted by its own size. -/
theorem aboveLow (inside : low < 2 ^ lowSize) :
    (high <<< highSize ||| low) / 2 ^ lowSize = high * 2 ^ highSize / 2 ^ lowSize := by
  rw [Nat.or_div_two_pow, Nat.div_eq_of_lt inside, Nat.or_zero, Nat.shiftLeft_eq]

/-- Shifted by its own size, the high part is found above the low one only where that is the right shift, or where
there is nothing to find. -/
theorem aboveLow_mod_iff (inside : high < 2 ^ highSize) :
    high * 2 ^ highSize / 2 ^ lowSize % 2 ^ highSize = high ↔ highSize = lowSize ∨ high = 0 := by
  constructor
  · intro found
    rcases lt_trichotomy highSize lowSize with less | equal | more
    · right
      by_contra nonzero
      obtain ⟨gap, rfl⟩ := Nat.exists_eq_add_of_lt less
      have widths : 2 ^ (highSize + gap + 1) = 2 ^ (gap + 1) * 2 ^ highSize := by ring
      rw [widths, Nat.mul_div_mul_right _ _ (Nat.two_pow_pos _)] at found
      have smaller : high / 2 ^ (gap + 1) < high :=
        Nat.div_lt_self (Nat.pos_of_ne_zero nonzero) (Nat.one_lt_two_pow (Nat.succ_ne_zero gap))
      exact absurd found (ne_of_lt ((Nat.mod_le _ _).trans_lt smaller))
    · exact .inl equal
    · right
      obtain ⟨gap, rfl⟩ := Nat.exists_eq_add_of_lt more
      have widths : high * 2 ^ (lowSize + gap + 1) = high * 2 ^ (gap + 1) * 2 ^ lowSize := by ring
      rw [widths, Nat.mul_div_cancel _ (Nat.two_pow_pos _)] at found
      -- The number of bits between the two shifts makes an odd factor, which no power of two divides.
      have odd : Nat.Coprime (2 ^ (lowSize + gap + 1)) (2 ^ (gap + 1) - 1) :=
        (Nat.coprime_two_left.mpr (Nat.Even.sub_odd Nat.one_le_two_pow
          (Nat.even_pow.mpr ⟨even_two, Nat.succ_ne_zero gap⟩) odd_one)).pow_left _
      have same : high * 2 ^ (gap + 1) % 2 ^ (lowSize + gap + 1) = high % 2 ^ (lowSize + gap + 1) :=
        found.trans (Nat.mod_eq_of_lt inside).symm
      have divides := Nat.dvd_of_mod_eq_zero (Nat.sub_mod_eq_zero_of_mod_eq same)
      rw [← Nat.mul_sub_one] at divides
      exact Nat.eq_zero_of_dvd_of_lt (odd.dvd_of_dvd_mul_right divides) inside
  · rintro (rfl | rfl)
    · rw [Nat.mul_div_cancel _ (Nat.two_pow_pos _), Nat.mod_eq_of_lt inside]
    · rw [Nat.zero_mul, Nat.zero_div, Nat.zero_mod]

theorem joined_parts_iff (hi lo : ConcreteBitVector) :
    (ConcreteBitVector.ofInt hi.size ((joined hi lo).value / 2 ^ lo.size : Nat) = hi ∧
      ConcreteBitVector.ofInt lo.size (joined hi lo).value = lo) ↔ hi.size = lo.size ∨ hi.value = 0 := by
  have value : (joined hi lo).value = (hi.value <<< hi.size ||| lo.value) % (2 ^ lo.size * 2 ^ hi.size) := by
    rw [joined, ConcreteBitVector.ofInt_value, ← Nat.pow_add, Nat.add_comm]
  rw [ofInt_eq_self_iff, ofInt_eq_self_iff, value, Nat.mod_mul_right_div_self, Nat.mod_mod, Nat.mod_mul_right_mod,
    aboveLow lo.masked, aboveLow_mod_iff hi.masked, and_iff_left_iff_imp]
  rintro (same | zero)
  · rw [same, Nat.or_mod_two_pow, Nat.shiftLeft_eq, Nat.mul_mod_left, Nat.zero_or, Nat.mod_eq_of_lt lo.masked]
  · rw [zero, Nat.zero_shiftLeft, Nat.zero_or, Nat.mod_eq_of_lt lo.masked]

/-- Vectors of one size are told apart by their parts above and below any place. -/
theorem eq_iff_parts {x y : ConcreteBitVector} (sizes : x.size = y.size) (place : Nat) :
    x = y ↔ x.value / 2 ^ place = y.value / 2 ^ place ∧ x.value % 2 ^ place = y.value % 2 ^ place := by
  constructor
  · rintro rfl
    exact ⟨rfl, rfl⟩
  · rintro ⟨above, below⟩
    apply ext sizes
    rw [← Nat.div_add_mod x.value (2 ^ place), above, below, Nat.div_add_mod]

/-- The two parts of a vector are joined to it again exactly if they are of one size, or the high one is zero. -/
theorem joined_extracted_iff (x : ConcreteBitVector) {k : Nat} (inside : k ≤ x.size) :
    joined (.ofInt (x.size - k) (x.value / 2 ^ k : Nat)) (.ofInt k x.value) = x ↔
      x.size = 2 * k ∨ x.value < 2 ^ k := by
  have sizes : x.size - k + k = x.size := Nat.sub_add_cancel inside
  have below : ∀ v < 2 ^ x.size, v / 2 ^ k < 2 ^ (x.size - k) := by
    intro v small
    rwa [Nat.div_lt_iff_lt_mul (Nat.two_pow_pos k), ← Nat.pow_add, sizes]
  have highValue : (ConcreteBitVector.ofInt (x.size - k) (x.value / 2 ^ k : Nat)).value = x.value / 2 ^ k :=
    (ConcreteBitVector.ofInt_value _ _).trans (Nat.mod_eq_of_lt (below _ x.masked))
  have iff := joined_parts_iff (.ofInt (x.size - k) (x.value / 2 ^ k : Nat)) (.ofInt k x.value)
  set whole := joined (.ofInt (x.size - k) (x.value / 2 ^ k : Nat)) (.ofInt k x.value) with isWhole
  have wholeSize : whole.size = x.size := sizes
  rw [ofInt_eq_self_iff, ofInt_eq_self_iff, highValue, ConcreteBitVector.ofInt_value] at iff
  change (whole.value / 2 ^ k % 2 ^ (x.size - k) = _ ∧ whole.value % 2 ^ k = _) ↔ x.size - k = k ∨ _ at iff
  rw [Nat.mod_eq_of_lt (below _ (wholeSize ▸ whole.masked)), ← eq_iff_parts wholeSize] at iff
  rw [iff, Nat.div_eq_zero_iff_lt (Nat.two_pow_pos k)]
  omega

/-- `concat` puts the parts of a vector together, and its parts are what was put together, exactly if both parts
have the same size or the high one is zero. -/
theorem concat_inverse_iff (x : ConcreteBitVector) (small : x.size ≤ maxsize) (k : Nat) (positive : 0 < k)
    (inside : k < x.size) (hi lo : ConcreteBitVector) :
    ((do concat (← getBits x k (x.size - 1)) (← getBits x 0 (k - 1))) = some x ↔
      x.size = 2 * k ∨ x.value < 2 ^ k) ∧
    ((do let whole ← concat hi lo; return (← getHighBits whole hi.size, ← getLowBits whole lo.size)) =
        some (hi, lo) ↔
      hi.size + lo.size ≤ maxsize ∧ (hi.size = lo.size ∨ hi.value = 0)) := by
  constructor
  · have sizes : (.ofInt (x.size - k) (x.value / 2 ^ k : Nat) : ConcreteBitVector).size +
        (.ofInt k x.value : ConcreteBitVector).size ≤ maxsize := (Nat.sub_add_cancel inside.le).trans_le small
    have above := getBits_eq x (show (x.size : Int) - 1 - k + 1 = (x.size - k : Nat) by omega) (by omega) (by omega)
    have below := getBits_eq x (show (k : Int) - 1 - (0 : Nat) + 1 = k by omega) (Nat.zero_le _) (by omega)
    rw [Nat.pow_zero, Nat.div_one, Nat.cast_zero] at below
    simp only [above, below, Option.bind_eq_bind, Option.bind_some, concat_of_le sizes, Option.some_inj]
    exact joined_extracted_iff x inside.le
  · by_cases possible : hi.size + lo.size ≤ maxsize
    · rw [concat_of_le possible, ← joined_parts_iff, and_iff_right possible]
      have above := @getHighBits_eq (joined hi lo) hi.size lo.size (Nat.add_comm _ _) possible
      have below := @getLowBits_eq (joined hi lo) lo.size (Nat.le_add_left _ _) possible
      simp only [above, below, Option.bind_eq_bind, Option.bind_some, Option.pure_def, Option.some_inj, Prod.mk.injEq]
    · rw [concat_of_gt (not_le.mp possible)]
      exact iff_of_false nofun fun both => possible both.1

/-- A vector of three bytes taken apart and put together, and a byte joined to two bytes. -/
theorem concat_inverse_iff_byte :
    ((do concat (← getBits (.ofInt 24 0x10000) 16 23) (← getBits (.ofInt 24 0x10000) 0 15)) =
        some (.ofInt 24 0x10000) ↔ 24 = 2 * 16 ∨ 0x10000 < 2 ^ 16) ∧
    ((do let whole ← concat (.ofInt 8 1) (.ofInt 16 0); return (← getHighBits whole 8, ← getLowBits whole 16)) =
        some (.ofInt 8 1, .ofInt 16 0) ↔ 8 + 16 ≤ maxsize ∧ (8 = 16 ∨ 1 = 0)) :=
  concat_inverse_iff (.ofInt 24 0x10000) (by decide) 16 (by decide) (by decide) (.ofInt 8 1) (.ofInt 16 0)

theorem highPart_misplaced :
    (do concat (← getBits (.ofInt 24 0x10000) 16 23) (← getBits (.ofInt 24 0x10000) 0 15)) = some (.ofInt 24 0x100) ∧
    (do let whole ← concat (.ofInt 8 1) (.ofInt 16 0); return (← getHighBits whole 8, ← getLowBits whole 16)) =
      some (.ofInt 8 0, .ofInt 16 0x100) ∧
    ConcreteBitVector.ofInt 24 0x100 ≠ .ofInt 24 0x10000 ∧ ConcreteBitVector.ofInt 8 0 ≠ .ofInt 8 1 := by
  decide

end Concatenation

section Shifts

theorem testBit_top {value top : Nat} (inside : value < 2 ^ (top + 1)) :
    value.testBit top = decide (2 ^ top ≤ value) := by
  by_cases large : 2 ^ top ≤ value
  · rw [Nat.testBit_of_two_pow_le_and_two_pow_add_one_gt large inside, decide_eq_true large]
  · rw [Nat.testBit_lt_two_pow (not_le.mp large), decide_eq_false large]

/-- Where the vectors with a sign begin. -/
def half (x : ConcreteBitVector) : Nat := 2 ^ (x.size - 1)

theorem two_mul_half {x : ConcreteBitVector} (positive : 0 < x.size) : 2 * half x = 2 ^ x.size := by
  rw [half, ← pow_succ', Nat.sub_add_cancel positive]

theorem value_lt {x : ConcreteBitVector} (positive : 0 < x.size) : x.value < 2 * half x :=
  two_mul_half positive ▸ x.masked

theorem count_top {x : ConcreteBitVector} (positive : 0 < x.size) (small : x.size ≤ maxsize) :
    count (x.size - 1) = some (x.size - 1) := by
  rw [show (x.size : Int) - 1 = (x.size - 1 : Nat) by omega]
  exact count_of_le (by omega)

theorem highbit_eq {x : ConcreteBitVector} (positive : 0 < x.size) :
    x.value &&& 1 <<< (x.size - 1) = if x.value < half x then 0 else half x := by
  have inside : x.value < 2 ^ (x.size - 1 + 1) := (Nat.sub_add_cancel positive).symm ▸ x.masked
  rw [Nat.one_shiftLeft, Nat.and_two_pow, testBit_top inside, half]
  by_cases small : x.value < 2 ^ (x.size - 1)
  · rw [if_pos small, decide_eq_false small.not_ge, Bool.toNat_false, Nat.zero_mul]
  · rw [if_neg small, decide_eq_true (not_lt.mp small), Bool.toNat_true, Nat.one_mul]

/-- `signed` gives the number the vector stands for. -/
theorem signed_eq {x : ConcreteBitVector} (positive : 0 < x.size) (small : x.size ≤ maxsize) :
    signed x = some (toSigned (half x) x.value) := by
  have whole : ((2 : Int) ^ x.size) = 2 * half x := by exact_mod_cast (two_mul_half positive).symm
  simp only [signed, count_top positive small, highbit_eq positive, Option.bind_eq_bind, Option.bind_some, toSigned,
    Option.pure_def, whole]
  by_cases low : x.value < half x
  · simp only [low, if_true, ne_eq, not_true, if_false]
  · have nonzero : half x ≠ 0 := (Nat.two_pow_pos _).ne'
    rw [if_neg low, if_neg low, if_pos nonzero, neg_sub]

/-- And this is the number of the signed range that is congruent to the value. -/
theorem signed_iff {x : ConcreteBitVector} (positive : 0 < x.size) (small : x.size ≤ maxsize) (v : Int) :
    signed x = some v ↔ v ≡ x.value [ZMOD (2 ^ x.size : Nat)] ∧ -(half x : Int) ≤ v ∧ v < half x := by
  rw [signed_eq positive small, Option.some_inj, eq_comm, eq_toSigned_iff (value_lt positive), two_mul_half positive]

theorem natCast_div_two_pow (value s : Nat) : ((value / 2 ^ s : Nat) : Int) = value / 2 ^ s := by
  rw [Int.natCast_ediv, Nat.cast_pow, Nat.cast_ofNat]

/-- The shifted value with the sign bits above it. -/
theorem shifted_modEq {x : ConcreteBitVector} {s : Nat} (positive : 0 < x.size) (inside : s ≤ x.size) :
    ((x.value / 2 ^ s ||| (2 ^ s - 1) * (if x.value < half x then 0 else 1) * 2 ^ (x.size - s) : Nat) : Int) ≡
      toSigned (half x) x.value / 2 ^ s [ZMOD (2 ^ x.size : Nat)] := by
  by_cases low : x.value < half x
  · rw [if_pos low, Nat.mul_zero, Nat.zero_mul, Nat.or_zero, toSigned_of_lt low, natCast_div_two_pow]
  · have split : 2 ^ x.size = 2 ^ (x.size - s) * 2 ^ s := by rw [← Nat.pow_add, Nat.sub_add_cancel inside]
    have room : x.value / 2 ^ s < 2 ^ (x.size - s) := by
      rw [Nat.div_lt_iff_lt_mul (Nat.two_pow_pos s), ← split]
      exact x.masked
    have quotient : toSigned (half x) x.value / 2 ^ s = (x.value / 2 ^ s : Nat) - 2 ^ (x.size - s) := by
      have whole : (2 * half x : Int) = 2 ^ (x.size - s) * 2 ^ s := by exact_mod_cast (two_mul_half positive).trans split
      calc
        toSigned (half x) x.value / 2 ^ s = (x.value - 2 ^ (x.size - s) * 2 ^ s) / 2 ^ s := by
          rw [toSigned, if_neg low, whole]
        _ = x.value / 2 ^ s - 2 ^ (x.size - s) := Int.sub_mul_ediv_right _ _ (Int.pow_pos (by decide)).ne'
        _ = (x.value / 2 ^ s : Nat) - 2 ^ (x.size - s) := by rw [natCast_div_two_pow]
    rw [if_neg low, Nat.mul_one, Nat.or_comm, Nat.mul_comm, ← Nat.two_pow_add_eq_or_of_lt room, quotient]
    refine (Int.modEq_iff_dvd.mpr ⟨1, ?_⟩).symm
    rw [split]
    push_cast [Nat.one_le_two_pow]
    ring

theorem arshift_of_le {x : ConcreteBitVector} {other : Operand} {s : Nat} (amount : other.value = s)
    (positive : 0 < x.size) (small : x.size ≤ maxsize) (inside : s ≤ x.size) :
    arshift x other = some (.ofInt x.size (toSigned (half x) x.value / 2 ^ s)) := by
  have rest : count (x.size - s) = some (x.size - s) := by
    rw [← Nat.cast_sub inside]
    exact count_of_le (by omega)
  have highbit : (x.value &&& 1 <<< (x.size - 1)) >>> (x.size - 1) = if x.value < half x then 0 else 1 := by
    rw [highbit_eq positive]
    split
    next => exact Nat.zero_shiftRight _
    next => rw [half, Nat.shiftRight_eq_div_pow, Nat.div_self (Nat.two_pow_pos _)]
  simp only [arshift, amount, count_top positive small, count_of_le (inside.trans small), rest, highbit,
    Option.bind_eq_bind, Option.bind_some, Option.pure_def, Option.some_inj]
  rw [ofInt_eq_iff, Nat.one_shiftLeft, Nat.shiftLeft_eq, Nat.shiftRight_eq_div_pow]
  exact shifted_modEq positive inside

/-- The sign bits of a larger shift would have to be shifted back. -/
theorem arshift_of_gt {x : ConcreteBitVector} {other : Operand} {s : Nat} (amount : other.value = s)
    (large : x.size < s) : arshift x other = none := by
  have back : count (x.size - s) = none := count_of_neg (by omega)
  simp only [arshift, amount, back, Option.bind_eq_bind, Option.bind_none, Option.bind_fun_none]

theorem arshift_of_empty {x : ConcreteBitVector} (other : Operand) (empty : x.size = 0) : arshift x other = none := by
  rw [arshift, count_of_neg (by omega)]
  rfl

theorem shift_of_gt {x : ConcreteBitVector} {other : Operand} {s : Nat} (amount : other.value = s)
    (large : maxsize < s) : rshift x other = none ∧ lshift x other = none := by
  rw [rshift, lshift, amount, count_of_gt large]
  exact ⟨rfl, rfl⟩

theorem lshift_of_le (x : ConcreteBitVector) {other : Operand} {n : Nat} (amount : other.value = n)
    (small : n ≤ maxsize) : lshift x other = some (.ofInt x.size (x.value * 2 ^ n : Nat)) := by
  rw [lshift, amount, count_of_le small, Option.map_some, Nat.shiftLeft_eq]

theorem arshift_isSome_iff {x : ConcreteBitVector} (small : x.size ≤ maxsize) {other : Operand} {s : Nat}
    (amount : other.value = s) : (arshift x other).isSome ↔ 0 < x.size ∧ s ≤ x.size := by
  by_cases empty : x.size = 0
  · rw [arshift_of_empty other empty]
    exact iff_of_false nofun (by omega)
  · by_cases inside : s ≤ x.size
    · rw [arshift_of_le amount (Nat.pos_of_ne_zero empty) small inside]
      exact iff_of_true rfl ⟨Nat.pos_of_ne_zero empty, inside⟩
    · rw [arshift_of_gt amount (not_le.mp inside)]
      exact iff_of_false nofun fun both => inside both.2

/-- The shifts by an amount of any size: `arshift` is right exactly up to the size of the vector, and the others as
far as a shift is possible at all. -/
theorem shift_iff (x : ConcreteBitVector) (small : x.size ≤ maxsize) (other : Operand) (s : Nat)
    (amount : other.value = s) :
    ((∃ v, signed x = some v ∧ arshift x other = some (.ofInt x.size (v / 2 ^ s))) ↔ 0 < x.size ∧ s ≤ x.size) ∧
    (rshift x other = some (.ofInt x.size (x.value / 2 ^ s : Nat)) ↔ s ≤ maxsize) ∧
    (lshift x other = some (.ofInt x.size (x.value * 2 ^ s : Nat)) ↔ s ≤ maxsize) ∧
    (0 < x.size → x.value < 2 ^ (x.size - 1) →
      (arshift x other = rshift x other ↔ s ≤ x.size ∨ maxsize < s)) := by
  refine ⟨?_, ?_, ?_, fun positive clear => ?_⟩
  · constructor
    · rintro ⟨v, -, defined⟩
      exact (arshift_isSome_iff small amount).mp (Option.isSome_of_eq_some defined)
    · rintro ⟨positive, inside⟩
      exact ⟨_, signed_eq positive small, arshift_of_le amount positive small inside⟩
  · refine ⟨fun defined => not_lt.mp fun large => ?_, rshift_of_le x amount⟩
    rw [(shift_of_gt amount large).1] at defined
    cases defined
  · refine ⟨fun defined => not_lt.mp fun large => ?_, lshift_of_le x amount⟩
    rw [(shift_of_gt amount large).2] at defined
    cases defined
  · rcases lt_or_ge maxsize s with huge | possible
    · rw [(shift_of_gt amount huge).1, arshift_of_gt amount (small.trans_lt huge)]
      exact iff_of_true rfl (.inr huge)
    · rw [rshift_of_le x amount possible, or_iff_left possible.not_gt]
      constructor
      · intro agree
        exact ((arshift_isSome_iff small amount).mp (Option.isSome_of_eq_some agree)).2
      · intro inside
        have nonnegative : x.value < half x := clear
        rw [arshift_of_le amount positive small inside, toSigned_of_lt nonnegative, natCast_div_two_pow]

/-- A byte shifted by more than its bits. -/
theorem shift_iff_byte :
    ((∃ v, signed (.ofInt 8 0x7f) = some v ∧
        arshift (.ofInt 8 0x7f) (.number 9) = some (.ofInt 8 (v / 2 ^ 9))) ↔ 0 < 8 ∧ 9 ≤ 8) ∧
    (rshift (.ofInt 8 0x7f) (.number 9) = some (.ofInt 8 (0x7f / 2 ^ 9 : Nat)) ↔ 9 ≤ maxsize) ∧
    (lshift (.ofInt 8 0x7f) (.number 9) = some (.ofInt 8 (0x7f * 2 ^ 9 : Nat)) ↔ 9 ≤ maxsize) ∧
    (0 < 8 → 0x7f < 2 ^ 7 →
      (arshift (.ofInt 8 0x7f) (.number 9) = rshift (.ofInt 8 0x7f) (.number 9) ↔ 9 ≤ 8 ∨ maxsize < 9)) :=
  shift_iff (.ofInt 8 0x7f) (by decide) (.number 9) 9 rfl

theorem arshift_undefined :
    arshift (.ofInt 8 0x7f) (.number 9) = none ∧ rshift (.ofInt 8 0x7f) (.number 9) = some (.ofInt 8 0) := by
  decide

end Shifts

end Qira.BitVectors
