import Qira.Library.Words

/-!
Numbers written as digits: that they can be told apart, that hexadecimal digits are read back, and that they can be cut
in two.
-/

namespace Qira.Library.Numerals
open Words

theorem digitChar_injective (n m : Nat) (small : n < 16) (small' : m < 16)
    (same : Nat.digitChar n = Nat.digitChar m) : n = m := by
  have apart : ∀ i < 16, ∀ j < 16, Nat.digitChar i = Nat.digitChar j → i = j := by decide
  exact apart n small m small' same

/-- Different numbers are written differently, in any base up to 16. -/
theorem toDigits_injective (base : Nat) (large : 1 < base) (small : base ≤ 16) (n m : Nat)
    (same : Nat.toDigits base n = Nat.toDigits base m) : n = m := by
  have lengths := congrArg List.length same
  induction n using Nat.strong_induction_on generalizing m with
  | _ n ih =>
    have short : ∀ k, (Nat.toDigits base k).length ≤ 1 ↔ k < base := by
      intro k
      rw [Nat.length_toDigits_le_iff large Nat.one_pos, Nat.pow_one]
    by_cases oneDigit : n < base
    · have oneDigit' : m < base := (short m).mp (lengths ▸ (short n).mpr oneDigit)
      rw [Nat.toDigits_of_lt_base oneDigit, Nat.toDigits_of_lt_base oneDigit',
        List.singleton_inj] at same
      exact digitChar_injective n m (by omega) (by omega) same
    · have oneDigit' : ¬ m < base := fun few => oneDigit ((short n).mp (lengths ▸ (short m).mpr few))
      rw [Nat.toDigits_of_base_le large (not_lt.mp oneDigit),
        Nat.toDigits_of_base_le large (not_lt.mp oneDigit')] at same
      obtain ⟨front, last⟩ := List.append_inj' same rfl
      have smaller : n / base < n := Nat.div_lt_self (by omega) large
      have quotients := ih (n / base) smaller (m / base) front (congrArg List.length front)
      have remainders := digitChar_injective _ _
        ((Nat.mod_lt n (by omega)).trans_le small) ((Nat.mod_lt m (by omega)).trans_le small)
        (List.singleton_inj.mp last)
      rw [← Nat.div_add_mod n base, ← Nat.div_add_mod m base, quotients, remainders]

def hexDigit (c : Char) : Option Nat :=
  if '0' ≤ c ∧ c ≤ '9' then some (c.toNat - 48)
  else if 'a' ≤ c ∧ c ≤ 'f' then some (c.toNat - 87)
  else none

/-- The number with these digits behind the ones of `n`. -/
def readHexFrom (n : Nat) (digits : List Char) : Option Nat :=
  digits.foldlM (fun n c => (hexDigit c).map (fun d => 16 * n + d)) n

/-- The number a string of digits stands for, 0 for the empty one. -/
def readHex (digits : List Char) : Option Nat := readHexFrom 0 digits

theorem readHexFrom_append (n : Nat) (first second : List Char) :
    readHexFrom n (first ++ second) = (readHexFrom n first).bind (fun m => readHexFrom m second) :=
  List.foldlM_append

theorem readHex_dropWhile_zero (digits : List Char) :
    readHex (digits.dropWhile (fun c => c = '0')) = readHex digits := by
  induction digits with
  | nil => rfl
  | cons c rest ih =>
    rw [List.dropWhile_cons]
    split
    next zero =>
      obtain rfl := of_decide_eq_true zero
      exact ih
    next => rfl

/-- The two digits of a byte. -/
def hexByte (b : Byte) : List Char := [Nat.digitChar (b.toNat / 16), Nat.digitChar (b.toNat % 16)]

theorem hexDigit_digitChar (d : Nat) (small : d < 16) : hexDigit (Nat.digitChar d) = some d := by
  have each : ∀ d < 16, hexDigit (Nat.digitChar d) = some d := by decide
  exact each d small

theorem readHexFrom_hexByte (n : Nat) (b : Byte) : readHexFrom n (hexByte b) = some (256 * n + b.toNat) := by
  have large : b.toNat / 16 < 16 := by
    have := b.isLt
    omega
  have parts : 16 * (16 * n + b.toNat / 16) + b.toNat % 16 = 256 * n + b.toNat := by omega
  simp only [readHexFrom, hexByte, List.foldlM_cons, List.foldlM_nil, hexDigit_digitChar _ large,
    hexDigit_digitChar _ (Nat.mod_lt b.toNat (by decide : 0 < 16)), Option.map_some, Option.bind_eq_bind,
    Option.bind_some, Option.pure_def, parts]

theorem readHexFrom_digitChar (n d : Nat) (small : d < 16) : readHexFrom n [Nat.digitChar d] = some (16 * n + d) := by
  simp only [readHexFrom, List.foldlM_cons, List.foldlM_nil, hexDigit_digitChar d small, Option.map_some,
    Option.bind_eq_bind, Option.bind_some, Option.pure_def]

/-- The last digits of a number, as many as the width. -/
def lastDigits : Nat → Nat → List Char
  | 0, _ => []
  | width + 1, n => lastDigits width (n / 16) ++ [Nat.digitChar (n % 16)]

@[simp] theorem length_lastDigits (width n : Nat) : (lastDigits width n).length = width := by
  induction width generalizing n with
  | zero => rfl
  | succ width ih => rw [lastDigits, List.length_append, ih, List.length_singleton]

theorem lastDigits_zero (width : Nat) : lastDigits width 0 = List.replicate width '0' := by
  induction width with
  | zero => rfl
  | succ width ih => rw [lastDigits, Nat.zero_div, ih, List.replicate_succ']; rfl

theorem lastDigits_add (front back n : Nat) :
    lastDigits (front + back) n = lastDigits front (n / 16 ^ back) ++ lastDigits back n := by
  induction back generalizing n with
  | zero => rw [Nat.pow_zero, Nat.div_one, lastDigits, List.append_nil]; rfl
  | succ back ih =>
    rw [← Nat.add_assoc, lastDigits, lastDigits, ih, Nat.div_div_eq_div_mul, ← Nat.pow_succ', List.append_assoc]

theorem lastDigits_mod (width n : Nat) : lastDigits width (n % 16 ^ width) = lastDigits width n := by
  induction width generalizing n with
  | zero => rfl
  | succ width ih =>
    have front : n % 16 ^ (width + 1) / 16 = n / 16 % 16 ^ width := by
      rw [Nat.pow_succ', Nat.mod_mul_right_div_self]
    have last : n % 16 ^ (width + 1) % 16 = n % 16 := Nat.mod_mod_of_dvd n (Dvd.intro_left _ (Nat.pow_succ 16 width).symm)
    rw [lastDigits, lastDigits, front, last, ih]

theorem toDigits_eq_lastDigits (n : Nat) : Nat.toDigits 16 n = lastDigits (Nat.toDigits 16 n).length n := by
  induction n using Nat.strong_induction_on with
  | _ n ih =>
    by_cases oneDigit : n < 16
    · rw [Nat.toDigits_of_lt_base oneDigit, List.length_singleton, lastDigits, Nat.mod_eq_of_lt oneDigit]
      rfl
    · rw [Nat.toDigits_of_base_le (by decide) (not_lt.mp oneDigit), List.length_append, List.length_singleton,
        lastDigits, ← ih (n / 16) (by omega)]

/-- A number is written as its high part, followed by its last digits. -/
theorem toDigits_split (width n : Nat) (long : 16 ^ width ≤ n) :
    Nat.toDigits 16 n = Nat.toDigits 16 (n / 16 ^ width) ++ lastDigits width n := by
  induction width generalizing n with
  | zero => rw [Nat.pow_zero, Nat.div_one, lastDigits, List.append_nil]
  | succ width ih =>
    have long' : 16 ^ width ≤ n / 16 := (Nat.le_div_iff_mul_le (by decide)).mpr (Nat.pow_succ 16 width ▸ long)
    have large : 16 ≤ n := (Nat.le_self_pow (Nat.succ_ne_zero width) 16).trans long
    rw [Nat.toDigits_of_base_le (by decide) large, ih (n / 16) long', lastDigits, Nat.div_div_eq_div_mul,
      ← Nat.pow_succ', List.append_assoc]

/-- Padded with zeros, a number has as many digits as wanted. -/
theorem leftpad_toDigits (width n : Nat) (positive : 0 < width) (small : n < 16 ^ width) :
    (Nat.toDigits 16 n).leftpad width '0' = lastDigits width n := by
  have short := (Nat.length_toDigits_le_iff (by decide) positive).mpr small
  have all : n < 16 ^ (Nat.toDigits 16 n).length :=
    (Nat.length_toDigits_le_iff (by decide) Nat.length_toDigits_pos).mp le_rfl
  conv_rhs => rw [← Nat.sub_add_cancel short]
  rw [lastDigits_add, Nat.div_eq_of_lt all, lastDigits_zero, ← toDigits_eq_lastDigits]
  rfl

theorem readHexFrom_lastDigits (m width n : Nat) :
    readHexFrom m (lastDigits width n) = some (16 ^ width * m + n % 16 ^ width) := by
  induction width generalizing n with
  | zero => rw [Nat.pow_zero, Nat.mod_one, Nat.one_mul]; rfl
  | succ width ih =>
    have parts : n % 16 ^ (width + 1) = 16 * (n / 16 % 16 ^ width) + n % 16 := by
      rw [Nat.pow_succ', Nat.mod_mul, Nat.add_comm]
    rw [lastDigits, readHexFrom_append, ih, Option.bind_some, readHexFrom_digitChar _ _ (Nat.mod_lt n (by decide)),
      parts, Nat.pow_succ']
    congr 1
    ring

theorem readHex_lastDigits (width n : Nat) : readHex (lastDigits width n) = some (n % 16 ^ width) := by
  rw [readHex, readHexFrom_lastDigits, Nat.mul_zero, Nat.zero_add]

theorem readHex_toDigits (n : Nat) : readHex (Nat.toDigits 16 n) = some n := by
  have all : n < 16 ^ (Nat.toDigits 16 n).length :=
    (Nat.length_toDigits_le_iff (by decide) Nat.length_toDigits_pos).mp le_rfl
  rw [toDigits_eq_lastDigits, readHex_lastDigits, Nat.mod_eq_of_lt all]

theorem isSome_hexDigit_lastDigits (width n : Nat) : ∀ c ∈ lastDigits width n, (hexDigit c).isSome := by
  induction width generalizing n with
  | zero => exact fun c inside => (List.not_mem_nil inside).elim
  | succ width ih =>
    intro c inside
    rcases List.mem_append.mp inside with front | last
    · exact ih (n / 16) c front
    · rw [List.mem_singleton.mp last, hexDigit_digitChar _ (Nat.mod_lt n (by decide))]
      rfl

theorem digitChar_of_hexDigit (c : Char) (d : Nat) (read : hexDigit c = some d) : d < 16 ∧ Nat.digitChar d = c := by
  unfold hexDigit at read
  split at read
  next digit =>
    obtain rfl := Option.some.inj read
    have low : 48 ≤ c.toNat := digit.1
    have high : c.toNat ≤ 57 := digit.2
    refine ⟨by omega, Char.toNat_inj.mp ?_⟩
    rw [Nat.toNat_digitChar_of_lt_ten (by omega)]
    omega
  next =>
    split at read
    next letter =>
      obtain rfl := Option.some.inj read
      have low : 97 ≤ c.toNat := letter.1
      have high : c.toNat ≤ 102 := letter.2
      refine ⟨by omega, Char.toNat_inj.mp ?_⟩
      have each : ∀ d < 16, 10 ≤ d → (Nat.digitChar d).toNat = d + 87 := by decide
      rw [each _ (by omega) (by omega)]
      omega
    next => cases read

/-- Digits behind a number that is not 0 are the digits of the number they are read as. -/
theorem toDigits_append_of_readHexFrom (digits : List Char) (m n : Nat) (positive : 0 < m)
    (read : readHexFrom m digits = some n) : Nat.toDigits 16 m ++ digits = Nat.toDigits 16 n := by
  induction digits generalizing m with
  | nil => rw [Option.some.inj read, List.append_nil]
  | cons c rest ih =>
    obtain ⟨next, first, later⟩ := Option.bind_eq_some_iff.mp read
    obtain ⟨d, digit, rfl⟩ := Option.map_eq_some_iff.mp first
    obtain ⟨small, written⟩ := digitChar_of_hexDigit c d digit
    have front : Nat.toDigits 16 m ++ [c] = Nat.toDigits 16 (16 * m + d) := by
      rw [← Nat.toDigits_append_toDigits (by decide) positive small, Nat.toDigits_of_lt_base small, written]
    rw [← ih (16 * m + d) (by omega) later, ← front, List.append_assoc, List.singleton_append]

theorem exists_readHexFrom (n : Nat) (digits : List Char) (each : ∀ c ∈ digits, (hexDigit c).isSome) :
    ∃ v, readHexFrom n digits = some v := by
  induction digits generalizing n with
  | nil => exact ⟨n, rfl⟩
  | cons c rest ih =>
    obtain ⟨d, digit⟩ := Option.isSome_iff_exists.mp (each c List.mem_cons_self)
    obtain ⟨v, read⟩ := ih (16 * n + d) fun c inside => each c (List.mem_cons_of_mem _ inside)
    refine ⟨v, ?_⟩
    rw [readHexFrom, List.foldlM_cons, digit]
    exact read

/-- Digits of which the first is not 0 are how some number is written. -/
theorem exists_toDigits (c : Char) (rest : List Char) (nonzero : c ≠ '0')
    (each : ∀ c' ∈ c :: rest, (hexDigit c').isSome) : ∃ v, c :: rest = Nat.toDigits 16 v := by
  obtain ⟨d, digit⟩ := Option.isSome_iff_exists.mp (each c List.mem_cons_self)
  obtain ⟨small, written⟩ := digitChar_of_hexDigit c d digit
  have positive : 0 < d := by
    rw [Nat.pos_iff_ne_zero]
    rintro rfl
    exact nonzero written.symm
  obtain ⟨v, read⟩ := exists_readHexFrom d rest fun c' inside => each c' (List.mem_cons_of_mem _ inside)
  refine ⟨v, ?_⟩
  rw [← toDigits_append_of_readHexFrom rest d v positive read, Nat.toDigits_of_lt_base small, written]
  rfl

theorem toDigits_leading (n : Nat) (positive : 0 < n) :
    ∃ c rest, Nat.toDigits 16 n = c :: rest ∧ c ≠ '0' := by
  induction n using Nat.strong_induction_on with
  | _ n ih =>
    by_cases oneDigit : n < 16
    · refine ⟨Nat.digitChar n, [], Nat.toDigits_of_lt_base oneDigit, fun zero => ?_⟩
      exact positive.ne' (digitChar_injective n 0 oneDigit (by decide) zero)
    · obtain ⟨c, rest, front, nonzero⟩ := ih (n / 16) (by omega) (by omega)
      refine ⟨c, rest ++ [Nat.digitChar (n % 16)], ?_, nonzero⟩
      rw [Nat.toDigits_of_base_le (by decide) (not_lt.mp oneDigit), front]
      rfl

/-- The first bytes of a word, most significant first, are its high part. -/
theorem readHex_highBytes (word : BitVec 64) (count read : Nat) (inside : read ≤ count)
    (small : word.toNat < 256 ^ count) :
    readHex ((List.range read).flatMap (fun k => hexByte (byteOf word (count - 1 - k)))) =
      some (word.toNat / 256 ^ (count - read)) := by
  induction read with
  | zero => rw [Nat.sub_zero, Nat.div_eq_of_lt small]; rfl
  | succ read ih =>
    have room : count - read = (count - (read + 1)) + 1 := by omega
    have place : count - 1 - read = count - (read + 1) := by omega
    have shifted : word.toNat / 256 ^ (count - read) = word.toNat / 256 ^ (count - (read + 1)) / 256 := by
      rw [room, Nat.pow_succ, Nat.div_div_eq_div_mul]
    rw [List.range_succ, List.flatMap_append, readHex, readHexFrom_append, ← readHex, ih (by omega),
      Option.bind_some, List.flatMap_singleton, readHexFrom_hexByte, byteOf_toNat, place, shifted,
      Nat.div_add_mod]

/-- So the bytes of a word, most significant first, are read back as the word. -/
theorem readHex_bytes (word : BitVec 64) (count : Nat) (small : word.toNat < 256 ^ count) :
    readHex ((List.range count).flatMap (fun k => hexByte (byteOf word (count - 1 - k)))) =
      some word.toNat := by
  rw [readHex_highBytes word count count le_rfl small, Nat.sub_self, Nat.pow_zero, Nat.div_one]

end Qira.Library.Numerals
