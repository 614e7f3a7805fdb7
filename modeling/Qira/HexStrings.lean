import Qira.HexEditor

/-!
`bignum.js`: the client keeps addresses as strings, of 64-bit numbers that JavaScript has no exact type for. It adds to
them in two halves, and compares them by their lengths and then piece by piece.
-/

namespace Qira.HexStrings
open HexEditor Library.Numerals

/-- A number that is an integer; `none` is `NaN`. -/
abbrev Number := Option Int

/-- Without the `0x` that `parseInt` allows in front. -/
def stripPrefix : List Char → List Char
  | '0' :: 'x' :: digits => digits
  | '0' :: 'X' :: digits => digits
  | a => a

/-- `parseInt(a, 16)`, of a string with no white space and no sign in front. -/
def fhex (a : List Char) : Number :=
  let digits := ((stripPrefix a).map Char.toLower).takeWhile (fun c => (hexDigit c).isSome)
  if digits = [] then none else (readHex digits).map Int.ofNat

/-- `a.toString(16)` -/
def toString16 (a : Int) : List Char :=
  if a < 0 then '-' :: Nat.toDigits 16 a.natAbs else Nat.toDigits 16 a.natAbs

def hex : Number → List Char
  | none => ['0', 'x', 'N', 'a', 'N']
  | some a => '0' :: 'x' :: toString16 (if a < 0 then a + 0x100000000 else a)

/-- What `>> 0` makes of a number. -/
def toInt32 (a : Number) : Int := (BitVec.ofInt 32 (a.getD 0)).toInt

/-- `a & b` -/
def bitAnd (a b : Number) : Int := (BitVec.ofInt 32 (a.getD 0) &&& BitVec.ofInt 32 (b.getD 0)).toInt

def bnAdd (s : List Char) (num : Int) : List Char :=
  let s := s.drop 2
  if s.length ≤ 8 then hex ((fhex s).map (fun v => v + num))
  else
    let ts := fhex ('0' :: 'x' :: s.take (s.length - 8))
    let ls := (fhex ('0' :: 'x' :: s.drop (s.length - 8))).map (fun v => v + num)
    -- borrow
    let ts := if ls.any (fun v => v < 0) then ts.map (fun v => v - 1) else ts
    let ts := ts.map (fun v => v + toInt32 (ls.map (fun v => v.tdiv 0x100000000)))
    let ls := bitAnd ls (some 0xFFFFFFFF)
    hex ts ++ ((hex (some ls)).drop 2).leftpad 8 '0'

/-- `a - b` -/
def minus (a b : Number) : Number := a.bind (fun a => b.map (fun b => a - b))

/-- `NaN` differs from itself. -/
def bnCmp (a b : List Char) : Number :=
  if a.length ≠ b.length then some ((a.length : Int) - b.length)
  else
    let aa := fhex (a.take 8)
    let bb := fhex (b.take 8)
    if aa = none ∨ bb = none ∨ aa ≠ bb then minus aa bb
    else minus (fhex ('0' :: 'x' :: a.drop 8)) (fhex ('0' :: 'x' :: b.drop 8))

/-- `addrs.sort(cmp)`, which is stable, and takes `NaN` for 0. -/
def sort (cmp : List Char → List Char → Number) (addrs : List (List Char)) : List (List Char) :=
  addrs.mergeSort (fun a b => !(cmp a b).any (fun d => 0 < d))

/-- `"0x0"`, or `0x` and 1 to 16 lowercase digits, the first of which is not 0. -/
structure Canonical (s : List Char) : Prop where
  front : s.take 2 = ['0', 'x']
  short : s.length ≤ 18
  digits : ∀ c ∈ s.drop 2, (hexDigit c).isSome
  leading : s.drop 2 = ['0'] ∨ ∃ c rest, s.drop 2 = c :: rest ∧ c ≠ '0'

/-- The number that a string stands for, 0 for those of other forms. -/
def value (s : List Char) : Nat := (readNumber s).getD 0

/-- The string for a number. -/
def hexString (v : Nat) : List Char := '0' :: 'x' :: Nat.toDigits 16 v

@[simp] theorem value_hexString (v : Nat) : value (hexString v) = v := by
  change (readHex (Nat.toDigits 16 v)).getD 0 = v
  rw [readHex_toDigits]
  rfl

@[simp] theorem drop_hexString (v : Nat) : (hexString v).drop 2 = Nat.toDigits 16 v := rfl

theorem hexString_injective {v w : Nat} (same : hexString v = hexString w) : v = w := by
  rw [← value_hexString v, same, value_hexString]

theorem length_hexString (v : Nat) : (hexString v).length = (Nat.toDigits 16 v).length + 2 := rfl

/-- Up to 16 digits hold the numbers of 64 bits. -/
theorem canonical_iff (s : List Char) : Canonical s ↔ ∃ v < 2 ^ 64, s = hexString v := by
  have room : ∀ v, (Nat.toDigits 16 v).length ≤ 16 ↔ v < 2 ^ 64 :=
    fun v => Nat.length_toDigits_le_iff (by decide) (by decide)
  constructor
  · rintro ⟨front, short, digits, leading⟩
    have parts : s = '0' :: 'x' :: s.drop 2 := by
      conv_lhs => rw [← List.take_append_drop 2 s, front]
      rfl
    have few : (s.drop 2).length ≤ 16 := by
      rw [List.length_drop]
      omega
    have written : ∃ v, s.drop 2 = Nat.toDigits 16 v := by
      rcases leading with zero | ⟨c, rest, shape, nonzero⟩
      · exact ⟨0, zero⟩
      · rw [shape] at digits ⊢
        exact exists_toDigits c rest nonzero digits
    obtain ⟨v, written⟩ := written
    refine ⟨v, (room v).mp (written ▸ few), ?_⟩
    rw [parts, written]
    rfl
  · rintro ⟨v, small, rfl⟩
    refine ⟨rfl, Nat.add_le_add_right ((room v).mpr small) 2, ?_, ?_⟩
    · change ∀ c ∈ Nat.toDigits 16 v, _
      rw [toDigits_eq_lastDigits]
      exact isSome_hexDigit_lastDigits _ v
    · rcases Nat.eq_zero_or_pos v with rfl | positive
      · exact .inl rfl
      · exact .inr (toDigits_leading v positive)

section Parsing

theorem stripPrefix_digits (digits : List Char) (each : ∀ c ∈ digits, (hexDigit c).isSome) :
    stripPrefix digits = digits := by
  unfold stripPrefix
  split
  next => exact absurd (each 'x' (by simp)) (by decide)
  next => exact absurd (each 'X' (by simp)) (by decide)
  next => rfl

/-- Digits in lower case are all read. -/
theorem fhex_digits (a digits : List Char) (strip : stripPrefix a = digits)
    (each : ∀ c ∈ digits, (hexDigit c).isSome) :
    fhex a = if digits = [] then none else (readHex digits).map Int.ofNat := by
  have lowered : ∀ d < 16, (Nat.digitChar d).toLower = Nat.digitChar d := by decide
  have lower : digits.map Char.toLower = digits := by
    apply (List.map_congr_left ?_).trans (List.map_id digits)
    intro c inside
    obtain ⟨d, digit⟩ := Option.isSome_iff_exists.mp (each c inside)
    obtain ⟨small, rfl⟩ := digitChar_of_hexDigit c d digit
    exact lowered d small
  rw [fhex, strip, lower, List.takeWhile_eq_self_iff.mpr each]

theorem isSome_hexDigit_toDigits (v : Nat) : ∀ c ∈ Nat.toDigits 16 v, (hexDigit c).isSome := by
  rw [toDigits_eq_lastDigits]
  exact isSome_hexDigit_lastDigits _ v

theorem fhex_toDigits (v : Nat) : fhex (Nat.toDigits 16 v) = some (v : Int) := by
  have each := isSome_hexDigit_toDigits v
  rw [fhex_digits _ _ (stripPrefix_digits _ each) each, if_neg Nat.toDigits_ne_nil, readHex_toDigits]
  rfl

theorem fhex_hexString (v : Nat) : fhex (hexString v) = some (v : Int) := by
  rw [fhex_digits (hexString v) (Nat.toDigits 16 v) rfl (isSome_hexDigit_toDigits v), if_neg Nat.toDigits_ne_nil, readHex_toDigits]
  rfl

theorem fhex_lastDigits (width v : Nat) (positive : 0 < width) :
    fhex ('0' :: 'x' :: lastDigits width v) = some ((v % 16 ^ width : Nat) : Int) := by
  have nonempty : lastDigits width v ≠ [] := by
    apply List.ne_nil_of_length_pos
    rwa [length_lastDigits]
  rw [fhex_digits _ (lastDigits width v) rfl (isSome_hexDigit_lastDigits width v), if_neg nonempty, readHex_lastDigits]
  rfl

end Parsing

section Adding
variable {v : Nat} {num : Int}

theorem hex_of_nonneg (a : Nat) : hex (some a) = hexString a := by
  rw [hex, if_neg (Int.natCast_nonneg a).not_gt, toString16, if_neg (Int.natCast_nonneg a).not_gt, Int.natAbs_natCast]
  rfl

/-- Up to eight digits are added in one number. -/
theorem bnAdd_short (small : v < 2 ^ 32) (nonneg : 0 ≤ v + num) : bnAdd (hexString v) num = hexString (v + num).toNat := by
  have short : (Nat.toDigits 16 v).length ≤ 8 := (Nat.length_toDigits_le_iff (by decide) (by decide)).mpr small
  rw [bnAdd, drop_hexString, if_pos short, fhex_toDigits, Option.map_some, ← hex_of_nonneg, Int.toNat_of_nonneg nonneg]

/-- A number of 32 bits is made positive again. -/
theorem hex_toInt (b : BitVec 32) : hex (some b.toInt) = hexString b.toNat := by
  have small := b.isLt
  rw [BitVec.toInt_eq_toNat_cond]
  split
  · exact hex_of_nonneg b.toNat
  · have again : (b.toNat - (2 ^ 32 : Nat) : Int) < 0 := by omega
    have back : (b.toNat - (2 ^ 32 : Nat) : Int) + 0x100000000 = b.toNat := by omega
    rw [hex, if_pos again, back, toString16, if_neg (Int.natCast_nonneg _).not_gt, Int.natAbs_natCast]
    rfl

/-- What is left of a sum after `&` with the mask, and `hex`, are its last eight digits. -/
theorem hex_bitAnd (ls : Int) :
    ((hex (some (bitAnd (some ls) (some 0xFFFFFFFF)))).drop 2).leftpad 8 '0' = lastDigits 8 (ls % 2 ^ 32).toNat := by
  have masked : bitAnd (some ls) (some 0xFFFFFFFF) = (BitVec.ofInt 32 ls).toInt := by
    change (BitVec.ofInt 32 ls &&& BitVec.allOnes 32).toInt = _
    rw [BitVec.and_allOnes]
  have small : (BitVec.ofInt 32 ls).toNat < 16 ^ 8 := (BitVec.ofInt 32 ls).isLt
  rw [masked, hex_toInt, drop_hexString, leftpad_toDigits 8 _ (by decide) small, BitVec.toNat_ofInt]
  rfl

/-- The carry is what a quotient, rounded towards 0, leaves of the lower half. -/
theorem carry (ls : Int) (above : -2 ^ 32 < ls) (below : ls < 2 ^ 33) :
    toInt32 (some (ls.tdiv 0x100000000)) = if ls < 2 ^ 32 then 0 else 1 := by
  have quotient : ls.tdiv 0x100000000 = if ls < 2 ^ 32 then 0 else 1 := by
    split
    next small =>
      rcases Int.lt_or_le ls 0 with negative | nonneg
      · rw [← Int.neg_neg ls, Int.neg_tdiv, Int.tdiv_eq_zero_of_lt (by omega) (by omega), Int.neg_zero]
      · exact Int.tdiv_eq_zero_of_lt nonneg small
    next large =>
      rw [Int.tdiv_eq_ediv_of_nonneg (by omega)]
      omega
  rw [quotient]
  split <;> decide

/-- The halves are added with a borrow or a carry; the low one has all its digits afterwards. -/
theorem bnAdd_long (large : 2 ^ 32 ≤ v) (above : -2 ^ 32 < num) (below : num < 2 ^ 32) :
    bnAdd (hexString v) num =
      hexString ((v + num).toNat / 16 ^ 8) ++ lastDigits 8 (v + num).toNat := by
  have long : ¬ (Nat.toDigits 16 v).length ≤ 8 :=
    (Nat.length_toDigits_le_iff (by decide) (by decide)).not.mpr large.not_gt
  have split : Nat.toDigits 16 v = Nat.toDigits 16 (v / 16 ^ 8) ++ lastDigits 8 v := toDigits_split 8 v large
  have room : (Nat.toDigits 16 v).length - 8 = (Nat.toDigits 16 (v / 16 ^ 8)).length := by
    rw [split, List.length_append, length_lastDigits, Nat.add_sub_cancel]
  have ts : fhex ('0' :: 'x' :: (Nat.toDigits 16 v).take ((Nat.toDigits 16 v).length - 8)) =
      some ((v / 16 ^ 8 : Nat) : Int) := by
    rw [room, split, List.take_left]
    exact fhex_hexString _
  have ls : fhex ('0' :: 'x' :: (Nat.toDigits 16 v).drop ((Nat.toDigits 16 v).length - 8)) =
      some ((v % 16 ^ 8 : Nat) : Int) := by
    rw [room, split, List.drop_left, fhex_lastDigits 8 v (by decide)]
  rw [bnAdd, drop_hexString, if_neg long, ts, ls]
  dsimp only [Option.map_some, Option.any_some]
  rw [hex_bitAnd, carry _ (by omega) (by omega)]
  have low : (((v % 16 ^ 8 : Nat) + num) % 2 ^ 32).toNat = (v + num).toNat % 16 ^ 8 := by omega
  have high : (if ((v % 16 ^ 8 : Nat) : Int) + num < 0 then ((v / 16 ^ 8 : Nat) : Int) - 1 else (v / 16 ^ 8 : Nat)) +
      (if ((v % 16 ^ 8 : Nat) : Int) + num < 2 ^ 32 then 0 else 1) = ((v + num).toNat / 16 ^ 8 : Nat) := by
    split_ifs <;> omega
  have together : ∀ (p : Prop) [Decidable p] (a b c : Int), Option.map (fun ts => ts + c)
      (if decide p = true then some a else some b) = some ((if p then a else b) + c) := by
    intro p _ a b c
    by_cases holds : p <;> simp [holds]
  rw [together, high, hex_of_nonneg, low, lastDigits_mod]

theorem bnAdd_hexString (above : -2 ^ 32 < num) (below : num < 2 ^ 32) (nonneg : 0 ≤ v + num)
    (apart : v < 2 ^ 32 ∨ 2 ^ 32 ≤ v + num) : bnAdd (hexString v) num = hexString (v + num).toNat := by
  by_cases small : v < 2 ^ 32
  · exact bnAdd_short small nonneg
  · have long : 16 ^ 8 ≤ (v + num).toNat := by omega
    rw [bnAdd_long (not_lt.mp small) above below, hexString, hexString, List.cons_append, List.cons_append,
      ← toDigits_split 8 _ long]

/-- Where a number loses its ninth digit, a zero stays in front. -/
theorem bnAdd_borrow (large : 2 ^ 32 ≤ v) (above : -2 ^ 32 < num) (less : v + num < 2 ^ 32) :
    bnAdd (hexString v) num = '0' :: 'x' :: '0' :: lastDigits 8 (v + num).toNat := by
  have none : (v + num).toNat / 16 ^ 8 = 0 := Nat.div_eq_of_lt (by omega)
  rw [bnAdd_long large above (by omega), none]
  rfl

/-- The sum is canonical, and right, exactly if it does not lose the ninth digit. -/
theorem bnAdd_canonical_iff (s : List Char) (num : Int) (canonical : Canonical s) (small : |num| ≤ 0x8000)
    (nonneg : 0 ≤ value s + num) (below : value s + num < 2 ^ 64) :
    (Canonical (bnAdd s num) ∧ (value (bnAdd s num) : Int) = value s + num) ↔
      ¬ (2 ^ 32 ≤ value s ∧ value s + num < 2 ^ 32) := by
  obtain ⟨v, -, rfl⟩ := (canonical_iff s).mp canonical
  rw [value_hexString] at nonneg below ⊢
  obtain ⟨above, upTo⟩ := abs_le.mp small
  constructor
  · rintro ⟨sum, -⟩ ⟨large, less⟩
    rw [bnAdd_borrow large (by omega) less] at sum
    rcases sum.leading with zero | ⟨c, rest, shape, nonzero⟩
    · have lengths := congrArg List.length zero
      simp at lengths
    · exact nonzero (List.cons.inj shape).1.symm
  · intro apart
    have sum : bnAdd (hexString v) num = hexString (v + num).toNat :=
      bnAdd_hexString (by omega) (by omega) nonneg (by omega)
    rw [sum, value_hexString, canonical_iff]
    exact ⟨⟨_, by omega, rfl⟩, by omega⟩

theorem bnAdd_canonical_iff_scroll :
    (Canonical (bnAdd (hexString 0x100000000) 0x10) ∧
      (value (bnAdd (hexString 0x100000000) 0x10) : Int) = value (hexString 0x100000000) + 0x10) ↔
      ¬ (2 ^ 32 ≤ value (hexString 0x100000000) ∧ value (hexString 0x100000000) + (0x10 : Int) < 2 ^ 32) := by
  apply bnAdd_canonical_iff
  · exact (canonical_iff _).mpr ⟨_, by decide, rfl⟩
  · decide
  · rw [value_hexString]
    decide
  · rw [value_hexString]
    decide

/-- `bn_add("0x100000000", -0x10)` -/
theorem bnAdd_back : bnAdd (hexString 0x100000000) (-0x10) = "0x0fffffff0".toList ∧
    ¬ (Canonical (bnAdd (hexString 0x100000000) (-0x10)) ∧
      (value (bnAdd (hexString 0x100000000) (-0x10)) : Int) = value (hexString 0x100000000) + (-0x10)) := by
  have sum : bnAdd (hexString 0x100000000) (-0x10) = "0x0fffffff0".toList := by decide
  refine ⟨sum, fun ⟨canonical, _⟩ => ?_⟩
  rw [sum] at canonical
  rcases canonical.leading with zero | ⟨c, rest, shape, nonzero⟩
  · exact absurd zero (by decide)
  · exact nonzero (List.cons.inj shape).1.symm

end Adding

section Comparing
variable {v w : Nat}

theorem length_toDigits_lt_iff (apart : (Nat.toDigits 16 v).length ≠ (Nat.toDigits 16 w).length) :
    (Nat.toDigits 16 v).length < (Nat.toDigits 16 w).length ↔ v < w := by
  have shorter : ∀ {v w : Nat}, (Nat.toDigits 16 v).length < (Nat.toDigits 16 w).length → v < w := by
    intro v w less
    have below := (Nat.length_toDigits_le_iff (by decide) Nat.length_toDigits_pos).mp (le_refl (Nat.toDigits 16 v).length)
    have above := (Nat.length_toDigits_le_iff (by decide) Nat.length_toDigits_pos).not.mp less.not_ge
    exact below.trans_le (not_lt.mp above)
  refine ⟨shorter, fun less => ?_⟩
  rcases Nat.lt_or_gt_of_ne apart with longer | longer
  · exact longer
  · exact absurd less (shorter longer).not_gt

/-- The first six digits, and those behind them. -/
theorem hexString_parts {rest : Nat} (long : (Nat.toDigits 16 v).length - 6 = rest) :
    (hexString v).take 8 = hexString (v / 16 ^ rest) ∧ (hexString v).drop 8 = lastDigits rest v := by
  change '0' :: 'x' :: (Nat.toDigits 16 v).take 6 = hexString (v / 16 ^ rest) ∧ (Nat.toDigits 16 v).drop 6 = _
  rcases Nat.eq_zero_or_pos rest with rfl | positive
  · have short : (Nat.toDigits 16 v).length ≤ 6 := by omega
    rw [List.take_of_length_le short, List.drop_eq_nil_of_le short, Nat.pow_zero, Nat.div_one]
    exact ⟨rfl, rfl⟩
  · have large : 16 ^ rest ≤ v :=
      not_lt.mp ((Nat.length_toDigits_le_iff (by decide) positive).not.mp (by omega))
    have split := toDigits_split rest v large
    have six : (Nat.toDigits 16 (v / 16 ^ rest)).length = 6 := by
      have lengths := congrArg List.length split
      rw [List.length_append, length_lastDigits] at lengths
      omega
    rw [split, List.take_left' six, List.drop_left' six]
    exact ⟨rfl, rfl⟩

/-- Strings of one length are compared by what their first six digits stand for, and then by the rest, if any. -/
theorem bnCmp_same_length {rest : Nat} (long : (Nat.toDigits 16 v).length - 6 = rest)
    (same : (Nat.toDigits 16 v).length = (Nat.toDigits 16 w).length) :
    bnCmp (hexString v) (hexString w) =
      if v / 16 ^ rest ≠ w / 16 ^ rest then some (((v / 16 ^ rest : Nat) : Int) - (w / 16 ^ rest : Nat))
      else if rest = 0 then none
      else some (((v % 16 ^ rest : Nat) : Int) - (w % 16 ^ rest : Nat)) := by
  obtain ⟨front, back⟩ := hexString_parts long
  have long' : (Nat.toDigits 16 w).length - 6 = rest := same ▸ long
  obtain ⟨front', back'⟩ := hexString_parts long'
  have equal : ¬ (hexString v).length ≠ (hexString w).length := by
    rw [length_hexString, length_hexString, same]
    exact not_not.mpr rfl
  rw [bnCmp, if_neg equal, front, front', back, back', fhex_hexString, fhex_hexString]
  by_cases apart : v / 16 ^ rest = w / 16 ^ rest
  · rw [if_neg (by simp [apart]), if_neg (not_not.mpr apart)]
    split
    next none =>
      subst none
      rfl
    next more =>
      rw [fhex_lastDigits _ _ (Nat.pos_of_ne_zero more), fhex_lastDigits _ _ (Nat.pos_of_ne_zero more)]
      rfl
  · rw [if_pos (.inr (.inr fun equal => apart (by exact_mod_cast Option.some.inj equal))), if_pos apart]
    rfl

/-- The sign of the comparison, `NaN` taken for 0. -/
theorem bnCmp_sign (v w : Nat) :
    ((bnCmp (hexString v) (hexString w)).getD 0 < 0 ↔ v < w) ∧ (0 < (bnCmp (hexString v) (hexString w)).getD 0 ↔ w < v) := by
  by_cases same : (Nat.toDigits 16 v).length = (Nat.toDigits 16 w).length
  · obtain ⟨rest, long⟩ : ∃ rest, (Nat.toDigits 16 v).length - 6 = rest := ⟨_, rfl⟩
    rw [bnCmp_same_length long same]
    have parts := Nat.div_add_mod v (16 ^ rest)
    have parts' := Nat.div_add_mod w (16 ^ rest)
    by_cases apart : v / 16 ^ rest = w / 16 ^ rest
    · rw [if_neg (not_not.mpr apart)]
      rw [← apart] at parts'
      split
      next none =>
        subst none
        rw [Nat.pow_zero, Nat.div_one, Nat.div_one] at apart
        subst apart
        simp
      next =>
        rw [Option.getD_some]
        omega
    · rw [if_pos apart, Option.getD_some]
      have order : v ≤ w → v / 16 ^ rest ≤ w / 16 ^ rest := Nat.div_le_div_right
      have order' : w ≤ v → w / 16 ^ rest ≤ v / 16 ^ rest := Nat.div_le_div_right
      omega
  · have lengths : (hexString v).length ≠ (hexString w).length := by
      rw [length_hexString, length_hexString]
      omega
    have below := length_toDigits_lt_iff same
    have above := length_toDigits_lt_iff (Ne.symm same)
    rw [bnCmp, if_pos lengths, Option.getD_some, length_hexString, length_hexString]
    omega

theorem bnCmp_any (v w : Nat) :
    ((bnCmp (hexString v) (hexString w)).any (fun d => d < 0) = true ↔ v < w) ∧
      ((bnCmp (hexString v) (hexString w)).any (fun d => 0 < d) = true ↔ w < v) := by
  rw [← (bnCmp_sign v w).1, ← (bnCmp_sign v w).2]
  cases bnCmp (hexString v) (hexString w) <;> simp

/-- Sorting the strings sorts the numbers. -/
theorem sort_hexString (vs : List Nat) :
    sort bnCmp (vs.map hexString) = (vs.mergeSort (fun v w => v ≤ w)).map hexString := by
  symm
  apply List.map_mergeSort
  intro v _ w _
  rw [Bool.eq_iff_iff, decide_eq_true_iff, Bool.not_eq_true', Bool.eq_false_iff, ne_eq, (bnCmp_any v w).2, not_lt]

theorem map_hexString_value {addrs : List (List Char)} (canonical : ∀ a ∈ addrs, Canonical a) :
    (addrs.map value).map hexString = addrs := by
  rw [List.map_map]
  apply (List.map_congr_left ?_).trans (List.map_id addrs)
  intro a inside
  obtain ⟨v, -, rfl⟩ := (canonical_iff a).mp (canonical a inside)
  exact congrArg hexString (value_hexString v)

/-- The comparison has the sign of the difference, and sorting with it sorts the numbers. -/
theorem bnCmp_numeric (addrs : List (List Char)) (canonical : ∀ a ∈ addrs, Canonical a) :
    (∀ a ∈ addrs, ∀ b ∈ addrs,
      ((bnCmp a b).any (fun d => d < 0) = true ↔ value a < value b) ∧
        ((bnCmp a b).any (fun d => 0 < d) = true ↔ value b < value a)) ∧
      (sort bnCmp addrs).Perm addrs ∧ (sort bnCmp addrs).Pairwise (fun a b => value a ≤ value b) := by
  refine ⟨fun a inside b inside' => ?_, List.mergeSort_perm addrs _, ?_⟩
  · obtain ⟨v, -, rfl⟩ := (canonical_iff a).mp (canonical a inside)
    obtain ⟨w, -, rfl⟩ := (canonical_iff b).mp (canonical b inside')
    rw [value_hexString, value_hexString]
    exact bnCmp_any v w
  · rw [← map_hexString_value canonical, sort_hexString, List.pairwise_map]
    simp only [value_hexString]
    exact List.pairwise_mergeSort' (· ≤ ·) _

theorem bnCmp_numeric_pages : (sort bnCmp ["0x100000000".toList, "0xfffff000".toList]).Pairwise
    (fun a b => value a ≤ value b) := by
  have canonical : ∀ a ∈ ["0x100000000".toList, "0xfffff000".toList], Canonical a := by
    intro a inside
    rw [canonical_iff]
    rcases List.mem_pair.mp inside with rfl | rfl
    · exact ⟨0x100000000, by decide, by decide⟩
    · exact ⟨0xfffff000, by decide, by decide⟩
  exact (bnCmp_numeric _ canonical).2.2

end Comparing

end Qira.HexStrings
