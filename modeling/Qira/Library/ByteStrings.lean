import Qira.Library.Words
import Qira.Library.Doubles

/-!
Byte strings as Python 2 handles them: cutting at a separator, reading lines, and the numbers `float`
accepts.
-/

namespace Qira.Library.ByteStrings
open Words Doubles

section Cutting
variable {α : Type*} [DecidableEq α]

/-- What stands before the first occurrence of the separator and what after it; `none` is `find` = -1. -/
def cut (sep : List α) : List α → Option (List α × List α)
  | [] => if sep = [] then some ([], []) else none
  | a :: rest =>
      if sep <+: a :: rest then some ([], (a :: rest).drop sep.length)
      else (cut sep rest).map (fun parts => (a :: parts.1, parts.2))

theorem cut_eq_none_iff (sep s : List α) : cut sep s = none ↔ ¬ sep <:+: s := by
  induction s with
  | nil =>
    rw [cut, List.infix_nil]
    by_cases empty : sep = [] <;> simp [empty]
  | cons a rest ih =>
    rw [cut, List.infix_cons_iff]
    by_cases here : sep <+: a :: rest
    · simp [here]
    · simp [here, ih]

/-- The separator does not occur in what stands before its first occurrence. -/
theorem cut_eq_some {sep s before after : List α} (found : cut sep s = some (before, after)) :
    s = before ++ sep ++ after ∧ (sep ≠ [] → ¬ sep <:+: before) := by
  induction s generalizing before with
  | nil =>
    rw [cut] at found
    split_ifs at found with empty
    cases found
    exact ⟨by simp [empty], fun nonempty => absurd empty nonempty⟩
  | cons a rest ih =>
    rw [cut] at found
    split_ifs at found with here
    · cases found
      refine ⟨?_, fun nonempty => ?_⟩
      · exact (List.prefix_iff_eq_append.mp here).symm
      · rw [List.infix_nil]
        exact nonempty
    · obtain ⟨parts, inRest, same⟩ := Option.map_eq_some_iff.mp found
      obtain ⟨rfl, rfl⟩ := Prod.mk.inj same
      obtain ⟨whole, apart⟩ := ih inRest
      refine ⟨by simp [whole], fun nonempty => ?_⟩
      rw [List.infix_cons_iff]
      rintro (early | late)
      · apply here
        rw [whole]
        exact early.trans (by simp [List.append_assoc])
      · exact apart nonempty late

/-- A separator that does not begin inside `before` is found right after it. -/
theorem cut_append (sep before after : List α) (nonempty : sep ≠ [])
    (apart : ¬ sep <:+: before ++ sep.dropLast) :
    cut sep (before ++ sep ++ after) = some (before, after) := by
  induction before with
  | nil =>
    obtain ⟨a, rest, rfl⟩ := List.exists_cons_of_ne_nil nonempty
    simp [cut]
  | cons a before ih =>
    rw [List.cons_append, List.infix_cons_iff, not_or] at apart
    have here : ¬ sep <+: a :: (before ++ sep ++ after) := by
      intro early
      apply apart.1
      have longer : a :: (before ++ sep.dropLast) <+: a :: (before ++ sep ++ after) := by
        rw [List.cons_prefix_cons, List.append_assoc, List.prefix_append_right_inj]
        exact ⟨rfl, (List.dropLast_prefix sep).trans (List.prefix_append sep after)⟩
      apply List.prefix_of_prefix_length_le early longer
      have positive := List.length_pos_of_ne_nil nonempty
      simp only [List.length_cons, List.length_append, List.length_dropLast]
      omega
    rw [List.cons_append, List.cons_append, cut, if_neg here, ih apart.2]
    rfl

theorem cut_shorter {sep s before after : List α} (nonempty : sep ≠ [])
    (found : cut sep s = some (before, after)) : after.length < s.length := by
  have positive := List.length_pos_of_ne_nil nonempty
  rw [(cut_eq_some found).1]
  simp only [List.length_append]
  omega

/-- `s.split(sep)`. -/
def split (sep : List α) (nonempty : sep ≠ []) (s : List α) : List (List α) :=
  match _found : cut sep s with
  | none => [s]
  | some (before, after) => before :: split sep nonempty after
termination_by s.length
decreasing_by exact cut_shorter nonempty _found

variable {sep s before after : List α} {nonempty : sep ≠ []}

theorem split_of_none (absent : cut sep s = none) : split sep nonempty s = [s] := by
  rw [split]
  split <;> simp_all

theorem split_of_some (found : cut sep s = some (before, after)) :
    split sep nonempty s = before :: split sep nonempty after := by
  rw [split]
  split <;> simp_all

end Cutting

def ascii (c : Char) : Byte := BitVec.ofNat 8 c.toNat

def NEWLINE : Byte := ascii '\n'

/-- `f.readline()` and what it leaves: a line with its newline, the last one as it is, and at the end of
the file the empty string. -/
def readline : List Byte → List Byte × List Byte
  | [] => ([], [])
  | b :: rest =>
      if b = NEWLINE then ([b], rest) else (b :: (readline rest).1, (readline rest).2)

theorem readline_append (line rest : List Byte) (oneLine : NEWLINE ∉ line) :
    readline (line ++ NEWLINE :: rest) = (line ++ [NEWLINE], rest) := by
  induction line with
  | nil => simp [readline]
  | cons b line ih =>
    rw [List.mem_cons, not_or] at oneLine
    rw [List.cons_append, readline, if_neg (Ne.symm oneLine.1), ih oneLine.2]
    rfl

/-- What stands before the end of the line belongs to it. -/
theorem readline_append_left (front rest : List Byte) (sameLine : NEWLINE ∉ front) :
    readline (front ++ rest) = (front ++ (readline rest).1, (readline rest).2) := by
  induction front with
  | nil => rfl
  | cons b front ih =>
    rw [List.mem_cons, not_or] at sameLine
    rw [List.cons_append, readline, if_neg (Ne.symm sameLine.1), ih sameLine.2]
    rfl

/-- Nothing is lost in reading a line. -/
theorem readline_whole (file : List Byte) : (readline file).1 ++ (readline file).2 = file := by
  induction file with
  | nil => rfl
  | cons b rest ih =>
    rw [readline]
    split_ifs
    · rfl
    · exact congrArg (b :: ·) ih

theorem readline_eq_nil_iff (file : List Byte) : (readline file).1 = [] ↔ file = [] := by
  cases file with
  | nil => exact iff_of_true rfl rfl
  | cons b rest =>
    rw [readline]
    split_ifs <;> simp

def isSpace (b : Byte) : Bool := b = ascii ' ' ∨ (ascii '\t' ≤ b ∧ b ≤ ascii '\r')

def isDigit (b : Byte) : Bool := ascii '0' ≤ b ∧ b ≤ ascii '9'

def lower (b : Byte) : Byte := if ascii 'A' ≤ b ∧ b ≤ ascii 'Z' then b + 32 else b

def strip (s : List Byte) : List Byte := (s.dropWhile isSpace).rdropWhile isSpace

def digits (s : List Byte) : Nat := Nat.ofDigitChars 10 (s.map (fun b => Char.ofNat b.toNat)) 0

/-- Whether the number is negative, and what follows its sign. -/
def sign : List Byte → Bool × List Byte
  | [] => (false, [])
  | b :: rest =>
      if b = ascii '-' then (true, rest) else if b = ascii '+' then (false, rest) else (false, b :: rest)

def exponent : List Byte → Option Int
  | [] => some 0
  | b :: rest =>
      let (negative, power) := sign rest
      if lower b = ascii 'e' ∧ power ≠ [] ∧ power.all isDigit then
        some (if negative then -(digits power : Int) else digits power)
      else none

/-- The digits after a point, and what follows them. -/
def fraction : List Byte → List Byte × List Byte
  | [] => ([], [])
  | b :: rest =>
      if b = ascii '.' then (rest.takeWhile isDigit, rest.dropWhile isDigit) else ([], b :: rest)

/-- `none` is `ValueError`; the number that the digits spell is rounded. -/
def float (round : Rounding) (s : List Byte) : Option Number :=
  let (negative, body) := sign (strip s)
  let name := body.map lower
  if name = ['i', 'n', 'f'].map ascii ∨ name = ['i', 'n', 'f', 'i', 'n', 'i', 't', 'y'].map ascii then
    some (.infinite negative)
  else if name = ['n', 'a', 'n'].map ascii then some .nan
  else
    let whole := body.takeWhile isDigit
    let (part, rest) := fraction (body.dropWhile isDigit)
    if whole = [] ∧ part = [] then none
    else (exponent rest).map (fun power : Int =>
      round ((if negative then -1 else 1) * digits (whole ++ part) * 10 ^ (power - part.length)))

/-- A natural number as `%d` prints it. -/
def decimal (n : Nat) : List Byte := (Nat.toDigits 10 n).map ascii

theorem toNat_ascii_digit {n : Nat} {c : Char} (digit : c ∈ Nat.toDigits 10 n) :
    (ascii c).toNat = c.toNat ∧ 48 ≤ c.toNat ∧ c.toNat ≤ 57 := by
  have range : 48 ≤ c.toNat ∧ c.toNat ≤ 57 :=
    Char.isDigit_iff_toNat.mp (Nat.isDigit_of_mem_toDigits (by decide) (by decide) digit)
  refine ⟨?_, range⟩
  rw [ascii, BitVec.toNat_ofNat, Nat.mod_eq_of_lt (by omega)]

theorem isDigit_of_mem_decimal {n : Nat} {b : Byte} (member : b ∈ decimal n) : isDigit b = true := by
  obtain ⟨c, digit, rfl⟩ := List.mem_map.mp member
  obtain ⟨same, range⟩ := toNat_ascii_digit digit
  rw [isDigit, decide_eq_true_eq]
  change 48 ≤ (ascii c).toNat ∧ (ascii c).toNat ≤ 57
  rw [same]
  exact range

theorem decimal_ne_nil (n : Nat) : decimal n ≠ [] := by
  rw [decimal, ne_eq, List.map_eq_nil_iff]
  exact List.ne_nil_of_length_pos Nat.length_toDigits_pos

theorem digits_decimal (n : Nat) : digits (decimal n) = n := by
  have back : ∀ c ∈ Nat.toDigits 10 n, Char.ofNat (ascii c).toNat = c := by
    intro c digit
    rw [(toNat_ascii_digit digit).1, Char.ofNat_toNat]
  have same : (decimal n).map (fun b => Char.ofNat b.toNat) = Nat.toDigits 10 n := by
    rw [decimal, List.map_map]
    exact (List.map_congr_left back).trans (List.map_id _)
  rw [digits, same, Nat.ofDigitChars_ten_toDigits]

theorem digit_plain : ∀ b : Byte, isDigit b = true →
    isSpace b = false ∧ b ≠ ascii '-' ∧ b ≠ ascii '+' ∧ lower b ≠ ascii 'i' ∧ lower b ≠ ascii 'n' ∧
      b ≠ ascii '>' ∧ b ≠ ascii ',' := by
  decide

theorem strip_decimal (n : Nat) (tail : List Byte) (blank : ∀ b ∈ tail, isSpace b = true) :
    strip (decimal n ++ tail) = decimal n := by
  have plain : ∀ b ∈ decimal n, ¬ isSpace b = true := by
    intro b member
    rw [(digit_plain b (isDigit_of_mem_decimal member)).1]
    nofun
  have start : (decimal n ++ tail).dropWhile isSpace = decimal n ++ tail := by
    obtain ⟨b, rest, spelled⟩ := List.exists_cons_of_ne_nil (decimal_ne_nil n)
    rw [spelled, List.cons_append, List.dropWhile_cons_of_neg (plain b (by simp [spelled]))]
  have ends : (decimal n ++ tail).rdropWhile isSpace = (decimal n).rdropWhile isSpace := by
    clear start
    induction tail using List.reverseRecOn with
    | nil => rw [List.append_nil]
    | append_singleton front b ih =>
      rw [← List.append_assoc, List.rdropWhile_concat_pos _ _ _ (blank b (by simp)),
        ih (fun c member => blank c (List.mem_append_left _ member))]
  rw [strip, start, ends, List.rdropWhile_eq_self_iff]
  exact fun nonempty => plain _ (List.getLast_mem nonempty)

/-- `float` reads back what `%d` printed, spaces after it notwithstanding. -/
theorem float_decimal (round : Rounding) (n : Nat) (tail : List Byte) (blank : ∀ b ∈ tail, isSpace b = true) :
    float round (decimal n ++ tail) = some (round n) := by
  have allDigits : ∀ b ∈ decimal n, isDigit b = true := fun b member => isDigit_of_mem_decimal member
  obtain ⟨b, rest, spelled⟩ := List.exists_cons_of_ne_nil (decimal_ne_nil n)
  obtain ⟨-, minus, plus, notInf, notNan, -⟩ := digit_plain b (allDigits b (by simp [spelled]))
  have unsigned : sign (decimal n) = (false, decimal n) := by
    rw [spelled, sign, if_neg minus, if_neg plus]
  have whole : (decimal n).takeWhile isDigit = decimal n := List.takeWhile_eq_self_iff.mpr allDigits
  have nothing : (decimal n).dropWhile isDigit = [] := List.dropWhile_eq_nil_iff.mpr allDigits
  unfold float
  rw [strip_decimal n tail blank, unsigned]
  simp only [whole, nothing]
  rw [if_neg, if_neg, if_neg]
  · simp [fraction, exponent, digits_decimal]
  · exact fun empty => decimal_ne_nil n empty.1
  · rw [spelled]
    exact fun same => notNan (List.cons.inj same).1
  · rw [spelled]
    rintro (same | same)
    · exact notInf (List.cons.inj same).1
    · exact notInf (List.cons.inj same).1

end Qira.Library.ByteStrings
