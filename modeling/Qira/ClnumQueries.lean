import Qira.TraceIndex
import Qira.Library.Ranges

/-!
The index from an address and a type to the changelists that have such a change, and the queries for those in a range.
-/

namespace Qira.ClnumQueries
open ChangeRecord TraceIndex Library.Words Library.Ranges

/-- The loop of `FetchClnumsByAddressAndType`, which tests the limit after each `push_back`. -/
def pushClnums (endClnum : Clnum) (limit : BitVec 32) : List Clnum → List Clnum → List Clnum
  | [], ret => ret
  | c :: rest, ret =>
      if c < endClnum then
        if (ret ++ [c]).length = limit.toNat then ret ++ [c] else pushClnums endClnum limit rest (ret ++ [c])
      else ret

/-- `lower_bound` is where no element is less any more. -/
def fetchClnumsByAddressAndType {cfg : Config} (t : Trace cfg) (address : Address) (type : Char)
    (startClnum endClnum : Clnum) (limit : BitVec 32) : List Clnum :=
  match t.addresstypeToClnums[(address, type)]? with
  | none => []
  | some clnums => pushClnums endClnum limit (clnums.toList.dropWhile (· < startClnum)) []

section Loop
variable (endClnum : Clnum) (limit : BitVec 32) (clnums ret : List Clnum)

theorem pushClnums_unlimited (passed : limit.toNat ≤ ret.length) :
    pushClnums endClnum limit clnums ret = ret ++ clnums.takeWhile (· < endClnum) := by
  induction clnums generalizing ret with
  | nil => simp [pushClnums]
  | cons c rest ih =>
    by_cases inside : c < endClnum
    · have on : limit.toNat < (ret ++ [c]).length := by
        rw [List.length_append, List.length_singleton]
        omega
      rw [pushClnums, if_pos inside, if_neg on.ne', ih (ret ++ [c]) on.le,
        List.takeWhile_cons, if_pos (decide_eq_true inside), List.append_assoc, List.singleton_append]
    · rw [pushClnums, if_neg inside, List.takeWhile_cons, if_neg (by simpa using inside), List.append_nil]

theorem pushClnums_limited (room : ret.length < limit.toNat) :
    pushClnums endClnum limit clnums ret =
      ret ++ (clnums.takeWhile (· < endClnum)).take (limit.toNat - ret.length) := by
  induction clnums generalizing ret with
  | nil => simp [pushClnums]
  | cons c rest ih =>
    by_cases inside : c < endClnum
    · obtain ⟨more, left⟩ : ∃ more, limit.toNat - ret.length = more + 1 := ⟨_, (Nat.succ_pred (by omega)).symm⟩
      have length : (ret ++ [c]).length = ret.length + 1 := by rw [List.length_append, List.length_singleton]
      rw [pushClnums, if_pos inside, List.takeWhile_cons, if_pos (decide_eq_true inside), left, List.take_succ_cons]
      by_cases full : (ret ++ [c]).length = limit.toNat
      · rw [if_pos full, show more = 0 by omega, List.take_zero]
      · rw [if_neg full, ih (ret ++ [c]) (by omega), List.append_assoc, List.singleton_append,
          show limit.toNat - (ret ++ [c]).length = more by omega]
    · rw [pushClnums, if_neg inside, List.takeWhile_cons, if_neg (by simpa using inside), List.take_nil, List.append_nil]

end Loop

section Index

/-- The changelists under a key. -/
def clnumsOf (index : AddressTypeMap) (address : Address) (type : Char) : Std.TreeSet Clnum :=
  index[(address, type)]?.getD ∅

theorem mem_insertClnum (index : AddressTypeMap) (r : Change) (address : Address) (type : Char) (c : Clnum) :
    c ∈ clnumsOf (insertClnum index r) address type ↔
      (r.clnum = c ∧ r.address = address ∧ r.type = type) ∨ c ∈ clnumsOf index address type := by
  rw [clnumsOf, insertClnum, Std.HashMap.getElem?_alter]
  by_cases same : (r.address, r.type) = (address, type)
  · rw [if_pos (beq_iff_eq.mpr same), Option.getD_some, Std.TreeSet.mem_insert, Std.LawfulEqOrd.compare_eq_iff_eq, same]
    exact or_congr (and_iff_left (Prod.mk.inj same)).symm Iff.rfl
  · rw [if_neg (mt beq_iff_eq.mp same)]
    exact (or_iff_right fun key => same (Prod.ext key.2.1 key.2.2)).symm

theorem mem_ingestAll (cfg : Config) (log : List Change) (address : Address) (type : Char) (c : Clnum) :
    c ∈ clnumsOf (ingestAll cfg log).addresstypeToClnums address type ↔
      ∃ r ∈ log, r.clnum = c ∧ r.address = address ∧ r.type = type := by
  induction log using List.reverseRecOn with
  | nil =>
    have none : (ingestAll cfg []).addresstypeToClnums[(address, type)]? = none := Std.HashMap.getElem?_empty
    rw [clnumsOf, none, Option.getD_none]
    exact iff_of_false Std.TreeSet.not_mem_emptyc nofun
  | append_singleton log r ih =>
    rw [ingestAll_concat]
    refine (mem_insertClnum _ r address type c).trans ?_
    rw [ih]
    simp only [List.mem_append, List.mem_singleton, or_and_right, exists_or, exists_eq_left]
    exact or_comm

theorem ordered_toList (clnums : Std.TreeSet Clnum) : clnums.toList.Pairwise (· < ·) :=
  Std.TreeSet.ordered_toList.imp compare_lt_iff_lt.mp

end Index

theorem fetchClnumsByAddressAndType_eq {cfg : Config} (t : Trace cfg) (address : Address) (type : Char)
    (startClnum endClnum : Clnum) (limit : BitVec 32) :
    fetchClnumsByAddressAndType t address type startClnum endClnum limit =
      let found := between startClnum endClnum (clnumsOf t.addresstypeToClnums address type).toList
      if limit = 0 then found else found.take limit.toNat := by
  rw [fetchClnumsByAddressAndType, clnumsOf]
  cases t.addresstypeToClnums[(address, type)]? with
  | none =>
    have nothing : between startClnum endClnum (∅ : Std.TreeSet Clnum).toList = [] := by simp [between]
    rw [Option.getD_none, nothing]
    simp only [List.take_nil, ite_self]
  | some clnums =>
    change pushClnums endClnum limit _ [] = _
    by_cases zero : limit = 0
    · rw [if_pos zero]
      exact pushClnums_unlimited endClnum limit _ [] (by rw [zero]; exact le_rfl)
    · have positive : 0 < limit.toNat := Nat.pos_of_ne_zero fun none => zero (BitVec.eq_of_toNat_eq none)
      rw [if_neg zero]
      exact pushClnums_limited endClnum limit _ [] positive

/-- A query gives the changelists of its range in order, each once, and the first `limit` of them unless that is 0. -/
theorem fetchClnumsByAddressAndType_exact (cfg : Config) (log : List Change) (address : Address) (type : Char)
    (startClnum endClnum : Clnum) (limit : BitVec 32) :
    ∃ found : List Clnum, found.Pairwise (· < ·) ∧
      (∀ c, c ∈ found ↔ startClnum ≤ c ∧ c < endClnum ∧
        ∃ r ∈ log, r.clnum = c ∧ r.address = address ∧ r.type = type) ∧
      fetchClnumsByAddressAndType (ingestAll cfg log) address type startClnum endClnum limit =
        if limit = 0 then found else found.take limit.toNat := by
  have ordered := ordered_toList (clnumsOf (ingestAll cfg log).addresstypeToClnums address type)
  refine ⟨_, ordered.sublist (between_sublist startClnum endClnum _), fun c => ?_, fetchClnumsByAddressAndType_eq _ _ _ _ _ _⟩
  rw [mem_between startClnum endClnum ordered, Std.TreeSet.mem_toList, mem_ingestAll]
  tauto

end Qira.ClnumQueries
