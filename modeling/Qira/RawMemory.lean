import Qira.HexEditor

/-!
Raw memory of a trace: the bytes that `fetch_memory` has for a range, joined to one string. A byte that
neither the trace nor the binary knows has no key, and the string has no place for it.
-/

namespace Qira.RawMemory
open ChangeRecord TraceIndex StaticMemory HexEditor
open Library.Words Library.Dictionaries Library.Gaps

/-- `dict.values()`, listed in ascending order of the keys. -/
def values (dat : Dict Nat Byte) : List Byte := (dat.keys.mergeSort (· ≤ ·)).filterMap dat.lookup

/-- `fetch_raw_memory`; `none` is an `IndexError`. -/
def fetchRawMemory {cfg : Config} (t : Trace cfg) (base : Dict Range (List Byte)) (clnum : Clnum)
    (address : Address) (ln : Int) : Option (List Byte) :=
  (fetchMemory t base clnum address ln).map values

/-- The byte of an address `k` further on, as seen at a changelist: that of the trace if it is valid, else
that of the binary, if there is one. -/
def seenByte {cfg : Config} (t : Trace cfg) (base : Dict Range (List Byte)) (clnum : Clnum)
    (address : Address) (k : Nat) : Option Byte :=
  fetchedByte base (t.getByte clnum (address + BitVec.ofNat 64 k)) (address.toNat + k)

/-- Values in ascending order are what is found going up through the keys. -/
theorem values_eq_found {dat : Dict Nat Byte} {n : Nat} (below : ∀ k ≥ n, dat.lookup k = none) :
    values dat = found dat.lookup n := by
  have sorted : dat.keys.mergeSort (· ≤ ·) = (List.range n).filter (fun k => (dat.lookup k).isSome) := by
    have members : (dat.keys.mergeSort (· ≤ ·)).Perm
        ((List.range n).filter (fun k => (dat.lookup k).isSome)) := by
      apply (List.mergeSort_perm dat.keys _).trans
      rw [List.perm_ext_iff_of_nodup dat.keys_nodup (List.nodup_range.filter _)]
      intro k
      rw [List.mem_filter, List.mem_range, AList.lookup_isSome, AList.mem_keys]
      refine ⟨fun inside => ⟨?_, inside⟩, And.right⟩
      by_contra large
      have absent := below k (not_lt.mp large)
      rw [AList.lookup_eq_none] at absent
      exact absent (AList.mem_keys.mpr inside)
    exact members.eq_of_pairwise' (List.pairwise_mergeSort' (· ≤ ·) dat.keys) (List.pairwise_le_range.filter _)
  rw [values, sorted, found, List.filterMap_filter]
  apply List.filterMap_congr
  intro k _
  cases held : dat.lookup k <;> simp

/-- The string has each byte in its place exactly if the unknown bytes of the range come last. -/
theorem fetchRawMemory_inPlace_iff {cfg : Config} (t : Trace cfg) (base : Dict Range (List Byte))
    (clnum : Clnum) (address : Address) (ln : Int) (r : List Byte)
    (fetched : fetchRawMemory t base clnum address ln = some r) :
    InPlace (seenByte t base clnum address) r ↔ GapsLast (seenByte t base clnum address) ln.toNat := by
  obtain ⟨dat, filled, rfl⟩ := Option.map_eq_some_iff.mp fetched
  have seen : ∀ k < ln.toNat, dat.lookup k = seenByte t base clnum address k :=
    fun k inside => fetchMemory_lookup filled k (by omega)
  rw [values_eq_found (foldlM_fetchByte filled).2, found_congr seen]
  exact inPlace_found_iff _ ln.toNat

/-- Two bytes of the binary, with a hole of one byte between them. -/
def splitBase : Dict Range (List Byte) := ((Memory.empty.addMemoryChunk 0 [1]).addMemoryChunk 2 [3]).base

/-- A trace without records. -/
def blank : Trace ⟨false, 4, 9⟩ := Trace.new ⟨false, 4, 9⟩

theorem split_fetched : ∃ r, fetchRawMemory blank splitBase 0 0 3 = some r := by
  obtain ⟨msg, answered⟩ := getmemory_answered blank splitBase 0 0 3 (by decide)
  obtain ⟨dat, fetched, -⟩ := Option.map_eq_some_iff.mp answered
  exact ⟨values dat, Option.map_eq_some_iff.mpr ⟨dat, fetched, rfl⟩⟩

theorem fetchRawMemory_inPlace_iff_split : ∃ r, fetchRawMemory blank splitBase 0 0 3 = some r ∧
    (InPlace (seenByte blank splitBase 0 0) r ↔ GapsLast (seenByte blank splitBase 0 0) 3) := by
  obtain ⟨r, fetched⟩ := split_fetched
  exact ⟨r, fetched, fetchRawMemory_inPlace_iff blank splitBase 0 0 3 r fetched⟩

/-- The byte at 2 is read for the one at 1, which is unknown. -/
theorem unknown_shifted : fetchRawMemory blank splitBase 0 0 3 = some [1, 3] ∧
    ¬ InPlace (seenByte blank splitBase 0 0) [1, 3] := by
  have unrecorded : ∀ a, blank.getByte 0 a = 0 := by
    intro a
    rw [Trace.getByte, blank, Trace.new]
    simp
  have seen : ∀ k, seenByte blank splitBase 0 0 k = (memory splitBase k 1).head? := by
    intro k
    rw [seenByte, unrecorded]
    simp [fetchedByte]
  constructor
  · obtain ⟨r, fetched⟩ := split_fetched
    obtain ⟨dat, filled, rfl⟩ := Option.map_eq_some_iff.mp fetched
    rw [fetched, values_eq_found (foldlM_fetchByte filled).2]
    have known : ∀ k < 3, dat.lookup k = (memory splitBase k 1).head? := fun k inside =>
      (fetchMemory_lookup filled k (by omega)).trans (seen k)
    exact congrArg some (found_congr known)
  · intro inPlace
    have shifted := inPlace 1 3 rfl
    rw [seen] at shifted
    cases shifted

end Qira.RawMemory
