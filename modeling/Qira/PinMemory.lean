import Qira.PinTracer
import Qira.TraceMemory

/-!
A memory write logged by the PIN tracer, read back from the database: the words and the tail of
`add_big_change` spell the buffer, byte by byte, from its address on.
-/

namespace Qira.PinMemory
open ChangeRecord PinTracer TraceIndex TraceProcess TraceMemory
open Library.Words Library.Timelines Library.Overwrites

/-- The flags of a tail say how many bytes it has; so do those of a word. -/
theorem storeFlags (size : Nat) (small : size ≤ 8) :
    getTypeFromFlags (IS_MEM ||| IS_WRITE ||| BitVec.ofNat 32 (size * 8) ||| IS_VALID) = 'S' ∧
      ((IS_MEM ||| IS_WRITE ||| BitVec.ofNat 32 (size * 8) ||| IS_VALID) &&& SIZE_MASK).toNat / 8 =
        size := by
  interval_cases size <;> decide

/-- One more store record enters the bytes of its data at the addresses it covers. -/
theorem stamped_addChange (t : ThreadState) (addr x : Address) (data : BitVec 64) (size : Nat)
    (small : size ≤ 8) :
    stamped Change.clnum (accessWrite false)
        (t.addChange addr data (IS_MEM ||| IS_WRITE ||| BitVec.ofNat 32 (size * 8))).log x =
      stamped Change.clnum (accessWrite false) t.log x ++
        (if (x - addr).toNat < size then [(t.changelistNumber, byteOf data (x - addr).toNat)]
          else []) := by
  obtain ⟨store, count⟩ := storeFlags size small
  rw [ThreadState.addChange, stamped_append_singleton]
  congr 1
  unfold accessWrite Change.covers Change.type Change.byteCount Change.offset
  simp only [store, count]
  generalize (x - addr).toNat = offset
  by_cases near : offset < size
  · simp [near, Change.laidByte]
  · simp [near]

/-- What `add_big_change` enters at an address: the byte of the buffer that lies there, if any. -/
theorem stamped_addBigChange (t : ThreadState) (addr x : Address) (data : Nat → Byte) (size : Nat)
    (small : size < 2 ^ 64) :
    stamped Change.clnum (accessWrite false)
        (t.addBigChange addr data (IS_MEM ||| IS_WRITE) size).log x =
      stamped Change.clnum (accessWrite false) t.log x ++
        (if (x - addr).toNat < size then [(t.changelistNumber, data (x - addr).toNat)] else []) := by
  induction size using Nat.strong_induction_on generalizing t addr data with
  | _ size ih =>
    rw [ThreadState.addBigChange]
    by_cases whole : 8 ≤ size
    · have first := stamped_addChange t addr x (wordAt data) 8 le_rfl
      rw [if_pos whole, ih (size - 8) (by omega) _ _ _ (by omega)]
      change stamped _ _ (t.addChange addr (wordAt data)
        (IS_MEM ||| IS_WRITE ||| BitVec.ofNat 32 (8 * 8))).log x ++ _ = _
      rw [first]
      by_cases inWord : (x - addr).toNat < 8
      · have past : ¬ (x - (addr + 8)).toNat < size - 8 := by bv_omega
        rw [if_pos inWord, if_neg past, if_pos (by omega), byteOf_wordAt data _ inWord,
          List.append_nil]
      · have next : (x - (addr + 8)).toNat = (x - addr).toNat - 8 := by bv_omega
        rw [if_neg inWord, next, List.append_nil]
        by_cases inside : (x - addr).toNat < size
        · have back : (x - addr).toNat - 8 + 8 = (x - addr).toNat := by omega
          rw [if_pos inside, if_pos (by omega), back]
          rfl
        · rw [if_neg inside, if_neg (by omega)]
    · rw [if_neg whole]
      by_cases empty : size = 0
      · simp [empty]
      · rw [if_pos empty, stamped_addChange t addr x _ size (by omega)]
        by_cases inside : (x - addr).toNat < size
        · rw [if_pos inside, if_pos inside, byteOf_masked _ _ _ inside (by omega),
            byteOf_wordAt data _ (by omega)]
        · rw [if_neg inside, if_neg inside]

/-- `add_big_change` goes on with the log, with one store record at least for a buffer that has bytes. -/
theorem log_addBigChange (t : ThreadState) (addr : Address) (data : Nat → Byte) (size : Nat) :
    ∃ made, (t.addBigChange addr data (IS_MEM ||| IS_WRITE) size).log = t.log ++ made ∧
      (∀ c ∈ made, c.type = 'S') ∧ (made = [] ↔ size = 0) := by
  induction size using Nat.strong_induction_on generalizing t addr data with
  | _ size ih =>
    rw [ThreadState.addBigChange]
    by_cases whole : 8 ≤ size
    · obtain ⟨made, grown, stores, -⟩ := ih (size - 8) (by omega)
        (t.addChange addr (wordAt data) (IS_MEM ||| IS_WRITE ||| BitVec.ofNat 32 (8 * 8))) (addr + 8)
        (fun k => data (k + 8))
      refine ⟨⟨addr, wordAt data, t.changelistNumber,
        IS_MEM ||| IS_WRITE ||| BitVec.ofNat 32 (8 * 8) ||| IS_VALID⟩ :: made, ?_, ?_, ?_⟩
      · rw [if_pos whole]
        exact grown.trans (List.append_assoc _ _ _)
      · intro c member
        rcases List.mem_cons.mp member with rfl | later
        · exact (storeFlags 8 le_rfl).1
        · exact stores c later
      · have some : size ≠ 0 := by omega
        simp [some]
    · rw [if_neg whole]
      by_cases empty : size = 0
      · exact ⟨[], by simp [empty]⟩
      · refine ⟨[⟨addr, _, t.changelistNumber, _⟩], by rw [if_pos empty]; rfl, ?_, by simp [empty]⟩
        intro c member
        rw [List.mem_singleton.mp member]
        exact (storeFlags size (by omega)).1

/-- The cell of an address after `add_big_change`, read at any time: only the covered addresses
change, and only from the write's changelist on. -/
theorem asOf_addBigChange (cfg : Config) (little : cfg.isBigEndian = false) (t : ThreadState)
    (addr x : Address) (data : Nat → Byte) (size : Nat) (small : size < 2 ^ 64)
    (latest : ∀ d ∈ t.log, d.clnum ≤ t.changelistNumber) (clnum : Clnum) :
    (cellOf (ingestAll cfg (t.addBigChange addr data (IS_MEM ||| IS_WRITE) size).log).memory x).asOf
        clnum =
      if (x - addr).toNat < size ∧ t.changelistNumber ≤ clnum then some (data (x - addr).toNat)
      else (cellOf (ingestAll cfg t.log).memory x).asOf clnum := by
  rw [cellOf_ingestAll, cellOf_ingestAll, little, stamped_addBigChange t addr x data size small,
    record_append]
  by_cases inside : (x - addr).toNat < size
  · rw [if_pos inside]
    have earlier : ∀ entry ∈ ((empty : MemoryCell).record
        (stamped Change.clnum (accessWrite false) t.log x)).entries,
        entry.1 ≤ t.changelistNumber := by
      intro entry member
      rcases mem_record _ _ entry member with none | written
      · simp [empty] at none
      · obtain ⟨d, inLog, made⟩ := List.mem_filterMap.mp written
        obtain ⟨_, -, rfl⟩ := Option.map_eq_some_iff.mp made
        exact latest d inLog
    rw [asOf_record _ _ _ (List.pairwise_singleton _ _) (by simpa using earlier)]
    by_cases reached : t.changelistNumber ≤ clnum
    · rw [if_pos ⟨inside, reached⟩]
      simp [lastBy, reached]
    · rw [if_neg (fun both => reached both.2)]
      simp [lastBy, reached]
  · rw [if_neg inside, if_neg (fun both => inside both.1)]
    rfl

/-- What is logged for a memory write is what the database gives back: the buffer at its addresses
from the write's changelist on, and everything else as before. -/
theorem getByte_addBigChange (cfg : Config) (little : cfg.isBigEndian = false) (s : ThreadState)
    (addr : Address) (data : Nat → Byte) (size : Nat) (small : size < 2 ^ 32)
    (latest : ∀ d ∈ s.log, d.clnum ≤ s.changelistNumber) (t t' : Trace cfg)
    (before : Ingested cfg s.log t)
    (after : Ingested cfg (s.addBigChange addr data (IS_MEM ||| IS_WRITE) size).log t') :
    (∀ k < size, t'.getByte s.changelistNumber (addr + BitVec.ofNat 64 k) =
      MEMORY_VALID ||| (data k).setWidth 16) ∧
    ∀ clnum a, (clnum < s.changelistNumber ∨ ∀ k < size, a ≠ addr + BitVec.ofNat 64 k) →
      t'.getByte clnum a = t.getByte clnum a := by
  have asOf := fun x clnum =>
    asOf_addBigChange cfg little s addr x data size (by omega) latest clnum
  rw [before.eq_ingestAll, after.eq_ingestAll]
  constructor
  · intro k inside
    have back := toNat_add_ofNat_sub addr k (by omega)
    rw [getByte_eq, asOf, back, if_pos ⟨inside, le_rfl⟩, Option.elim_some]
  · intro clnum a elsewhere
    rw [getByte_eq, getByte_eq, asOf, if_neg]
    rintro ⟨near, reached⟩
    rcases elsewhere with early | outside
    · exact absurd early (not_lt.mpr reached)
    · exact outside (a - addr).toNat near (add_ofNat_sub addr a).symm

/-- A thread that has started one instruction. -/
def oneStart : ThreadState := ⟨1, [⟨0x400000, 4, 1, 0x90000000⟩]⟩

def elevenBytes : Nat → Byte := fun k => BitVec.ofNat 8 (k + 1)

theorem getByte_addBigChange_wraps :
    ∃ t t' : Trace ⟨false, 8, 17⟩, Ingested ⟨false, 8, 17⟩ oneStart.log t ∧
      Ingested ⟨false, 8, 17⟩
        (oneStart.addBigChange 0xFFFFFFFFFFFFFFFE elevenBytes (IS_MEM ||| IS_WRITE) 11).log t' ∧
      (∀ k < 11, t'.getByte oneStart.changelistNumber (0xFFFFFFFFFFFFFFFE + BitVec.ofNat 64 k) =
        MEMORY_VALID ||| (elevenBytes k).setWidth 16) ∧
      ∀ clnum a, (clnum < oneStart.changelistNumber ∨
          ∀ k < 11, a ≠ 0xFFFFFFFFFFFFFFFE + BitVec.ofNat 64 k) →
        t'.getByte clnum a = t.getByte clnum a := by
  have few : (oneStart.addBigChange 0xFFFFFFFFFFFFFFFE elevenBytes (IS_MEM ||| IS_WRITE) 11).log.length =
      3 := by
    simp [ThreadState.addBigChange, ThreadState.addChange, oneStart]
  obtain ⟨t, before⟩ := exists_ingested ⟨false, 8, 17⟩ oneStart.log (by decide)
  obtain ⟨t', after⟩ := exists_ingested ⟨false, 8, 17⟩
    (oneStart.addBigChange 0xFFFFFFFFFFFFFFFE elevenBytes (IS_MEM ||| IS_WRITE) 11).log
    (by rw [few]; decide)
  exact ⟨t, t', before, after, getByte_addBigChange ⟨false, 8, 17⟩ rfl oneStart 0xFFFFFFFFFFFFFFFE
    elevenBytes 11 (by decide) (by decide) t t' before after⟩

end Qira.PinMemory
