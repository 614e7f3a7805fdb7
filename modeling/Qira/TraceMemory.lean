import Qira.TraceProcess
import Qira.Library.Overwrites

/-!
What the memory index answers. Every load and store record is a write of the bytes it carries; the
cell of an address records those writes with their changelist numbers, so `get_byte` returns the
last one at or before the number asked for.
-/

namespace Qira.TraceMemory
open ChangeRecord TraceIndex TraceProcess
open Library.Words Library.Timelines Library.Overwrites

/-- The bytes a load or store record carries, at the addresses it covers. -/
def accessWrite (isBigEndian : Bool) (c : Change) : Address → Option Byte :=
  fun x => if (c.type = 'L' ∨ c.type = 'S') ∧ c.covers x = true
    then some (c.laidByte isBigEndian (c.offset x)) else none

/-- The same, for store records only. -/
def storeWrite (isBigEndian : Bool) (c : Change) : Address → Option Byte :=
  fun x => if c.type = 'S' ∧ c.covers x = true
    then some (c.laidByte isBigEndian (c.offset x)) else none

theorem byteOrder_nodup (isBigEndian : Bool) (count : Nat) : (byteOrder isBigEndian count).Nodup := by
  cases isBigEndian
  · exact List.nodup_range
  · exact List.nodup_reverse.mpr List.nodup_range

theorem mem_byteOrder (isBigEndian : Bool) (count i : Nat) :
    i ∈ byteOrder isBigEndian count ↔ i < count := by
  cases isBigEndian <;> simp [byteOrder]

/-- The step at which the byte loop reaches an offset is the place of its byte in the data. -/
theorem idxOf_byteOrder (isBigEndian : Bool) (count i : Nat) (inside : i < count) :
    (byteOrder isBigEndian count).idxOf i = if isBigEndian then count - 1 - i else i := by
  have length : (byteOrder isBigEndian count).length = count := by
    cases isBigEndian <;> simp [byteOrder]
  have place : (if isBigEndian then count - 1 - i else i) < (byteOrder isBigEndian count).length := by
    rw [length]
    split <;> omega
  have visited : (byteOrder isBigEndian count)[if isBigEndian then count - 1 - i else i] = i := by
    cases isBigEndian
    · simp [byteOrder]
    · simp only [byteOrder, if_true, List.getElem_reverse, List.length_range, List.getElem_range]
      omega
  have found := (byteOrder_nodup isBigEndian count).idxOf_getElem _ place
  rw [visited] at found
  exact found

theorem cellOf_commitMemory (memory : MemoryMap) (clnum : Clnum) (a x : Address) (d : Byte) :
    cellOf (commitMemory memory clnum a d) x =
      if x = a then (cellOf memory x).put clnum d else cellOf memory x := by
  unfold cellOf commitMemory
  rw [Std.TreeMap.getElem?_alter]
  by_cases same : x = a
  · subst same
    simp
  · have different : ¬ compare a x = Ordering.eq := by
      intro equal
      exact same (Std.LawfulEqOrd.eq_of_compare equal).symm
    simp [different, same]

/-- The byte loop sets each visited address once, with the byte of the step that reaches it. -/
theorem cellOf_commitBytes (memory : MemoryMap) (clnum : Clnum) (address x : Address)
    (offsets : List Nat) (data : BitVec 64) (nodup : offsets.Nodup)
    (small : ∀ i ∈ offsets, i < 2 ^ 64) :
    cellOf (commitBytes memory clnum address offsets data) x =
      if (x - address).toNat ∈ offsets
      then (cellOf memory x).put clnum (byteOf data (offsets.idxOf (x - address).toNat))
      else cellOf memory x := by
  induction offsets generalizing memory data with
  | nil => simp [commitBytes]
  | cons i rest ih =>
    obtain ⟨fresh, restNodup⟩ := List.nodup_cons.mp nodup
    have room : i < 2 ^ 64 := small i List.mem_cons_self
    have here : x = address + BitVec.ofNat 64 i ↔ (x - address).toNat = i := by
      constructor
      · intro same
        rw [same]
        exact toNat_add_ofNat_sub address i room
      · intro distance
        rw [← distance, add_ofNat_sub]
    rw [commitBytes, ih _ _ restNodup (fun j member => small j (List.mem_cons_of_mem _ member)),
      cellOf_commitMemory]
    by_cases first : (x - address).toNat = i
    · have unvisited : (x - address).toNat ∉ rest := first ▸ fresh
      rw [if_neg unvisited, if_pos (here.mpr first), if_pos (by simp [first]), first,
        List.idxOf_cons_self, byteOf_zero]
    · rw [if_neg (fun same => first (here.mp same))]
      by_cases later : (x - address).toNat ∈ rest
      · rw [if_pos later, if_pos (List.mem_cons_of_mem _ later),
          List.idxOf_cons_ne _ (fun same => first same.symm), byteOf_shift]
      · rw [if_neg later, if_neg (List.not_mem_cons_of_ne_of_not_mem first later)]

/-- A record enters one value, its own byte, in the cell of each address it covers. -/
theorem cellOf_commitAccess (isBigEndian : Bool) (memory : MemoryMap) (c : Change) (x : Address) :
    cellOf (commitAccess isBigEndian memory c) x =
      (cellOf memory x).record
        ((accessWrite isBigEndian c x).map (fun d => (c.clnum, d))).toList := by
  unfold commitAccess accessWrite
  by_cases access : c.type = 'L' ∨ c.type = 'S'
  · have few := c.byteCount_lt
    rw [if_pos access, cellOf_commitBytes _ _ _ _ _ _ (byteOrder_nodup _ _)
      (fun i member => by have := (mem_byteOrder _ _ _).mp member; omega)]
    change (if c.offset x ∈ byteOrder isBigEndian c.byteCount then _ else _) = _
    by_cases near : c.offset x < c.byteCount
    · have covered : c.covers x = true := decide_eq_true near
      rw [if_pos ((mem_byteOrder _ _ _).mpr near), if_pos ⟨access, covered⟩]
      change (cellOf memory x).put c.clnum (byteOf c.data ((byteOrder _ _).idxOf (c.offset x))) = _
      rw [idxOf_byteOrder _ _ _ near]
      rfl
    · have uncovered : ¬ c.covers x = true := by simpa [Change.covers] using near
      rw [if_neg (fun member => near ((mem_byteOrder _ _ _).mp member)),
        if_neg (fun both => uncovered both.2)]
      rfl
  · rw [if_neg access, if_neg (fun both => access both.1)]
    rfl

/-- The cell of an address after a log: the writes the log made there, in order. -/
theorem cellOf_ingestAll (cfg : Config) (log : List Change) (x : Address) :
    cellOf (ingestAll cfg log).memory x =
      empty.record (stamped Change.clnum (accessWrite cfg.isBigEndian) log x) := by
  induction log using List.reverseRecOn with
  | nil => simp [ingestAll, Trace.new, cellOf, stamped, Timeline.record]
  | append_singleton front c ih =>
    rw [ingestAll_concat, stamped_append_singleton, record_append, ← ih]
    exact cellOf_commitAccess cfg.isBigEndian _ c x

theorem getByte_eq {cfg : Config} (t : Trace cfg) (clnum : Clnum) (a : Address) :
    t.getByte clnum a =
      ((cellOf t.memory a).asOf clnum).elim 0 (fun d => MEMORY_VALID ||| d.setWidth 16) := by
  unfold Trace.getByte cellOf
  cases t.memory[a]? with
  | none => rfl
  | some cell =>
    rw [Option.getD_some]
    cases answer : cell.asOf clnum <;> simp only [answer, Option.elim_none, Option.elim_some]

/-- `get_byte` on a log in changelist order: the last access at or before `clnum`. -/
theorem getByte_ingestAll (cfg : Config) (log : List Change) (clnum : Clnum) (a : Address)
    (ordered : log.Pairwise (fun b c => b.clnum ≤ c.clnum)) :
    (ingestAll cfg log).getByte clnum a =
      (lastWrite ((log.filter (fun c => c.clnum ≤ clnum)).map (accessWrite cfg.isBigEndian)) a).elim
        0 (fun d => MEMORY_VALID ||| d.setWidth 16) := by
  rw [getByte_eq, cellOf_ingestAll, asOf_stamped _ _ _ _ _ ordered]

/-- Guest memory after the store records of a log have taken effect. -/
def memoryAfter (isBigEndian : Bool) (initial : Address → Byte) (log : List Change) :
    Address → Byte :=
  replay initial (log.map (storeWrite isBigEndian))

/-- Each load record carries exactly the bytes memory holds when its turn comes. -/
def LoadsMatch (isBigEndian : Bool) : (Address → Byte) → List Change → Prop
  | _, [] => True
  | memory, c :: rest =>
      (c.type = 'L' → ∀ x, c.covers x = true →
        c.laidByte isBigEndian (c.offset x) = memory x) ∧
      LoadsMatch isBigEndian (overwrite memory (storeWrite isBigEndian c)) rest

theorem LoadsMatch.front {isBigEndian : Bool} {memory : Address → Byte} {front back : List Change}
    (loads : LoadsMatch isBigEndian memory (front ++ back)) : LoadsMatch isBigEndian memory front := by
  induction front generalizing memory with
  | nil => trivial
  | cons c rest ih => exact ⟨loads.1, ih loads.2⟩

private theorem accessWrite_of_store (isBigEndian : Bool) (c : Change) (store : c.type = 'S') :
    accessWrite isBigEndian c = storeWrite isBigEndian c := by
  funext x
  simp [accessWrite, storeWrite, store]

private theorem storeWrite_of_other (isBigEndian : Bool) (c : Change) (other : c.type ≠ 'S')
    (memory : Address → Byte) : overwrite memory (storeWrite isBigEndian c) = memory := by
  apply overwrite_of_agrees
  intro x value written
  simp [storeWrite, other] at written

/-- Committing a load's bytes does no harm: they are the bytes already there. -/
private theorem overwrite_access (isBigEndian : Bool) (c : Change) (memory : Address → Byte)
    (load : c.type = 'L' → ∀ x, c.covers x = true →
      c.laidByte isBigEndian (c.offset x) = memory x) :
    overwrite memory (accessWrite isBigEndian c) = overwrite memory (storeWrite isBigEndian c) := by
  by_cases store : c.type = 'S'
  · rw [accessWrite_of_store isBigEndian c store]
  · rw [storeWrite_of_other isBigEndian c store]
    apply overwrite_of_agrees
    intro x value written
    unfold accessWrite at written
    split at written
    next inside =>
      rw [← Option.some.inj written]
      exact (load (inside.1.resolve_right store) x inside.2).symm
    next outside => cases written

theorem replay_access (isBigEndian : Bool) (log : List Change) (memory : Address → Byte)
    (loads : LoadsMatch isBigEndian memory log) :
    replay memory (log.map (accessWrite isBigEndian)) = memoryAfter isBigEndian memory log := by
  induction log generalizing memory with
  | nil => rfl
  | cons c rest ih =>
    change replay (overwrite memory (accessWrite isBigEndian c)) (rest.map _) = _
    rw [overwrite_access isBigEndian c memory loads.1, ih _ loads.2]
    rfl

/-- Some load or store record at or before `clnum` covers the address. -/
def Touched (log : List Change) (clnum : Clnum) (a : Address) : Prop :=
  ∃ c ∈ log, (c.type = 'L' ∨ c.type = 'S') ∧ c.clnum ≤ clnum ∧ c.covers a = true

private theorem touched_iff (isBigEndian : Bool) (log : List Change) (clnum : Clnum) (a : Address) :
    (lastWrite ((log.filter (fun c => c.clnum ≤ clnum)).map (accessWrite isBigEndian)) a).isSome ↔
      Touched log clnum a := by
  rw [lastWrite_isSome_iff]
  simp only [List.mem_map, List.mem_filter, decide_eq_true_eq, Touched]
  constructor
  · intro found
    obtain ⟨_, ⟨c, ⟨member, early⟩, rfl⟩, written⟩ := found
    unfold accessWrite at written
    split at written
    next inside => exact ⟨c, member, inside.1, early, inside.2⟩
    next outside => cases written
  · intro touched
    obtain ⟨c, member, access, early, covered⟩ := touched
    exact ⟨_, ⟨c, ⟨member, early⟩, rfl⟩, by simp [accessWrite, access, covered]⟩

theorem valid_ne_zero (d : Byte) : MEMORY_VALID ||| d.setWidth 16 ≠ 0 := by
  revert d
  decide

theorem valid_injective (d e : Byte)
    (same : MEMORY_VALID ||| d.setWidth 16 = MEMORY_VALID ||| e.setWidth 16) : d = e := by
  have low : ∀ b : Byte, (MEMORY_VALID ||| b.setWidth 16).setWidth 8 = b := by decide
  rw [← low d, ← low e, same]

/-- The memory index is sound and complete. On a log in changelist order whose loads carry what
memory held, `get_byte` is valid exactly at the addresses some load or store touched by then, and
its byte is the content of memory after the records up to that changelist. -/
theorem getByte_exact (cfg : Config) (initial : Address → Byte) (log : List Change) (t : Trace cfg)
    (ingested : Ingested cfg log t) (ordered : log.Pairwise (fun b c => b.clnum ≤ c.clnum))
    (loads : LoadsMatch cfg.isBigEndian initial log) (clnum : Clnum) (a : Address) :
    ((∃ d : Byte, t.getByte clnum a = MEMORY_VALID ||| d.setWidth 16) ↔ Touched log clnum a) ∧
      (∀ d : Byte, t.getByte clnum a = MEMORY_VALID ||| d.setWidth 16 →
        d = memoryAfter cfg.isBigEndian initial (log.filter (fun c => c.clnum ≤ clnum)) a) ∧
      (¬ Touched log clnum a → t.getByte clnum a = 0) := by
  have front : log.filter (fun c => c.clnum ≤ clnum) ++
      log.dropWhile (fun c => c.clnum ≤ clnum) = log := by
    rw [← takeWhile_le_eq_filter Change.clnum clnum log ordered]
    exact List.takeWhile_append_dropWhile
  have content := congrFun (replay_access cfg.isBigEndian _ initial
    (LoadsMatch.front (front.symm ▸ loads))) a
  rw [replay_eq_lastWrite] at content
  rw [ingested.eq_ingestAll, getByte_ingestAll cfg log clnum a ordered, ← content]
  have touched := touched_iff cfg.isBigEndian log clnum a
  cases last : lastWrite ((log.filter (fun c => c.clnum ≤ clnum)).map
      (accessWrite cfg.isBigEndian)) a with
  | none =>
    rw [last] at touched
    have untouched : ¬ Touched log clnum a := fun some => by simpa using touched.mpr some
    refine ⟨⟨?_, fun some => absurd some untouched⟩, ?_, fun _ => rfl⟩
    · intro found
      obtain ⟨d, valid⟩ := found
      exact absurd valid.symm (valid_ne_zero d)
    · intro d valid
      exact absurd valid.symm (valid_ne_zero d)
  | some value =>
    rw [last] at touched
    have isTouched : Touched log clnum a := touched.mp rfl
    refine ⟨⟨fun _ => isTouched, fun _ => ⟨value, rfl⟩⟩, ?_, fun untouched => absurd isTouched untouched⟩
    intro d valid
    exact (valid_injective value d valid).symm

/-- A two-byte store, a load of its upper byte, and a later store over its lower one. -/
def overlapLog : List Change :=
  [⟨0x1000, 0x2211, 1, 0xE0000010⟩, ⟨0x1001, 0x22, 1, 0xA0000008⟩, ⟨0x1000, 0x33, 2, 0xE0000008⟩]

private theorem overlapLog_loads : LoadsMatch false (fun _ => 0) overlapLog := by
  refine ⟨fun load => absurd load (by decide), ?_, fun load => absurd load (by decide), trivial⟩
  intro _ x covered
  obtain ⟨i, small, rfl⟩ := (Change.covers_iff _ x).mp covered
  obtain rfl : i = 0 := Nat.lt_one_iff.mp small
  decide

theorem getByte_exact_overlap :
    ∃ t, Ingested ⟨false, 4, 9⟩ overlapLog t ∧
      ((∃ d : Byte, t.getByte 1 0x1001 = MEMORY_VALID ||| d.setWidth 16) ↔
        Touched overlapLog 1 0x1001) ∧
      (∀ d : Byte, t.getByte 1 0x1001 = MEMORY_VALID ||| d.setWidth 16 →
        d = memoryAfter false (fun _ => 0) (overlapLog.filter (fun c => c.clnum ≤ 1)) 0x1001) ∧
      (¬ Touched overlapLog 1 0x1001 → t.getByte 1 0x1001 = 0) := by
  obtain ⟨t, ingested⟩ := exists_ingested ⟨false, 4, 9⟩ overlapLog (by decide)
  exact ⟨t, ingested, getByte_exact ⟨false, 4, 9⟩ (fun _ => 0) overlapLog t ingested (by decide)
    overlapLog_loads 1 0x1001⟩

end Qira.TraceMemory
