import Qira.QemuTracer
import Qira.TraceRegisters

/-!
Register writes held back while tracing is filtered. The tracer keeps the last write to each 4-byte
slot below offset 0x100 and logs the slots in ascending order; the database keys the records by
whole registers of the traced architecture.
-/

namespace Qira.PendingRegisters
open ChangeRecord QemuTracer TraceIndex TraceProcess TraceRegisters
open Library.Timelines Library.Overwrites

/-- The register tables of `arch.py`. -/
inductive Arch
  | ppc | aarch64 | mips | arm | x86 | x64
  deriving DecidableEq, Repr

/-- Their byte order, register size and number of entries, unnamed ones included. -/
def Arch.config : Arch → Config
  | .ppc => ⟨true, 4, 32 + 32 + 2 + 8⟩
  | .aarch64 => ⟨false, 8, 8 + 32 + 1⟩
  | .mips => ⟨true, 4, 8 + 8 + 8 + 8⟩
  | .arm => ⟨false, 4, 16⟩
  | .x86 => ⟨false, 4, 9⟩
  | .x64 => ⟨false, 8, 17⟩

/-- One call of `track_write`. -/
structure Write where
  offset : Address
  data : BitVec 64
  size : Width
  deriving DecidableEq, Repr

def trackWrites (t : Tracer) (writes : List Write) : Tracer :=
  writes.foldl (fun t w => t.trackWrite w.offset w.data w.size) t

def Write.slot (w : Write) : Nat := w.offset.toNat / 4

def Write.register (registerSize : Nat) (w : Write) : Nat := w.offset.toNat / registerSize

/-- The last write to a register, the one it should end up with. -/
def lastTo (registerSize : Nat) (writes : List Write) (i : Nat) : Option Write :=
  (writes.filter (fun w => w.register registerSize = i)).getLast?

/-- The writes to a register that the buffer has room for. -/
def buffered (registerSize : Nat) (writes : List Write) (i : Nat) : List Write :=
  writes.filter (fun w => w.offset.toNat < PENDING_CHANGES_MAX_ADDR ∧ w.register registerSize = i)

/-- Of those, the last one to the highest slot. -/
def survivor (registerSize : Nat) (writes : List Write) (i : Nat) : Option Write :=
  ((buffered registerSize writes i).filter
    (fun w => ∀ v ∈ buffered registerSize writes i, v.slot ≤ w.slot)).getLast?

/-- The last write to the register leaves the same data as the last one to its highest buffered slot,
or as the value from before when none of its writes is buffered. -/
def Recovered (registerSize : Nat) (writes : List Write) (i : Nat) (previous : BitVec 64) : Prop :=
  ∀ w, lastTo registerSize writes i = some w →
    ((survivor registerSize writes i).elim previous Write.data) = w.data

def lastInSlot (writes : List Write) (s : Nat) : Option Write :=
  (writes.filter (fun w => w.slot = s)).getLast?

/-- A slot of the buffer that holds a write. -/
def Write.pending (w : Write) : Change := ⟨w.offset, w.data, 0, IS_VALID ||| (IS_WRITE ||| w.size.bits)⟩

/-- The record a slot is committed as. -/
def Write.record (clnum : Clnum) (w : Write) : Change :=
  ⟨w.offset, w.data, clnum, IS_VALID ||| (IS_VALID ||| (IS_WRITE ||| w.size.bits))⟩

theorem record_type (clnum : Clnum) (w : Write) : (w.record clnum).type = 'W' := by
  have flags : ∀ size : Width,
      getTypeFromFlags (IS_VALID ||| (IS_VALID ||| (IS_WRITE ||| size.bits))) = 'W' := by
    intro size
    cases size <;> decide
  exact flags w.size

private theorem lastInSlot_concat (front : List Write) (w : Write) (s : Nat) :
    lastInSlot (front ++ [w]) s = if w.slot = s then some w else lastInSlot front s := by
  by_cases here : w.slot = s <;> simp [lastInSlot, here]

theorem addPendingChange_same (t : Tracer) (addr : Address) (data : BitVec 64) (flags : BitVec 32) :
    (t.addPendingChange addr data flags).log = t.log ∧
      (t.addPendingChange addr data flags).changelistNumber = t.changelistNumber ∧
      (t.addPendingChange addr data flags).isFiltered = t.isFiltered := by
  unfold Tracer.addPendingChange
  split
  · exact ⟨rfl, rfl, rfl⟩
  · exact ⟨rfl, rfl, rfl⟩

theorem addPendingChange_pending (t : Tracer) (addr : Address) (data : BitVec 64)
    (flags : BitVec 32) (s : Nat) (room : s < PENDING_CHANGES_MAX_ADDR / 4) :
    (t.addPendingChange addr data flags).pending[s] =
      if addr.toNat / 4 = s then ⟨addr, data, t.pending[s].clnum, IS_VALID ||| flags⟩
      else t.pending[s] := by
  unfold Tracer.addPendingChange
  split
  next small =>
    rw [Vector.getElem_set]
    by_cases here : addr.toNat / 4 = s
    · subst here
      rw [if_pos rfl]
    · rw [if_neg here, if_neg here]
  next large =>
    have elsewhere : addr.toNat / 4 ≠ s := by
      unfold PENDING_CHANGES_MAX_ADDR at large room
      omega
    rw [if_neg elsewhere]

/-- Held-back writes touch the buffer only, which keeps the last write to each slot. -/
theorem trackWrites_filtered (t : Tracer) (filtered : t.isFiltered = true)
    (start : t.pending = noPending) (writes : List Write)
    (positive : ∀ w ∈ writes, negativeOffset w.offset = false) :
    (trackWrites t writes).log = t.log ∧
      (trackWrites t writes).changelistNumber = t.changelistNumber ∧
      (trackWrites t writes).isFiltered = true ∧
      ∀ (s : Nat) (room : s < PENDING_CHANGES_MAX_ADDR / 4),
        (trackWrites t writes).pending[s] =
          (lastInSlot writes s).elim ⟨0, 0, 0, 0⟩ Write.pending := by
  induction writes using List.reverseRecOn with
  | nil =>
    refine ⟨rfl, rfl, filtered, ?_⟩
    intro s room
    change t.pending[s] = _
    simp only [start, noPending, Vector.getElem_replicate]
    rfl
  | append_singleton front w ih =>
    obtain ⟨log, number, still, slots⟩ :=
      ih (fun v member => positive v (List.mem_append_left _ member))
    have nonneg := positive w (by simp)
    have step : trackWrites t (front ++ [w]) =
        (trackWrites t front).addPendingChange w.offset w.data (IS_WRITE ||| w.size.bits) := by
      unfold trackWrites at still ⊢
      rw [List.foldl_append, List.foldl_cons, List.foldl_nil, Tracer.trackWrite, nonneg, still]
      simp
    obtain ⟨sameLog, sameNumber, sameFilter⟩ := addPendingChange_same
      (trackWrites t front) w.offset w.data (IS_WRITE ||| w.size.bits)
    rw [step]
    refine ⟨sameLog.trans log, sameNumber.trans number, sameFilter.trans still, ?_⟩
    intro s room
    rw [addPendingChange_pending _ _ _ _ _ room, slots s room, lastInSlot_concat]
    have clnum : ((lastInSlot front s).elim ⟨0, 0, 0, 0⟩ Write.pending).clnum = 0 := by
      cases lastInSlot front s <;> rfl
    rw [clnum]
    by_cases here : w.slot = s
    · rw [if_pos here]
      exact if_pos here
    · rw [if_neg here]
      exact if_neg here

/-- `commit_pending_changes` logs the valid slots in order and empties the buffer. -/
theorem commitPendingChanges_log (t : Tracer) :
    t.commitPendingChanges.log = t.log ++ t.pending.toList.filterMap (fun c =>
      if has c.flags IS_VALID then
        some ⟨c.address, c.data, t.changelistNumber, IS_VALID ||| c.flags⟩
      else none) := by
  have commits : ∀ (slots : List Change) (t : Tracer), (slots.foldl Tracer.commitPending t).log =
      t.log ++ slots.filterMap (fun c => if has c.flags IS_VALID then
        some ⟨c.address, c.data, t.changelistNumber, IS_VALID ||| c.flags⟩ else none) := by
    intro slots
    induction slots with
    | nil => exact fun t => (List.append_nil _).symm
    | cons c rest ih =>
      intro t
      rw [List.foldl_cons, ih, List.filterMap_cons]
      unfold Tracer.commitPending
      by_cases valid : has c.flags IS_VALID = true
      · simp [valid, Tracer.addChange]
      · simp [valid]
  exact commits t.pending.toList t

/-- The records committed for held-back writes: the last write to each slot, slots in order. -/
def committed (clnum : Clnum) (writes : List Write) : List Change :=
  (List.range (PENDING_CHANGES_MAX_ADDR / 4)).filterMap
    (fun s => (lastInSlot writes s).map (Write.record clnum))

theorem commit_trackWrites (t : Tracer) (filtered : t.isFiltered = true)
    (start : t.pending = noPending) (writes : List Write)
    (positive : ∀ w ∈ writes, negativeOffset w.offset = false) :
    (trackWrites t writes).commitPendingChanges.log =
      t.log ++ committed t.changelistNumber writes := by
  obtain ⟨log, number, -, slots⟩ := trackWrites_filtered t filtered start writes positive
  have buffer : (trackWrites t writes).pending.toList =
      (List.range (PENDING_CHANGES_MAX_ADDR / 4)).map
        (fun s => (lastInSlot writes s).elim ⟨0, 0, 0, 0⟩ Write.pending) := by
    apply List.ext_getElem
    · simp
    · intro s inLeft inRight
      simp only [List.length_map, List.length_range] at inRight
      simp only [Vector.getElem_toList, List.getElem_map, List.getElem_range]
      exact slots s inRight
  have valid : ∀ w : Write, has w.pending.flags IS_VALID = true :=
    fun w => has_valid_or (IS_WRITE ||| w.size.bits)
  rw [commitPendingChanges_log, log, number, buffer, List.filterMap_map, committed]
  congr 1
  apply List.filterMap_congr
  intro s _
  cases last : lastInSlot writes s with
  | none => simp [last, has]
  | some w =>
    simp only [Function.comp_apply, last, Option.elim_some, valid w, if_true, Option.map_some]
    rfl

private theorem getLast?_filterMap_range {β : Type*} (f : Nat → Option β) (count : Nat) (x : β) :
    ((List.range count).filterMap f).getLast? = some x ↔
      ∃ s < count, f s = some x ∧ ∀ s', s < s' → s' < count → f s' = none := by
  induction count with
  | zero => simp
  | succ count ih =>
    rw [List.range_succ, List.filterMap_append]
    cases last : f count with
    | none =>
      simp only [List.filterMap_cons, last, List.filterMap_nil, List.append_nil, ih]
      constructor
      · intro found
        obtain ⟨s, below, here, later⟩ := found
        refine ⟨s, by omega, here, ?_⟩
        intro s' above inside
        rcases Nat.lt_succ_iff_lt_or_eq.mp inside with inner | rfl
        · exact later s' above inner
        · exact last
      · intro found
        obtain ⟨s, below, here, later⟩ := found
        rcases Nat.lt_succ_iff_lt_or_eq.mp below with inner | rfl
        · exact ⟨s, inner, here, fun s' above inside => later s' above (by omega)⟩
        · rw [last] at here
          cases here
    | some y =>
      simp only [List.filterMap_cons, last, List.filterMap_nil, List.getLast?_concat,
        Option.some.injEq]
      constructor
      · intro same
        exact ⟨count, by omega, same ▸ last, fun s' above inside => absurd inside (by omega)⟩
      · intro found
        obtain ⟨s, below, here, later⟩ := found
        rcases Nat.lt_succ_iff_lt_or_eq.mp below with inner | rfl
        · rw [later count inner (by omega)] at last
          cases last
        · exact Option.some.inj (last.symm.trans here)

private theorem lastInSlot_some {writes : List Write} {s : Nat} {w : Write}
    (last : lastInSlot writes s = some w) : w ∈ writes ∧ w.slot = s := by
  have found := List.mem_filter.mp (List.mem_of_getLast? last)
  exact ⟨found.1, of_decide_eq_true found.2⟩

private theorem exists_lastInSlot {writes : List Write} {w : Write} (member : w ∈ writes) :
    ∃ v, lastInSlot writes w.slot = some v := by
  apply Option.ne_none_iff_exists'.mp
  intro none
  have empty := List.getLast?_eq_none_iff.mp none
  have inside : w ∈ writes.filter (fun v => v.slot = w.slot) := by simp [member]
  rw [empty] at inside
  cases inside

theorem register_of_slot {registerSize : Nat} (words : 4 ∣ registerSize) {v w : Write}
    (same : v.slot = w.slot) : v.register registerSize = w.register registerSize := by
  obtain ⟨slots, rfl⟩ := words
  unfold Write.register
  unfold Write.slot at same
  rw [← Nat.div_div_eq_div_mul, ← Nat.div_div_eq_div_mul, same]

private theorem slot_lt_iff (w : Write) :
    w.slot < PENDING_CHANGES_MAX_ADDR / 4 ↔ w.offset.toNat < PENDING_CHANGES_MAX_ADDR := by
  unfold Write.slot PENDING_CHANGES_MAX_ADDR
  omega

/-- A slot that a write of the register went to commits a record of the register. -/
theorem slot_commits {registerSize : Nat} (words : 4 ∣ registerSize) (clnum : Clnum) {writes : List Write} {i : Nat}
    {w : Write} (member : w ∈ writes) (keyed : w.register registerSize = i) :
    ((lastInSlot writes w.slot).map (Write.record clnum)).filter
      (fun c => c.address.toNat / registerSize = i) ≠ none := by
  intro none
  obtain ⟨v, found⟩ := exists_lastInSlot member
  have vKeyed : v.register registerSize = i := (register_of_slot words (lastInSlot_some found).2).trans keyed
  rw [found] at none
  simp [Write.record, Write.register] at none vKeyed
  exact none vKeyed

/-- The highest of the buffered writes of a register are all the writes to its highest slot. -/
theorem filter_highest {registerSize : Nat} (words : 4 ∣ registerSize) {writes : List Write} {i : Nat} {v : Write}
    (member : v ∈ writes) (room : v.slot < PENDING_CHANGES_MAX_ADDR / 4) (keyed : v.register registerSize = i)
    (highest : ∀ w ∈ buffered registerSize writes i, w.slot ≤ v.slot) :
    (buffered registerSize writes i).filter (fun w => ∀ u ∈ buffered registerSize writes i, u.slot ≤ w.slot) =
      writes.filter (fun w => w.slot = v.slot) := by
  have vFits : v ∈ buffered registerSize writes i :=
    List.mem_filter.mpr ⟨member, decide_eq_true ⟨(slot_lt_iff v).mp room, keyed⟩⟩
  change (writes.filter (fun w => w.offset.toNat < PENDING_CHANGES_MAX_ADDR ∧
    w.register registerSize = i)).filter _ = _
  rw [List.filter_filter]
  apply List.filter_congr
  intro w wMember
  rw [← Bool.decide_and]
  apply decide_eq_decide.mpr
  constructor
  · intro top
    have wFits : w ∈ buffered registerSize writes i := List.mem_filter.mpr ⟨wMember, decide_eq_true top.2⟩
    have := top.1 v vFits
    have := highest w wFits
    omega
  · intro level
    refine ⟨fun u inside => level ▸ highest u inside, (slot_lt_iff w).mp (by omega), ?_⟩
    rw [register_of_slot words level, keyed]

/-- The last record committed for a register is its last write to the highest slot. -/
theorem committed_survivor (registerSize : Nat) (words : 4 ∣ registerSize) (clnum : Clnum)
    (writes : List Write) (i : Nat) :
    ((committed clnum writes).filter (fun c => c.address.toNat / registerSize = i)).getLast? =
      (survivor registerSize writes i).map (Write.record clnum) := by
  rw [committed, List.filter_filterMap]
  cases last : ((List.range (PENDING_CHANGES_MAX_ADDR / 4)).filterMap (fun s =>
      ((lastInSlot writes s).map (Write.record clnum)).filter
        (fun c => c.address.toNat / registerSize = i))).getLast? with
  | none =>
    have empty : buffered registerSize writes i = [] := by
      apply List.filter_eq_nil_iff.mpr
      intro w member fits
      obtain ⟨room, keyed⟩ := of_decide_eq_true fits
      exact slot_commits words clnum member keyed (List.filterMap_eq_nil_iff.mp
        (List.getLast?_eq_none_iff.mp last) w.slot (List.mem_range.mpr ((slot_lt_iff w).mpr room)))
    simp [survivor, empty]
  | some c =>
    obtain ⟨s, room, here, later⟩ := (getLast?_filterMap_range _ _ c).mp last
    obtain ⟨mapped, keyed⟩ := Option.filter_eq_some_iff.mp here
    obtain ⟨v, found, rfl⟩ := Option.map_eq_some_iff.mp mapped
    obtain ⟨member, rfl⟩ := lastInSlot_some found
    have vKeyed : v.register registerSize = i := of_decide_eq_true keyed
    have highest : ∀ w ∈ buffered registerSize writes i, w.slot ≤ v.slot := by
      intro w inside
      obtain ⟨wMember, fits⟩ := List.mem_filter.mp inside
      obtain ⟨wRoom, wKeyed⟩ := of_decide_eq_true fits
      by_contra above
      exact slot_commits words clnum wMember wKeyed
        (later w.slot (not_le.mp above) ((slot_lt_iff w).mpr wRoom))
    rw [survivor, filter_highest words member room vKeyed highest]
    rw [lastInSlot] at found
    rw [found]
    rfl

/-- Register writes all at one changelist: the last one keyed to the register is what it holds. -/
theorem fetchRegisters_foldl {cfg : Config} (before : Trace cfg) (clnum : Clnum)
    (records : List Change)
    (writes : ∀ c ∈ records, c.type = 'W' ∧ c.clnum = clnum ∧
      c.address.toNat < cfg.registerSize * cfg.registerCount)
    (i : Nat) (inFile : i < cfg.registerCount) :
    ((records.foldl Trace.ingest before).fetchRegisters clnum)[i] =
      (((records.filter (fun c => c.address.toNat / cfg.registerSize = i)).getLast?).map
        Change.data).getD (before.fetchRegisters clnum)[i] := by
  have values : stamped Change.clnum (registerWrite cfg) records i =
      ((records.filter (fun c => c.address.toNat / cfg.registerSize = i)).map Change.data).map
        (fun d => (clnum, d)) := by
    rw [List.map_map, stamped, ← List.filterMap_eq_filter, ← List.filterMap_eq_map,
      List.filterMap_filterMap]
    apply List.filterMap_congr
    intro c member
    obtain ⟨type, stamp, inside⟩ := writes c member
    by_cases keyed : c.address.toNat / cfg.registerSize = i
    · simp [registerWrite, type, inside, keyed, stamp, Option.guard]
    · simp [registerWrite, keyed, Option.guard]
  rw [fetchRegisters_getElem, fetchRegisters_getElem, registers_foldl, values, asOf_record_same,
    List.getLast?_map]
  cases List.getLast? _ <;> rfl

/-- What the database should answer for a register: the data of the last write to it, or its value
from before. -/
def expected (registerSize : Nat) (writes : List Write) (i : Nat) (previous : BitVec 64) :
    BitVec 64 :=
  (lastTo registerSize writes i).elim previous Write.data

theorem trackWrites_unfiltered (t : Tracer) (unfiltered : t.isFiltered = false)
    (writes : List Write) (positive : ∀ w ∈ writes, negativeOffset w.offset = false) :
    (trackWrites t writes).log = t.log ++ writes.map (fun w =>
        ⟨w.offset, w.data, t.changelistNumber, IS_VALID ||| (IS_WRITE ||| w.size.bits)⟩) := by
  induction writes generalizing t with
  | nil => exact (List.append_nil _).symm
  | cons w rest ih =>
    have step : t.trackWrite w.offset w.data w.size =
        t.addChange w.offset w.data (IS_WRITE ||| w.size.bits) := by
      simp [Tracer.trackWrite, positive w List.mem_cons_self, unfiltered]
    rw [trackWrites, List.foldl_cons, step, ← trackWrites,
      ih (t.addChange w.offset w.data _) unfiltered
        (fun v member => positive v (List.mem_cons_of_mem _ member)),
      List.map_cons, Tracer.addChange, List.append_assoc]
    rfl

/-- Logged as they come, the writes leave every register as it should be. -/
theorem logged_expected (cfg : Config) (t : Tracer) (unfiltered : t.isFiltered = false)
    (writes : List Write) (positive : ∀ w ∈ writes, negativeOffset w.offset = false)
    (inside : ∀ w ∈ writes, w.offset.toNat < cfg.registerSize * cfg.registerCount)
    (before after : Trace cfg) (first : Ingested cfg t.log before)
    (second : Ingested cfg (trackWrites t writes).log after)
    (i : Nat) (inFile : i < cfg.registerCount) :
    (after.fetchRegisters t.changelistNumber)[i] =
      expected cfg.registerSize writes i (before.fetchRegisters t.changelistNumber)[i] := by
  have type : ∀ size : Width, getTypeFromFlags (IS_VALID ||| (IS_WRITE ||| size.bits)) = 'W' := by
    intro size
    cases size <;> decide
  rw [second.eq_ingestAll, trackWrites_unfiltered t unfiltered writes positive, ingestAll_append,
    ← first.eq_ingestAll, fetchRegisters_foldl before t.changelistNumber]
  · rw [List.filter_map, List.getLast?_map, expected, lastTo]
    change ((Option.map _ (writes.filter (fun w => w.register cfg.registerSize = i)).getLast?).map
      _).getD _ = _
    cases List.getLast? _ <;> rfl
  · intro c member
    obtain ⟨w, written, rfl⟩ := List.mem_map.mp member
    exact ⟨type w.size, rfl, inside w written⟩

theorem commitPendingChanges_number (t : Tracer) :
    t.commitPendingChanges.changelistNumber = t.changelistNumber := by
  have commits : ∀ (slots : List Change) (t : Tracer),
      (slots.foldl Tracer.commitPending t).changelistNumber = t.changelistNumber := by
    intro slots
    induction slots with
    | nil => exact fun _ => rfl
    | cons slot rest ih =>
      intro t
      rw [List.foldl_cons, ih]
      unfold Tracer.commitPending
      split <;> rfl
  exact commits t.pending.toList t

theorem negativeOffset_of_lt (offset : Address) (small : offset.toNat < 2 ^ 31) :
    negativeOffset offset = false := by
  unfold negativeOffset
  rw [BitVec.msb_eq_false_iff_two_mul_lt, BitVec.toNat_setWidth]
  omega

theorem Arch.config_bounds (arch : Arch) :
    4 ∣ arch.config.registerSize ∧ arch.config.registerSize * arch.config.registerCount ≤ 2 ^ 31 := by
  cases arch <;> decide

/-- After a filtered stretch is committed, a register holds the data that survived in the buffer. -/
theorem fetchRegisters_committed (arch : Arch) (t : Tracer) (filtered : t.isFiltered = true)
    (start : t.pending = noPending) (writes : List Write)
    (inside : ∀ w ∈ writes,
      w.offset.toNat < arch.config.registerSize * arch.config.registerCount)
    (before after : Trace arch.config) (first : Ingested arch.config t.log before)
    (second : Ingested arch.config (trackWrites t writes).commitPendingChanges.log after)
    (i : Nat) (inFile : i < arch.config.registerCount) :
    (after.fetchRegisters t.changelistNumber)[i] =
      (survivor arch.config.registerSize writes i).elim
        (before.fetchRegisters t.changelistNumber)[i] Write.data := by
  obtain ⟨words, bound⟩ := arch.config_bounds
  have positive : ∀ w ∈ writes, negativeOffset w.offset = false := by
    intro w member
    exact negativeOffset_of_lt w.offset ((inside w member).trans_le bound)
  rw [second.eq_ingestAll, commit_trackWrites t filtered start writes positive, ingestAll_append,
    ← first.eq_ingestAll, fetchRegisters_foldl before t.changelistNumber,
    committed_survivor arch.config.registerSize words]
  · cases survivor arch.config.registerSize writes i <;> rfl
  · intro c member
    obtain ⟨s, -, recorded⟩ := List.mem_filterMap.mp member
    obtain ⟨w, found, rfl⟩ := Option.map_eq_some_iff.mp recorded
    exact ⟨record_type _ w, rfl, inside w (lastInSlot_some found).1⟩

/-- For each register table of `arch.py`, a register survives filtering exactly when the last write to
it is recovered from the highest of its buffered slots. -/
theorem fetchRegisters_committed_iff (arch : Arch) (t : Tracer) (filtered : t.isFiltered = true)
    (start : t.pending = noPending) (writes : List Write)
    (inside : ∀ w ∈ writes,
      w.offset.toNat < arch.config.registerSize * arch.config.registerCount)
    (before after : Trace arch.config) (first : Ingested arch.config t.log before)
    (second : Ingested arch.config (trackWrites t writes).commitPendingChanges.log after)
    (i : Nat) (inFile : i < arch.config.registerCount) :
    (after.fetchRegisters (trackWrites t writes).commitPendingChanges.changelistNumber)[i] =
        expected arch.config.registerSize writes i (before.fetchRegisters t.changelistNumber)[i] ↔
      Recovered arch.config.registerSize writes i
        (before.fetchRegisters t.changelistNumber)[i] := by
  have positive : ∀ w ∈ writes, negativeOffset w.offset = false := by
    intro w member
    exact negativeOffset_of_lt w.offset ((inside w member).trans_le arch.config_bounds.2)
  obtain ⟨-, number, -⟩ := trackWrites_filtered t filtered start writes positive
  rw [commitPendingChanges_number, number, fetchRegisters_committed arch t filtered start writes
    inside before after first second i inFile]
  unfold Recovered expected
  cases last : lastTo arch.config.registerSize writes i with
  | some w => simp
  | none =>
    have none : survivor arch.config.registerSize writes i = none := by
      have untouched := List.filter_eq_nil_iff.mp (List.getLast?_eq_none_iff.mp last)
      have empty : buffered arch.config.registerSize writes i = [] := by
        apply List.filter_eq_nil_iff.mpr
        intro w member fits
        exact untouched w member (decide_eq_true (of_decide_eq_true fits).2)
      simp [survivor, empty]
    simp [none]

/-- With 4-byte registers and offsets inside the buffer, every write is recovered. -/
theorem recovered_of_words (writes : List Write) (i : Nat) (previous : BitVec 64)
    (inside : ∀ w ∈ writes, w.offset.toNat < PENDING_CHANGES_MAX_ADDR) :
    Recovered 4 writes i previous := by
  have all : buffered 4 writes i = writes.filter (fun w => w.register 4 = i) := by
    apply List.filter_congr
    intro w member
    exact decide_eq_decide.mpr (and_iff_right (inside w member))
  have level : (buffered 4 writes i).filter (fun w => ∀ v ∈ buffered 4 writes i, v.slot ≤ w.slot) =
      buffered 4 writes i := by
    apply List.filter_eq_self.mpr
    intro w member
    apply decide_eq_true
    intro v other
    have wKeyed : w.slot = i := (of_decide_eq_true (List.mem_filter.mp member).2).2
    have vKeyed : v.slot = i := (of_decide_eq_true (List.mem_filter.mp other).2).2
    exact (vKeyed.trans wKeyed.symm).le
  intro w last
  rw [survivor, level, all]
  rw [lastTo] at last
  rw [last]
  rfl

/-- A tracer that has just gone into filtered code at changelist 5. -/
def filteredTracer : Tracer := ⟨[], 5, true, noPending, false⟩

theorem fetchRegisters_committed_iff_rax :
    ∃ before after, Ingested Arch.x64.config filteredTracer.log before ∧
      Ingested Arch.x64.config (trackWrites filteredTracer
        [⟨4, 1, .word⟩, ⟨0, 7, .double⟩]).commitPendingChanges.log after ∧
      ((after.fetchRegisters (trackWrites filteredTracer
          [⟨4, 1, .word⟩, ⟨0, 7, .double⟩]).commitPendingChanges.changelistNumber)[0] =
          expected 8 [⟨4, 1, .word⟩, ⟨0, 7, .double⟩] 0
            (before.fetchRegisters filteredTracer.changelistNumber)[0] ↔
        Recovered 8 [⟨4, 1, .word⟩, ⟨0, 7, .double⟩] 0
          (before.fetchRegisters filteredTracer.changelistNumber)[0]) := by
  obtain ⟨before, first⟩ := exists_ingested Arch.x64.config filteredTracer.log (by decide)
  obtain ⟨after, second⟩ := exists_ingested Arch.x64.config (trackWrites filteredTracer
    [⟨4, 1, .word⟩, ⟨0, 7, .double⟩]).commitPendingChanges.log (by decide)
  exact ⟨before, after, first, second, fetchRegisters_committed_iff .x64 filteredTracer rfl rfl
    [⟨4, 1, .word⟩, ⟨0, 7, .double⟩] (by decide) before after first second 0 (by decide)⟩

/-- The PowerPC link register, entry 64 of its table, lies past the buffer: its update is lost. -/
theorem fetchRegisters_committed_linkRegister :
    ∃ before after, Ingested Arch.ppc.config filteredTracer.log before ∧
      Ingested Arch.ppc.config (trackWrites filteredTracer
        [⟨4 * 64, 0x1234, .word⟩]).commitPendingChanges.log after ∧
      (∀ w ∈ [(⟨4 * 64, 0x1234, .word⟩ : Write)],
        w.offset.toNat < Arch.ppc.config.registerSize * Arch.ppc.config.registerCount) ∧
      expected 4 [⟨4 * 64, 0x1234, .word⟩] 64
        (before.fetchRegisters filteredTracer.changelistNumber)[64] = 0x1234 ∧
      (after.fetchRegisters (trackWrites filteredTracer
        [⟨4 * 64, 0x1234, .word⟩]).commitPendingChanges.changelistNumber)[64] = 0 := by
  obtain ⟨before, first⟩ := exists_ingested Arch.ppc.config filteredTracer.log (by decide)
  obtain ⟨after, second⟩ := exists_ingested Arch.ppc.config (trackWrites filteredTracer
    [⟨4 * 64, 0x1234, .word⟩]).commitPendingChanges.log (by decide)
  have dropped : (trackWrites filteredTracer
      [⟨4 * 64, 0x1234, .word⟩]).commitPendingChanges.log = [] := by decide
  have number : (trackWrites filteredTracer
      [⟨4 * 64, 0x1234, .word⟩]).commitPendingChanges.changelistNumber = 5 := by decide
  refine ⟨before, after, first, second, by decide, rfl, ?_⟩
  rw [number, second.eq_ingestAll, dropped,
    fetchRegisters_ingestAll Arch.ppc.config [] 5 64 (by decide) List.Pairwise.nil]
  rfl

end Qira.PendingRegisters
