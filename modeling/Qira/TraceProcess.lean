import Qira.TraceIndex

/-!
Ingestion in batches. `Trace::process` samples the published record count, maps that many records,
and ingests at most a million of them; all its counters are 32-bit. Whatever counts the polls
observe, the database holds the records below `entries_done_`, ingested once each and in order.
-/

namespace Qira.TraceProcess
open ChangeRecord TraceIndex

/-- Reading `backing_[k]` once `remap_backing` has mapped `entryCount` records. Slot 0 is the
header; a read at or past the mapped count faults. -/
def mapped (log : List Change) (entryCount k : EntryNumber) : Option Change :=
  if 0 < k ∧ k < entryCount then log[k.toNat - 1]? else none

/-- `while (entries_done_ != entry_count)`; `none` is a fault. -/
def processLoop {cfg : Config} (read : EntryNumber → Option Change) (entryCount : EntryNumber)
    (t : Trace cfg) : Option (Trace cfg) :=
  if t.entriesDone = entryCount then some t
  else
    match read t.entriesDone with
    | none => none
    | some c => processLoop read entryCount (t.ingest c)
termination_by (entryCount - t.entriesDone).toNat
decreasing_by
  change (entryCount - (t.entriesDone + 1)).toNat < (entryCount - t.entriesDone).toNat
  bv_omega

/-- The most entries one call takes in. -/
def BATCH : EntryNumber := 1000000

/-- The clamp, in 32-bit arithmetic. -/
def clampCount (entriesDone entryCount : EntryNumber) : EntryNumber :=
  if entriesDone + BATCH < entryCount then entriesDone + BATCH else entryCount

theorem batch_toNat : BATCH.toNat = 1000000 := by simp [BATCH]

/-- One call of `Trace::process` that samples `entryCount`. -/
def process {cfg : Config} (log : List Change) (t : Trace cfg) (entryCount : EntryNumber) :
    Option (Trace cfg) :=
  if entryCount ≤ t.entriesDone then some t
  else processLoop (mapped log entryCount) (clampCount t.entriesDone entryCount) t

/-- The polling thread: one call of `process` for each sampled count. -/
def polls {cfg : Config} (log : List Change) (t : Trace cfg) (counts : List EntryNumber) :
    Option (Trace cfg) :=
  counts.foldlM (process log) t

/-- The database holds exactly the first `k` records of the log. -/
structure Holds {cfg : Config} (log : List Change) (k : Nat) (t : Trace cfg) : Prop where
  state : t = ingestAll cfg (log.take k)
  inLog : k ≤ log.length
  counted : k + 1 < 2 ^ 32

section Holding
variable {cfg : Config} {log : List Change} {t t' : Trace cfg} {k : Nat}

theorem Holds.new (log : List Change) : Holds log 0 (Trace.new cfg) :=
  ⟨by simp [ingestAll], Nat.zero_le _, by decide⟩

theorem Holds.entriesDone (held : Holds log k t) : t.entriesDone.toNat = k + 1 := by
  have length : (log.take k).length = k := List.length_take_of_le held.inLog
  rw [held.state, entriesDone_ingestAll _ _ (by rw [length]; exact held.counted), length]

/-- Ingesting the next record keeps the database in step with the log. -/
theorem Holds.ingest {c : Change} (held : Holds log k t) (next : log[k]? = some c)
    (room : k + 2 < 2 ^ 32) : Holds log (k + 1) (t.ingest c) := by
  have inside : k < log.length := (List.getElem?_eq_some_iff.mp next).1
  refine ⟨?_, inside, room⟩
  have grown : log.take (k + 1) = log.take k ++ [c] := by
    rw [List.take_add_one, next, Option.toList_some]
  rw [grown, ingestAll_concat, ← held.state]

theorem mapped_some {entryCount n : EntryNumber} {c : Change}
    (read : mapped log entryCount n = some c) :
    0 < n.toNat ∧ n.toNat < entryCount.toNat ∧ log[n.toNat - 1]? = some c := by
  unfold mapped at read
  split at read
  next inside => exact ⟨inside.1, inside.2, read⟩
  next outside => cases read

theorem mapped_next (held : Holds log k t) (entryCount : EntryNumber)
    (below : k + 1 < entryCount.toNat) : mapped log entryCount t.entriesDone = log[k]? := by
  have done := held.entriesDone
  have inside : 0 < t.entriesDone ∧ t.entriesDone < entryCount := by
    constructor <;> bv_omega
  rw [mapped, if_pos inside, done, Nat.add_sub_cancel]

/-- A loop that does not fault ingests records of the log, each in its place. -/
theorem processLoop_holds (entryCount target : EntryNumber) (held : Holds log k t)
    (ran : processLoop (mapped log entryCount) target t = some t') : ∃ k', Holds log k' t' := by
  induction t using processLoop.induct (mapped log entryCount) target generalizing k with
  | case1 t arrived =>
    rw [processLoop, if_pos arrived, Option.some.injEq] at ran
    exact ⟨k, ran ▸ held⟩
  | case2 t running fault =>
    rw [processLoop, if_neg running, fault] at ran
    cases ran
  | case3 t running c read ih =>
    rw [processLoop, if_neg running, read] at ran
    obtain ⟨-, below, next⟩ := mapped_some read
    rw [held.entriesDone] at below next
    exact ih (held.ingest next (by have := entryCount.isLt; omega)) ran

/-- A loop bounded by a published count runs up to its target. -/
theorem processLoop_reaches (entryCount target : EntryNumber) (held : Holds log k t)
    (ahead : k + 1 ≤ target.toNat) (clamped : target.toNat ≤ entryCount.toNat)
    (published : entryCount.toNat ≤ log.length + 1) :
    ∃ t', processLoop (mapped log entryCount) target t = some t' ∧
      Holds log (target.toNat - 1) t' := by
  obtain ⟨left, distance⟩ : ∃ left, target.toNat = k + 1 + left := ⟨_, (Nat.add_sub_of_le ahead).symm⟩
  induction left generalizing t k with
  | zero =>
    have arrived : t.entriesDone = target := by
      apply BitVec.eq_of_toNat_eq
      rw [held.entriesDone, distance, Nat.add_zero]
    refine ⟨t, by rw [processLoop, if_pos arrived], ?_⟩
    rw [distance]
    exact held
  | succ left ih =>
    have running : t.entriesDone ≠ target := by
      intro equal
      have done := held.entriesDone
      rw [equal] at done
      omega
    obtain ⟨c, next⟩ : ∃ c, log[k]? = some c := ⟨log[k], List.getElem?_eq_getElem (by omega)⟩
    have read := mapped_next held entryCount (by omega)
    rw [processLoop, if_neg running, read, next]
    exact ih (held.ingest next (by have := target.isLt; omega)) (by omega) (by omega)

theorem process_holds (entryCount : EntryNumber) (held : Holds log k t)
    (ran : process log t entryCount = some t') : ∃ k', Holds log k' t' := by
  unfold process at ran
  split at ran
  next stale => exact ⟨k, Option.some.inj ran ▸ held⟩
  next fresh => exact processLoop_holds entryCount _ held ran

/-- Whatever the polls observed, a database that did not fault holds a prefix of the log. -/
theorem polls_holds (counts : List EntryNumber) (held : Holds log k t)
    (ran : polls log t counts = some t') : ∃ k', Holds log k' t' := by
  induction counts generalizing t k with
  | nil => exact ⟨k, Option.some.inj ran ▸ held⟩
  | cons n rest ih =>
    obtain ⟨mid, first, later⟩ := Option.bind_eq_some_iff.mp ran
    obtain ⟨_, midHeld⟩ := process_holds n held first
    exact ih midHeld later

theorem noWrap_of_le (bound : Nat) (small : bound ≤ 2 ^ 31) : bound + BATCH.toNat ≤ 2 ^ 32 := by
  rw [batch_toNat]
  omega

theorem clampCount_toNat (entriesDone entryCount : EntryNumber)
    (noWrap : entryCount.toNat + BATCH.toNat ≤ 2 ^ 32) (fresh : entriesDone < entryCount) :
    (clampCount entriesDone entryCount).toNat =
      min (entriesDone.toNat + BATCH.toNat) entryCount.toNat := by
  have ahead : entriesDone.toNat < entryCount.toNat := fresh
  have sum : (entriesDone + BATCH).toNat = entriesDone.toNat + BATCH.toNat := by
    rw [BitVec.toNat_add, Nat.mod_eq_of_lt (by omega)]
  unfold clampCount
  split
  next cut =>
    have cut' : (entriesDone + BATCH).toNat < entryCount.toNat := cut
    rw [sum] at cut' ⊢
    exact (min_eq_left cut'.le).symm
  next whole =>
    have whole' : ¬ (entriesDone + BATCH).toNat < entryCount.toNat := whole
    rw [sum] at whole'
    exact (min_eq_right (not_lt.mp whole')).symm

/-- Where the clamp cannot wrap, one call takes in a batch, or everything up to the count. -/
theorem process_reaches (entryCount : EntryNumber) (held : Holds log k t)
    (noWrap : entryCount.toNat + BATCH.toNat ≤ 2 ^ 32)
    (published : entryCount.toNat ≤ log.length + 1) :
    ∃ t' k', process log t entryCount = some t' ∧ Holds log k' t' ∧
      k' = max k (min (k + BATCH.toNat) (entryCount.toNat - 1)) := by
  have done := held.entriesDone
  by_cases stale : entryCount ≤ t.entriesDone
  · have behind : entryCount.toNat ≤ t.entriesDone.toNat := stale
    exact ⟨t, k, by rw [process, if_pos stale], held, by omega⟩
  · have fresh : t.entriesDone < entryCount := not_le.mp stale
    have ahead : t.entriesDone.toNat < entryCount.toNat := fresh
    have target := clampCount_toNat t.entriesDone entryCount noWrap fresh
    have batch : 0 < BATCH.toNat := by decide
    obtain ⟨t', ran, reached⟩ := processLoop_reaches entryCount
      (clampCount t.entriesDone entryCount) held (by omega) (by omega) published
    exact ⟨t', _, by rw [process, if_neg stale, ran], reached, by omega⟩

/-- So one call makes progress and does not pass the count. -/
theorem process_advances (entryCount : EntryNumber) (held : Holds log k t)
    (noWrap : entryCount.toNat + BATCH.toNat ≤ 2 ^ 32)
    (published : entryCount.toNat ≤ log.length + 1) :
    ∃ t' k', process log t entryCount = some t' ∧ Holds log k' t' ∧
      min (k + 1) (entryCount.toNat - 1) ≤ k' ∧ k' ≤ max k (entryCount.toNat - 1) := by
  obtain ⟨t', k', ran, reached, exactly⟩ := process_reaches entryCount held noWrap published
  have batch : 0 < BATCH.toNat := by decide
  exact ⟨t', k', ran, reached, by omega, by omega⟩

theorem polls_reaches (counts : List EntryNumber) (bound : Nat) (held : Holds log k t)
    (noWrap : bound + BATCH.toNat ≤ 2 ^ 32) (published : bound ≤ log.length + 1)
    (below : ∀ n ∈ counts, n.toNat ≤ bound) :
    ∃ t' k', polls log t counts = some t' ∧ Holds log k' t' ∧ k' ≤ max k (bound - 1) := by
  induction counts generalizing t k with
  | nil => exact ⟨t, k, rfl, held, le_max_left _ _⟩
  | cons n rest ih =>
    have first := below n List.mem_cons_self
    obtain ⟨mid, _, ran, midHeld, -, near⟩ := process_advances n held (by omega) (by omega)
    obtain ⟨t', k', later, last, small⟩ :=
      ih midHeld (fun m member => below m (List.mem_cons_of_mem _ member))
    refine ⟨t', k', ?_, last, by omega⟩
    rw [polls, List.foldlM_cons, ran]
    exact later

/-- A count sampled again and again is approached by at least one entry a call. -/
theorem replicate_reaches (n : EntryNumber) (calls : Nat) (held : Holds log k t)
    (noWrap : n.toNat + BATCH.toNat ≤ 2 ^ 32) (published : n.toNat ≤ log.length + 1) :
    ∃ t' k', polls log t (List.replicate calls n) = some t' ∧ Holds log k' t' ∧
      min (k + calls) (n.toNat - 1) ≤ k' ∧ k' ≤ max k (n.toNat - 1) := by
  induction calls generalizing t k with
  | zero => exact ⟨t, k, rfl, held, by omega, by omega⟩
  | succ calls ih =>
    obtain ⟨mid, _, ran, midHeld, _, _⟩ := process_advances n held noWrap published
    obtain ⟨t', k', later, last, far, near⟩ := ih midHeld
    refine ⟨t', k', ?_, last, by omega, by omega⟩
    rw [polls, List.replicate_succ, List.foldlM_cons, ran]
    exact later

end Holding

/-- Batching of ingestion is invisible. For every schedule of polls that see nondecreasing published
counts, no read faults, so none is at or past the published count; the state is that of ingesting
the records below `entries_done_` one by one; a call with nothing new does nothing; and once the
count stops growing, finitely many calls reach it. -/
theorem polls_exact (cfg : Config) (log : List Change) (counts : List EntryNumber)
    (few : log.length < 2 ^ 31) (ordered : counts.Pairwise (· ≤ ·))
    (published : ∀ n ∈ counts, n.toNat ≤ log.length + 1) :
    ∃ t, polls log (Trace.new cfg) counts = some t ∧
      1 ≤ t.entriesDone.toNat ∧ t.entriesDone.toNat ≤ log.length + 1 ∧
      t = ingestAll cfg (log.take (t.entriesDone.toNat - 1)) ∧
      (∀ n, n ≤ t.entriesDone → process log t n = some t) ∧
      ∀ last, counts.getLast? = some last →
        t.entriesDone.toNat ≤ max 1 last.toNat ∧
        ∃ calls, ∀ more, calls ≤ more →
          ∃ t', polls log t (List.replicate more last) = some t' ∧
            t'.entriesDone.toNat = max 1 last.toNat := by
  obtain ⟨t, k, ran, held, -⟩ := polls_reaches counts (log.length + 1) (@Holds.new cfg log)
    (noWrap_of_le _ few) le_rfl published
  have done := held.entriesDone
  have inLog := held.inLog
  refine ⟨t, ran, by omega, by omega, ?_, ?_, ?_⟩
  · rw [done, Nat.add_sub_cancel]
    exact held.state
  · intro n stale
    rw [process, if_pos stale]
  · intro last isLast
    have lastPublished := published last (List.mem_of_getLast? isLast)
    have noWrap := noWrap_of_le last.toNat (by omega)
    have small : k ≤ last.toNat - 1 := by
      obtain ⟨front, rfl⟩ := List.getLast?_eq_some_iff.mp isLast
      have greatest : ∀ n ∈ front ++ [last], n.toNat ≤ last.toNat := by
        intro n member
        rcases List.mem_append.mp member with inFront | isEnd
        · exact (List.pairwise_append.mp ordered).2.2 n inFront last (by simp)
        · rw [List.mem_singleton.mp isEnd]
      obtain ⟨t', k', ran', held', bound⟩ := polls_reaches (front ++ [last]) last.toNat
        (@Holds.new cfg log) noWrap lastPublished greatest
      have same : t' = t := Option.some.inj (ran'.symm.trans ran)
      have done' := held'.entriesDone
      rw [same, done] at done'
      omega
    refine ⟨by omega, last.toNat, ?_⟩
    intro more enough
    obtain ⟨t', k', later, lastHeld, far, near⟩ :=
      replicate_reaches last more held noWrap lastPublished
    refine ⟨t', later, ?_⟩
    rw [lastHeld.entriesDone]
    omega

theorem polls_exact_three_polls :
    ∃ t, polls [⟨8, 5, 1, 0xC0000020⟩, ⟨4096, 7, 1, 0xA0000008⟩] (Trace.new ⟨false, 4, 9⟩)
        [1, 3, 3] = some t ∧
      1 ≤ t.entriesDone.toNat ∧ t.entriesDone.toNat ≤ 3 ∧
      t = ingestAll ⟨false, 4, 9⟩
        ([⟨8, 5, 1, 0xC0000020⟩, ⟨4096, 7, 1, 0xA0000008⟩].take (t.entriesDone.toNat - 1)) ∧
      (∀ n, n ≤ t.entriesDone →
        process [⟨8, 5, 1, 0xC0000020⟩, ⟨4096, 7, 1, 0xA0000008⟩] t n = some t) ∧
      ∀ last, [1, 3, 3].getLast? = some last →
        t.entriesDone.toNat ≤ max 1 last.toNat ∧
        ∃ calls, ∀ more, calls ≤ more →
          ∃ t', polls [⟨8, 5, 1, 0xC0000020⟩, ⟨4096, 7, 1, 0xA0000008⟩] t
              (List.replicate more last) = some t' ∧
            t'.entriesDone.toNat = max 1 last.toNat :=
  polls_exact ⟨false, 4, 9⟩ [⟨8, 5, 1, 0xC0000020⟩, ⟨4096, 7, 1, 0xA0000008⟩] [1, 3, 3]
    (by decide) (by decide) (by simp)

/-- The database after its polls have taken in every record of the log. -/
def Ingested (cfg : Config) (log : List Change) (t : Trace cfg) : Prop :=
  ∃ counts, polls log (Trace.new cfg) counts = some t ∧ t.entriesDone.toNat = log.length + 1

theorem Ingested.eq_ingestAll {cfg : Config} {log : List Change} {t : Trace cfg}
    (ingested : Ingested cfg log t) : t = ingestAll cfg log := by
  obtain ⟨counts, ran, finished⟩ := ingested
  obtain ⟨k, held⟩ := polls_holds counts (Holds.new log) ran
  have done := held.entriesDone
  rw [held.state, List.take_of_length_le (by omega)]

/-- Every log short enough for the clamp not to wrap is taken in by some polls. -/
theorem exists_ingested (cfg : Config) (log : List Change)
    (few : log.length + 1 + BATCH.toNat ≤ 2 ^ 32) : ∃ t, Ingested cfg log t := by
  have count : (BitVec.ofNat 32 (log.length + 1)).toNat = log.length + 1 := by
    rw [BitVec.toNat_ofNat, Nat.mod_eq_of_lt]
    have batch : 0 < BATCH.toNat := by decide
    omega
  obtain ⟨t, k, ran, held, far, near⟩ := replicate_reaches (BitVec.ofNat 32 (log.length + 1))
    log.length (@Holds.new cfg log) (by omega) (by omega)
  refine ⟨t, _, ran, ?_⟩
  rw [held.entriesDone]
  omega

end Qira.TraceProcess
