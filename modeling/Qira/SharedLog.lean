import Qira.TraceProcess
import Qira.Library.Machines

/-!
The log file as a tracer and the database share it: the published record count in its first word,
its length, and the record slots. The database's side of the protocol, `Trace::process`, is taken
apart into the steps between which the tracer may run.
-/

namespace Qira.SharedLog
open ChangeRecord TraceIndex TraceProcess Library.Words Library.Machines

/-- `sizeof(struct change)`; the header takes one record's place. -/
def CHANGE_SIZE : Nat := 24

/-- The file: slot `k` is the record at offset `24 * k`. -/
structure LogFile where
  changeCount : EntryNumber
  length : Nat
  slots : Nat → Change

def zeroChange : Change := ⟨0, 0, 0, 0⟩

/-- Where `Trace::process` is: between calls, with a sampled count, or in its loop. -/
inductive Phase
  | idle
  | sampled (entryCount : EntryNumber)
  | ingesting (target : EntryNumber)
  deriving DecidableEq, Repr

/-- The database's thread, with the bytes it has mapped and the records it has read so far. -/
structure Reader (cfg : Config) where
  trace : Trace cfg
  backing : Nat
  phase : Phase
  seen : List Change

def Reader.new (cfg : Config) : Reader cfg := ⟨Trace.new cfg, CHANGE_SIZE, .idle, []⟩

/-- The end of the last page of a mapping of `bytes`. -/
def pageEnd (bytes : Nat) : Nat := (bytes + 4095) / 4096 * 4096

inductive ReaderAction
  | sample | remap | ingest
  deriving DecidableEq, Repr

/-- One step of `process`. `remap_backing` waits until the file is long enough; reading outside the
mapped pages faults. -/
def Reader.step {cfg : Config} (file : LogFile) (r : Reader cfg) : ReaderAction → Option (Reader cfg)
  | .sample =>
      if r.phase = .idle then
        if file.changeCount ≤ r.trace.entriesDone then some r
        else some { r with phase := .sampled file.changeCount }
      else none
  | .remap =>
      match r.phase with
      | .sampled entryCount =>
          if CHANGE_SIZE * entryCount.toNat ≤ file.length then
            some { r with
              backing := CHANGE_SIZE * entryCount.toNat
              phase := .ingesting (clampCount r.trace.entriesDone entryCount) }
          else none
      | _ => none
  | .ingest =>
      match r.phase with
      | .ingesting target =>
          if r.trace.entriesDone = target then some { r with phase := .idle }
          else if CHANGE_SIZE * (r.trace.entriesDone.toNat + 1) ≤ pageEnd r.backing then
            some { r with
              trace := r.trace.ingest (file.slots r.trace.entriesDone.toNat)
              seen := r.seen ++ [file.slots r.trace.entriesDone.toNat] }
          else none
      | _ => none

/-- The entry the next step of the loop reads, if it reads one. -/
def Reader.reading {cfg : Config} (r : Reader cfg) : Option Nat :=
  match r.phase with
  | .ingesting target => if r.trace.entriesDone = target then none else some r.trace.entriesDone.toNat
  | _ => none

theorem concat_prefix_iff {ι : Type*} (front whole : List ι) (x : ι) :
    front ++ [x] <+: whole ↔ front <+: whole ∧ whole[front.length]? = some x := by
  constructor
  · intro covers
    obtain ⟨rest, rfl⟩ := covers
    exact ⟨⟨x :: rest, by simp⟩, by simp⟩
  · intro both
    obtain ⟨⟨rest, rfl⟩, next⟩ := both
    rw [List.getElem?_append_right le_rfl, Nat.sub_self] at next
    obtain ⟨more, rfl⟩ := List.head?_eq_some_iff.mp (List.head?_eq_getElem? (l := rest) ▸ next)
    exact ⟨more, by simp⟩

section Reading
variable {cfg : Config} {file : LogFile} {r r' : Reader cfg}

/-- What a step of the database can do. -/
theorem Reader.step_cases {action : ReaderAction} (taken : r.step file action = some r') :
    (action = .sample ∧ r.phase = .idle ∧ file.changeCount ≤ r.trace.entriesDone ∧ r' = r) ∨
    (action = .sample ∧ r.phase = .idle ∧ r.trace.entriesDone < file.changeCount ∧
      r' = { r with phase := .sampled file.changeCount }) ∨
    (∃ entryCount, action = .remap ∧ r.phase = .sampled entryCount ∧
      CHANGE_SIZE * entryCount.toNat ≤ file.length ∧
      r' = { r with
        backing := CHANGE_SIZE * entryCount.toNat
        phase := .ingesting (clampCount r.trace.entriesDone entryCount) }) ∨
    (action = .ingest ∧ r.phase = .ingesting r.trace.entriesDone ∧
      r' = { r with phase := .idle }) ∨
    (∃ target, action = .ingest ∧ r.phase = .ingesting target ∧ r.trace.entriesDone ≠ target ∧
      CHANGE_SIZE * (r.trace.entriesDone.toNat + 1) ≤ pageEnd r.backing ∧
      r' = { r with
        trace := r.trace.ingest (file.slots r.trace.entriesDone.toNat)
        seen := r.seen ++ [file.slots r.trace.entriesDone.toNat] }) := by
  cases action with
  | sample =>
    simp only [Reader.step] at taken
    split_ifs at taken with idle stale
    · exact Or.inl ⟨rfl, idle, stale, (Option.some.inj taken).symm⟩
    · exact Or.inr (Or.inl ⟨rfl, idle, not_le.mp stale, (Option.some.inj taken).symm⟩)
  | remap =>
    simp only [Reader.step] at taken
    split at taken
    next entryCount sampled =>
      split_ifs at taken with long
      exact Or.inr (Or.inr (Or.inl ⟨entryCount, rfl, sampled, long, (Option.some.inj taken).symm⟩))
    next other => cases taken
  | ingest =>
    simp only [Reader.step] at taken
    split at taken
    next target looping =>
      split_ifs at taken with arrived inPage
      · exact Or.inr (Or.inr (Or.inr (Or.inl
          ⟨rfl, arrived ▸ looping, (Option.some.inj taken).symm⟩)))
      · exact Or.inr (Or.inr (Or.inr (Or.inr
          ⟨target, rfl, looping, arrived, inPage, (Option.some.inj taken).symm⟩)))
    next other => cases taken

theorem Reader.step_sample (idle : r.phase = .idle) (fresh : r.trace.entriesDone < file.changeCount) :
    r.step file .sample = some { r with phase := .sampled file.changeCount } := by
  simp [Reader.step, idle, fresh]

theorem Reader.step_remap {entryCount : EntryNumber} (phase : r.phase = .sampled entryCount)
    (long : CHANGE_SIZE * entryCount.toNat ≤ file.length) :
    r.step file .remap = some { r with
      backing := CHANGE_SIZE * entryCount.toNat
      phase := .ingesting (clampCount r.trace.entriesDone entryCount) } := by
  simp [Reader.step, phase, long]

theorem Reader.step_ingest {target : EntryNumber} (phase : r.phase = .ingesting target)
    (running : r.trace.entriesDone ≠ target)
    (inPage : CHANGE_SIZE * (r.trace.entriesDone.toNat + 1) ≤ pageEnd r.backing) :
    r.step file .ingest = some { r with
      trace := r.trace.ingest (file.slots r.trace.entriesDone.toNat)
      seen := r.seen ++ [file.slots r.trace.entriesDone.toNat] } := by
  simp [Reader.step, phase, running, inPage]

/-- The database is in step with what it has read, and has not gone past the published count. -/
structure Reader.Sound (published : Nat) (r : Reader cfg) : Prop where
  state : r.trace = ingestAll cfg r.seen
  done : r.trace.entriesDone.toNat = r.seen.length + 1
  behind : r.trace.entriesDone.toNat ≤ published
  sampled : ∀ entryCount, r.phase = .sampled entryCount →
    r.trace.entriesDone < entryCount ∧ entryCount.toNat ≤ published
  looping : ∀ target, r.phase = .ingesting target →
    r.trace.entriesDone ≤ target ∧ target.toNat ≤ published ∧
      CHANGE_SIZE * target.toNat ≤ r.backing

theorem Reader.new_sound : (Reader.new cfg).Sound 1 where
  state := rfl
  done := rfl
  behind := le_rfl
  sampled := nofun
  looping := nofun

/-- Publishing more records leaves the database sound. -/
theorem Reader.Sound.mono {published later : Nat} (sound : r.Sound published)
    (grown : published ≤ later) : r.Sound later where
  state := sound.state
  done := sound.done
  behind := sound.behind.trans grown
  sampled := fun entryCount phase =>
    ⟨(sound.sampled entryCount phase).1, (sound.sampled entryCount phase).2.trans grown⟩
  looping := fun target phase =>
    ⟨(sound.looping target phase).1, (sound.looping target phase).2.1.trans grown,
      (sound.looping target phase).2.2⟩

/-- Until the loop has arrived at its target, it is before it. -/
theorem Reader.Sound.before_target {published : Nat} {target : EntryNumber} (sound : r.Sound published)
    (phase : r.phase = .ingesting target) (running : r.trace.entriesDone ≠ target) :
    r.trace.entriesDone.toNat < target.toNat :=
  lt_of_le_of_ne (sound.looping target phase).1 (fun same => running (BitVec.eq_of_toNat_eq same))

theorem Reader.Sound.next_toNat {published : Nat} {target : EntryNumber} (sound : r.Sound published)
    (phase : r.phase = .ingesting target) (running : r.trace.entriesDone ≠ target) :
    (r.trace.entriesDone + 1).toNat = r.trace.entriesDone.toNat + 1 := by
  have below := sound.before_target phase running
  have bound := target.isLt
  exact toNat_succ _ (by omega)

/-- The entry read next is the one after those seen, and is published and mapped. -/
theorem Reader.Sound.reading {published e : Nat} (sound : r.Sound published)
    (next : r.reading = some e) :
    e = r.seen.length + 1 ∧ e < published ∧ CHANGE_SIZE * (e + 1) ≤ r.backing := by
  unfold Reader.reading at next
  split at next
  next target looping =>
    split_ifs at next with arrived
    obtain ⟨-, inside, mapping⟩ := sound.looping target looping
    have below := sound.before_target looping arrived
    obtain rfl := Option.some.inj next
    refine ⟨sound.done, below.trans_le inside, le_trans ?_ mapping⟩
    exact Nat.mul_le_mul_left _ below
  next other => cases next

/-- Where the clamp cannot wrap, a step of the database keeps it sound; it reads the entry that is
next, or nothing. -/
theorem Reader.Sound.step {action : ReaderAction} (sound : r.Sound file.changeCount.toNat)
    (noWrap : file.changeCount.toNat + BATCH.toNat ≤ 2 ^ 32)
    (taken : r.step file action = some r') :
    r'.Sound file.changeCount.toNat ∧
      (r'.seen = r.seen ∧ (action = .ingest → r.reading = none) ∨
        action = .ingest ∧ ∃ e, r.reading = some e ∧ r'.seen = r.seen ++ [file.slots e]) := by
  have whole := sound
  obtain ⟨state, done, behind, sampled, looping⟩ := sound
  rcases Reader.step_cases taken with ⟨rfl, idle, stale, rfl⟩ | ⟨rfl, idle, fresh, rfl⟩ |
    ⟨entryCount, rfl, phase, long, rfl⟩ | ⟨rfl, phase, rfl⟩ | ⟨target, rfl, phase, running, -, rfl⟩
  · exact ⟨⟨state, done, behind, sampled, looping⟩, Or.inl ⟨rfl, nofun⟩⟩
  · refine ⟨⟨state, done, behind, ?_, nofun⟩, Or.inl ⟨rfl, nofun⟩⟩
    intro entryCount same
    obtain rfl := Phase.sampled.inj same
    exact ⟨fresh, le_rfl⟩
  · obtain ⟨fresh, inside⟩ := sampled entryCount phase
    refine ⟨⟨state, done, behind, nofun, ?_⟩, Or.inl ⟨rfl, nofun⟩⟩
    intro target same
    obtain rfl := Phase.ingesting.inj same
    have clamped := clampCount_toNat r.trace.entriesDone entryCount (by omega) fresh
    have ahead : r.trace.entriesDone.toNat < entryCount.toNat := fresh
    refine ⟨?_, by omega, Nat.mul_le_mul_left _ (by omega)⟩
    change r.trace.entriesDone.toNat ≤ _
    omega
  · refine ⟨⟨state, done, behind, nofun, nofun⟩, Or.inl ⟨rfl, fun _ => ?_⟩⟩
    simp [Reader.reading, phase]
  · obtain ⟨-, inside, mapping⟩ := looping target phase
    have below := whole.before_target phase running
    have next := whole.next_toNat phase running
    refine ⟨⟨?_, ?_, ?_, ?_, ?_⟩, Or.inr ⟨rfl, r.trace.entriesDone.toNat, ?_, rfl⟩⟩
    · change r.trace.ingest _ = ingestAll cfg (r.seen ++ [_])
      rw [ingestAll_concat, ← state]
    · change (r.trace.entriesDone + 1).toNat = (r.seen ++ [_]).length + 1
      rw [next, done, List.length_append, List.length_singleton]
    · change (r.trace.entriesDone + 1).toNat ≤ _
      omega
    · intro entryCount other
      rw [phase] at other
      cases other
    · intro other same
      rw [phase] at same
      obtain rfl := Phase.ingesting.inj same
      refine ⟨?_, inside, mapping⟩
      change (r.trace.entriesDone + 1).toNat ≤ target.toNat
      omega
    · simp [Reader.reading, phase, running]

theorem Reader.step_mapping {action : ReaderAction} (mapping : r.backing ≤ file.length)
    (taken : r.step file action = some r') : r'.backing ≤ file.length := by
  rcases Reader.step_cases taken with ⟨-, -, -, rfl⟩ | ⟨-, -, -, rfl⟩ | ⟨_, -, -, long, rfl⟩ |
    ⟨-, -, rfl⟩ | ⟨_, -, -, -, -, rfl⟩
  · exact mapping
  · exact mapping
  · exact long
  · exact mapping
  · exact mapping

theorem le_pageEnd (bytes : Nat) : bytes ≤ pageEnd bytes := by
  unfold pageEnd
  omega

/-- How many entries are left, and how far the call under way is from reading one. -/
def Reader.distance (published : Nat) (r : Reader cfg) : Nat :=
  4 * (published - r.trace.entriesDone.toNat) +
    match r.phase with
    | .idle => 2
    | .sampled _ => 1
    | .ingesting target => if r.trace.entriesDone = target then 3 else 0

/-- While the tracer rests, calls of `process` take in everything published. -/
theorem Reader.Sound.catches_up (sound : r.Sound file.changeCount.toNat)
    (noWrap : file.changeCount.toNat + BATCH.toNat ≤ 2 ^ 32)
    (long : CHANGE_SIZE * file.changeCount.toNat ≤ file.length) :
    ∃ r', Reaches (Reader.step file) r r' ∧ r'.Sound file.changeCount.toNat ∧
      r'.phase = .idle ∧ r'.trace.entriesDone = file.changeCount := by
  apply reaches_of_progress (Reader.Sound file.changeCount.toNat)
    (fun r => r.phase = .idle ∧ r.trace.entriesDone = file.changeCount)
    (Reader.distance file.changeCount.toNat) _ sound
  intro r sound behind
  have bound := sound.behind
  cases phase : r.phase with
  | idle =>
    have fresh : r.trace.entriesDone < file.changeCount :=
      not_le.mp (fun stale => behind ⟨phase, le_antisymm bound stale⟩)
    have taken := Reader.step_sample phase fresh
    refine ⟨_, _, taken, (sound.step noWrap taken).1, ?_⟩
    simp [Reader.distance, phase]
  | sampled entryCount =>
    obtain ⟨fresh, inside⟩ := sound.sampled entryCount phase
    have fits : CHANGE_SIZE * entryCount.toNat ≤ file.length :=
      (Nat.mul_le_mul_left _ inside).trans long
    have taken := Reader.step_remap phase fits
    have clamped := clampCount_toNat r.trace.entriesDone entryCount (by omega) fresh
    have ahead : r.trace.entriesDone ≠ clampCount r.trace.entriesDone entryCount := by
      intro same
      have batch : 0 < BATCH.toNat := by decide
      have below : r.trace.entriesDone.toNat < entryCount.toNat := fresh
      rw [← same] at clamped
      omega
    refine ⟨_, _, taken, (sound.step noWrap taken).1, ?_⟩
    simp [Reader.distance, phase, ahead]
  | ingesting target =>
    by_cases arrived : r.trace.entriesDone = target
    · have taken : r.step file .ingest = some { r with phase := .idle } := by
        simp [Reader.step, phase, arrived]
      refine ⟨_, _, taken, (sound.step noWrap taken).1, ?_⟩
      simp [Reader.distance, phase, arrived]
    · have next : r.reading = some r.trace.entriesDone.toNat := by
        simp [Reader.reading, phase, arrived]
      obtain ⟨-, below, mapping⟩ := sound.reading next
      have taken : r.step file .ingest = some _ :=
        Reader.step_ingest phase arrived (mapping.trans (le_pageEnd r.backing))
      refine ⟨_, _, taken, (sound.step noWrap taken).1, ?_⟩
      have more := sound.next_toNat phase arrived
      have closer : file.changeCount.toNat - (r.trace.entriesDone + 1).toNat + 1 =
          file.changeCount.toNat - r.trace.entriesDone.toNat := by omega
      unfold Reader.distance
      simp only [phase, arrived, if_false]
      change 4 * (file.changeCount.toNat - (r.trace.entriesDone + 1).toNat) +
        (if r.trace.entriesDone + 1 = target then 3 else 0) < _
      split <;> omega

end Reading

end Qira.SharedLog
