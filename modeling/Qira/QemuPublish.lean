import Qira.QemuBuffer
import Qira.QemuTracer

/-!
The QEMU tracer and the database on one log file. Every thread of the guest calls `add_change`, which
publishes the new count before it has made room for the record and filled it in, so the database can
take in slots that are still empty.
-/

namespace Qira.QemuPublish
open ChangeRecord QemuTracer TraceIndex TraceProcess SharedLog QemuBuffer
open Library.Words Library.Machines

/-- A thread of the guest; Linux numbers them below `PID_MAX_LIMIT`. -/
abbrev Thread := Fin (2 ^ 22)

/-- Where a thread is in `add_change`: it has drawn an index, and then made room for it. -/
inductive Writer
  | idle
  | drawn (cc : EntryNumber) (addr : Address) (data : BitVec 64) (flags : BitVec 32)
  | grown (cc : EntryNumber) (addr : Address) (data : BitVec 64) (flags : BitVec 32)
  deriving DecidableEq, Repr

/-- Both programs and the file between them. `written` has the record that the call for an index has
written, once it has. -/
structure System (cfg : Config) where
  file : LogFile
  buffer : Buffer
  changelistNumber : Clnum
  writers : Thread → Writer
  written : Nat → Option Change
  reader : Reader cfg

def System.start (cfg : Config) (startClnum : Clnum) : System cfg where
  file := initLog
  buffer := initBuffer
  changelistNumber := startClnum - 1
  writers := fun _ => .idle
  written := fun _ => none
  reader := Reader.new cfg

inductive Action
  | call (thread : Thread) (addr : Address) (data : BitVec 64) (flags : BitVec 32)
  | grow (thread : Thread)
  | fill (thread : Thread)
  | changelist (clnum : Clnum)
  | database (action : ReaderAction)
  deriving DecidableEq

def System.step {cfg : Config} (s : System cfg) : Action → Option (System cfg)
  | .call thread addr data flags =>
      if s.writers thread = .idle then
        some { s with
          file := { s.file with changeCount := s.file.changeCount + 1 }
          writers := Function.update s.writers thread (.drawn s.file.changeCount addr data flags) }
      else none
  | .grow thread =>
      match s.writers thread with
      | .drawn cc addr data flags =>
          some { s with
            file := (growBuffer cc s.buffer s.file).2
            buffer := (growBuffer cc s.buffer s.file).1
            writers := Function.update s.writers thread (.grown cc addr data flags) }
      | _ => none
  | .fill thread =>
      match s.writers thread with
      | .grown cc addr data flags =>
          -- a write outside the mapping kills the tracer, and its index stays drawn
          if s.buffer.fits cc then
            let record : Change := ⟨addr, data, s.changelistNumber, IS_VALID ||| flags⟩
            some { s with
              file := putChange s.file cc record
              writers := Function.update s.writers thread .idle
              written := Function.update s.written cc.toNat (some record) }
          else none
      | _ => none
  | .changelist clnum => some { s with changelistNumber := clnum }
  | .database action =>
      (s.reader.step s.file action).map (fun reader => { s with reader := reader })

/-- The index a thread has drawn and not yet filled in. -/
def Writer.inFlight : Writer → Option Nat
  | .idle => none
  | .drawn cc _ _ _ => some cc.toNat
  | .grown cc _ _ _ => some cc.toNat

/-- Some call of `add_change` has drawn the index and has not filled it in. -/
def InProgress (writers : Thread → Writer) (k : Nat) : Prop := ∃ thread, (writers thread).inFlight = some k

/-- The database has taken in, at each index, the record that the call for this index has written. -/
def Agrees {cfg : Config} (s : System cfg) : Prop :=
  s.reader.trace = ingestAll cfg s.reader.seen ∧
    ∀ k record, s.reader.seen[k]? = some record → s.written (k + 1) = some record

/-- No call is in progress for an index that the database, with the count it has sampled, is to take in. -/
def Settled {cfg : Config} (s : System cfg) : Prop :=
  ∀ entryCount, s.reader.phase = .sampled entryCount → ∀ k, s.reader.trace.entriesDone.toNat ≤ k →
    k < (clampCount s.reader.trace.entriesDone entryCount).toNat → ¬ InProgress s.writers k

/-- No two threads are at the same index. -/
def Apart (writers : Thread → Writer) : Prop :=
  ∀ first second k, (writers first).inFlight = some k → (writers second).inFlight = some k → first = second

/-- The loop of `process` begins in a settled state. -/
def BeginsSettled {cfg : Config} (s : System cfg) (action : Action) : Prop :=
  action = .database .remap → Settled s

/-- The size is a power of two; after 2^31 it has wrapped to 0. -/
def Doubled (b : Buffer) : Prop :=
  ∃ j ≤ 32, b.capacity = 2 ^ j ∧ b.changeSize = BitVec.ofNat 32 (2 ^ j)

/-- What holds in every state, whatever the database has read: each index drawn has one call, that is in
progress or has left its record in the slot. -/
structure Sound {cfg : Config} (s : System cfg) : Prop where
  drawn : ∀ k, (s.written k).isSome ∨ InProgress s.writers k ↔ 1 ≤ k ∧ k < s.file.changeCount.toNat
  unwritten : ∀ k, InProgress s.writers k → s.written k = none
  apart : Apart s.writers
  held : ∀ k record, s.written k = some record →
    s.file.slots k = record ∧ k < s.buffer.capacity ∧ k < 2 ^ 31
  doubled : Doubled s.buffer
  reader : s.reader.Sound s.file.changeCount.toNat

/-- What the loop of `process` is still to read has been filled in. -/
def Secured {cfg : Config} (s : System cfg) : Prop :=
  ∀ target, s.reader.phase = .ingesting target → ∀ k, s.reader.trace.entriesDone.toNat ≤ k →
    k < target.toNat → (s.written k).isSome

section Steps
variable {cfg : Config} {s t : System cfg}

theorem start_sound (cfg : Config) (startClnum : Clnum) : Sound (System.start cfg startClnum) where
  drawn := by
    intro k
    have none : ¬ InProgress (System.start cfg startClnum).writers k := by
      intro busy
      obtain ⟨thread, flight⟩ := busy
      cases flight
    apply iff_of_false
    · exact not_or.mpr ⟨nofun, none⟩
    · change ¬ (1 ≤ k ∧ k < 1)
      omega
  unwritten := fun _ _ => rfl
  apart := nofun
  held := nofun
  doubled := ⟨0, by omega, rfl, rfl⟩
  reader := Reader.new_sound

/-- At most one index per thread is not filled in, and the filled ones are positive as an `int`. -/
theorem Sound.count_le (sound : Sound s) : s.file.changeCount.toNat ≤ 2 ^ 31 + 2 ^ 22 := by
  by_contra many
  have busy : ∀ i : Fin (2 ^ 22 + 1), InProgress s.writers (2 ^ 31 + i.val) := by
    intro i
    have below := i.isLt
    rcases (sound.drawn (2 ^ 31 + i.val)).mpr (by omega) with filled | busy
    · obtain ⟨record, written⟩ := Option.isSome_iff_exists.mp filled
      have small := (sound.held _ _ written).2.2
      omega
    · exact busy
  choose thread flight using busy
  have apart : Function.Injective thread := by
    intro i j same
    have equal := (flight i).symm.trans (same ▸ flight j)
    apply Fin.ext
    have sums := Option.some.inj equal
    omega
  have card := Fintype.card_le_of_injective thread apart
  rw [Fintype.card_fin, Fintype.card_fin] at card
  omega

theorem Sound.noWrap (sound : Sound s) : s.file.changeCount.toNat + BATCH.toNat ≤ 2 ^ 32 := by
  have few := sound.count_le
  rw [batch_toNat]
  omega

theorem inProgress_update (writers : Thread → Writer) (thread : Thread) (next : Writer) (k : Nat) :
    InProgress (Function.update writers thread next) k ↔
      next.inFlight = some k ∨ ∃ other, other ≠ thread ∧ (writers other).inFlight = some k := by
  unfold InProgress
  constructor
  · intro busy
    obtain ⟨other, flight⟩ := busy
    by_cases same : other = thread
    · rw [same, Function.update_self] at flight
      exact Or.inl flight
    · rw [Function.update_of_ne same] at flight
      exact Or.inr ⟨other, same, flight⟩
  · intro either
    rcases either with flight | ⟨other, different, flight⟩
    · exact ⟨thread, by rw [Function.update_self]; exact flight⟩
    · exact ⟨other, by rw [Function.update_of_ne different]; exact flight⟩

/-- Drawing an index puts it in progress, beside those that were. -/
theorem inProgress_draw {writers : Thread → Writer} {thread : Thread} (idle : writers thread = .idle)
    (next : Writer) (k : Nat) :
    InProgress (Function.update writers thread next) k ↔ next.inFlight = some k ∨ InProgress writers k := by
  rw [inProgress_update]
  apply or_congr_right
  constructor
  · intro busy
    obtain ⟨other, -, flight⟩ := busy
    exact ⟨other, flight⟩
  · intro busy
    obtain ⟨other, flight⟩ := busy
    refine ⟨other, ?_, flight⟩
    intro same
    rw [same, idle] at flight
    cases flight

/-- Threads stay apart when one of them turns to an index that no other is at. -/
theorem Apart.update {writers : Thread → Writer} {thread : Thread} {next : Writer} (apart : Apart writers)
    (fresh : ∀ k, next.inFlight = some k → ∀ other, other ≠ thread → (writers other).inFlight ≠ some k) :
    Apart (Function.update writers thread next) := by
  intro first second k one two
  by_cases isFirst : first = thread <;> by_cases isSecond : second = thread
  · rw [isFirst, isSecond]
  · rw [isFirst, Function.update_self] at one
    rw [Function.update_of_ne isSecond] at two
    exact absurd two (fresh k one second isSecond)
  · rw [isSecond, Function.update_self] at two
    rw [Function.update_of_ne isFirst] at one
    exact absurd one (fresh k two first isFirst)
  · rw [Function.update_of_ne isFirst] at one
    rw [Function.update_of_ne isSecond] at two
    exact apart first second k one two

/-- A thread that stays with its index changes nothing in progress. -/
theorem inFlight_update_same {writers : Thread → Writer} {thread : Thread} {next : Writer}
    (same : next.inFlight = (writers thread).inFlight) (other : Thread) :
    (Function.update writers thread next other).inFlight = (writers other).inFlight := by
  by_cases here : other = thread
  · rw [here, Function.update_self, same]
  · rw [Function.update_of_ne here]

/-- The index that grows the buffer is its size, so the growth keeps all that fitted before. -/
theorem growBuffer_facts {cc : EntryNumber} {b : Buffer} (doubled : Doubled b) (positive : 1 ≤ cc.toNat)
    (file : LogFile) :
    (growBuffer cc b file).2.changeCount = file.changeCount ∧ Doubled (growBuffer cc b file).1 ∧
      b.capacity ≤ (growBuffer cc b file).1.capacity ∧
      ∀ k < b.capacity, (growBuffer cc b file).2.slots k = file.slots k := by
  unfold growBuffer
  split
  next full =>
    obtain ⟨j, small, capacity, size⟩ := doubled
    have inRange : j < 32 := by
      apply lt_of_le_of_ne small
      intro wrapped
      rw [full, size, wrapped] at positive
      exact absurd positive (by decide)
    have size_toNat : b.changeSize.toNat = 2 ^ j := by
      rw [size, BitVec.toNat_ofNat]
      exact Nat.mod_eq_of_lt (Nat.pow_lt_pow_right (by decide) inRange)
    refine ⟨rfl, ⟨j + 1, inRange, ?_, ?_⟩, ?_, ?_⟩
    · change b.changeSize.toNat * 2 = _
      rw [size_toNat, Nat.pow_succ]
    · change b.changeSize * 2 = _
      rw [size, Nat.pow_succ, BitVec.ofNat_mul]
      rfl
    · change _ ≤ b.changeSize.toNat * 2
      rw [size_toNat, capacity]
      omega
    · intro k inside
      apply if_pos
      rw [size_toNat, ← capacity]
      unfold CHANGE_SIZE
      omega
  next room => exact ⟨rfl, doubled, le_rfl, fun _ _ => rfl⟩

/-- A thread draws the index behind all drawn so far. -/
theorem Sound.call (sound : Sound s) {thread : Thread} (idle : s.writers thread = .idle) (addr : Address)
    (data : BitVec 64) (flags : BitVec 32) :
    Sound { s with
      file := { s.file with changeCount := s.file.changeCount + 1 }
      writers := Function.update s.writers thread (.drawn s.file.changeCount addr data flags) } := by
  have next : (s.file.changeCount + 1).toNat = s.file.changeCount.toNat + 1 := by
    apply toNat_succ
    have few := sound.count_le
    omega
  have begun : 1 ≤ s.file.changeCount.toNat := by
    have ahead := sound.reader.behind
    rw [sound.reader.done] at ahead
    omega
  have fresh : ∀ k, InProgress s.writers k → k < s.file.changeCount.toNat :=
    fun k busy => ((sound.drawn k).mp (Or.inr busy)).2
  exact {
    drawn := by
      intro k
      rw [inProgress_draw idle, or_left_comm, sound.drawn k]
      change some s.file.changeCount.toNat = some k ∨ _ ↔ 1 ≤ k ∧ k < (s.file.changeCount + 1).toNat
      rw [next, Option.some_inj]
      omega
    unwritten := by
      intro k busy
      rcases (inProgress_draw idle _ k).mp busy with same | before
      · rw [← Option.some.inj same]
        by_contra filled
        have drawn := (sound.drawn s.file.changeCount.toNat).mp (Or.inl (Option.isSome_iff_ne_none.mpr filled))
        exact absurd drawn.2 (lt_irrefl _)
      · exact sound.unwritten k before
    apart := by
      apply sound.apart.update
      intro k same other _ busy
      have below := fresh k ⟨other, busy⟩
      exact absurd (Option.some.inj same) (by omega)
    held := sound.held
    doubled := sound.doubled
    reader := sound.reader.mono (by rw [next]; exact Nat.le_succ _) }

/-- Making room leaves the finished records in their slots. -/
theorem Sound.grow (sound : Sound s) {thread : Thread} {cc : EntryNumber} {addr : Address} {data : BitVec 64}
    {flags : BitVec 32} (drawn : s.writers thread = .drawn cc addr data flags) :
    Sound { s with
      file := (growBuffer cc s.buffer s.file).2
      buffer := (growBuffer cc s.buffer s.file).1
      writers := Function.update s.writers thread (.grown cc addr data flags) } := by
  have same : (Writer.grown cc addr data flags).inFlight = (s.writers thread).inFlight := by
    rw [drawn]
    rfl
  have busy : InProgress s.writers cc.toNat := ⟨thread, by rw [drawn]; rfl⟩
  have progress : ∀ k, InProgress (Function.update s.writers thread (.grown cc addr data flags)) k ↔
      InProgress s.writers k :=
    fun k => exists_congr fun other => by rw [inFlight_update_same same other]
  obtain ⟨count, doubled, larger, kept⟩ :=
    growBuffer_facts sound.doubled ((sound.drawn _).mp (Or.inr busy)).1 s.file
  exact {
    drawn := by
      intro k
      rw [progress k, count]
      exact sound.drawn k
    unwritten := fun k busy => sound.unwritten k ((progress k).mp busy)
    apart := by
      intro first second k one two
      rw [inFlight_update_same same] at one two
      exact sound.apart first second k one two
    held := by
      intro k record written
      obtain ⟨slot, inside, small⟩ := sound.held k record written
      exact ⟨by rw [kept k inside]; exact slot, inside.trans_le larger, small⟩
    doubled := doubled
    reader := by
      rw [count]
      exact sound.reader }

/-- The record fills the slot that was drawn for it, and no other. -/
theorem Sound.fill (sound : Sound s) {thread : Thread} {cc : EntryNumber} {addr : Address} {data : BitVec 64}
    {flags : BitVec 32} (grown : s.writers thread = .grown cc addr data flags) (fits : s.buffer.fits cc)
    (record : Change) :
    Sound { s with
      file := putChange s.file cc record
      writers := Function.update s.writers thread .idle
      written := Function.update s.written cc.toNat (some record) } := by
  have flight : (s.writers thread).inFlight = some cc.toNat := by
    rw [grown]
    rfl
  have others : ∀ k, InProgress (Function.update s.writers thread .idle) k ↔
      InProgress s.writers k ∧ k ≠ cc.toNat := by
    intro k
    rw [inProgress_update]
    constructor
    · intro either
      rcases either with none | ⟨other, different, busy⟩
      · cases none
      · refine ⟨⟨other, busy⟩, ?_⟩
        intro same
        exact different (sound.apart other thread k busy (same ▸ flight))
    · intro both
      obtain ⟨⟨other, busy⟩, apart⟩ := both
      refine Or.inr ⟨other, ?_, busy⟩
      intro same
      rw [same, flight] at busy
      exact apart (Option.some.inj busy).symm
  have drawn : ∀ k, (Function.update s.written cc.toNat (some record) k).isSome ∨
      InProgress (Function.update s.writers thread .idle) k ↔ 1 ≤ k ∧ k < s.file.changeCount.toNat := by
    intro k
    rw [others k]
    by_cases here : k = cc.toNat
    · rw [here, Function.update_self]
      exact iff_of_true (Or.inl rfl) ((sound.drawn _).mp (Or.inr ⟨thread, flight⟩))
    · rw [Function.update_of_ne here, and_iff_left here]
      exact sound.drawn k
  have unwritten : ∀ k, InProgress (Function.update s.writers thread .idle) k →
      Function.update s.written cc.toNat (some record) k = none := by
    intro k busy
    obtain ⟨before, elsewhere⟩ := (others k).mp busy
    rw [Function.update_of_ne elsewhere]
    exact sound.unwritten k before
  have held : ∀ k other, Function.update s.written cc.toNat (some record) k = some other →
      Function.update s.file.slots cc.toNat record k = other ∧ k < s.buffer.capacity ∧ k < 2 ^ 31 := by
    intro k other written
    by_cases here : k = cc.toNat
    · rw [here, Function.update_self] at written ⊢
      exact ⟨Option.some.inj written, fits.2, (msb_false_iff cc).mp fits.1⟩
    · rw [Function.update_of_ne here] at written ⊢
      exact sound.held k other written
  exact ⟨drawn, unwritten, sound.apart.update nofun, held, sound.doubled, sound.reader⟩

/-- What each step can do. -/
theorem step_cases {action : Action} (taken : s.step action = some t) :
    (∃ thread addr data flags, action = .call thread addr data flags ∧ s.writers thread = .idle ∧
      t = { s with
        file := { s.file with changeCount := s.file.changeCount + 1 }
        writers := Function.update s.writers thread (.drawn s.file.changeCount addr data flags) }) ∨
    (∃ thread cc addr data flags, action = .grow thread ∧ s.writers thread = .drawn cc addr data flags ∧
      t = { s with
        file := (growBuffer cc s.buffer s.file).2
        buffer := (growBuffer cc s.buffer s.file).1
        writers := Function.update s.writers thread (.grown cc addr data flags) }) ∨
    (∃ thread cc addr data flags, action = .fill thread ∧ s.writers thread = .grown cc addr data flags ∧
      s.buffer.fits cc ∧ t = { s with
        file := putChange s.file cc ⟨addr, data, s.changelistNumber, IS_VALID ||| flags⟩
        writers := Function.update s.writers thread .idle
        written := Function.update s.written cc.toNat
          (some ⟨addr, data, s.changelistNumber, IS_VALID ||| flags⟩) }) ∨
    (∃ clnum, action = .changelist clnum ∧ t = { s with changelistNumber := clnum }) ∨
    ∃ a reader, action = .database a ∧ s.reader.step s.file a = some reader ∧ t = { s with reader := reader } := by
  cases action with
  | call thread addr data flags =>
    obtain ⟨idle, same⟩ := Option.ite_none_right_eq_some.mp taken
    exact .inl ⟨thread, addr, data, flags, rfl, idle, (Option.some.inj same).symm⟩
  | grow thread =>
    simp only [System.step] at taken
    split at taken
    next cc addr data flags drawn =>
      exact .inr (.inl ⟨thread, cc, addr, data, flags, rfl, drawn, (Option.some.inj taken).symm⟩)
    next other => cases taken
  | fill thread =>
    simp only [System.step] at taken
    split at taken
    next cc addr data flags grown =>
      obtain ⟨fits, same⟩ := Option.ite_none_right_eq_some.mp taken
      exact .inr (.inr (.inl ⟨thread, cc, addr, data, flags, rfl, grown, fits, (Option.some.inj same).symm⟩))
    next other => cases taken
  | changelist clnum => exact .inr (.inr (.inr (.inl ⟨clnum, rfl, (Option.some.inj taken).symm⟩)))
  | database action =>
    obtain ⟨reader, moved, same⟩ := Option.map_eq_some_iff.mp taken
    exact .inr (.inr (.inr (.inr ⟨action, reader, rfl, moved, same.symm⟩)))

theorem step_sound {action : Action} (sound : Sound s) (taken : s.step action = some t) : Sound t := by
  rcases step_cases taken with ⟨thread, addr, data, flags, -, idle, rfl⟩ |
    ⟨thread, cc, addr, data, flags, -, drawn, rfl⟩ | ⟨thread, cc, addr, data, flags, -, grown, fits, rfl⟩ |
    ⟨clnum, -, rfl⟩ | ⟨a, reader, -, moved, rfl⟩
  · exact sound.call idle addr data flags
  · exact sound.grow drawn
  · exact sound.fill grown fits _
  · exact { sound with }
  · exact { sound with reader := (sound.reader.step sound.noWrap moved).1 }

/-- The tracer's own steps leave the database alone, and what is written stays. -/
theorem step_own {action : Action} (sound : Sound s) (taken : s.step action = some t)
    (own : ∀ a, action ≠ .database a) :
    t.reader = s.reader ∧ ∀ k record, s.written k = some record → t.written k = some record := by
  rcases step_cases taken with ⟨thread, addr, data, flags, -, idle, rfl⟩ |
    ⟨thread, cc, addr, data, flags, -, drawn, rfl⟩ | ⟨thread, cc, addr, data, flags, -, grown, fits, rfl⟩ |
    ⟨clnum, -, rfl⟩ | ⟨a, reader, database, -, -⟩
  · exact ⟨rfl, fun _ _ written => written⟩
  · exact ⟨rfl, fun _ _ written => written⟩
  · refine ⟨rfl, fun k record written => ?_⟩
    have busy : InProgress s.writers cc.toNat := ⟨thread, by rw [grown]; rfl⟩
    have elsewhere : k ≠ cc.toNat := by
      intro same
      rw [same, sound.unwritten _ busy] at written
      cases written
    exact (Function.update_of_ne elsewhere _ _).trans written
  · exact ⟨rfl, fun _ _ written => written⟩
  · exact absurd database (own a)

/-- What a run keeps whose loops begin in settled states. -/
structure Kept (s : System cfg) : Prop where
  sound : Sound s
  agrees : Agrees s
  secured : Secured s

theorem start_kept (cfg : Config) (startClnum : Clnum) : Kept (System.start cfg startClnum) :=
  ⟨start_sound cfg startClnum, ⟨rfl, nofun⟩, nofun⟩

/-- The target of a loop that begins is not beyond the count it has sampled, which was published. -/
theorem Sound.target_le (sound : Sound s) {entryCount : EntryNumber} (sampled : s.reader.phase = .sampled entryCount) :
    (clampCount s.reader.trace.entriesDone entryCount).toNat ≤ s.file.changeCount.toNat := by
  obtain ⟨fresh, published⟩ := sound.reader.sampled entryCount sampled
  have room := sound.noWrap
  have clamped := clampCount_toNat s.reader.trace.entriesDone entryCount (by omega) fresh
  omega

/-- An index that is drawn and not in progress is written. -/
theorem Sound.written_iff (sound : Sound s) {k : Nat} (positive : 1 ≤ k) (drawn : k < s.file.changeCount.toNat) :
    (s.written k).isSome ↔ ¬ InProgress s.writers k := by
  constructor
  · intro filled busy
    rw [sound.unwritten k busy] at filled
    cases filled
  · intro quiet
    exact ((sound.drawn k).mpr ⟨positive, drawn⟩).resolve_right quiet

theorem Kept.database (kept : Kept s) {action : ReaderAction} {reader : Reader cfg}
    (allowed : BeginsSettled s (.database action)) (moved : s.reader.step s.file action = some reader) :
    Kept { s with reader := reader } := by
  obtain ⟨sound, agrees, secured⟩ := kept
  have after : Sound { s with reader := reader } :=
    { sound with reader := (sound.reader.step sound.noWrap moved).1 }
  have done := sound.reader.done
  rcases Reader.step_cases moved with ⟨rfl, -, -, rfl⟩ | ⟨rfl, -, -, rfl⟩ | ⟨entryCount, rfl, sampled, -, rfl⟩ |
    ⟨rfl, -, rfl⟩ | ⟨target, rfl, looping, running, -, rfl⟩
  · exact ⟨after, agrees, secured⟩
  · exact ⟨after, agrees, nofun⟩
  · refine ⟨after, agrees, ?_⟩
    intro target same k ahead below
    obtain rfl := Phase.ingesting.inj same
    have drawn := below.trans_le (sound.target_le sampled)
    have positive : 1 ≤ k := by
      change s.reader.trace.entriesDone.toNat ≤ k at ahead
      omega
    exact (sound.written_iff positive drawn).mpr (allowed rfl entryCount sampled k ahead below)
  · exact ⟨after, agrees, nofun⟩
  · have before := sound.reader.before_target looping running
    have next := sound.reader.next_toNat looping running
    obtain ⟨record, written⟩ := Option.isSome_iff_exists.mp (secured target looping _ le_rfl before)
    have slot := (sound.held _ record written).1
    refine ⟨after, ⟨after.reader.state, ?_⟩, ?_⟩
    · intro k other seen
      change (s.reader.seen ++ [_])[k]? = some other at seen
      rw [slot] at seen
      by_cases old : k < s.reader.seen.length
      · rw [List.getElem?_append_left old] at seen
        exact agrees.2 k other seen
      · have last : k = s.reader.seen.length := by
          have inside := (List.getElem?_eq_some_iff.mp seen).1
          rw [List.length_append, List.length_singleton] at inside
          omega
        rw [last, List.getElem?_concat_length] at seen
        rw [last, ← done, ← Option.some.inj seen]
        exact written
    · intro other same k ahead below
      obtain rfl := Phase.ingesting.inj (looping.symm.trans same)
      change (s.reader.trace.entriesDone + 1).toNat ≤ k at ahead
      exact secured target looping k (by omega) below

/-- A step keeps the database in agreement, and all that its loop is to read written. -/
theorem Kept.step {action : Action} (kept : Kept s) (allowed : BeginsSettled s action)
    (taken : s.step action = some t) : Kept t := by
  by_cases own : ∀ a, action ≠ .database a
  · obtain ⟨same, stays⟩ := step_own kept.sound taken own
    refine ⟨step_sound kept.sound taken, ⟨?_, ?_⟩, ?_⟩
    · rw [same]
      exact kept.agrees.1
    · intro k record seen
      rw [same] at seen
      exact stays _ _ (kept.agrees.2 k record seen)
    · intro target looping k ahead below
      rw [same] at looping ahead
      obtain ⟨record, written⟩ := Option.isSome_iff_exists.mp (kept.secured target looping k ahead below)
      exact Option.isSome_iff_exists.mpr ⟨record, stays k record written⟩
  · obtain ⟨action, rfl⟩ := not_forall_not.mp own
    obtain ⟨reader, moved, rfl⟩ := Option.map_eq_some_iff.mp taken
    exact kept.database allowed moved

/-- A loop that is to read an entry that is not written can take in an empty record. -/
theorem disagrees_of_unwritten (sound : Sound s) {target : EntryNumber} (looping : s.reader.phase = .ingesting target)
    {k : Nat} (ahead : s.reader.trace.entriesDone.toNat ≤ k) (below : k < target.toNat)
    (unwritten : s.written k = none) :
    ∃ later, .database .remap ∉ later ∧ ¬ Always System.step Agrees s later := by
  induction left : k - s.reader.trace.entriesDone.toNat generalizing s with
  | zero =>
    have running : s.reader.trace.entriesDone ≠ target := by
      intro arrived
      rw [arrived] at ahead
      omega
    have next : s.reader.reading = some s.reader.trace.entriesDone.toNat := by
      simp [Reader.reading, looping, running]
    have mapping := (sound.reader.reading next).2.2
    have moved := @Reader.step_ingest cfg s.file s.reader target looping running (mapping.trans (le_pageEnd _))
    refine ⟨[.database .ingest], by decide, ?_⟩
    intro always
    have agrees := always.2 _ (congrArg (Option.map _) moved)
    have last := agrees.2 s.reader.seen.length _ List.getElem?_concat_length
    rw [← sound.reader.done, show s.reader.trace.entriesDone.toNat = k by omega] at last
    exact absurd (last.symm.trans unwritten) (Option.some_ne_none _)
  | succ n ih =>
    have running : s.reader.trace.entriesDone ≠ target := by
      intro arrived
      rw [arrived] at left
      omega
    have next : s.reader.reading = some s.reader.trace.entriesDone.toNat := by
      simp [Reader.reading, looping, running]
    have mapping := (sound.reader.reading next).2.2
    have moved := @Reader.step_ingest cfg s.file s.reader target looping running (mapping.trans (le_pageEnd _))
    have taken : s.step (.database .ingest) = some _ := congrArg (Option.map _) moved
    have more := sound.reader.next_toNat looping running
    obtain ⟨later, noRemap, bad⟩ := ih (step_sound sound taken) looping
      (show (s.reader.trace.entriesDone + 1).toNat ≤ k by omega) unwritten
      (show k - (s.reader.trace.entriesDone + 1).toNat = n by omega)
    refine ⟨.database .ingest :: later, ?_, ?_⟩
    · intro member
      rcases List.mem_cons.mp member with same | inLater
      · cases same
      · exact noRemap inLater
    · intro always
      exact bad (always.2 _ taken)

/-- Where a loop begins, it is sure to take in the records of the calls exactly when the state is settled. -/
theorem begins_iff (kept : Kept s) (taken : s.step (.database .remap) = some t) :
    Settled s ↔ ∀ later, .database .remap ∉ later → Always System.step Agrees t later := by
  constructor
  · intro settled later noRemap
    apply always_of_along Kept Agrees BeginsSettled (fun s a t kept allowed taken => kept.step allowed taken)
      (fun s kept => kept.agrees) (kept.step (fun _ => settled) taken)
    apply along_of_forall
    intro u a member same
    exact absurd (same ▸ member) noRemap
  · intro sure entryCount sampled k ahead below busy
    have sound := kept.sound
    have after := step_sound sound taken
    obtain ⟨reader, moved, rfl⟩ := Option.map_eq_some_iff.mp taken
    rcases Reader.step_cases moved with ⟨other, -⟩ | ⟨other, -⟩ | ⟨count, -, phase, -, rfl⟩ | ⟨other, -⟩ | ⟨_, other, -⟩
    · cases other
    · cases other
    · obtain rfl := Phase.sampled.inj (sampled.symm.trans phase)
      obtain ⟨later, noRemap, bad⟩ := disagrees_of_unwritten after rfl ahead below (sound.unwritten k busy)
      exact bad (sure later noRemap)
    · cases other
    · cases other

end Steps

end Qira.QemuPublish
