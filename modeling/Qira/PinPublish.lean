import Qira.SharedLog

/-!
The PIN tracer and the database on one log file. `add_change` maps the place of the next record,
extending the file where needed, fills its fields in, and only then publishes the count.
-/

namespace Qira.PinPublish
open ChangeRecord TraceIndex TraceProcess SharedLog Library.Words Library.Machines

/-- The mapped region of the file: `mapped_region_start` and `mapped_region_end`. -/
structure Window where
  start : Nat
  stop : Nat

def pageFloor (bytes : Nat) : Nat := bytes / 4096 * 4096

/-- `Thread_State::change`: the region moved to end beyond the record at `target`. -/
def Window.change (w : Window) (target : Nat) : Window :=
  let endtarget := target + CHANGE_SIZE
  if w.stop < endtarget then
    let behind := 32 * CHANGE_SIZE
    let start := pageFloor (if behind < target then target - behind else 0)
    let size := pageFloor (min ((w.stop - w.start) * 2) (512 * 2 ^ 20))
    let size := if start + size < endtarget then pageFloor (endtarget - start + 4096) else size
    ⟨start, start + size⟩
  else w

/-- `mmap_map` extends a shorter file to the end of the region; an unmoved region is not mapped
again. -/
def mapWindow (file : LogFile) (w w' : Window) (target : Nat) : LogFile :=
  if w.stop < target + CHANGE_SIZE then { file with length := max file.length w'.stop } else file

inductive Field
  | address | data | changelistNumber | flags
  deriving DecidableEq, Repr

/-- The field of a record written by one store. -/
def putField (field : Field) (c old : Change) : Change :=
  match field with
  | .address => { old with address := c.address }
  | .data => { old with data := c.data }
  | .changelistNumber => { old with clnum := c.clnum }
  | .flags => { old with flags := c.flags }

def storeField (file : LogFile) (field : Field) (k : Nat) (c : Change) : LogFile :=
  { file with slots := Function.update file.slots k (putField field c (file.slots k)) }

/-- Where the tracer is in `add_change`: about to write a field of slot `k`, or to publish. -/
inductive Writer
  | idle
  | writing (field : Field) (k : Nat) (addr : Address) (data : BitVec 64) (flags : BitVec 32)
  | written (k : Nat)
  deriving DecidableEq, Repr

/-- Both programs and the file between them; `calls` has the record of every call begun. -/
structure System (cfg : Config) where
  file : LogFile
  window : Window
  changelistNumber : Clnum
  writer : Writer
  calls : List Change
  reader : Reader cfg

/-- After `Thread_State::Thread_State`, which opens the file without truncating it. -/
def System.start (cfg : Config) (old : LogFile) (chglist : Clnum) : System cfg where
  file := { old with changeCount := 1, length := max old.length 8096 }
  window := ⟨0, 8096⟩
  changelistNumber := chglist
  writer := .idle
  calls := []
  reader := Reader.new cfg

inductive Action
  | map (addr : Address) (data : BitVec 64) (flags : BitVec 32)
  | write
  | publish
  | changelist (clnum : Clnum)
  | database (action : ReaderAction)

/-- The slot of the next record: `change` is called with `change_count-1`, in 32 bits, and leaves
slot 0 to the header. -/
def nextSlot (file : LogFile) : Nat := (file.changeCount - 1).toNat + 1

def Field.next : Field → Option Field
  | .address => some .data
  | .data => some .changelistNumber
  | .changelistNumber => some .flags
  | .flags => none

def System.step {cfg : Config} (s : System cfg) : Action → Option (System cfg)
  | .map addr data flags =>
      if s.writer = .idle then
        let k := nextSlot s.file
        let window := s.window.change (CHANGE_SIZE * k)
        some { s with
          file := mapWindow s.file s.window window (CHANGE_SIZE * k)
          window := window
          writer := .writing .address k addr data flags
          calls := s.calls ++ [⟨addr, data, s.changelistNumber, flags ||| IS_VALID⟩] }
      else none
  | .write =>
      match s.writer with
      | .writing field k addr data flags =>
          -- a store outside the mapped region kills the tracer
          if s.window.start ≤ CHANGE_SIZE * k ∧ CHANGE_SIZE * (k + 1) ≤ s.window.stop then
            some { s with
              file := storeField s.file field k
                ⟨addr, data, s.changelistNumber, flags ||| IS_VALID⟩
              writer := match field.next with
                | some field => .writing field k addr data flags
                | none => .written k }
          else none
      | _ => none
  | .publish =>
      match s.writer with
      | .written _ =>
          some { s with
            file := { s.file with changeCount := s.file.changeCount + 1 }
            writer := .idle }
      | _ => none
  | .changelist clnum =>
      if s.writer = .idle then some { s with changelistNumber := clnum } else none
  | .database action =>
      (s.reader.step s.file action).map (fun reader => { s with reader := reader })

/-- The fields of slot `k` that the tracer has reached so far are those of the record. -/
def AgreesBefore (field : Field) (c slot : Change) : Prop :=
  match field with
  | .address => True
  | .data => slot.address = c.address
  | .changelistNumber => slot.address = c.address ∧ slot.data = c.data
  | .flags => slot.address = c.address ∧ slot.data = c.data ∧ slot.clnum = c.clnum

/-- How far the tracer is with the record after those it has published. -/
def Writer.Holds (clnum : Clnum) (calls filled : List Change) (slots : Nat → Change)
    (stop : Nat) : Writer → Prop
  | .idle => calls = filled
  | .writing field k addr data flags =>
      calls = filled ++ [⟨addr, data, clnum, flags ||| IS_VALID⟩] ∧ k = filled.length + 1 ∧
        CHANGE_SIZE * (k + 1) ≤ stop ∧
        AgreesBefore field ⟨addr, data, clnum, flags ||| IS_VALID⟩ (slots k)
  | .written k =>
      calls = filled ++ [slots k] ∧ k = filled.length + 1 ∧ CHANGE_SIZE * (k + 1) ≤ stop

/-- What holds between any two steps, as long as the count stays clear of the clamp's overflow. -/
structure Sound {cfg : Config} (s : System cfg) (filled : List Change) : Prop where
  counted : s.file.changeCount.toNat = filled.length + 1
  writer : s.writer.Holds s.changelistNumber s.calls filled s.file.slots s.window.stop
  slots : ∀ k c, filled[k]? = some c → s.file.slots (k + 1) = c
  start : s.window.start ≤ CHANGE_SIZE * (filled.length + 1)
  stop : s.window.stop ≤ s.file.length
  published : CHANGE_SIZE * (filled.length + 1) ≤ s.file.length
  reader : s.reader.Sound s.file.changeCount.toNat
  mapping : s.reader.backing ≤ s.file.length
  seen : s.reader.seen <+: filled

theorem pageFloor_le (bytes : Nat) : pageFloor bytes ≤ bytes := by
  unfold pageFloor
  omega

theorem lt_pageFloor_add (bytes : Nat) : bytes < pageFloor (bytes + 4096) := by
  unfold pageFloor
  omega

/-- The region holds the record asked for, as long as it does not lie before the region. -/
theorem Window.change_covers (w : Window) (target : Nat) (after : w.start ≤ target) :
    (w.change target).start ≤ target ∧ target + CHANGE_SIZE ≤ (w.change target).stop := by
  unfold Window.change
  by_cases beyond : w.stop < target + CHANGE_SIZE
  · simp only [beyond, if_true]
    generalize begins : pageFloor (if 32 * CHANGE_SIZE < target then target - 32 * CHANGE_SIZE else 0) =
      start
    have low : start ≤ target := by
      rw [← begins]
      refine (pageFloor_le _).trans ?_
      split <;> omega
    refine ⟨low, ?_⟩
    split
    next short =>
      have room := lt_pageFloor_add (target + CHANGE_SIZE - start)
      omega
    next enough => omega
  · simp only [beyond, if_false]
    exact ⟨after, by omega⟩

section Steps
variable {cfg : Config} {s t : System cfg} {filled : List Change}

theorem start_sound (cfg : Config) (old : LogFile) (chglist : Clnum) :
    Sound (System.start cfg old chglist) [] where
  counted := rfl
  writer := rfl
  slots := by simp
  start := Nat.zero_le _
  stop := le_max_right _ _
  published := (by decide : CHANGE_SIZE * 1 ≤ 8096).trans (le_max_right _ _)
  reader := Reader.new_sound
  mapping := (by decide : CHANGE_SIZE ≤ 8096).trans (le_max_right _ _)
  seen := List.prefix_rfl

theorem Sound.filled_le (sound : Sound s filled) : filled.length ≤ s.calls.length := by
  have writer := sound.writer
  cases at_ : s.writer <;> rw [at_] at writer
  case idle =>
    rw [Writer.Holds] at writer
    rw [writer]
  case writing field k addr data flags =>
    rw [writer.1, List.length_append]
    exact Nat.le_add_right _ _
  case written k =>
    rw [writer.1, List.length_append]
    exact Nat.le_add_right _ _

theorem Sound.nextSlot (sound : Sound s filled) : nextSlot s.file = filled.length + 1 := by
  have one : (1 : EntryNumber) ≤ s.file.changeCount := by
    change 1 ≤ s.file.changeCount.toNat
    rw [sound.counted]
    exact Nat.le_add_left _ _
  rw [PinPublish.nextSlot, BitVec.toNat_sub_of_le one, sound.counted]
  rfl

theorem mapWindow_facts (file : LogFile) (w w' : Window) (target : Nat) :
    (mapWindow file w w' target).changeCount = file.changeCount ∧
      (mapWindow file w w' target).slots = file.slots ∧
      file.length ≤ (mapWindow file w w' target).length := by
  unfold mapWindow
  split
  · exact ⟨rfl, rfl, le_max_left _ _⟩
  · exact ⟨rfl, rfl, le_rfl⟩

theorem mapWindow_stop (file : LogFile) (w : Window) (target : Nat) (inside : w.stop ≤ file.length) :
    (w.change target).stop ≤ (mapWindow file w (w.change target) target).length := by
  unfold mapWindow
  split
  next beyond => exact le_max_right _ _
  next covered =>
    have same : w.change target = w := by simp [Window.change, covered]
    rw [same]
    exact inside

/-- After a field is written, the fields up to it are those of the record; after the last one, the
whole record is. -/
theorem putField_agrees (field : Field) (c slot : Change) (agrees : AgreesBefore field c slot) :
    match field.next with
    | some next => AgreesBefore next c (putField field c slot)
    | none => putField field c slot = c := by
  obtain ⟨address, data, clnum, flags⟩ := c
  cases field with
  | address => exact rfl
  | data => exact ⟨agrees, rfl⟩
  | changelistNumber => exact ⟨agrees.1, agrees.2, rfl⟩
  | flags =>
    obtain ⟨first, second, third⟩ := agrees
    change (⟨slot.address, slot.data, slot.clnum, flags⟩ : Change) = _
    rw [first, second, third]

/-- Between two calls of `add_change`, all records are filled in. -/
theorem Sound.calls_filled (sound : Sound s filled) (idle : s.writer = .idle) : s.calls = filled := by
  have writer := sound.writer
  rwa [idle, Writer.Holds] at writer

/-- The next record is mapped, and is in the region. -/
theorem Sound.map (sound : Sound s filled) (idle : s.writer = .idle) (addr : Address) (data : BitVec 64)
    (flags : BitVec 32) :
    Sound { s with
      file := mapWindow s.file s.window (s.window.change (CHANGE_SIZE * PinPublish.nextSlot s.file))
        (CHANGE_SIZE * PinPublish.nextSlot s.file)
      window := s.window.change (CHANGE_SIZE * PinPublish.nextSlot s.file)
      writer := .writing .address (PinPublish.nextSlot s.file) addr data flags
      calls := s.calls ++ [⟨addr, data, s.changelistNumber, flags ||| IS_VALID⟩] } filled := by
  have writer := sound.calls_filled idle
  obtain ⟨count, slots, longer⟩ := mapWindow_facts s.file s.window
    (s.window.change (CHANGE_SIZE * PinPublish.nextSlot s.file)) (CHANGE_SIZE * PinPublish.nextSlot s.file)
  have covers := s.window.change_covers (CHANGE_SIZE * PinPublish.nextSlot s.file)
    (by rw [sound.nextSlot]; exact sound.start)
  rw [sound.nextSlot] at covers count slots longer ⊢
  exact {
    counted := by rw [count]; exact sound.counted
    writer := ⟨by rw [writer], rfl, by rw [Nat.mul_add]; exact covers.2, trivial⟩
    slots := by rw [slots]; exact sound.slots
    start := covers.1
    stop := mapWindow_stop s.file s.window _ sound.stop
    published := sound.published.trans longer
    reader := by rw [count]; exact sound.reader
    mapping := sound.mapping.trans longer
    seen := sound.seen }

/-- A field is stored behind the published records. -/
theorem Sound.write (sound : Sound s filled) {field : Field} {k : Nat} {addr : Address} {data : BitVec 64}
    {flags : BitVec 32} (writing : s.writer = .writing field k addr data flags) :
    Sound { s with
      file := storeField s.file field k ⟨addr, data, s.changelistNumber, flags ||| IS_VALID⟩
      writer := match field.next with
        | some field => .writing field k addr data flags
        | none => .written k } filled := by
  have writer := sound.writer
  rw [writing, Writer.Holds] at writer
  obtain ⟨calls, place, room, agrees⟩ := writer
  have after := putField_agrees field _ _ agrees
  exact {
    counted := sound.counted
    writer := by
      cases next : field.next with
      | some field' =>
        rw [next] at after
        refine ⟨calls, place, room, ?_⟩
        simp only [storeField, Function.update_self]
        exact after
      | none =>
        rw [next] at after
        refine ⟨?_, place, room⟩
        simp only [storeField, Function.update_self]
        rw [after]
        exact calls
    slots := by
      intro j c published
      have below : j < filled.length := (List.getElem?_eq_some_iff.mp published).1
      have apart : j + 1 ≠ k := by omega
      simp only [storeField, Function.update_of_ne apart]
      exact sound.slots j c published
    start := sound.start
    stop := sound.stop
    published := sound.published
    reader := sound.reader
    mapping := sound.mapping
    seen := sound.seen }

/-- With the count, the record written last is among the published ones. -/
theorem Sound.publish (sound : Sound s filled) {k : Nat} (written : s.writer = .written k)
    (few : s.file.changeCount.toNat + BATCH.toNat ≤ 2 ^ 32) :
    Sound { s with
      file := { s.file with changeCount := s.file.changeCount + 1 }
      writer := .idle } s.calls := by
  have writer := sound.writer
  rw [written, Writer.Holds] at writer
  obtain ⟨calls, place, room⟩ := writer
  have length : s.calls.length = filled.length + 1 := by
    rw [calls, List.length_append, List.length_singleton]
  have batch : 1 < BATCH.toNat := by decide
  have next : (s.file.changeCount + 1).toNat = s.file.changeCount.toNat + 1 :=
    toNat_succ _ (by omega)
  exact {
    counted := by rw [next, sound.counted, length]
    writer := rfl
    slots := by
      intro j c published
      rw [calls] at published
      by_cases before : j < filled.length
      · rw [List.getElem?_append_left before] at published
        exact sound.slots j c published
      · have last : j = filled.length := by
          have := (List.getElem?_eq_some_iff.mp published).1
          rw [List.length_append, List.length_singleton] at this
          omega
        rw [last, List.getElem?_concat_length] at published
        rw [last, ← place]
        exact Option.some.inj published
    start := sound.start.trans (Nat.mul_le_mul_left _ (by omega))
    stop := sound.stop
    published := by
      rw [length, ← place]
      exact room.trans sound.stop
    reader := sound.reader.mono (by rw [next]; exact Nat.le_succ _)
    mapping := sound.mapping
    seen := sound.seen.trans ⟨_, calls.symm⟩ }

/-- The database reads published records only. -/
theorem Sound.database (sound : Sound s filled) (few : s.file.changeCount.toNat + BATCH.toNat ≤ 2 ^ 32)
    {action : ReaderAction} {reader : Reader cfg} (moved : s.reader.step s.file action = some reader) :
    Sound { s with reader := reader } filled := by
  have counted := sound.counted
  obtain ⟨after, reads⟩ := sound.reader.step few moved
  exact {
    counted := counted
    writer := sound.writer
    slots := sound.slots
    start := sound.start
    stop := sound.stop
    published := sound.published
    reader := after
    mapping := Reader.step_mapping sound.mapping moved
    seen := by
      rcases reads with ⟨same, -⟩ | ⟨-, e, next, grown⟩
      · exact same ▸ sound.seen
      · obtain ⟨place, inside, -⟩ := sound.reader.reading next
        have below : s.reader.seen.length < filled.length := by omega
        have entry : filled[s.reader.seen.length]? = some (s.file.slots e) := by
          rw [List.getElem?_eq_getElem below, place]
          exact congrArg some (sound.slots _ _ (List.getElem?_eq_getElem below)).symm
        change reader.seen <+: filled
        rw [grown]
        exact (concat_prefix_iff _ _ _).mpr ⟨sound.seen, entry⟩ }

/-- A step keeps the system sound as long as the clamp cannot wrap. -/
theorem step_sound {action : Action} (sound : Sound s filled)
    (few : s.file.changeCount.toNat + BATCH.toNat ≤ 2 ^ 32) (taken : s.step action = some t) :
    ∃ filled', Sound t filled' := by
  cases action with
  | map addr data flags =>
    simp only [System.step] at taken
    split_ifs at taken with idle
    obtain rfl := Option.some.inj taken
    exact ⟨filled, sound.map idle addr data flags⟩
  | write =>
    simp only [System.step] at taken
    split at taken
    next field k addr data flags writing =>
      split_ifs at taken with inside
      obtain rfl := Option.some.inj taken
      exact ⟨filled, sound.write writing⟩
    next other => cases taken
  | publish =>
    simp only [System.step] at taken
    split at taken
    next k written =>
      obtain rfl := Option.some.inj taken
      exact ⟨s.calls, sound.publish written few⟩
    next other => cases taken
  | changelist clnum =>
    simp only [System.step] at taken
    split_ifs at taken with idle
    obtain rfl := Option.some.inj taken
    have kept : Writer.Holds clnum s.calls filled s.file.slots s.window.stop s.writer := by
      rw [idle]
      exact sound.calls_filled idle
    exact ⟨filled, { sound with writer := kept }⟩
  | database action =>
    obtain ⟨reader, moved, rfl⟩ := Option.map_eq_some_iff.mp taken
    exact ⟨filled, sound.database few moved⟩

theorem step_calls {action : Action} (taken : s.step action = some t) :
    s.calls.length ≤ t.calls.length := by
  cases action with
  | map addr data flags =>
    simp only [System.step] at taken
    split_ifs at taken with idle
    obtain rfl := Option.some.inj taken
    exact (List.prefix_append _ _).length_le
  | write =>
    simp only [System.step] at taken
    split at taken
    next writing =>
      split_ifs at taken with inside
      obtain rfl := Option.some.inj taken
      exact le_rfl
    next other => cases taken
  | publish =>
    simp only [System.step] at taken
    split at taken
    next written =>
      obtain rfl := Option.some.inj taken
      exact le_rfl
    next other => cases taken
  | changelist clnum =>
    simp only [System.step] at taken
    split_ifs at taken with idle
    obtain rfl := Option.some.inj taken
    exact le_rfl
  | database action =>
    obtain ⟨reader, -, rfl⟩ := Option.map_eq_some_iff.mp taken
    exact le_rfl

/-- Few enough calls leave the clamp room. -/
theorem Sound.room (sound : Sound s filled) (few : s.calls.length + 1 + BATCH.toNat ≤ 2 ^ 32) :
    s.file.changeCount.toNat + BATCH.toNat ≤ 2 ^ 32 := by
  have short := sound.filled_le
  rw [sound.counted]
  omega

/-- Every state of a run with few enough calls is sound. -/
theorem run_sound (old : LogFile) (chglist : Clnum) (actions : List Action)
    (ran : run System.step (System.start cfg old chglist) actions = some t)
    (few : t.calls.length + 1 + BATCH.toNat ≤ 2 ^ 32) : ∃ filled, Sound t filled := by
  apply run_invariant
    (fun s : System cfg => s.calls.length + 1 + BATCH.toNat ≤ 2 ^ 32 → ∃ filled, Sound s filled) _
    (fun _ => ⟨[], start_sound cfg old chglist⟩) ran few
  intro s action t inv taken few
  have fewer := step_calls taken
  have before : s.calls.length + 1 + BATCH.toNat ≤ 2 ^ 32 := by omega
  obtain ⟨filled, sound⟩ := inv before
  exact step_sound sound (sound.room before) taken

/-- The database's steps alone, as steps of the system. -/
theorem run_database {r : Reader cfg} (actions : List ReaderAction)
    (ran : run (Reader.step s.file) s.reader actions = some r) :
    run System.step s (actions.map Action.database) = some { s with reader := r } := by
  induction actions generalizing s with
  | nil =>
    obtain rfl : s.reader = r := Option.some.inj ran
    rfl
  | cons action rest ih =>
    obtain ⟨mid, first, later⟩ := (run_cons_eq_some_iff _ _ _ _ _).mp ran
    rw [List.map_cons, run_cons, System.step, first]
    exact @ih { s with reader := mid } later

theorem Sound.calls_counted (sound : Sound s filled) (idle : s.writer = .idle) :
    s.file.changeCount.toNat = s.calls.length + 1 := by
  rw [sound.counted, sound.calls_filled idle]

/-- What is ingested when everything published is: all the calls. -/
theorem Sound.seen_all (sound : Sound s filled) (idle : s.writer = .idle)
    (caught : s.reader.trace.entriesDone = s.file.changeCount) : s.reader.seen = s.calls := by
  have length : s.reader.seen.length = filled.length := by
    have done := sound.reader.done
    rw [caught, sound.counted] at done
    omega
  rw [sound.calls_filled idle]
  exact sound.seen.eq_of_length length

end Steps

/-- In every run with fewer than 2^32 - 10^6 records, the records ingested are those of the calls, in
order and complete; the entry read next lies in the file; and with the tracer at rest, the database
can take in everything published, and has then ingested exactly the calls. -/
theorem agrees_of_few (cfg : Config) (old : LogFile) (chglist : Clnum) (actions : List Action)
    (t : System cfg) (ran : run System.step (System.start cfg old chglist) actions = some t)
    (few : t.calls.length < 2 ^ 32 - 1000000) :
    (t.reader.trace = ingestAll cfg t.reader.seen ∧ t.reader.seen <+: t.calls) ∧
      (∀ e, t.reader.reading = some e → CHANGE_SIZE * (e + 1) ≤ t.file.length) ∧
      (t.writer = .idle →
        (t.reader.trace.entriesDone = t.file.changeCount → t.reader.seen = t.calls) ∧
        ∃ (more : List ReaderAction) (u : System cfg), run System.step t (more.map .database) = some u ∧
          u.reader.trace.entriesDone = u.file.changeCount ∧ u.reader.seen = t.calls) := by
  have bound : t.calls.length + 1 + BATCH.toNat ≤ 2 ^ 32 := by
    rw [batch_toNat]
    omega
  obtain ⟨filled, sound⟩ := run_sound old chglist actions ran bound
  have begun : filled <+: t.calls := by
    have writer := sound.writer
    cases at_ : t.writer <;> rw [at_] at writer
    case idle =>
      rw [Writer.Holds] at writer
      rw [writer]
    case writing field k addr data flags => exact ⟨_, writer.1.symm⟩
    case written k => exact ⟨_, writer.1.symm⟩
  refine ⟨⟨sound.reader.state, sound.seen.trans begun⟩, ?_, ?_⟩
  · intro e next
    obtain ⟨-, -, mapped⟩ := sound.reader.reading next
    exact mapped.trans sound.mapping
  · intro idle
    refine ⟨sound.seen_all idle, ?_⟩
    obtain ⟨r, ⟨more, reached⟩, after, -, caught⟩ := sound.reader.catches_up (sound.room bound)
      (by rw [sound.counted]; exact sound.published)
    have all := run_database more reached
    have whole : run System.step (System.start cfg old chglist)
        (actions ++ more.map Action.database) = some { t with reader := r } := by
      rw [run_append, ran]
      exact all
    obtain ⟨_, later⟩ := run_sound old chglist _ whole bound
    exact ⟨more, _, all, caught, later.seen_all idle caught⟩

/-- Two calls by the tracer. The database looks before the first is published, takes it in during the second, and has
seen then that there is another. -/
def twoCalls : List Action :=
  [.map 0x400000 4 IS_START, .write, .write, .database .sample, .write, .write, .publish, .database .sample,
    .changelist 2, .map 0x601000 7 (IS_MEM ||| IS_WRITE ||| 8), .write, .database .remap, .write, .database .ingest,
    .write, .database .ingest, .write, .publish, .database .sample]

theorem agrees_of_few_two_calls :
    ∃ t, run System.step (System.start ⟨false, 8, 17⟩ ⟨0, 0, fun _ => zeroChange⟩ 1) twoCalls = some t ∧
      t.calls.length = 2 ∧ t.reader.seen.length = 1 ∧
      (t.reader.trace = ingestAll ⟨false, 8, 17⟩ t.reader.seen ∧ t.reader.seen <+: t.calls) ∧
        (∀ e, t.reader.reading = some e → CHANGE_SIZE * (e + 1) ≤ t.file.length) ∧
        (t.writer = .idle →
          (t.reader.trace.entriesDone = t.file.changeCount → t.reader.seen = t.calls) ∧
          ∃ (more : List ReaderAction) (u : System ⟨false, 8, 17⟩),
            run System.step t (more.map .database) = some u ∧
            u.reader.trace.entriesDone = u.file.changeCount ∧ u.reader.seen = t.calls) :=
  ⟨_, rfl, rfl, rfl,
    agrees_of_few ⟨false, 8, 17⟩ ⟨0, 0, fun _ => zeroChange⟩ 1 twoCalls _ rfl (by decide)⟩

section Overrun
variable {cfg : Config} {s : System cfg} {filled : List Change}

/-- The steps still to be made before a call is published. -/
def Writer.left : Writer → Nat
  | .idle => 0
  | .written _ => 1
  | .writing .flags _ _ _ _ => 2
  | .writing .changelistNumber _ _ _ _ => 3
  | .writing .data _ _ _ _ => 4
  | .writing .address _ _ _ _ => 5

/-- `u` is on the way from `s` to the end of the call under way, the database standing still. -/
structure Finishing (s u : System cfg) : Prop where
  sound : ∃ filled, Sound u filled
  reader : u.reader = s.reader
  calls : u.calls = s.calls
  count : u.writer = .idle ∨ u.file.changeCount = s.file.changeCount

theorem Finishing.progress {u : System cfg}
    (few : s.file.changeCount.toNat + BATCH.toNat ≤ 2 ^ 32) (way : Finishing s u)
    (busy : u.writer ≠ .idle) :
    ∃ action v, u.step action = some v ∧ Finishing s v ∧ v.writer.left < u.writer.left := by
  obtain ⟨⟨published, sound⟩, reader, calls, count⟩ := way
  have count := count.resolve_left busy
  have writer := sound.writer
  cases at_ : u.writer with
  | idle => exact absurd at_ busy
  | writing field k addr data flags =>
    rw [at_, Writer.Holds] at writer
    have inside : u.window.start ≤ CHANGE_SIZE * k ∧ CHANGE_SIZE * (k + 1) ≤ u.window.stop :=
      ⟨writer.2.1 ▸ sound.start, writer.2.2.1⟩
    have taken : u.step .write = some { u with
        file := storeField u.file field k
          ⟨addr, data, u.changelistNumber, flags ||| IS_VALID⟩
        writer := match field.next with
          | some field => .writing field k addr data flags
          | none => .written k } := by
      simp [System.step, at_, inside]
    refine ⟨_, _, taken, ⟨step_sound sound (count ▸ few) taken, reader, calls, Or.inr count⟩, ?_⟩
    cases field <;> exact Nat.lt_succ_self _
  | written k =>
    have taken : u.step .publish = some { u with
        file := { u.file with changeCount := u.file.changeCount + 1 }
        writer := .idle } := by
      simp [System.step, at_]
    exact ⟨_, _, taken, ⟨step_sound sound (count ▸ few) taken, reader, calls, Or.inl rfl⟩,
      Nat.zero_lt_one⟩

/-- A call that has begun can be finished. -/
theorem Sound.finish_call (sound : Sound s filled)
    (few : s.file.changeCount.toNat + BATCH.toNat ≤ 2 ^ 32) :
    ∃ t, Reaches System.step s t ∧ Finishing s t ∧ t.writer = .idle :=
  reaches_of_progress (Finishing s) (fun u => u.writer = .idle) (fun u => u.writer.left)
    (fun _ way busy => way.progress few busy) ⟨⟨filled, sound⟩, rfl, rfl, Or.inr rfl⟩

/-- The tracer at rest can make a complete call. -/
theorem Sound.complete_call (sound : Sound s filled) (idle : s.writer = .idle)
    (few : s.file.changeCount.toNat + BATCH.toNat ≤ 2 ^ 32) (addr : Address) (data : BitVec 64)
    (flags : BitVec 32) :
    ∃ t, Reaches System.step s t ∧ (∃ filled', Sound t filled') ∧ t.writer = .idle ∧
      t.reader = s.reader ∧ t.calls.length = s.calls.length + 1 := by
  obtain ⟨begun, taken⟩ : ∃ u, s.step (.map addr data flags) = some u :=
    ⟨_, if_pos idle⟩
  have facts : begun.reader = s.reader ∧ begun.calls.length = s.calls.length + 1 ∧
      begun.file.changeCount = s.file.changeCount := by
    simp only [System.step, idle, if_true] at taken
    obtain rfl := Option.some.inj taken
    exact ⟨rfl, List.length_append, (mapWindow_facts _ _ _ _).1⟩
  obtain ⟨reader, calls, count⟩ := facts
  obtain ⟨_, begunSound⟩ := step_sound sound few taken
  obtain ⟨t, reached, way, rests⟩ := begunSound.finish_call (count ▸ few)
  exact ⟨t, (Reaches.of_step taken).trans reached, way.sound, rests, way.reader.trans reader,
    by rw [way.calls, calls]⟩

/-- As long as the clamp has room, any number of calls can be made and taken in one by one. -/
theorem reaches_caught_up (cfg : Config) (old : LogFile) (chglist : Clnum) (count : Nat)
    (few : count + 1 + BATCH.toNat ≤ 2 ^ 32) :
    ∃ t : System cfg, Reaches System.step (System.start cfg old chglist) t ∧
      (∃ filled, Sound t filled) ∧ t.writer = .idle ∧ t.reader.phase = .idle ∧
      t.calls.length = count ∧ t.reader.trace.entriesDone = t.file.changeCount := by
  induction count with
  | zero =>
    exact ⟨System.start cfg old chglist, Reaches.refl _ _, ⟨[], start_sound cfg old chglist⟩, rfl, rfl,
      rfl, rfl⟩
  | succ count ih =>
    obtain ⟨s, reached, ⟨filled, sound⟩, idle, -, length, -⟩ := ih (by omega)
    obtain ⟨t, called, ⟨filled', after⟩, rests, -, more⟩ :=
      sound.complete_call idle (sound.room (by omega)) 0 0 0
    obtain ⟨r, ⟨actions, caught⟩, readerSound, readerIdle, done⟩ :=
      after.reader.catches_up (after.room (by omega)) (by rw [after.counted]; exact after.published)
    have ran := run_database actions caught
    obtain ⟨_, last⟩ : ∃ filled, Sound { t with reader := r } filled :=
      run_invariant (fun u : System cfg => u.calls.length + 1 + BATCH.toNat ≤ 2 ^ 32 →
          ∃ filled, Sound u filled)
        (fun u action v inv taken bound => by
          have fewer := step_calls taken
          obtain ⟨_, before⟩ := inv (by omega)
          exact step_sound before (before.room (by omega)) taken)
        (fun _ => ⟨filled', after⟩) ran (by rw [more]; omega)
    exact ⟨{ t with reader := r }, (reached.trans called).trans ⟨_, ran⟩, ⟨_, last⟩, rests,
      readerIdle, by rw [more, length], done⟩

/-- Where the sum in the clamp wraps to 0, the loop's end lies behind it, and the entry after the
published ones is ingested too. -/
theorem Reader.overruns {file : LogFile} {r : Reader cfg} (idle : r.phase = .idle)
    (wraps : r.trace.entriesDone.toNat + BATCH.toNat = 2 ^ 32)
    (last : file.changeCount.toNat = r.trace.entriesDone.toNat + 1)
    (long : CHANGE_SIZE * file.changeCount.toNat ≤ file.length) :
    ∃ r', Reaches (Reader.step file) r r' ∧ r'.seen.length = r.seen.length + 2 := by
  have target : (r.trace.entriesDone + BATCH).toNat = 0 := by
    rw [BitVec.toNat_add, wraps, Nat.mod_self]
  rw [batch_toNat] at wraps
  have fresh : r.trace.entriesDone < file.changeCount := by
    change r.trace.entriesDone.toNat < file.changeCount.toNat
    omega
  have clamped : clampCount r.trace.entriesDone file.changeCount = r.trace.entriesDone + BATCH := by
    apply if_pos
    change (r.trace.entriesDone + BATCH).toNat < file.changeCount.toNat
    omega
  have next : (r.trace.entriesDone + 1).toNat = r.trace.entriesDone.toNat + 1 :=
    toNat_succ _ (by omega)
  have away : ∀ entry : EntryNumber, 0 < entry.toNat →
      entry ≠ clampCount r.trace.entriesDone file.changeCount := by
    intro entry positive same
    rw [same, clamped, target] at positive
    exact lt_irrefl 0 positive
  have inPage : CHANGE_SIZE * (r.trace.entriesDone.toNat + 1) ≤
      pageEnd (CHANGE_SIZE * file.changeCount.toNat) := last ▸ le_pageEnd _
  -- the mapping ends inside a page, and the rest of the page can be read
  have inPage' : CHANGE_SIZE * ((r.trace.entriesDone + 1).toNat + 1) ≤
      pageEnd (CHANGE_SIZE * file.changeCount.toNat) := by
    unfold pageEnd CHANGE_SIZE
    omega
  have sample := Reader.step_sample idle fresh
  have remap := @Reader.step_remap cfg file { r with phase := .sampled file.changeCount } _ rfl long
  have ingest := @Reader.step_ingest cfg file
    ⟨r.trace, CHANGE_SIZE * file.changeCount.toNat, .ingesting _, r.seen⟩ _ rfl
    (away r.trace.entriesDone (by omega)) inPage
  generalize file.slots r.trace.entriesDone.toNat = c at ingest
  have ingest' := @Reader.step_ingest cfg file
    ⟨r.trace.ingest c, CHANGE_SIZE * file.changeCount.toNat, .ingesting _, r.seen ++ [c]⟩ _ rfl
    (away (r.trace.entriesDone + 1) (by omega)) inPage'
  refine ⟨_, (((Reaches.of_step sample).trans (Reaches.of_step remap)).trans
    (Reaches.of_step ingest)).trans (Reaches.of_step ingest'), ?_⟩
  simp

/-- At 2^32 - 10^6 calls the sum in the clamp wraps, and the database ingests a record that no call
has written. -/
theorem overruns_after_wrap :
    ∃ (actions : List Action) (t : System ⟨false, 8, 17⟩),
      run System.step (System.start ⟨false, 8, 17⟩ ⟨0, 0, fun _ => zeroChange⟩ 1) actions = some t ∧
        t.calls.length = 2 ^ 32 - 1000000 ∧ t.writer = .idle ∧ ¬ t.reader.seen <+: t.calls := by
  have batch := batch_toNat
  obtain ⟨s, reached, ⟨_, sound⟩, idle, phase, length, caught⟩ :=
    reaches_caught_up ⟨false, 8, 17⟩ ⟨0, 0, fun _ => zeroChange⟩ 1 (2 ^ 32 - 1000000 - 1) (by omega)
  have counted := sound.calls_counted idle
  obtain ⟨t, called, ⟨_, after⟩, rests, same, more⟩ :=
    sound.complete_call idle (by omega) 0 0 0
  have counted' := after.calls_counted rests
  have done := after.reader.done
  have longer := after.published
  rw [← after.counted] at longer
  rw [same, caught, counted] at done
  obtain ⟨r, ⟨actions, overran⟩, seen⟩ := Reader.overruns (same ▸ phase)
    (by rw [same, caught]; omega) (by rw [same, caught]; omega) longer
  obtain ⟨whole, ran⟩ := (reached.trans called).trans ⟨_, run_database actions overran⟩
  have total : t.calls.length = 2 ^ 32 - 1000000 := by omega
  refine ⟨whole, { t with reader := r }, ran, total, rests, ?_⟩
  intro covers
  have shorter : r.seen.length ≤ t.calls.length := covers.length_le
  rw [seen, same] at shorter
  omega

end Overrun

end Qira.PinPublish
