import Qira.QemuBuffer

/-!
Guest forks in the middle of a log. Until the child starts its next block it appends to its parent's
log: the record count and the file are shared, the buffer size and the mapping are not. The parent may
have shared its log before, so that its own buffer need not be that of the file.
-/

namespace Qira.QemuFork
open ChangeRecord TraceIndex SharedLog QemuBuffer Library.Words Library.Machines

/-- A complete call of `add_change`; `none` is a write outside the process's mapping. -/
def addChange (file : LogFile) (b : Buffer) (c : Change) : Option (LogFile × Buffer) :=
  let cc := file.changeCount
  let grown := growBuffer cc b file
  if grown.1.fits cc then some ({ putChange grown.2 cc c with changeCount := cc + 1 }, grown.1)
  else none

/-- The index drawn is below the capacity of the caller's mapping once it has grown, and the file
still has all records drawn before. -/
def SafeCall (file : LogFile) (b : Buffer) : Prop :=
  (growBuffer file.changeCount b file).1.fits file.changeCount ∧
    CHANGE_SIZE * file.changeCount.toNat ≤ (growBuffer file.changeCount b file).2.length

/-- All processes that write to one log, each with its own buffer. -/
structure Family (Process : Type) where
  file : LogFile
  buffers : Process → Option Buffer

inductive FamilyAction (Process : Type)
  | call (caller : Process) (c : Change)
  | fork (parent child : Process)
  | leave (member : Process)

/-- A call inside the caller's mapping writes its record; one outside has drawn its index all the same,
and its caller is killed or not. A process leaves when it ends or begins a log of its own. The model ends
where the count would wrap. -/
def Family.step {Process : Type} [DecidableEq Process] (s : Family Process) :
    FamilyAction Process → Option (Family Process)
  | .call caller c =>
      match s.buffers caller with
      | some b =>
          let cc := s.file.changeCount
          let grown := growBuffer cc b s.file
          let file := if grown.1.fits cc then putChange grown.2 cc c else grown.2
          if cc.toNat + 1 < 2 ^ 32 then
            some ⟨{ file with changeCount := cc + 1 }, Function.update s.buffers caller (some grown.1)⟩
          else none
      | none => none
  | .fork parent child =>
      match s.buffers parent with
      | some b =>
          if (s.buffers child).isNone then some { s with buffers := Function.update s.buffers child (some b) }
          else none
      | none => none
  | .leave member => some { s with buffers := Function.update s.buffers member none }

/-- After `init_QIRA` of the process whose log it is. -/
def Family.start {Process : Type} [DecidableEq Process] (owner : Process) : Family Process where
  file := initLog
  buffers := Function.update (fun _ => none) owner (some initBuffer)

inductive Side
  | parent | child
  deriving DecidableEq, Repr

structure Forked where
  file : LogFile
  buffers : Side → Buffer

/-- The fork copies the globals and shares the mapping. -/
def fork (file : LogFile) (b : Buffer) : Forked := ⟨file, fun _ => b⟩

def Forked.step (s : Forked) (a : Side × Change) : Option Forked :=
  (addChange s.file (s.buffers a.1) a.2).map
    (fun next => ⟨next.1, Function.update s.buffers a.1 next.2⟩)

def Safe (s : Forked) (a : Side × Change) : Prop := SafeCall s.file (s.buffers a.1)

/-- A process whose buffer is that of the file, with the next index at most at its end. -/
structure Fitted (file : LogFile) (b : Buffer) : Prop where
  size : b.changeSize.toNat = b.capacity
  length : file.length = CHANGE_SIZE * b.capacity
  started : 1 ≤ file.changeCount.toNat
  inside : file.changeCount.toNat ≤ b.capacity

section Calls
variable {file : LogFile} {b : Buffer}

theorem growBuffer_full (count : file.changeCount.toNat = b.changeSize.toNat) :
    growBuffer file.changeCount b file = (⟨b.changeSize * 2, b.changeSize.toNat * 2⟩,
      ftruncate file (b.changeSize.toNat * CHANGE_SIZE * 2)) :=
  if_pos (BitVec.eq_of_toNat_eq count)

theorem growBuffer_room (count : file.changeCount.toNat ≠ b.changeSize.toNat) :
    growBuffer file.changeCount b file = (b, file) :=
  if_neg (fun same => count (congrArg BitVec.toNat same))

/-- A fitted process may call exactly while the index is a positive `int`. -/
theorem Fitted.safe_iff (fitted : Fitted file b) :
    SafeCall file b ↔ file.changeCount.toNat < 2 ^ 31 := by
  obtain ⟨size, length, started, inside⟩ := fitted
  unfold SafeCall Buffer.fits
  rw [msb_false_iff]
  by_cases full : file.changeCount.toNat = b.changeSize.toNat
  · rw [growBuffer_full full]
    change (_ ∧ _ < b.changeSize.toNat * 2) ∧
      CHANGE_SIZE * _ ≤ b.changeSize.toNat * CHANGE_SIZE * 2 ↔ _
    unfold CHANGE_SIZE
    omega
  · rw [growBuffer_room full]
    rw [size] at full
    have below : file.changeCount.toNat < b.capacity := lt_of_le_of_ne inside full
    rw [length]
    unfold CHANGE_SIZE
    simp only
    omega

/-- A process left behind by the count finds no room, and never will. -/
theorem not_safe_of_behind (size : b.changeSize.toNat = b.capacity)
    (behind : b.capacity < file.changeCount.toNat) : ¬ SafeCall file b := by
  have past : file.changeCount.toNat ≠ b.changeSize.toNat := by omega
  intro safe
  rw [SafeCall, growBuffer_room past] at safe
  have := safe.1.2
  simp only at this
  omega

/-- A safe call of a fitted process succeeds and leaves it fitted. -/
theorem Fitted.addChange (fitted : Fitted file b) (c : Change)
    (small : file.changeCount.toNat < 2 ^ 31) :
    ∃ file' b', QemuFork.addChange file b c = some (file', b') ∧ Fitted file' b' ∧
      file'.changeCount.toNat = file.changeCount.toNat + 1 ∧
      (file.changeCount.toNat < b.capacity → b' = b) := by
  have fits := (fitted.safe_iff.mpr small).1
  obtain ⟨size, length, started, inside⟩ := fitted
  have next : (file.changeCount + 1).toNat = file.changeCount.toNat + 1 :=
    toNat_succ _ (by omega)
  refine ⟨_, _, if_pos fits, ?_, next, ?_⟩
  · by_cases full : file.changeCount.toNat = b.changeSize.toNat
    · rw [growBuffer_full full]
      have doubled : (b.changeSize * 2).toNat = b.changeSize.toNat * 2 := by
        rw [BitVec.toNat_mul]
        exact Nat.mod_eq_of_lt (by simp only [BitVec.ofNat_eq_ofNat, BitVec.toNat_ofNat]; omega)
      refine ⟨doubled, ?_, ?_, ?_⟩
      · change b.changeSize.toNat * CHANGE_SIZE * 2 = CHANGE_SIZE * (b.changeSize.toNat * 2)
        rw [Nat.mul_assoc, Nat.mul_left_comm]
      · change 1 ≤ (file.changeCount + 1).toNat
        omega
      · change (file.changeCount + 1).toNat ≤ b.changeSize.toNat * 2
        omega
    · rw [growBuffer_room full]
      refine ⟨size, length, ?_, ?_⟩
      · change 1 ≤ (file.changeCount + 1).toNat
        omega
      · change (file.changeCount + 1).toNat ≤ b.capacity
        omega
  · intro below
    rw [growBuffer_room (by omega)]

end Calls

section Families
variable {Process : Type}

theorem member_update [DecidableEq Process] {buffers : Process → Option Buffer} {caller p : Process}
    {next : Option Buffer} {b : Buffer} (member : Function.update buffers caller next p = some b) :
    p = caller ∧ next = some b ∨ p ≠ caller ∧ buffers p = some b := by
  by_cases same : p = caller
  · rw [same, Function.update_self] at member
    exact Or.inl ⟨same, member⟩
  · rw [Function.update_of_ne same] at member
    exact Or.inr ⟨same, member⟩

/-- While the indices are positive `int`s, the size of each member's buffer is its capacity, and a member
that has room for the next index, or is about to make it, has the buffer of the file. -/
structure Kept (s : Family Process) : Prop where
  started : 1 ≤ s.file.changeCount.toNat
  size : s.file.changeCount.toNat ≤ 2 ^ 31 → ∀ p b, s.buffers p = some b → b.changeSize.toNat = b.capacity
  length : s.file.changeCount.toNat ≤ 2 ^ 31 → ∀ p b, s.buffers p = some b →
    s.file.changeCount.toNat ≤ b.capacity → s.file.length = CHANGE_SIZE * b.capacity

variable {s t : Family Process}

/-- A family is kept by any change that gives no process another buffer than some member has. -/
theorem Kept.subfamily (kept : Kept s) {buffers : Process → Option Buffer}
    (among : ∀ p b, buffers p = some b → ∃ q, s.buffers q = some b) : Kept { s with buffers := buffers } where
  started := kept.started
  size := by
    intro small p b member
    obtain ⟨q, before⟩ := among p b member
    exact kept.size small q b before
  length := by
    intro small p b member room
    obtain ⟨q, before⟩ := among p b member
    exact kept.length small q b before room

variable [DecidableEq Process]

theorem start_kept (owner : Process) : Kept (Family.start owner) := by
  have only : ∀ p b, (Family.start owner).buffers p = some b → initBuffer = b := by
    intro p b member
    have update : Function.update (fun _ => none) owner (some initBuffer) p = some b := member
    rcases member_update update with ⟨-, same⟩ | ⟨-, absent⟩
    · exact Option.some.inj same
    · cases absent
  refine ⟨le_rfl, fun _ p b member => ?_, fun _ p b member _ => ?_⟩
  · rw [← only p b member]
    rfl
  · rw [← only p b member]
    rfl

/-- A call keeps the caller's buffer that of the file, or leaves the others behind the count. -/
theorem Kept.call (kept : Kept s) {caller : Process} {b : Buffer} (member : s.buffers caller = some b)
    (bound : s.file.changeCount.toNat + 1 < 2 ^ 32) {file : LogFile}
    (count : file.changeCount = s.file.changeCount + 1)
    (length : file.length = (growBuffer s.file.changeCount b s.file).2.length) :
    Kept ⟨file, Function.update s.buffers caller (some (growBuffer s.file.changeCount b s.file).1)⟩ := by
  have next : file.changeCount.toNat = s.file.changeCount.toNat + 1 := by
    rw [count]
    exact toNat_succ _ bound
  have started := kept.started
  refine ⟨by change 1 ≤ file.changeCount.toNat; omega, ?_, ?_⟩
  · intro small p b' member'
    change file.changeCount.toNat ≤ 2 ^ 31 at small
    rcases member_update member' with ⟨-, same⟩ | ⟨-, before⟩
    · rw [← Option.some.inj same]
      have size := kept.size (by omega) caller b member
      by_cases full : s.file.changeCount.toNat = b.changeSize.toNat
      · rw [growBuffer_full full]
        change (b.changeSize * 2).toNat = b.changeSize.toNat * 2
        rw [BitVec.toNat_mul]
        exact Nat.mod_eq_of_lt (by simp only [BitVec.ofNat_eq_ofNat, BitVec.toNat_ofNat]; omega)
      · rw [growBuffer_room full]
        exact size
    · exact kept.size (by omega) p b' before
  · intro small p b' member' room
    change file.changeCount.toNat ≤ 2 ^ 31 at small
    change file.changeCount.toNat ≤ b'.capacity at room
    change file.length = _
    rw [length]
    have size := kept.size (by omega) caller b member
    by_cases full : s.file.changeCount.toNat = b.changeSize.toNat
    · rcases member_update member' with ⟨-, same⟩ | ⟨-, before⟩
      · rw [← Option.some.inj same, growBuffer_full full]
        change b.changeSize.toNat * CHANGE_SIZE * 2 = CHANGE_SIZE * (b.changeSize.toNat * 2)
        rw [Nat.mul_assoc, Nat.mul_left_comm]
      · -- another member with room would have the caller's capacity, which is used up
        have other := kept.length (by omega) p b' before (by omega)
        have own := kept.length (by omega) caller b member (by omega)
        unfold CHANGE_SIZE at other own
        omega
    · rw [growBuffer_room full] at member' ⊢
      rcases member_update member' with ⟨-, same⟩ | ⟨-, before⟩
      · obtain rfl : b = b' := Option.some.inj same
        exact kept.length (by omega) caller b member (by omega)
      · exact kept.length (by omega) p b' before (by omega)

theorem Kept.step {action : FamilyAction Process} (kept : Kept s) (taken : s.step action = some t) : Kept t := by
  cases action with
  | call caller c =>
    simp only [Family.step] at taken
    split at taken
    next b member =>
      split at taken
      next bound =>
        obtain rfl := Option.some.inj taken
        refine kept.call member bound rfl ?_
        split <;> rfl
      next wraps => cases taken
    next absent => cases taken
  | fork parent child =>
    simp only [Family.step] at taken
    split at taken
    next b member =>
      split_ifs at taken with fresh
      obtain rfl := Option.some.inj taken
      apply kept.subfamily
      intro p b' member'
      rcases member_update member' with ⟨-, same⟩ | ⟨-, before⟩
      · exact ⟨parent, member.trans same⟩
      · exact ⟨p, before⟩
    next absent => cases taken
  | leave gone =>
    obtain rfl := Option.some.inj taken
    apply kept.subfamily
    intro p b member
    rcases member_update member with ⟨-, absent⟩ | ⟨-, before⟩
    · cases absent
    · exact ⟨p, before⟩

theorem reachable_kept (owner : Process) (history : List (FamilyAction Process))
    (ran : run Family.step (Family.start owner) history = some s) : Kept s :=
  run_invariant Kept (fun _ _ _ kept taken => kept.step taken) (start_kept owner) ran

end Families

section Runs
variable {s : Forked}

/-- One step of the side whose buffer fits. -/
theorem step_fitted (side : Side) (fitted : Fitted s.file (s.buffers side))
    (small : s.file.changeCount.toNat < 2 ^ 31) (c : Change) :
    ∃ t, s.step (side, c) = some t ∧ Fitted t.file (t.buffers side) ∧
      t.file.changeCount.toNat = s.file.changeCount.toNat + 1 ∧
      (∀ other, other ≠ side → t.buffers other = s.buffers other) ∧
      (s.file.changeCount.toNat < (s.buffers side).capacity →
        t.buffers side = s.buffers side) := by
  obtain ⟨file, b, called, after, next, kept⟩ := fitted.addChange c small
  refine ⟨⟨file, Function.update s.buffers side b⟩, ?_, ?_, next, ?_, ?_⟩
  · rw [Forked.step, called]
    rfl
  · simpa using after
  · intro other apart
    exact Function.update_of_ne apart _ _
  · intro below
    simpa using kept below

private theorem along_cons {t : Forked} {a : Side × Change} {rest : List (Side × Change)}
    (safe : Safe s a) (taken : s.step a = some t) :
    Along Forked.step Safe s (a :: rest) ↔ Along Forked.step Safe t rest := by
  constructor
  · intro along
    exact along.2 t taken
  · intro along
    exact ⟨safe, fun u other => Option.some.inj (taken.symm.trans other) ▸ along⟩

/-- Once one side has grown the file alone, only that side may go on. -/
theorem safe_iff_grown (side : Side) (actions : List (Side × Change))
    (fitted : Fitted s.file (s.buffers side)) (small : s.file.changeCount.toNat ≤ 2 ^ 31)
    (behind : ∀ other, other ≠ side →
      (s.buffers other).changeSize.toNat = (s.buffers other).capacity ∧
        (s.buffers other).capacity < s.file.changeCount.toNat) :
    Along Forked.step Safe s actions ↔
      s.file.changeCount.toNat + actions.length ≤ 2 ^ 31 ∧ ∀ a ∈ actions, a.1 = side := by
  induction actions generalizing s with
  | nil => exact iff_of_true trivial ⟨small, nofun⟩
  | cons a rest ih =>
    obtain ⟨caller, c⟩ := a
    rw [List.length_cons]
    by_cases same : caller = side
    · subst same
      by_cases below : s.file.changeCount.toNat < 2 ^ 31
      · obtain ⟨t, taken, after, next, others, -⟩ := step_fitted caller fitted below c
        have safe : Safe s (caller, c) := fitted.safe_iff.mpr below
        rw [along_cons safe taken, ih after (by omega)]
        · rw [next, List.forall_mem_cons]
          simp only [true_and]
          rw [Nat.add_right_comm, Nat.add_assoc]
        · intro other apart
          rw [others other apart, next]
          exact ⟨(behind other apart).1, (behind other apart).2.trans (Nat.lt_succ_self _)⟩
      · refine iff_of_false ?_ (by omega)
        intro along
        exact below (fitted.safe_iff.mp along.1)
    · refine iff_of_false ?_ ?_
      · intro along
        exact not_safe_of_behind (behind caller same).1 (behind caller same).2 along.1
      · intro both
        exact same (both.2 _ List.mem_cons_self)

/-- From a common buffer, the calls past its end must all be made by one side. -/
theorem safe_iff_common (b : Buffer) (actions : List (Side × Change))
    (common : ∀ side, s.buffers side = b) (fitted : Fitted s.file b)
    (small : s.file.changeCount.toNat ≤ 2 ^ 31) :
    Along Forked.step Safe s actions ↔
      s.file.changeCount.toNat + actions.length ≤ 2 ^ 31 ∧
        ∃ side, ∀ a ∈ actions.drop (b.capacity - s.file.changeCount.toNat), a.1 = side := by
  induction actions generalizing s with
  | nil => exact iff_of_true trivial ⟨small, .parent, by simp⟩
  | cons a rest ih =>
    obtain ⟨caller, c⟩ := a
    rw [List.length_cons]
    have callerFits : Fitted s.file (s.buffers caller) := by rw [common]; exact fitted
    by_cases below : s.file.changeCount.toNat < 2 ^ 31
    · obtain ⟨t, taken, after, next, others, kept⟩ := step_fitted caller callerFits below c
      have safe : Safe s (caller, c) := callerFits.safe_iff.mpr below
      rw [along_cons safe taken]
      by_cases room : s.file.changeCount.toNat < b.capacity
      · have same := kept (by rw [common]; exact room)
        have stillCommon : ∀ side, t.buffers side = b := by
          intro side
          by_cases caller' : side = caller
          · rw [caller', same, common]
          · rw [others side caller', common]
        have length : b.capacity - s.file.changeCount.toNat =
            b.capacity - t.file.changeCount.toNat + 1 := by omega
        rw [ih stillCommon (stillCommon caller ▸ after) (by omega), length, List.drop_succ_cons, next,
          Nat.add_right_comm, Nat.add_assoc]
      · have atEnd : b.capacity - s.file.changeCount.toNat = 0 := by omega
        rw [safe_iff_grown caller rest after (by omega), atEnd, List.drop_zero, next,
          Nat.add_right_comm, Nat.add_assoc]
        · apply and_congr_right
          intro _
          constructor
          · intro alone
            exact ⟨caller, List.forall_mem_cons.mpr ⟨rfl, alone⟩⟩
          · intro one
            obtain ⟨side, all⟩ := one
            obtain ⟨first, later⟩ := List.forall_mem_cons.mp all
            obtain rfl : caller = side := first
            exact later
        · intro other apart
          have := fitted.inside
          rw [others other apart, common, next]
          exact ⟨fitted.size, by omega⟩
    · refine iff_of_false ?_ (by omega)
      intro along
      exact below (callerFits.safe_iff.mp along.1)

end Runs

/-- A call is unsafe once the index is not a positive `int`. -/
theorem not_safe_of_negative {file : LogFile} {b : Buffer} (large : 2 ^ 31 ≤ file.changeCount.toNat) :
    ¬ SafeCall file b := by
  intro safe
  have positive := (msb_false_iff _).mp safe.1.1
  omega

/-- For every interleaving of complete calls by the two processes after a fork, whatever processes have
shared the log before: every index stays below its writer's capacity and no record is cut off if and only if
there are no calls, or the process that forked is not behind the count, the indices stay positive ints and
the calls from the end of the common buffer on are all made by one of the two processes. -/
theorem forked_safe_iff {Process : Type} [DecidableEq Process] (owner : Process)
    (history : List (FamilyAction Process)) (s : Family Process)
    (ran : run Family.step (Family.start owner) history = some s) (parent : Process) (b : Buffer)
    (member : s.buffers parent = some b) (actions : List (Side × Change)) :
    Along Forked.step Safe (fork s.file b) actions ↔
      actions = [] ∨ s.file.changeCount.toNat ≤ b.changeSize.toNat ∧
        s.file.changeCount.toNat + actions.length ≤ 2 ^ 31 ∧
        ∃ side, ∀ a ∈ actions.drop (b.changeSize.toNat - s.file.changeCount.toNat), a.1 = side := by
  have kept := reachable_kept owner history ran
  cases actions with
  | nil => exact iff_of_true trivial (Or.inl rfl)
  | cons a rest =>
    rw [or_iff_right (List.cons_ne_nil a rest)]
    by_cases small : s.file.changeCount.toNat < 2 ^ 31
    · have size := kept.size small.le parent b member
      rw [size]
      by_cases room : s.file.changeCount.toNat ≤ b.capacity
      · rw [and_iff_right room]
        exact safe_iff_common b (a :: rest) (fun _ => rfl)
          ⟨size, kept.length small.le parent b member room, kept.started, room⟩ small.le
      · apply iff_of_false
        · intro along
          exact not_safe_of_behind size (not_le.mp room) along.1
        · intro both
          exact room both.1
    · apply iff_of_false
      · intro along
        exact not_safe_of_negative (not_lt.mp small) along.1
      · intro both
        have short := both.2.1
        rw [List.length_cons] at short
        omega

/-- The start record of the parent's first block. -/
def startRecord : Change := ⟨0x8000, 4, 1, 0x90000000⟩

/-- One byte that the kernel wrote for the process. -/
def kernelRecord : Change := ⟨0x1000, 0x41, 1, 0xE0000008⟩

/-- At a fork of a process that was forked before, and has written to the common log since. -/
theorem forked_safe_iff_second :
    ∃ s b, run Family.step (Family.start 0) [.call 0 startRecord, .fork 0 1, .call 1 kernelRecord] = some s ∧
      s.buffers (1 : Nat) = some b ∧
      (Along Forked.step Safe (fork s.file b) [(.child, kernelRecord), (.child, kernelRecord)] ↔
        [(Side.child, kernelRecord), (Side.child, kernelRecord)] = [] ∨
          s.file.changeCount.toNat ≤ b.changeSize.toNat ∧
          s.file.changeCount.toNat + 2 ≤ 2 ^ 31 ∧
          ∃ side, ∀ a ∈ [(Side.child, kernelRecord), (Side.child, kernelRecord)].drop
            (b.changeSize.toNat - s.file.changeCount.toNat), a.1 = side) :=
  ⟨_, _, rfl, rfl, forked_safe_iff 0 [.call 0 startRecord, .fork 0 1, .call 1 kernelRecord] _ rfl 1 _ rfl
    [(.child, kernelRecord), (.child, kernelRecord)]⟩

/-- The child draws the index at the end of the common buffer and grows its own mapping; the parent
then draws index 3 and has room for two records. -/
theorem parent_outgrown :
    ∃ s b t, run Family.step (Family.start 0) [.call 0 startRecord] = some s ∧ s.buffers (0 : Nat) = some b ∧
      (fork s.file b).step (.child, kernelRecord) = some t ∧ t.file.changeCount = 3 ∧
      (growBuffer 3 (t.buffers .parent) t.file).1.capacity = 2 ∧
      ¬ Along Forked.step Safe (fork s.file b) [(.child, kernelRecord), (.parent, kernelRecord)] := by
  refine ⟨_, _, _, rfl, rfl, rfl, rfl, by decide, ?_⟩
  intro along
  obtain ⟨-, later⟩ := along
  exact absurd (later _ rfl).1.1.2 (by decide)

end Qira.QemuFork
