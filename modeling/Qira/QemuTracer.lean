import Qira.ChangeRecord

/-!
The QEMU tracer as one process writes its log: `add_change` and the tracking functions over it, the
register updates held back while tracing is filtered, and the start of a translation block. Records
are appended in the order their indices are drawn from `change_count`.
-/

namespace Qira.QemuTracer
open ChangeRecord Library.Words

/-- Access sizes of the instrumented TCG operations. -/
inductive Width
  | byte | half | word | double
  deriving DecidableEq, Repr

def Width.bits : Width → BitVec 32
  | .byte => 8
  | .half => 16
  | .word => 32
  | .double => 64

/-- Where the target hooks the helper that raises a system call, with the register of its result. -/
inductive SyscallHook
  | eax (offset : Address)
  | r0 (offset : Address)
  | none

structure Target where
  ulong : Width
  hook : SyscallHook

def FAKE_SYSCALL_LOADSEG : Address := 0x10001
def PENDING_CHANGES_MAX_ADDR : Nat := 0x100

abbrev Pending := Vector Change (PENDING_CHANGES_MAX_ADDR / 4)

def noPending : Pending := Vector.replicate _ ⟨0, 0, 0, 0⟩

/-- The log and the globals of the traced process. -/
structure Tracer where
  log : List Change
  changelistNumber : Clnum
  isFiltered : Bool
  pending : Pending
  lastWasSyscall : Bool

/-- After `init_QIRA`. -/
def Tracer.init (startClnum : Clnum) : Tracer where
  log := []
  changelistNumber := startClnum - 1
  isFiltered := false
  pending := noPending
  lastWasSyscall := false

def Tracer.addChange (t : Tracer) (addr : Address) (data : BitVec 64) (flags : BitVec 32) : Tracer :=
  { t with log := t.log ++ [⟨addr, data, t.changelistNumber, IS_VALID ||| flags⟩] }

def Tracer.addPendingChange (t : Tracer) (addr : Address) (data : BitVec 64) (flags : BitVec 32) :
    Tracer :=
  if small : addr.toNat < PENDING_CHANGES_MAX_ADDR then
    have inside : addr.toNat / 4 < PENDING_CHANGES_MAX_ADDR / 4 := by
      unfold PENDING_CHANGES_MAX_ADDR at small ⊢
      omega
    let slot : Change := t.pending[addr.toNat / 4]
    let slot := { slot with address := addr, data := data, flags := IS_VALID ||| flags }
    { t with pending := t.pending.set (addr.toNat / 4) slot }
  else t

/-- One round of the loop of `commit_pending_changes`. -/
def Tracer.commitPending (t : Tracer) (c : Change) : Tracer :=
  if has c.flags IS_VALID then t.addChange c.address c.data c.flags else t

def Tracer.commitPendingChanges (t : Tracer) : Tracer :=
  { t.pending.toList.foldl Tracer.commitPending t with pending := noPending }

/-- The first eight words of the CPU state are logged when filtering has held them back. -/
def Tracer.trackSyscallBegin (target : Target) (t : Tracer) (env : Address → BitVec 64)
    (sysnr : Address) : Tracer :=
  let t := if t.isFiltered then
      [0x00, 0x04, 0x08, 0x0C, 0x10, 0x14, 0x18, 0x1C].foldl
        (fun t i => t.addChange i (env i) (IS_WRITE ||| target.ulong.bits)) t
    else t
  t.addChange sysnr 0 IS_SYSCALL

def Tracer.trackLoad (t : Tracer) (addr : Address) (data : BitVec 64) (size : Width) : Tracer :=
  t.addChange addr data (IS_MEM ||| size.bits)

def Tracer.trackStore (t : Tracer) (addr : Address) (data : BitVec 64) (size : Width) : Tracer :=
  t.addChange addr data (IS_MEM ||| IS_WRITE ||| size.bits)

/-- `(int)offset < 0`. -/
def negativeOffset (offset : Address) : Bool := (offset.setWidth 32).msb

def Tracer.trackRead (t : Tracer) (offset : Address) (data : BitVec 64) (size : Width) : Tracer :=
  if negativeOffset offset then t
  else if t.isFiltered = false then t.addChange offset data size.bits
  else t

def Tracer.trackWrite (t : Tracer) (offset : Address) (data : BitVec 64) (size : Width) : Tracer :=
  if negativeOffset offset then t
  else if t.isFiltered = false then t.addChange offset data (IS_WRITE ||| size.bits)
  else t.addPendingChange offset data (IS_WRITE ||| size.bits)

/-- One record for each byte, from `guestAddr` on. -/
def Tracer.trackKernelWrite (t : Tracer) (guestAddr : Address) : List Byte → Tracer
  | [] => t
  | byte :: rest =>
      (t.addChange guestAddr (byte.setWidth 64) (IS_MEM ||| IS_WRITE ||| 8)).trackKernelWrite
        (guestAddr + 1) rest

/-- The result register of a system call, logged when the next block starts. -/
def Tracer.trackSyscallResult (target : Target) (t : Tracer) (env : Address → BitVec 64) : Tracer :=
  if t.lastWasSyscall then
    let t := match target.hook with
      | .eax offset => t.addChange offset (env offset) (IS_WRITE ||| target.ulong.bits)
      | .r0 offset => t.addChange offset (env offset) (IS_WRITE ||| target.ulong.bits)
      | .none => t
    { t with lastWasSyscall := false }
  else t

/-- The start of an unfiltered block: leave filtering if it is on, then a new changelist. -/
def Tracer.startChangelist (t : Tracer) (pc : Address) (size : BitVec 64) : Tracer :=
  let t := if t.isFiltered then { t.commitPendingChanges with isFiltered := false } else t
  { t with changelistNumber := t.changelistNumber + 1 }.addChange pc size IS_START

/-- The part of `tcg_qemu_tb_exec` before a block is interpreted. -/
def Tracer.startBlock (target : Target) (t : Tracer) (env : Address → BitVec 64) (filtered : Bool)
    (pc : Address) (size : BitVec 64) : Tracer :=
  let t := t.trackSyscallResult target env
  if filtered then { t with isFiltered := true } else t.startChangelist pc size

/-- A call of `helper_raise_interrupt` or of the ARM exception helper. -/
def Tracer.raiseSyscall (target : Target) (t : Tracer) (env : Address → BitVec 64) : Tracer :=
  let begin (sysnr : Address) : Tracer :=
    let t := if t.isFiltered then t.commitPendingChanges else t
    { t.trackSyscallBegin target env sysnr with lastWasSyscall := true }
  match target.hook with
  | .eax offset => begin (env offset)
  | .r0 offset => begin (env offset)
  | .none => t

/-- A call of `helper_load_seg`, on targets that have `R_EAX`: its arguments become the data of the
record. -/
def Tracer.loadSeg (target : Target) (t : Tracer) (env : Address → BitVec 64)
    (selector value : BitVec 64) : Tracer :=
  match target.hook with
  | .eax _ =>
      let t := if t.isFiltered then t.commitPendingChanges else t
      let t := t.trackSyscallBegin target env FAKE_SYSCALL_LOADSEG
      { t with log := t.log.modifyLast (fun a => { a with data := selector <<< 32 ||| value }) }
  | _ => t

inductive Event
  | block (env : Address → BitVec 64) (filtered : Bool) (pc : Address) (size : BitVec 64)
  | load (addr : Address) (data : BitVec 64) (size : Width)
  | store (addr : Address) (data : BitVec 64) (size : Width)
  | read (offset : Address) (data : BitVec 64) (size : Width)
  | write (offset : Address) (data : BitVec 64) (size : Width)
  | kernelWrite (guestAddr : Address) (bytes : List Byte)
  | syscall (env : Address → BitVec 64)
  | loadSeg (env : Address → BitVec 64) (selector value : BitVec 64)

def Tracer.step (target : Target) (t : Tracer) : Event → Tracer
  | .block env filtered pc size => t.startBlock target env filtered pc size
  | .load addr data size => t.trackLoad addr data size
  | .store addr data size => t.trackStore addr data size
  | .read offset data size => t.trackRead offset data size
  | .write offset data size => t.trackWrite offset data size
  | .kernelWrite guestAddr bytes => t.trackKernelWrite guestAddr bytes
  | .syscall env => t.raiseSyscall target env
  | .loadSeg env selector value => t.loadSeg target env selector value

def Tracer.run (target : Target) (t : Tracer) (events : List Event) : Tracer :=
  events.foldl (Tracer.step target) t

/-- How many of the events start a changelist. -/
def changelists : List Event → Nat
  | [] => 0
  | .block _ false _ _ :: rest => changelists rest + 1
  | _ :: rest => changelists rest

end Qira.QemuTracer
