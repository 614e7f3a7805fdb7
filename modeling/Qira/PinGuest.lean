import Qira.Library.Overwrites
import Qira.PinSyscalls

/-!
A process as PIN runs it, with the guest it traces: threads that share memory execute instructions in any order,
and the analysis routines put around an instruction log what it reads before it and what it has written after it.
-/

namespace Qira.PinGuest
open ChangeRecord PinTracer PinSyscalls
open Library.Words Library.Overwrites

/-- What an operand names of a general register. -/
inductive Part
  | low | high | half | word | whole
  deriving DecidableEq, Repr

/-- `REG_Size` -/
def Part.size : Part → Nat
  | .low => 1
  | .high => 1
  | .half => 2
  | .word => 4
  | .whole => 8

/-- The first byte of the part. -/
def Part.place : Part → Nat
  | .high => 1
  | _ => 0

/-- `value->byte`, for a register with these contents. -/
def Part.bytes (part : Part) (contents : BitVec 64) : Nat → Byte := fun k => byteOf contents (part.place + k)

/-- The number that the bytes of a part spell. -/
def Part.value (part : Part) (contents : BitVec 64) : BitVec 64 :=
  BitVec.ofNat 64 (littleEndian ((List.range part.size).map (part.bytes contents)))

/-- A write to a part keeps the rest of the register, but one to its lower word clears the upper one. -/
def Part.merge (part : Part) (contents value : BitVec 64) : BitVec 64 :=
  match part with
  | .low => (contents &&& ~~~(0xFF : BitVec 64)) ||| (value &&& 0xFF)
  | .high => (contents &&& ~~~(0xFF00 : BitVec 64)) ||| ((value &&& 0xFF) <<< 8)
  | .half => (contents &&& ~~~(0xFFFF : BitVec 64)) ||| (value &&& 0xFFFF)
  | .word => value &&& 0xFFFFFFFF
  | .whole => value

/-- The general registers, numbered as `RegToQiraRegAddr` orders them. -/
abbrev Register := Fin 16

abbrev Registers := Register → BitVec 64

structure RegOperand where
  register : Register
  part : Part

/-- `RegToQiraRegAddr`, for TARGET_IA32E -/
def regToQiraRegAddr (register : Register) : Address := BitVec.ofNat 64 (8 * register.val)

structure MemOperand where
  ea : Address
  size : BitVec 32
  /-- What is on the stack where the routine has its array. -/
  value : Vector Byte sizeofValue

def MemOperand.covers (op : MemOperand) (a : Address) : Bool := (a - op.ea).toNat < op.size.toNat

/-- One executed instruction. At most one memory operand is written, as there is one scratch register to keep
its address in. -/
structure Instruction where
  ip : Address
  size : BitVec 32
  /-- Whether its predicate holds. -/
  active : Bool
  hasFallThrough : Bool
  isBranchOrCall : Bool
  /-- Whether it branches this time. -/
  taken : Bool
  regReads : List RegOperand
  regWrites : List (RegOperand × BitVec 64)
  memReads : List MemOperand
  memWrite : Option (MemOperand × (Nat → Byte))
  syscall : Option Address

/-- `filter_ip_low` and `filter_ip_high` -/
structure Filter where
  low : Address
  high : Address

def Filter.filtered (filter : Filter) (address : Address) : Bool := address < filter.low || filter.high ≤ address

/-- The bytes of a buffer, at the addresses from its own on. -/
def laid (addr : Address) (data : Nat → Byte) (size : Nat) : Address → Option Byte :=
  fun a => if (a - addr).toNat < size then some (data (a - addr).toNat) else none

def WRITEEA_SENTINEL : Address := 0xDEADDEADDEADDEAD

section Routines
variable (t : ThreadState)

/-- `RecordStart`, with the number that it claims. -/
def recordStart (number : Clnum) (ip : Address) (size : BitVec 32) : ThreadState :=
  { t with changelistNumber := number }.addChange ip (size.setWidth 64) IS_START

def recordRegReads (regs : Registers) (reads : List RegOperand) : ThreadState :=
  reads.foldl (fun t op =>
    t.recordRegRead (regToQiraRegAddr op.register) (op.part.bytes (regs op.register)) op.part.size) t

def recordRegWrites (regs : Registers) (writes : List RegOperand) : ThreadState :=
  writes.foldl (fun t op =>
    t.recordRegWrite (regToQiraRegAddr op.register) (op.part.bytes (regs op.register)) op.part.size) t

/-- `RecordMemRead`, whose assertion stops the tracer. -/
def recordMemRead (memory : Address → Byte) (t : ThreadState) (op : MemOperand) : Option ThreadState :=
  if op.size.toNat ≤ sizeofValue then
    addBigChange (safeCopy memory op.ea op.size.toNat op.value.toList) 0 t op.ea IS_MEM op.size.toNat
  else none

def recordMemReads (memory : Address → Byte) (reads : List MemOperand) : Option ThreadState :=
  reads.foldlM (recordMemRead memory) t

end Routines

/-- `RecordMemWrite1`: the new contents of the scratch register, if the old ones were not perturbed. -/
def recordMemWrite1 (addr oldval : Address) : Option Address := if oldval = WRITEEA_SENTINEL then some addr else none

/-- One thread: its file, its registers and the scratch register. -/
structure Thread where
  state : ThreadState
  regs : Registers
  writeeaScratchReg : Address

structure Process where
  changelistNumber : Clnum
  memory : Address → Byte
  threads : List Thread

def writeRegisters (regs : Registers) (writes : List (RegOperand × BitVec 64)) : Registers :=
  writes.foldl (fun regs write =>
    Function.update regs write.1.register (write.1.part.merge (regs write.1.register) write.2)) regs

/-- What the instruction does to the guest. -/
def Instruction.regsAfter (i : Instruction) (regs : Registers) : Registers :=
  if i.active then writeRegisters regs i.regWrites else regs

def Instruction.memoryAfter (i : Instruction) (memory : Address → Byte) : Address → Byte :=
  if i.active then
    i.memWrite.elim memory (fun write => overwrite memory (laid write.1.ea write.2 write.1.size.toNat))
  else memory

/-- Whether the calls come that are inserted at IPOINT_AFTER or at IPOINT_TAKEN_BRANCH. -/
def Instruction.reachesWrites (i : Instruction) : Bool := if i.taken then i.isBranchOrCall else i.hasFallThrough

/-- The calls that `Instruction` has inserted before an instruction, from `RecordStart` on. -/
def Instruction.recordBefore (filter : Filter) (number : Clnum) (i : Instruction) (regs : Registers)
    (memory : Address → Byte) (t : ThreadState) (scratch : Address) : Option (ThreadState × Address) :=
  let unfiltered := filter.filtered i.ip = false
  let t := if unfiltered then recordStart t number i.ip i.size else t
  if i.active then do
    let t := if unfiltered then recordRegReads t regs i.regReads else t
    let t ← (if unfiltered then recordMemReads t memory i.memReads else some t)
    let scratch ← i.memWrite.elim (some scratch) (fun write => recordMemWrite1 write.1.ea scratch)
    some (i.syscall.elim t t.recordSyscall, scratch)
  else some (t, scratch)

/-- And those after it. The address is the one in the scratch register. -/
def Instruction.recordAfter (filter : Filter) (i : Instruction) (regs : Registers) (memory : Address → Byte)
    (t : ThreadState) (scratch : Address) : Option (ThreadState × Address) :=
  if i.active && i.reachesWrites then
    let t := if filter.filtered i.ip = false then recordRegWrites t regs (i.regWrites.map Prod.fst) else t
    i.memWrite.elim (some (t, scratch)) (fun write =>
      (recordMemWrite2 memory write.1.value t scratch write.1.size).map (fun t => (t, WRITEEA_SENTINEL)))
  else some (t, scratch)

/-- A thread has executed an instruction, between the calls before it and those after it. -/
def Instruction.execute (filter : Filter) (number : Clnum) (i : Instruction) (memory : Address → Byte)
    (thread : Thread) : Option Thread := do
  let (t, scratch) ← i.recordBefore filter number thread.regs memory thread.state thread.writeeaScratchReg
  let regs := i.regsAfter thread.regs
  let (t, scratch) ← i.recordAfter filter regs (i.memoryAfter memory) t scratch
  some ⟨t, regs, scratch⟩

/-- Whether the instruction is logged to access an address. -/
def Instruction.sees (filter : Filter) (i : Instruction) (a : Address) : Bool :=
  i.active && (!filter.filtered i.ip && i.memReads.any (·.covers a) ||
    i.reachesWrites && i.memWrite.any (·.1.covers a))

/-- A write of memory is followed by the calls that log it. -/
def Instruction.WritesLogged (i : Instruction) : Prop :=
  i.active = true → i.memWrite.isSome = true → i.reachesWrites = true

/-- What Linux transfers at most in one `read`. -/
def MAX_RW_COUNT : Int := 0x7ffff000

inductive Event
  | threadStart (regs : Registers)
  | instruction (tid : Nat) (i : Instruction)
  /-- A `read` returns, and has put as many of the bytes in its buffer as it says. -/
  | readReturns (tid : Nat) (arg : Vector Address 6) (syscallReturn : BitVec 64) (bytes : Nat → Byte)
      (value : Vector Byte sizeofValue)
  /-- Memory changes and nothing is told about it. -/
  | kernelWrites (write : Address → Option Byte)

def Event.WritesLogged : Event → Prop
  | .instruction _ i => i.WritesLogged
  | _ => True

/-- `claim_changelist_number` is called by `thread_start` and `RecordStart`. -/
def Event.claims (filter : Filter) : Event → Bool
  | .threadStart _ => true
  | .instruction _ i => filter.filtered i.ip = false
  | .readReturns _ _ _ _ _ => false
  | .kernelWrites _ => false

/-- One step of the process; there is none where a routine asserts in vain, or reads outside its array. -/
def Process.step (filter : Filter) (p : Process) (event : Event) : Option Process :=
  let next := if event.claims filter then p.changelistNumber + 1 else p.changelistNumber
  match event with
  | .threadStart regs =>
      some { p with
        changelistNumber := next
        threads := p.threads ++ [⟨⟨p.changelistNumber, []⟩, regs, WRITEEA_SENTINEL⟩] }
  | .instruction tid i => do
      let thread ← p.threads[tid]?
      let thread ← i.execute filter p.changelistNumber p.memory thread
      some ⟨next, i.memoryAfter p.memory, p.threads.set tid thread⟩
  | .readReturns tid arg syscallReturn bytes value =>
      if syscallReturn.toInt ≤ MAX_RW_COUNT then do
        let thread ← p.threads[tid]?
        let memory := overwrite p.memory (laid (readBuffer arg) bytes syscallReturn.toInt.toNat)
        let state ← syscallExit memory value thread.state ⟨SYS_READ, arg⟩ syscallReturn
        some ⟨next, memory, p.threads.set tid { thread with state }⟩
      else none
  | .kernelWrites write => some { p with changelistNumber := next, memory := overwrite p.memory write }

def Process.start (chglist : Clnum) (memory : Address → Byte) : Process := ⟨chglist, memory, []⟩

end Qira.PinGuest
