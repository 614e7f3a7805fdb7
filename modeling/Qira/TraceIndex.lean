import Qira.ChangeRecord
import Qira.Library.Timelines

/-!
The trace database of `qiradb`: the maps filled by `Trace::process`, one record at a time, and the
queries answered from them. Each map is updated by a function of its own, so that a record's effect
on one map can be read without the others.
-/

namespace Qira.TraceIndex
open ChangeRecord Library.Words Library.Timelines

abbrev MemoryWithValid := BitVec 16
abbrev MemoryCell := Timeline Clnum Byte
abbrev RegisterCell := Timeline Clnum (BitVec 64)
abbrev MemoryMap := Std.TreeMap Address MemoryCell
abbrev PageMap := Std.TreeMap Address Byte
abbrev AddressTypeMap := Std.HashMap (Address × Char) (Std.TreeSet Clnum)

def MEMORY_VALID : MemoryWithValid := 0x100
def PAGE_MASK : Address := 0xFFFFFFFFFFFFF000
def PAGE_INSTRUCTION : Byte := 1
def PAGE_READ : Byte := 2
def PAGE_WRITE : Byte := 4

/-- The arguments of `ConnectToFileAndStart`. -/
structure Config where
  isBigEndian : Bool
  registerSize : Nat
  registerCount : Nat

/-- The fields of `class Trace` that ingestion changes. -/
structure Trace (cfg : Config) where
  clnumToEntryNumber : List EntryNumber
  pages : PageMap
  addresstypeToClnums : AddressTypeMap
  registers : Vector RegisterCell cfg.registerCount
  memory : MemoryMap
  maxClnum : Clnum
  minClnum : Clnum
  entriesDone : EntryNumber

def Trace.new (cfg : Config) : Trace cfg where
  clnumToEntryNumber := []
  pages := ∅
  addresstypeToClnums := ∅
  registers := Vector.replicate cfg.registerCount empty
  memory := ∅
  maxClnum := 0
  minClnum := INVALID_CLNUM
  entriesDone := 1

/-- `resize` up to the changelist number, then `push_back`. -/
def pushEntry (entries : List EntryNumber) (clnum : Clnum) (entry : EntryNumber) :
    List EntryNumber :=
  entries ++ List.replicate (clnum.toNat - entries.length) 0 ++ [entry]

def orPage (pages : PageMap) (a : Address) (bits : Byte) : PageMap :=
  pages.alter (a &&& PAGE_MASK) (fun old => some (old.getD 0 ||| bits))

def touchPages (pages : PageMap) (c : Change) : PageMap :=
  let pages := if c.type = 'I' then orPage pages c.address PAGE_INSTRUCTION else pages
  let pages := if c.type = 'L' then orPage pages c.address PAGE_READ else pages
  if c.type = 'S' then orPage pages c.address PAGE_WRITE else pages

def insertClnum (index : AddressTypeMap) (c : Change) : AddressTypeMap :=
  index.alter (c.address, c.type) (fun old => some ((old.getD ∅).insert c.clnum))

def writeRegister {cfg : Config} (registers : Vector RegisterCell cfg.registerCount) (c : Change) :
    Vector RegisterCell cfg.registerCount :=
  if inFile : c.type = 'W' ∧ c.address.toNat < cfg.registerSize * cfg.registerCount then
    have slot : c.address.toNat / cfg.registerSize < cfg.registerCount :=
      Nat.div_lt_of_lt_mul inFile.2
    registers.set (c.address.toNat / cfg.registerSize)
      (registers[c.address.toNat / cfg.registerSize].put c.clnum c.data)
  else registers

/-- `commit_memory`: insert an empty cell if there is none, then set its value at `clnum`. -/
def commitMemory (memory : MemoryMap) (clnum : Clnum) (a : Address) (d : Byte) : MemoryMap :=
  memory.alter a (fun old => some ((old.getD empty).put clnum d))

/-- The byte loops of `process`: the offsets in the order visited, `data` shifted down each time. -/
def commitBytes (memory : MemoryMap) (clnum : Clnum) (address : Address) :
    List Nat → BitVec 64 → MemoryMap
  | [], _ => memory
  | i :: rest, data =>
      commitBytes (commitMemory memory clnum (address + BitVec.ofNat 64 i) (data.setWidth 8))
        clnum address rest (data >>> 8)

/-- `byte_count-1` down to 0 when big endian, 0 up to `byte_count-1` otherwise. -/
def byteOrder (isBigEndian : Bool) (byteCount : Nat) : List Nat :=
  if isBigEndian then (List.range byteCount).reverse else List.range byteCount

def commitAccess (isBigEndian : Bool) (memory : MemoryMap) (c : Change) : MemoryMap :=
  if c.type = 'L' ∨ c.type = 'S' then
    commitBytes memory c.clnum c.address (byteOrder isBigEndian c.byteCount) c.data
  else memory

/-- One pass of the loop body of `process`, `entries_done_++` included. -/
def Trace.ingest {cfg : Config} (t : Trace cfg) (c : Change) : Trace cfg where
  clnumToEntryNumber :=
    if c.type = 'I' then pushEntry t.clnumToEntryNumber c.clnum t.entriesDone
    else t.clnumToEntryNumber
  pages := touchPages t.pages c
  addresstypeToClnums := insertClnum t.addresstypeToClnums c
  registers := writeRegister t.registers c
  memory := commitAccess cfg.isBigEndian t.memory c
  maxClnum := if t.maxClnum < c.clnum ∧ c.clnum ≠ INVALID_CLNUM then c.clnum else t.maxClnum
  minClnum := if t.minClnum = INVALID_CLNUM ∨ c.clnum < t.minClnum then c.clnum else t.minClnum
  entriesDone := t.entriesDone + 1

/-- The records of a log ingested one by one, in order. -/
def ingestAll (cfg : Config) (log : List Change) : Trace cfg :=
  log.foldl Trace.ingest (Trace.new cfg)

def cellOf (memory : MemoryMap) (a : Address) : MemoryCell := memory[a]?.getD empty

/-- 0 where no entry is at or before `clnum`, else the value tagged with `MEMORY_VALID`. -/
def Trace.getByte {cfg : Config} (t : Trace cfg) (clnum : Clnum) (a : Address) : MemoryWithValid :=
  match t.memory[a]? with
  | none => 0
  | some cell =>
    match cell.asOf clnum with
    | none => 0
    | some d => MEMORY_VALID ||| d.setWidth 16

/-- The loop of `FetchMemory`, from `i` up to `address+len`. -/
def Trace.fetchMemoryLoop {cfg : Config} (t : Trace cfg) (clnum : Clnum) (i stop : Address) :
    List MemoryWithValid :=
  if i < stop then t.getByte clnum i :: t.fetchMemoryLoop clnum (i + 1) stop else []
termination_by (stop - i).toNat
decreasing_by bv_omega

def Trace.fetchMemory {cfg : Config} (t : Trace cfg) (clnum : Clnum) (address : Address)
    (len : Int) : List MemoryWithValid :=
  t.fetchMemoryLoop clnum address (address + BitVec.ofInt 64 len)

def Trace.fetchRegisters {cfg : Config} (t : Trace cfg) (clnum : Clnum) :
    Vector (BitVec 64) cfg.registerCount :=
  t.registers.map (fun cell => (cell.asOf clnum).getD 0)

theorem ingestAll_append (cfg : Config) (first second : List Change) :
    ingestAll cfg (first ++ second) = second.foldl Trace.ingest (ingestAll cfg first) :=
  List.foldl_append

theorem ingestAll_concat (cfg : Config) (log : List Change) (c : Change) :
    ingestAll cfg (log ++ [c]) = (ingestAll cfg log).ingest c :=
  ingestAll_append cfg log [c]

theorem entriesDone_foldl {cfg : Config} (t : Trace cfg) (log : List Change) :
    (log.foldl Trace.ingest t).entriesDone = t.entriesDone + BitVec.ofNat 32 log.length := by
  induction log generalizing t with
  | nil => simp
  | cons c rest ih =>
    rw [List.foldl_cons, ih, List.length_cons]
    change t.entriesDone + 1 + _ = _
    rw [BitVec.add_assoc, BitVec.ofNat_add, BitVec.add_comm (BitVec.ofNat 32 rest.length)]
    rfl

theorem entriesDone_ingestAll (cfg : Config) (log : List Change) (few : log.length + 1 < 2 ^ 32) :
    (ingestAll cfg log).entriesDone.toNat = log.length + 1 := by
  rw [ingestAll, entriesDone_foldl]
  change ((1 : BitVec 32) + BitVec.ofNat 32 log.length).toNat = _
  rw [BitVec.toNat_add, BitVec.toNat_ofNat, Nat.mod_eq_of_lt (by omega : log.length < 2 ^ 32)]
  change (1 + log.length) % 2 ^ 32 = _
  omega

end Qira.TraceIndex
