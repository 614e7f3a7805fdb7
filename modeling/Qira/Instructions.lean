import Qira.StaticMemory

/-!
Disassembled instructions: what the analysis asks of the instruction at an address, how `CsInsn` answers,
and the finitely many addresses of an image at which there is anything to decode.
-/

namespace Qira.Instructions
open Library.Words StaticMemory

inductive DestType
  | none
  | cjump
  | jump
  | call
  | implicit
  deriving DecidableEq

/-- What is used of capstone's instruction; `immediate` is the value of its first operand, if that is an
immediate one. -/
structure Insn where
  size : Nat
  mnemonic : String
  jumpGroup : Bool
  immediate : Option Int
  deriving DecidableEq

/-- `i` is missing where capstone could not decode. -/
structure CsInsn where
  address : Int
  i : Option Insn
  deriving DecidableEq

namespace CsInsn

def dtype (d : CsInsn) : DestType :=
  match d.i with
  | none => .none
  | some i =>
      if i.mnemonic = "call" then .call
      else if i.mnemonic = "jmp" then .jump
      else if i.jumpGroup then .cjump
      else .none

def isJump (d : CsInsn) : Bool := d.dtype = .jump ∨ d.dtype = .cjump

def isRet (d : CsInsn) : Bool := d.i.any (fun i => i.mnemonic = "ret")

def isCall (d : CsInsn) : Bool := d.dtype = .call

/-- Whether this should end a basic block. -/
def isEnding (d : CsInsn) : Bool := d.isJump || d.isRet || d.i.any (fun i => i.mnemonic = "hlt")

/-- Code follows unless this is a return or an unconditional jump. -/
def codeFollows (d : CsInsn) : Bool := d.i.isSome && !(d.isRet || d.dtype = .jump)

def size (d : CsInsn) : Nat := (d.i.map Insn.size).getD 0

def dests (d : CsInsn) : List (Int × DestType) :=
  if d.i.isNone || d.isRet then []
  else
    (if d.codeFollows then [(d.address + d.size, .implicit)] else []) ++
      (if d.isJump || d.isCall then ((d.i.bind Insn.immediate).map (fun imm => (imm, d.dtype))).toList
        else [])

end CsInsn

/-- What the analysis asks of an instruction, be it a `CsInsn` or a `BapInsn`. -/
structure Instruction where
  size : Nat
  dests : List (Int × DestType)
  isJump : Bool
  isCall : Bool
  isEnding : Bool
  deriving DecidableEq

/-- The targets of direct calls. -/
def Instruction.calls (d : Instruction) : List Int :=
  (d.dests.filter (fun dest => dest.2 = .call)).map Prod.fst

/-- Where control goes within a function. -/
def Instruction.follows (d : Instruction) : List Int :=
  (d.dests.filter (fun dest => dest.2 ≠ .call)).map Prod.fst

def CsInsn.toInstruction (d : CsInsn) : Instruction :=
  ⟨d.size, d.dests, d.isJump, d.isCall, d.isEnding⟩

/-- What is decoded at an address. No bytes give an undecoded instruction. -/
structure Decoder where
  decode : List Byte → Int → Instruction
  empty : ∀ address, (decode [] address).size = 0 ∧ (decode [] address).dests = []

/-- Capstone decodes nothing from no bytes. -/
structure Capstone where
  disasm : List Byte → Int → Option Insn
  empty : ∀ address, disasm [] address = none

def Capstone.csInsn (cs : Capstone) (raw : List Byte) (address : Int) : CsInsn :=
  ⟨address, cs.disasm raw address⟩

def Capstone.decoder (cs : Capstone) : Decoder where
  decode raw address := (cs.csInsn raw address).toInstruction
  empty address := by
    rw [Capstone.csInsn, cs.empty]
    exact ⟨rfl, rfl⟩

/-- The registered memory, and the disassembler for the architecture. -/
structure Binary where
  base : Library.Dictionaries.Dict Range (List Byte)
  decoder : Decoder

/-- The tag `instruction` of an address, decoded from sixteen bytes on. -/
def Binary.instruction (bin : Binary) (address : Int) : Instruction :=
  bin.decoder.decode (memory bin.base address 16) address

/-- The addresses with a byte among the next sixteen. -/
noncomputable def Binary.readable (bin : Binary) : Finset Int :=
  bin.base.keys.toFinset.biUnion (fun r => Finset.Ico (r.1 - 16) r.2)

/-- All dests of all instructions of the image. -/
noncomputable def Binary.targets (bin : Binary) : Finset Int :=
  bin.readable.biUnion (fun a => ((bin.instruction a).dests.map Prod.fst).toFinset)

section Images
variable (bin : Binary)

theorem memory_eq_nil (base : Library.Dictionaries.Dict Range (List Byte)) (address : Int) (ln : Nat)
    (unmapped : ∀ r ∈ base.keys, ∀ k < ln, inRange (address + k) r = false) :
    memory base address ln = [] := by
  induction ln generalizing address with
  | zero => rfl
  | succ ln ih =>
    have here : base.keys.find? (inRange address) = none := by
      apply List.find?_eq_none.mpr
      intro r member
      have outside := unmapped r member 0 (Nat.succ_pos ln)
      rw [Nat.cast_zero, add_zero] at outside
      rw [outside]
      nofun
    rw [memory, here]
    apply ih
    intro r member k below
    have outside := unmapped r member (k + 1) (by omega)
    rw [← outside]
    congr 1
    push_cast
    ring

theorem instruction_unreadable (address : Int) (outside : address ∉ bin.readable) :
    (bin.instruction address).size = 0 ∧ (bin.instruction address).dests = [] := by
  have unmapped : memory bin.base address 16 = [] := by
    apply memory_eq_nil
    intro r member k below
    by_contra inside
    apply outside
    have range := of_decide_eq_true (Bool.not_eq_false _ ▸ inside)
    refine Finset.mem_biUnion.mpr ⟨r, List.mem_toFinset.mpr member, Finset.mem_Ico.mpr ?_⟩
    omega
  rw [Binary.instruction, unmapped]
  exact bin.decoder.empty address

/-- The dests of every instruction are among finitely many. -/
theorem mem_targets (address : Int) (dest : Int × DestType)
    (member : dest ∈ (bin.instruction address).dests) : dest.1 ∈ bin.targets := by
  by_cases readable : address ∈ bin.readable
  · refine Finset.mem_biUnion.mpr ⟨address, readable, ?_⟩
    exact List.mem_toFinset.mpr (List.mem_map_of_mem member)
  · rw [(instruction_unreadable bin address readable).2] at member
    cases member

theorem mem_targets_of_calls (address c : Int) (member : c ∈ (bin.instruction address).calls) :
    c ∈ bin.targets := by
  obtain ⟨dest, inDests, rfl⟩ := List.mem_map.mp member
  exact mem_targets bin address dest (List.mem_of_mem_filter inDests)

theorem mem_targets_of_follows (address d : Int) (member : d ∈ (bin.instruction address).follows) :
    d ∈ bin.targets := by
  obtain ⟨dest, inDests, rfl⟩ := List.mem_map.mp member
  exact mem_targets bin address dest (List.mem_of_mem_filter inDests)

/-- Only a readable instruction has a size. -/
theorem readable_of_size (address : Int) (sized : (bin.instruction address).size ≠ 0) :
    address ∈ bin.readable := by
  by_contra outside
  exact sized (instruction_unreadable bin address outside).1

end Images

end Qira.Instructions
