import Qira.BapVisitors

/-!
`BapInsn`: what the analysis is told of an instruction that BAP has disassembled. Where there is BIL, its jumps and
its reads and writes are collected by visitors that do not evaluate anything.
-/

namespace Qira.BapInstructions
open Bil Instructions BapVisitors

/-- `calc_offset`, without its warning. -/
def calcOffset (offset : Int) (arch : String) : Int :=
  if arch = "aarch64" ∨ arch = "x86-64" then
    if (offset >>> (63 : Nat)).land 1 = 1 then -(0xFFFFFFFFFFFFFFFF - offset + 1) else offset
  else
    let offset := offset.land 0xFFFFFFFF
    if (offset >>> (31 : Nat)).land 1 = 1 then -(0xFFFFFFFF - offset + 1) else offset

/-- The kinds of an instruction that are asked for. -/
inductive Kind
  | branch
  | conditionalBranch
  | unconditionalBranch
  | call
  | ret
  | terminator
  deriving DecidableEq

/-- `bap.asm.Insn`; `immediate` is the argument of the first operand, if that is an `Imm`. -/
structure Disassembled where
  addr : Int
  size : Nat
  asm : String
  kinds : List Kind
  immediate : Option Int
  bil : Option (List Stmt)

structure BapInsn where
  insn : Disassembled
  address : Int
  arch : String

namespace BapInsn
variable (visitor : Visitor) (d : BapInsn)

/-- `self.jumps` -/
def jumps : List (Exp × DestType) := (d.insn.bil.map (BapVisitors.jumps visitor)).getD []

/-- `self.regs_read` and `self.regs_write` -/
def regsRead : List String := ((d.insn.bil.map (accesses visitor)).getD ([], [])).1

def regsWrite : List String := ((d.insn.bil.map (accesses visitor)).getD ([], [])).2

def hasKind (kind : Kind) : Bool := kind ∈ d.insn.kinds

def isJump : Bool := if d.insn.bil.isNone then d.hasKind .branch else d.jumps visitor ≠ []

def isHlt : Bool := d.insn.asm = "\thlt"

def isRet : Bool := d.hasKind .ret

def isCall : Bool := d.hasKind .call

def isEnding : Bool :=
  if d.isHlt || d.isRet then true
  else if d.insn.bil.isNone then d.hasKind .terminator
  else d.hasKind .terminator || (d.isJump visitor && !d.isCall)

def isConditional : Bool :=
  if d.insn.bil.isNone then d.hasKind .conditionalBranch else (d.jumps visitor).any (fun jmp => jmp.2 = .cjump)

def isUnconditional : Bool :=
  if d.insn.bil.isNone then d.hasKind .unconditionalBranch
  else if d.jumps visitor = [] then false else !d.isConditional visitor

def codeFollows : Bool := d.isCall || !(d.isRet || d.isUnconditional visitor)

def size : Nat := d.insn.size

def dtype : DestType :=
  if d.isCall then .call else if d.isConditional visitor then .cjump else if d.isJump visitor then .jump else .none

/-- The value of `jmp.arg`, if it is an `Int`. -/
def constant : Exp → Option Int
  | .int value _ => some value
  | _ => none

/-- Where BIL says to jump, if that is a number. -/
def bilDests : List (Int × DestType) :=
  (d.jumps visitor).filterMap fun jmp => (constant jmp.1).map fun value => (value, if d.isCall then .call else jmp.2)

/-- Where the operand says to jump. -/
def operandDests : List (Int × DestType) :=
  (d.insn.immediate.map fun arg =>
    let dst := calcOffset arg d.arch
    let dst := if d.arch = "i386" ∨ d.arch = "x86-64" then dst + d.insn.size else dst
    (dst + d.address, d.dtype visitor)).toList

def dests : List (Int × DestType) :=
  let dests := if d.codeFollows visitor then [(d.insn.addr + d.insn.size, .implicit)] else []
  let dests := dests ++ if d.insn.bil.isSome then d.bilDests visitor
    else if d.isJump visitor || d.isCall then d.operandDests visitor else []
  if d.isRet then [] else dests

def toInstruction : Instruction := ⟨d.size, d.dests visitor, d.isJump visitor, d.isCall, d.isEnding visitor⟩

end BapInsn

end Qira.BapInstructions
