import Qira.BilMemory
import Qira.Library.Programs

/-!
What BIL means, with words of fixed widths in place of the executor's vectors: an expression means a word or a
memory, and a program leads from one state of variables and memory to another. A type system for the expressions
leaves out the operators that the executor gets wrong.
-/

namespace Qira.BilMeaning
open Bil BilMemory BitVectors Library.Words Library.Programs

/-- A word of any width. -/
abbrev Word := Sigma BitVec

inductive Value
  | word (w : Word)
  | memory (bytes : Nat → Option Byte)

/-- Variables that are there, bytes that are there, and whether there was a jump. -/
structure Machine where
  vars : String → Option Word
  memory : Nat → Option Byte
  jumped : Bool

def Value.asWord : Value → Option Word
  | .word w => some w
  | .memory _ => none

def Value.asMemory : Value → Option (Nat → Option Byte)
  | .word _ => none
  | .memory bytes => some bytes

/-- An operator on words of one width. -/
def onSame (x y : Word) (op : ∀ n, BitVec n → BitVec n → Option Word) : Option Word :=
  if x.1 = y.1 then op x.1 x.2 (y.2.setWidth x.1) else none

def bit (b : Bool) : Word := ⟨1, BitVec.ofBool b⟩

def operation (op : BinOp) (x y : Word) : Option Word :=
  match op with
  | .plus => onSame x y fun _ x y => some ⟨_, x + y⟩
  | .minus => onSame x y fun _ x y => some ⟨_, x - y⟩
  | .times => onSame x y fun _ x y => some ⟨_, x * y⟩
  | .divide => onSame x y fun _ x y => if y = 0 then none else some ⟨_, x / y⟩
  | .sdivide => onSame x y fun _ x y => if y = 0 then none else some ⟨_, x.sdiv y⟩
  | .mod => onSame x y fun _ x y => if y = 0 then none else some ⟨_, x % y⟩
  | .smod => onSame x y fun _ x y => if y = 0 then none else some ⟨_, x.srem y⟩
  | .lshift => some ⟨x.1, x.2 <<< y.2.toNat⟩
  | .rshift => some ⟨x.1, x.2 >>> y.2.toNat⟩
  | .arshift => some ⟨x.1, x.2.sshiftRight y.2.toNat⟩
  | .and => onSame x y fun _ x y => some ⟨_, x &&& y⟩
  | .or => onSame x y fun _ x y => some ⟨_, x ||| y⟩
  | .xor => onSame x y fun _ x y => some ⟨_, x ^^^ y⟩
  | .eq => onSame x y fun _ x y => some (bit (x = y))
  | .neq => onSame x y fun _ x y => some (bit (x ≠ y))
  | .lt => onSame x y fun _ x y => some (bit (x.ult y))
  | .le => onSame x y fun _ x y => some (bit (x.ule y))
  | .slt => onSame x y fun _ x y => some (bit (x.slt y))
  | .sle => onSame x y fun _ x y => some (bit (x.sle y))

def unary (op : UnOp) (x : Word) : Word :=
  match op with
  | .neg => ⟨x.1, -x.2⟩
  | .not => ⟨x.1, ~~~x.2⟩

def extracted (highBit lowBit : Nat) (x : Word) : Option Word :=
  if lowBit ≤ highBit then some ⟨highBit - lowBit + 1, x.2.extractLsb' lowBit (highBit - lowBit + 1)⟩ else none

def appended (x y : Word) : Word := ⟨x.1 + y.1, x.2 ++ y.2⟩

def resized (op : Cast) (size : Nat) (x : Word) : Option Word :=
  match op with
  | .unsigned => some ⟨size, x.2.setWidth size⟩
  | .signed => some ⟨size, x.2.signExtend size⟩
  | .high => if size ≤ x.1 then some ⟨size, x.2.extractLsb' (x.1 - size) size⟩ else none
  | .low => if size ≤ x.1 then some ⟨size, x.2.extractLsb' 0 size⟩ else none

/-- The bytes from an address on, if all of them are there. -/
def bytesAt (memory : Nat → Option Byte) (addr count : Nat) : Option (List Byte) :=
  let bytes := (List.range count).map (fun i => memory (addr + i))
  if none ∈ bytes then none else some bytes.reduceOption

def stored (memory : Nat → Option Byte) (addr count : Nat) (endian : Endian) (w : Word) : Nat → Option Byte :=
  fun a => if addr ≤ a ∧ a < addr + count then some (byteOf w.2 (shiftAt endian count (a - addr))) else memory a

def Machine.set (s : Machine) (name : String) (w : Word) : Machine :=
  { s with vars := Function.update s.vars name (some w) }

@[simp] theorem Machine.set_vars_self (s : Machine) (name : String) (w : Word) : (s.set name w).vars name = some w :=
  Function.update_self ..

theorem Machine.set_vars_ne (s : Machine) {name other : String} (w : Word) (ne : other ≠ name) :
    (s.set name w).vars other = s.vars other :=
  Function.update_of_ne ne ..

@[simp] theorem Machine.set_memory (s : Machine) (name : String) (w : Word) : (s.set name w).memory = s.memory := rfl

def Machine.assign (s : Machine) (v : Var) (val : Value) : Option Machine :=
  match v.type, val with
  | .imm size, .word w => if w.1 = size then some (s.set v.name w) else none
  | .mem, .memory memory => some { s with memory }
  | _, _ => none

/-- What an expression means in a state. An unknown value could be any, and has no meaning here. -/
def means : Exp → Machine → Option Value
  | .load mem idx endian size, s => do
      let memory ← (← means mem s).asMemory
      let addr ← (← means idx s).asWord
      let bytes ← bytesAt memory addr.2.toNat (size / 8)
      return .word ⟨size, BitVec.ofNat size (littleEndian (ordered endian bytes))⟩
  | .store mem idx value endian size, s => do
      let memory ← (← means mem s).asMemory
      let addr ← (← means idx s).asWord
      let val ← (← means value s).asWord
      return .memory (stored memory addr.2.toNat (size / 8) endian val)
  | .binOp op lhs rhs, s => do
      let lhs ← (← means lhs s).asWord
      let rhs ← (← means rhs s).asWord
      return .word (← operation op lhs rhs)
  | .unOp op arg, s => do return .word (unary op (← (← means arg s).asWord))
  | .var v, s =>
      match v.type with
      | .imm _ => (s.vars v.name).map .word
      | .mem => some (.memory s.memory)
  | .int value size, _ => some (.word ⟨size, BitVec.ofInt size value⟩)
  | .cast op size expr, s => do return .word (← resized op size (← (← means expr s).asWord))
  | .letVar v value expr, s => do means expr (← s.assign v (← means value s))
  | .unknown, _ => none
  | .ite cond yes no, s => do if (← (← means cond s).asWord) = bit true then means yes s else means no s
  | .extract highBit lowBit expr, s => do return .word (← extracted highBit lowBit (← (← means expr s).asWord))
  | .concat lhs rhs, s => do
      let lhs ← (← means lhs s).asWord
      let rhs ← (← means rhs s).asWord
      return .word (appended lhs rhs)

theorem assign_jumped (s : Machine) (b : Bool) (v : Var) (val : Value) :
    Machine.assign { s with jumped := b } v val = (s.assign v val).map (fun t => { t with jumped := b }) := by
  unfold Machine.assign
  cases v.type <;> cases val <;> try rfl
  next size w =>
    by_cases same : w.1 = size
    · simp only [same, if_true]
      rfl
    · simp only [same, if_false]
      rfl

/-- What an expression means does not depend on jumps. -/
theorem means_jumped (exp : Exp) (s : Machine) (b : Bool) : means exp { s with jumped := b } = means exp s := by
  induction exp generalizing s with
  | letVar v value expr ihValue ihExpr =>
    simp only [means, ihValue, assign_jumped, Option.bind_eq_bind, Option.bind_map, Function.comp_def, ihExpr]
  | var v => rfl
  | int value size => rfl
  | unknown => rfl
  | _ => simp only [means, *]

/-- The statements that are no more than one effect. -/
inductive Command
  | move (v : Var) (expr : Exp)
  | jmp (arg : Exp)

/-- A jump gives the program counter its value. -/
def language (pc : String) : Language Exp Command Machine where
  condition cond s := do
    let w ← (← means cond s).asWord
    if w.1 = 1 then return decide (w = bit true) else none
  command
    | .move v expr, s => do s.assign v (← means expr s)
    | .jmp arg, s => do
        let w ← (← means arg s).asWord
        return { s.set pc w with jumped := true }

mutual

def place : Stmt → Program Exp Command → Program Exp Command
  | .move v expr, rest => .command (.move v expr) rest
  | .jmp arg, rest => .command (.jmp arg) rest
  | .whileStmt cond stmts, rest => .loop cond (program stmts) rest
  | .ifStmt cond yes no, rest => .branch cond (program yes) (program no) rest

/-- A list of statements as a program. -/
def program : List Stmt → Program Exp Command
  | [] => .done
  | stmt :: rest => place stmt (program rest)

end

section Types
variable (widths : String → Nat)

/-- An amount that Python can shift by. -/
def Amount (exp : Exp) (width : Nat) : Prop :=
  width ≤ 63 ∨ ∃ value, exp = .int value width ∧ (BitVec.ofInt width value).toNat ≤ maxsize

/-- Expressions of a width, for variables of these widths. Memory is read where a load names its variable. There is
no negation, no signed division, no sign extension, no choice between values, no sign-preserving shift but by a
number within the width, and no joining but of equal widths. -/
inductive Typed : Exp → Nat → Prop
  | load {m : Var} {idx : Exp} {n count : Nat} (endian : Endian) (isMem : m.type = .mem) (index : Typed idx n)
      (some : 0 < count) (small : 8 * count ≤ maxsize) : Typed (.load (.var m) idx endian (8 * count)) (8 * count)
  | arithmetic {op : BinOp} {lhs rhs : Exp} {n : Nat} (plain : op ∈ [.plus, .minus, .times, .divide, .mod, .and, .or, .xor])
      (left : Typed lhs n) (right : Typed rhs n) : Typed (.binOp op lhs rhs) n
  | comparison {op : BinOp} {lhs rhs : Exp} {n : Nat} (plain : op ∈ [.eq, .neq, .lt, .le]) (left : Typed lhs n)
      (right : Typed rhs n) : Typed (.binOp op lhs rhs) 1
  | signedComparison {op : BinOp} {lhs rhs : Exp} {n : Nat} (plain : op ∈ [.slt, .sle]) (positive : 0 < n)
      (small : n ≤ maxsize) (left : Typed lhs n) (right : Typed rhs n) : Typed (.binOp op lhs rhs) 1
  | shift {op : BinOp} {lhs rhs : Exp} {n m : Nat} (plain : op ∈ [.lshift, .rshift]) (left : Typed lhs n)
      (right : Typed rhs m) (amount : Amount rhs m) : Typed (.binOp op lhs rhs) n
  | signedShift {lhs : Exp} {n m : Nat} {value : Int} (positive : 0 < n) (small : n ≤ maxsize) (left : Typed lhs n)
      (right : Typed (.int value m) m) (amount : (BitVec.ofInt m value).toNat ≤ n) :
      Typed (.binOp .arshift lhs (.int value m)) n
  | not {arg : Exp} {n : Nat} (inner : Typed arg n) : Typed (.unOp .not arg) n
  | var {v : Var} (isWord : v.type = .imm (widths v.name)) : Typed (.var v) (widths v.name)
  | int (value : Int) {size : Nat} (small : size ≤ maxsize) : Typed (.int value size) size
  | unsigned {expr : Exp} {n size : Nat} (small : size ≤ maxsize) (inner : Typed expr n) :
      Typed (.cast .unsigned size expr) size
  | signed {expr : Exp} {n size : Nat} (small : size ≤ maxsize) (narrower : size ≤ n) (inner : Typed expr n) :
      Typed (.cast .signed size expr) size
  | part {op : Cast} {expr : Exp} {n size : Nat} (isPart : op = .high ∨ op = .low) (small : n ≤ maxsize)
      (narrower : size ≤ n) (inner : Typed expr n) : Typed (.cast op size expr) size
  | letVar {v : Var} {value expr : Exp} {n : Nat} (isWord : v.type = .imm (widths v.name))
      (given : Typed value (widths v.name)) (inner : Typed expr n) : Typed (.letVar v value expr) n
  | extract {expr : Exp} {n highBit lowBit : Nat} (order : lowBit ≤ highBit) (small : highBit < maxsize)
      (inner : Typed expr n) : Typed (.extract highBit lowBit expr) (highBit - lowBit + 1)
  | concat {lhs rhs : Exp} {n : Nat} (small : n + n ≤ maxsize) (left : Typed lhs n) (right : Typed rhs n) :
      Typed (.concat lhs rhs) (n + n)

/-- Assignments of words to variables of their width, of one store to memory, and jumps. -/
inductive Typed.Command (pc : String) : BilMeaning.Command → Prop
  | move {v : Var} {expr : Exp} (isWord : v.type = .imm (widths v.name)) (small : widths v.name ≤ maxsize)
      (inner : Typed widths expr (widths v.name)) : Typed.Command pc (.move v expr)
  | store {v m : Var} {idx value : Exp} {n count : Nat} (endian : Endian) (isMem : v.type = .mem)
      (isMem' : m.type = .mem) (index : Typed widths idx n) (inner : Typed widths value (8 * count))
      (small : 8 * count ≤ maxsize) : Typed.Command pc (.move v (.store (.var m) idx value endian (8 * count)))
  | jmp {arg : Exp} (inner : Typed widths arg (widths pc)) : Typed.Command pc (.jmp arg)

/-- A state whose variables have their widths. -/
def Fits (s : Machine) : Prop := ∀ name w, s.vars name = some w → w.1 = widths name

end Types

end Qira.BilMeaning
