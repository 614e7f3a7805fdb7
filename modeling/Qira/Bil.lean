import Qira.BitVectors

/-!
The BIL that the concrete executor visits. An expression is evaluated for its value, with the bytes it fetches and
stores as effects; a statement is visited for its effects.
-/

namespace Qira.Bil
open ConcreteExecution BitVectors Library.Words Library.Dictionaries

inductive Endian
  | littleEndian
  | bigEndian
  deriving DecidableEq

inductive VarType
  | imm (size : Nat)
  | mem

structure Var where
  name : String
  type : VarType

inductive BinOp
  | plus
  | minus
  | times
  | divide
  | sdivide
  | mod
  | smod
  | lshift
  | rshift
  | arshift
  | and
  | or
  | xor
  | eq
  | neq
  | lt
  | le
  | slt
  | sle

inductive UnOp
  | neg
  | not

inductive Cast
  | unsigned
  | signed
  | high
  | low

inductive Exp
  | load (mem idx : Exp) (endian : Endian) (size : Nat)
  | store (mem idx value : Exp) (endian : Endian) (size : Nat)
  | binOp (op : BinOp) (lhs rhs : Exp)
  | unOp (op : UnOp) (arg : Exp)
  | var (v : Var)
  | int (value : Int) (size : Nat)
  | cast (op : Cast) (size : Nat) (expr : Exp)
  | letVar (v : Var) (value expr : Exp)
  | unknown
  | ite (cond yes no : Exp)
  | extract (highBit lowBit : Nat) (expr : Exp)
  | concat (lhs rhs : Exp)

inductive Stmt
  | move (v : Var) (expr : Exp)
  | jmp (arg : Exp)
  | whileStmt (cond : Exp) (stmts : List Stmt)
  | ifStmt (cond : Exp) (yes no : List Stmt)

/-- What `run` returns: a vector, or the expression for memory that a store returns unevaluated. -/
inductive Val
  | bits (x : ConcreteBitVector)
  | mem (exp : Exp)

structure State where
  vars : Dict String Val
  memory : Memory

structure ConcreteExecutor where
  state : State
  pc : String
  jumped : Bool

inductive Stop
  | raised (raised : Raised)
  | outOfFuel

/-- What is done before an exception stays done. -/
abbrev Visit := EStateM Stop ConcreteExecutor

def orRaise {α : Type} : Option α → Visit α
  | some result => pure result
  | none => throw (.raised .other)

/-- The vector that a method or `int` is called on; memory has no such methods. -/
def bitsOf : Val → Visit ConcreteBitVector
  | .bits x => pure x
  | .mem _ => throw (.raised .other)

def modifyState (change : State → State) : Visit Unit :=
  modify (fun executor => { executor with state := change executor.state })

def setVar (name : String) (val : Val) : Visit Unit :=
  modifyState (fun state => { state with vars := state.vars.insert name val })

def popVar (name : String) : Visit Unit :=
  modifyState (fun state => { state with vars := state.vars.erase name })

def getVar (name : String) : Visit (Option Val) := do
  return (← get).state.vars.lookup name

def setMemory (memory : Memory) : Visit Unit := modifyState (fun state => { state with memory })

/-- `Memory.__getitem__`. -/
def getItem (addr : Nat) : Visit (Option Byte) := do
  let (memory, val) ← orRaise ((← get).state.memory.getItem addr)
  setMemory memory
  return val

/-- `get_mem`: the bytes that there are, most significant first. -/
def getMem (addr size : Nat) (endian : Endian) : Visit (List Byte) := do
  let result := ((← (List.range size).mapM (fun i => getItem (addr + i))).reduceOption)
  return if endian = .littleEndian then result.reverse else result

/-- The loop body of `set_mem`. -/
def setByte (addr val : Val) (i shift : Nat) : Visit Unit := do
  let addr ← bitsOf addr
  let shifted ← orRaise (BitVectors.rshift (← bitsOf val) (.number (shift * 8)))
  let byteval := band shifted (.number 0xff)
  setMemory ((← get).state.memory.setItem (addr.value + i) (some (BitVec.ofNat 8 byteval.value)))

def setMem (addr : Val) (size : Nat) (val : Val) (endian : Endian) : Visit Unit :=
  (List.range size).forM (fun i => setByte addr val i (if endian = .littleEndian then i else size - i - 1))

def truth (b : Bool) : ConcreteBitVector := .ofInt 1 (if b then 1 else 0)

/-- `visit_PLUS` and the like, after both operands were evaluated. -/
def visitBinOp (op : BinOp) (lhs rhs : ConcreteBitVector) : Option ConcreteBitVector :=
  match op with
  | .plus => some (add lhs (.vector rhs))
  | .minus => some (sub lhs (.vector rhs))
  | .times => some (mul lhs (.vector rhs))
  | .divide => div lhs (.vector rhs)
  | .sdivide => div lhs (.vector rhs)
  | .mod => mod lhs (.vector rhs)
  | .smod => mod lhs (.vector rhs)
  | .lshift => lshift lhs (.vector rhs)
  | .rshift => rshift lhs (.vector rhs)
  | .arshift => arshift lhs (.vector rhs)
  | .and => some (band lhs (.vector rhs))
  | .or => some (bor lhs (.vector rhs))
  | .xor => some (xor lhs (.vector rhs))
  | .eq => some (truth (eq lhs (.vector rhs)))
  | .neq => some (truth (neq lhs (.vector rhs)))
  | .lt => some (truth (lt lhs (.vector rhs)))
  | .le => some (truth (le lhs (.vector rhs)))
  | .slt => (slt lhs (.vector rhs)).map truth
  | .sle => (sle lhs (.vector rhs)).map truth

def visitUnOp (op : UnOp) (arg : ConcreteBitVector) : Option ConcreteBitVector :=
  match op with
  | .neg => negated arg
  | .not => some (bnot arg)

/-- The visitors for casts; the one for signed casts is the one for unsigned casts. -/
def visitCast (op : Cast) (size : Nat) (arg : ConcreteBitVector) : Option ConcreteBitVector :=
  match op with
  | .unsigned => make size arg.value
  | .signed => make size arg.value
  | .high => getHighBits arg size
  | .low => getLowBits arg size

/-- The truth value in `a if b else c`: the class of vectors has no `__nonzero__` and no `__len__`, so that
each of them is true. -/
def isTrue : Val → Bool := fun _ => true

/-- `Visitor.run`. -/
def run : Exp → Visit Val
  | .load _ idx endian size => do
      let addr ← bitsOf (← run idx)
      let mem ← getMem addr.value (size / 8) endian
      if mem = [] then throw (.raised (.memoryException addr.value))
      return .bits (← orRaise (make size (littleEndian mem.reverse)))
  | .store mem idx value endian size => do
      let addr ← run idx
      let val ← run value
      setMem addr (size / 8) val endian
      return .mem mem
  | .binOp op lhs rhs => do
      let lhs ← run lhs
      let rhs ← run rhs
      return .bits (← orRaise (visitBinOp op (← bitsOf lhs) (← bitsOf rhs)))
  | .unOp op arg => do return .bits (← orRaise (visitUnOp op (← bitsOf (← run arg))))
  | .var v => do
      match ← getVar v.name with
      | some val => return val
      | none => throw (.raised (.variableException v.name))
  | .int value size => do return .bits (← orRaise (make size value))
  | .cast op size expr => do return .bits (← orRaise (visitCast op size (← bitsOf (← run expr))))
  | .letVar v value expr => do
      let tmp ← getVar v.name
      setVar v.name (← run value)
      let result ← run expr
      match tmp with
      | none => popVar v.name
      | some tmp => setVar v.name tmp
      return result
  | .unknown => return .bits (.ofInt 1 0)
  | .ite cond yes no => do if isTrue (← run cond) then run yes else run no
  | .extract highBit lowBit expr => do
      return .bits (← orRaise (getBits (← bitsOf (← run expr)) lowBit highBit))
  | .concat lhs rhs => do
      let lhs ← run lhs
      let rhs ← run rhs
      return .bits (← orRaise (BitVectors.concat (← bitsOf lhs) (← bitsOf rhs)))

/-- `self.run(op.cond) == 1` -/
def isOne (cond : Exp) : Visit Bool := do return eq (← bitsOf (← run cond)) (.number 1)

/-- A loop that goes on while `cond` returns true, with the number of its rounds bounded by the fuel. -/
def loop (cond : Visit Bool) (body : Visit Unit) : Nat → Visit Unit
  | 0 => throw .outOfFuel
  | fuel + 1 => do
      if ← cond then
        body
        loop cond body fuel

mutual

def visitStmt (fuel : Nat) : Stmt → Visit Unit
  | .move v expr =>
      match v.type with
      | .imm size => do
          let val ← bitsOf (← run expr)
          setVar v.name (.bits (← orRaise (make size val.value)))
      | .mem => do let _ ← run expr
  | .jmp arg => do
      modify (fun executor => { executor with jumped := true })
      let val ← run arg
      setVar (← get).pc val
  | .whileStmt cond stmts => loop (isOne cond) (visitStmts fuel stmts) fuel
  | .ifStmt cond yes no => do if ← isOne cond then visitStmts fuel yes else visitStmts fuel no

/-- `adt.visit` of a list. -/
def visitStmts (fuel : Nat) : List Stmt → Visit Unit
  | [] => pure ()
  | stmt :: rest => do
      visitStmt fuel stmt
      visitStmts fuel rest

end

/-- The same variables, the same bytes and the same place to fetch others from. -/
structure SameState (first second : ConcreteExecutor) : Prop where
  vars : ∀ name, first.state.vars.lookup name = second.state.vars.lookup name
  dict : ∀ addr, first.state.memory.dict.lookup addr = second.state.memory.dict.lookup addr
  fetchMem : first.state.memory.fetchMem = second.state.memory.fetchMem
  pc : first.pc = second.pc
  jumped : first.jumped = second.jumped

theorem SameState.refl (e : ConcreteExecutor) : SameState e e := ⟨fun _ => rfl, fun _ => rfl, rfl, rfl, rfl⟩

/-- Both end in the same state, normally or with the same exception. -/
def SameOutcome : EStateM.Result Stop ConcreteExecutor Unit → EStateM.Result Stop ConcreteExecutor Unit → Prop
  | .ok _ first, .ok _ second => SameState first second
  | .error stop first, .error stop' second => stop = stop' ∧ SameState first second
  | _, _ => False

theorem SameOutcome.refl (outcome : EStateM.Result Stop ConcreteExecutor Unit) : SameOutcome outcome outcome := by
  cases outcome with
  | ok _ e => exact SameState.refl e
  | error _ e => exact ⟨rfl, SameState.refl e⟩

section Conditions
variable (fuel : Nat) (v : Var) (c a b : Exp)

/-- The conditional expression takes its first branch, whatever the condition is. -/
theorem visit_move_ite : visitStmts fuel [.move v (.ite c a b)] = (do let _ ← run c; visitStmts fuel [.move v a]) := by
  cases kind : v.type with
  | imm size => simp only [visitStmts, visitStmt, kind, run, isTrue, if_true, bind_assoc, bind_pure_unit]
  | mem => simp only [visitStmts, visitStmt, kind, run, isTrue, if_true, bind_assoc, bind_pure_unit]

theorem visit_ifStmt : visitStmts fuel [.ifStmt c [.move v a] [.move v b]] =
    (do if ← isOne c then visitStmts fuel [.move v a] else visitStmts fuel [.move v b]) := by
  simp only [visitStmts, visitStmt, bind_pure_unit]

theorem bind_of_ok {α β : Type} {first : Visit α} {next : α → Visit β} {e e' : ConcreteExecutor} {val : α}
    (ran : first e = .ok val e') : (first >>= next) e = next val e' := by
  change EStateM.bind first next e = _
  rw [EStateM.bind, ran]

theorem bind_of_error {α β : Type} {first : Visit α} {next : α → Visit β} {e e' : ConcreteExecutor} {stop : Stop}
    (ran : first e = .error stop e') : (first >>= next) e = .error stop e' := by
  change EStateM.bind first next e = _
  rw [EStateM.bind, ran]

theorem isOne_of_bits {e e' : ConcreteExecutor} {x : ConcreteBitVector} (ran : run c e = .ok (.bits x) e') :
    isOne c e = .ok (eq x (.number 1)) e' :=
  bind_of_ok ran

theorem isOne_of_error {e e' : ConcreteExecutor} {stop : Stop} (ran : run c e = .error stop e') :
    isOne c e = .error stop e' :=
  bind_of_error ran

/-- Where the condition is a vector, the statements leave the same behind exactly if it is 1, or assigning either of
`a` and `b` leaves the same behind. -/
theorem visit_ite_agrees_iff (e : ConcreteExecutor)
    (condition : ∀ val e', run c e = .ok val e' → ∃ x, val = .bits x) :
    SameOutcome (visitStmts fuel [.move v (.ite c a b)] e)
        (visitStmts fuel [.ifStmt c [.move v a] [.move v b]] e) ↔
      ∀ x e', run c e = .ok (.bits x) e' →
        x.value = 1 ∨ SameOutcome (visitStmts fuel [.move v a] e') (visitStmts fuel [.move v b] e') := by
  rw [visit_move_ite, visit_ifStmt]
  cases ran : run c e with
  | error stop e' =>
    rw [bind_of_error ran, bind_of_error (isOne_of_error c ran)]
    exact iff_of_true (SameOutcome.refl _) nofun
  | ok val e' =>
    obtain ⟨x, rfl⟩ := condition val e' ran
    have only : ∀ (P : ConcreteBitVector → ConcreteExecutor → Prop),
        (∀ y f, (EStateM.Result.ok (Val.bits x) e' : EStateM.Result Stop _ _) = .ok (.bits y) f → P y f) ↔ P x e' := by
      intro P
      refine ⟨fun every => every x e' rfl, fun holds y f same => ?_⟩
      cases same
      exact holds
    rw [bind_of_ok ran, bind_of_ok (isOne_of_bits c ran), only]
    by_cases one : x.value = 1
    · have yes : eq x (.number 1) = true := decide_eq_true (Int.natCast_inj.mpr one)
      rw [yes, if_pos rfl]
      exact iff_of_true (SameOutcome.refl _) (.inl one)
    · have no : eq x (.number 1) = false := decide_eq_false fun same => one (Int.natCast_inj.mp same)
      rw [no, if_neg Bool.false_ne_true, or_iff_right one]

end Conditions

/-- An executor without variables, for which no byte of memory is there. -/
def started : ConcreteExecutor := ⟨⟨∅, ⟨fun _ => some none, ∅⟩⟩, "EIP", false⟩

theorem run_int (value : Int) {size : Nat} (small : size ≤ maxsize) (e : ConcreteExecutor) :
    run (.int value size) e = .ok (.bits (.ofInt size value)) e := by
  simp only [run, make_of_le small, orRaise, pure_bind]
  rfl

theorem visit_ite_agrees_iff_zero :
    SameOutcome (visitStmts 0 [.move ⟨"t", .imm 8⟩ (.ite (.int 0 1) (.int 1 8) (.int 2 8))] started)
        (visitStmts 0 [.ifStmt (.int 0 1) [.move ⟨"t", .imm 8⟩ (.int 1 8)] [.move ⟨"t", .imm 8⟩ (.int 2 8)]] started) ↔
      ∀ x e', run (.int 0 1) started = .ok (.bits x) e' →
        x.value = 1 ∨ SameOutcome (visitStmts 0 [.move ⟨"t", .imm 8⟩ (.int 1 8)] e')
          (visitStmts 0 [.move ⟨"t", .imm 8⟩ (.int 2 8)] e') := by
  refine visit_ite_agrees_iff 0 ⟨"t", .imm 8⟩ (.int 0 1) (.int 1 8) (.int 2 8) started fun val e' ran => ?_
  rw [run_int 0 (by decide) started] at ran
  cases ran
  exact ⟨_, rfl⟩

/-- With the condition 0 one statement assigns 1, and the other 2. -/
theorem ite_takes_first :
    ¬ SameOutcome (visitStmts 0 [.move ⟨"t", .imm 8⟩ (.ite (.int 0 1) (.int 1 8) (.int 2 8))] started)
      (visitStmts 0 [.ifStmt (.int 0 1) [.move ⟨"t", .imm 8⟩ (.int 1 8)] [.move ⟨"t", .imm 8⟩ (.int 2 8)]]
        started) := by
  intro same
  have found := same.vars "t"
  cases found

end Qira.Bil
