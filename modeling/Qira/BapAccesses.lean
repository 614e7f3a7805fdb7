import Qira.BapControl

/-!
The reads and writes that the visitor collects, against the executor. Executors that agree on the variables read, and
on memory, do the same; no variable changes but those written and the program counter of a jump.
-/

namespace Qira.BapAccesses
open ConcreteExecution BitVectors Bil BilMemory LetScopes BilRuns Instructions BapVisitors BapInstructions BapControl
open Library.Words Library.Programs Library.Triples

/-- Two executors that have come from these two. What differs between them is as it was, and none of it is read. -/
structure Tracks (reads : String → Prop) (e₀ f₀ e f : ConcreteExecutor) : Prop where
  pc : e.pc = f.pc
  jumped : e.jumped = f.jumped
  memory : SameReads f.state.memory e.state.memory
  reads : ∀ name, reads name → e.state.vars.lookup name = f.state.vars.lookup name
  vars : ∀ name, e.state.vars.lookup name = f.state.vars.lookup name ∨
    e.state.vars.lookup name = e₀.state.vars.lookup name ∧ f.state.vars.lookup name = f₀.state.vars.lookup name

section Expressions
variable {reads : String → Prop} {e₀ f₀ : ConcreteExecutor} {α : Type}

theorem Tracks.congr {e f e' f' : ConcreteExecutor} (tracks : Tracks reads e₀ f₀ e f) (pc : e'.pc = f'.pc)
    (jumped : e'.jumped = f'.jumped) (memory : SameReads f'.state.memory e'.state.memory)
    (vars : ∀ name, e'.state.vars.lookup name = f'.state.vars.lookup name ∨
      e'.state.vars.lookup name = e.state.vars.lookup name ∧ f'.state.vars.lookup name = f.state.vars.lookup name) :
    Tracks reads e₀ f₀ e' f' := by
  refine ⟨pc, jumped, memory, fun name read => ?_, fun name => ?_⟩
  · rcases vars name with same | ⟨first, second⟩
    · exact same
    · rw [first, second, tracks.reads name read]
  · rcases vars name with same | ⟨first, second⟩
    · exact Or.inl same
    · rw [first, second]
      exact tracks.vars name

theorem alike_orRaise (result : Option α) : Alike (Tracks reads e₀ f₀) (orRaise result) := by
  cases result with
  | none => exact Alike.throw _
  | some a => exact Alike.pure a

theorem alike_bitsOf (val : Val) : Alike (Tracks reads e₀ f₀) (bitsOf val) := by
  cases val with
  | bits x => exact Alike.pure x
  | mem exp => exact Alike.throw _

theorem alike_getVar {name : String} (read : reads name) : Alike (Tracks reads e₀ f₀) (getVar name) :=
  fun _ _ tracks => ⟨tracks.reads name read, tracks⟩

/-- A variable that both get the same value does not differ any more. -/
theorem alike_setVar (name : String) (val : Val) : Alike (Tracks reads e₀ f₀) (setVar name val) := by
  intro e f tracks
  refine ⟨rfl, tracks.congr tracks.pc tracks.jumped tracks.memory fun other => ?_⟩
  by_cases same : other = name
  · subst same
    exact Or.inl ((AList.lookup_insert e.state.vars).trans (AList.lookup_insert f.state.vars).symm)
  · exact Or.inr ⟨AList.lookup_insert_ne same, AList.lookup_insert_ne same⟩

theorem alike_popVar (name : String) : Alike (Tracks reads e₀ f₀) (popVar name) := by
  intro e f tracks
  refine ⟨rfl, tracks.congr tracks.pc tracks.jumped tracks.memory fun other => ?_⟩
  by_cases same : other = name
  · subst same
    exact Or.inl ((AList.lookup_erase other e.state.vars).trans (AList.lookup_erase other f.state.vars).symm)
  · exact Or.inr ⟨AList.lookup_erase_ne same, AList.lookup_erase_ne same⟩

/-- A visit that only fetches, with the same result in both. -/
theorem related_fetch {visit : Visit α} {a : α} {e f e' f' : ConcreteExecutor} (tracks : Tracks reads e₀ f₀ e f)
    (vars : KeepsVars visit) (control : BilAgreement.KeepsControl visit) (ran : visit e = .ok a e')
    (ran' : visit f = .ok a f') (same : SameReads e.state.memory e'.state.memory)
    (same' : SameReads f.state.memory f'.state.memory) :
    Related (Tracks reads e₀ f₀) (visit e) (visit f) := by
  have varsE := vars e
  have varsF := vars f
  have controlE := control e
  have controlF := control f
  unfold after at varsE varsF controlE controlF
  rw [ran] at varsE controlE
  rw [ran'] at varsF controlF
  rw [ran, ran']
  refine ⟨rfl, tracks.congr ?_ ?_ (fun addr => ?_) fun name => Or.inr ⟨?_, ?_⟩⟩
  · exact controlE.1.trans (tracks.pc.trans controlF.1.symm)
  · exact controlE.2.trans (tracks.jumped.trans controlF.2.symm)
  · exact (same addr).trans ((tracks.memory addr).trans (same' addr).symm)
  · exact congrArg (·.lookup name) varsE
  · exact congrArg (·.lookup name) varsF

theorem getItem_of_none {e : ConcreteExecutor} {addr : Nat} (nothing : e.state.memory.read addr = none) :
    getItem addr e = .error (.raised .other) e := by
  have absent : e.state.memory.getItem addr = none := Option.map_eq_none_iff.mp nothing
  have current : (get : Visit ConcreteExecutor) e = .ok e e := rfl
  rw [getItem, Bil.bind_of_ok current, absent]
  rfl

theorem alike_getItem (addr : Nat) : Alike (Tracks reads e₀ f₀) (getItem addr) := by
  intro e f tracks
  have same := tracks.memory addr
  cases found : f.state.memory.read addr with
  | none =>
    rw [getItem_of_none found, getItem_of_none (same.trans found)]
    exact ⟨rfl, tracks⟩
  | some val =>
    obtain ⟨e', ran, kept⟩ := getItem_of_read (same.trans found)
    obtain ⟨f', ran', kept'⟩ := getItem_of_read found
    exact related_fetch tracks (keepsVars_getItem addr) (BilAgreement.keepsControl_getItem addr) ran ran' kept kept'

theorem alike_getMem (addr size : Nat) (endian : Endian) : Alike (Tracks reads e₀ f₀) (getMem addr size endian) :=
  (Alike.mapM (fun i => alike_getItem (addr + i)) _).bind fun _ => Alike.pure _

theorem alike_setItem (addr : Nat) (val : Option Byte) :
    Alike (Tracks reads e₀ f₀) (do setMemory ((← get).state.memory.setItem addr val)) := by
  intro e f tracks
  refine ⟨rfl, tracks.congr tracks.pc tracks.jumped (fun a => ?_) fun name => Or.inr ⟨rfl, rfl⟩⟩
  change (e.state.memory.setItem addr val).read a = (f.state.memory.setItem addr val).read a
  rw [read_setItem, read_setItem, tracks.memory a]

theorem alike_setMem (addr : Val) (size : Nat) (val : Val) (endian : Endian) :
    Alike (Tracks reads e₀ f₀) (setMem addr size val endian) :=
  Alike.forM (fun _ => (alike_bitsOf addr).bind fun _ => (alike_bitsOf val).bind fun _ =>
    (alike_orRaise _).bind fun _ => alike_setItem _ _) _

theorem alike_method (val : Val) (method : ConcreteBitVector → Option ConcreteBitVector) :
    Alike (Tracks reads e₀ f₀) (do return Val.bits (← orRaise (method (← bitsOf val)))) :=
  (alike_bitsOf val).bind fun _ => (alike_orRaise _).bind fun _ => Alike.pure _

theorem alike_method₂ (lhs rhs : Val) (method : ConcreteBitVector → ConcreteBitVector → Option ConcreteBitVector) :
    Alike (Tracks reads e₀ f₀) (do return Val.bits (← orRaise (method (← bitsOf lhs) (← bitsOf rhs)))) :=
  (alike_bitsOf lhs).bind fun lhs => alike_method rhs (method lhs)

/-- An expression depends on the variables it reads, and on memory. -/
theorem run_alike (exp : Exp) (known : ∀ name ∈ namesIn exp, reads name) : Alike (Tracks reads e₀ f₀) (run exp) := by
  induction exp with
  | load mem idx endian size _ ih =>
    refine (ih fun name read => known name (List.mem_append_right _ read)).bind fun addr =>
      (alike_bitsOf addr).bind fun addr => (alike_getMem _ _ _).bind fun bytes => ?_
    by_cases empty : bytes = []
    · simp only [if_pos empty]
      exact (Alike.throw _).bind fun _ => (alike_orRaise _).bind fun _ => Alike.pure _
    · simp only [if_neg empty]
      exact (alike_orRaise _).bind fun _ => Alike.pure _
  | store mem idx value endian size _ ihIdx ihValue =>
    simp only [namesIn, List.mem_append] at known
    exact (ihIdx fun name read => known name (.inl (.inr read))).bind fun addr =>
      (ihValue fun name read => known name (.inr read)).bind fun val =>
        (alike_setMem addr (size / 8) val endian).bind fun _ => Alike.pure _
  | binOp op lhs rhs ihLhs ihRhs =>
    exact (ihLhs fun name read => known name (List.mem_append_left _ read)).bind fun lhs =>
      (ihRhs fun name read => known name (List.mem_append_right _ read)).bind fun rhs =>
        alike_method₂ lhs rhs (visitBinOp op)
  | unOp op arg ih => exact (ih known).bind fun val => alike_method val (visitUnOp op)
  | var v =>
    refine (alike_getVar (known v.name List.mem_cons_self)).bind fun found => ?_
    cases found with
    | none => exact Alike.throw _
    | some val => exact Alike.pure val
  | int value size => exact (alike_orRaise _).bind fun _ => Alike.pure _
  | cast op size expr ih => exact (ih known).bind fun val => alike_method val (visitCast op size)
  | letVar v value expr ihValue ihExpr =>
    simp only [namesIn, List.mem_cons, List.mem_append] at known
    refine (alike_getVar (known v.name (.inl rfl))).bind fun tmp =>
      (ihValue fun name read => known name (.inr (.inl read))).bind fun val => (alike_setVar v.name val).bind fun _ =>
        (ihExpr fun name read => known name (.inr (.inr read))).bind fun result => ?_
    cases tmp with
    | none => exact (alike_popVar v.name).bind fun _ => Alike.pure result
    | some tmp => exact (alike_setVar v.name tmp).bind fun _ => Alike.pure result
  | unknown => exact Alike.pure _
  | ite cond yes no ihCond ihYes ihNo =>
    simp only [namesIn, List.mem_append] at known
    exact (ihCond fun name read => known name (.inl (.inl read))).bind fun _ =>
      ihYes fun name read => known name (.inl (.inr read))
  | extract highBit lowBit expr ih =>
    exact (ih known).bind fun val => alike_method val (fun x => getBits x lowBit highBit)
  | concat lhs rhs ihLhs ihRhs =>
    exact (ihLhs fun name read => known name (List.mem_append_left _ read)).bind fun lhs =>
      (ihRhs fun name read => known name (List.mem_append_right _ read)).bind fun rhs =>
        alike_method₂ lhs rhs BitVectors.concat

end Expressions

section Statements
variable {reads : String → Prop} {e₀ f₀ : ConcreteExecutor}

/-- The names that a command reads. -/
def commandReads : BilMeaning.Command → List String
  | .move _ expr => namesIn expr
  | .jmp arg => namesIn arg

mutual

theorem place_reads (stmt : Stmt) {rest : Program Exp BilMeaning.Command}
    (known : ∀ name ∈ (accessesOf stmt).1, reads name)
    (within : rest.Within (fun c => ∀ name ∈ namesIn c, reads name) fun p => ∀ name ∈ commandReads p, reads name) :
    (BilMeaning.place stmt rest).Within (fun c => ∀ name ∈ namesIn c, reads name)
      fun p => ∀ name ∈ commandReads p, reads name :=
  match stmt with
  | .move _ _ => ⟨known, within⟩
  | .jmp _ => ⟨known, within⟩
  | .whileStmt _ stmts =>
    ⟨fun name read => known name (List.mem_append_left _ read),
      program_reads stmts fun name read => known name (List.mem_append_right _ read), within⟩
  | .ifStmt _ yes no =>
    ⟨fun name read => known name (List.mem_append_left _ (List.mem_append_left _ read)),
      program_reads yes fun name read => known name (List.mem_append_left _ (List.mem_append_right _ read)),
      program_reads no fun name read => known name (List.mem_append_right _ read), within⟩

/-- All that conditions and commands of a program read was collected. -/
theorem program_reads (stmts : List Stmt) (known : ∀ name ∈ (accessesIn stmts).1, reads name) :
    (BilMeaning.program stmts).Within (fun c => ∀ name ∈ namesIn c, reads name)
      fun p => ∀ name ∈ commandReads p, reads name :=
  match stmts with
  | [] => trivial
  | stmt :: rest =>
    place_reads stmt (fun name read => known name (List.mem_append_left _ read))
      (program_reads rest fun name read => known name (List.mem_append_right _ read))

end

theorem command_alike (p : BilMeaning.Command) (known : ∀ name ∈ commandReads p, reads name) :
    Alike (Tracks reads e₀ f₀) (executor.command p) := by
  cases p with
  | move v expr =>
    change Alike (Tracks reads e₀ f₀) (visitStmt 0 (.move v expr))
    rw [visitStmt]
    cases v.type with
    | mem => exact (run_alike expr known).bind fun _ => Alike.pure ()
    | imm size =>
      exact (run_alike expr known).bind fun val => (alike_bitsOf val).bind fun x =>
        (alike_orRaise _).bind fun made => alike_setVar v.name (.bits made)
  | jmp arg =>
    have jumping : Alike (Tracks reads e₀ f₀)
        (modify fun e => { e with jumped := true } : Visit Unit) :=
      fun e f tracks => ⟨rfl, tracks.congr tracks.pc rfl tracks.memory fun name => Or.inr ⟨rfl, rfl⟩⟩
    have setPc (val : Val) : Alike (Tracks reads e₀ f₀) (do setVar (← get).pc val) := by
      intro e f tracks
      change Related (Tracks reads e₀ f₀) (setVar e.pc val e) (setVar f.pc val f)
      rw [tracks.pc]
      exact alike_setVar f.pc val e f tracks
    change Alike (Tracks reads e₀ f₀) (visitStmt 0 (.jmp arg))
    rw [visitStmt]
    exact jumping.bind fun _ => (run_alike arg known).bind setPc

theorem visit_alike (fuel : Nat) (stmts : List Stmt) (known : ∀ name ∈ (accessesIn stmts).1, reads name) :
    Alike (Tracks reads e₀ f₀) (visitStmts fuel stmts) := by
  rw [← visit_program]
  exact Alike.visit (fun c => ∀ name ∈ namesIn c, reads name) (fun p => ∀ name ∈ commandReads p, reads name)
    (fun c read => (run_alike c read).bind fun val => (alike_bitsOf val).bind fun _ => Alike.pure _)
    command_alike fuel (program_reads stmts known)

end Statements

section Frame
variable {name pc : String} {found : Option Val}

theorem jmp_frame (arg : Exp) (other : name ≠ pc) :
    Triple (fun e => e.pc = pc ∧ e.state.vars.lookup name = found) (executor.command (.jmp arg))
      fun _ e => e.pc = pc ∧ e.state.vars.lookup name = found := by
  have evaluated : Triple (fun e => e.pc = pc ∧ e.state.vars.lookup name = found) (run arg)
      fun _ e => e.pc = pc ∧ e.state.vars.lookup name = found :=
    run_triple arg fun e e' holds vars control _ => ⟨control.trans holds.1, (vars name).trans holds.2⟩
  intro e a e' holds ran
  have visit : executor.command (.jmp arg) e = (do
      let val ← run arg
      setVar (← get).pc val) { e with jumped := true } := by
    simp only [executor, visitStmt]
    rfl
  rw [visit] at ran
  obtain ⟨val, mid, ranArg, set⟩ := bind_eq_ok_iff.mp ran
  have later := evaluated { e with jumped := true } val mid holds ranArg
  cases set
  exact ⟨later.1, (AList.lookup_insert_ne (later.1 ▸ other)).trans later.2⟩

/-- A variable that is not written stays, if it is not the program counter of a jump. -/
theorem visit_frame (fuel : Nat) {stmts : List Stmt} (unwritten : name ∉ (accessesIn stmts).2)
    (other : name ≠ pc ∨ jumpsIn false stmts = []) :
    Triple (fun e => e.pc = pc ∧ e.state.vars.lookup name = found) (visitStmts fuel stmts)
      fun _ e => e.pc = pc ∧ e.state.vars.lookup name = found := by
  rw [← visit_program]
  refine Triple.visit (fun _ => True)
    (fun p => Triple (fun e => e.pc = pc ∧ e.state.vars.lookup name = found) (executor.command p)
      fun _ e => e.pc = pc ∧ e.state.vars.lookup name = found)
    (fun cond _ => isOne_triple ?_) (fun p good => good) fuel
    (program_within false (fun _ => trivial) stmts (fun v expr written => ?_) (fun jmp member => ?_))
  · exact run_triple cond fun e e' holds vars control _ => ⟨control.trans holds.1, (vars name).trans holds.2⟩
  · have apart : name ≠ v.name := fun same => unwritten (same ▸ written)
    exact move_triple expr fun e e' holds vars control _ => ⟨control.trans holds.1, (vars name apart).trans holds.2⟩
  · rcases other with apart | none
    · exact jmp_frame jmp.1 apart
    · rw [none] at member
      cases member

end Frame

/-- From executors that agree on what the instruction reads and on memory, its BIL returns in both or raises the same
in both, memory reads the same again, and a variable has the same value in both, or the one that it had before in each.
Where it returns, what it does not write is as before, but for the program counter of a jump. -/
theorem accesses_sound (visitor : Visitor) (descends : visitor.Descends) (d : BapInsn) (stmts : List Stmt)
    (bil : d.insn.bil = some stmts) (fuel : Nat) (e f : ConcreteExecutor)
    (agree : ∀ name ∈ d.regsRead visitor, e.state.vars.lookup name = f.state.vars.lookup name)
    (memory : SameReads f.state.memory e.state.memory) (pc : e.pc = f.pc) (jumped : e.jumped = f.jumped) :
    Related (Tracks (· ∈ d.regsRead visitor) e f) (visitStmts fuel stmts e) (visitStmts fuel stmts f) ∧
    ∀ e', visitStmts fuel stmts e = .ok () e' → ∀ name, name ∉ d.regsWrite visitor →
      name ≠ e.pc ∨ d.isJump visitor = false → e'.state.vars.lookup name = e.state.vars.lookup name := by
  have collected := fun name => mem_accesses descends name stmts
  have reads : d.regsRead visitor = (accesses visitor stmts).1 := by rw [BapInsn.regsRead, bil]; rfl
  have writes : d.regsWrite visitor = (accesses visitor stmts).2 := by rw [BapInsn.regsWrite, bil]; rfl
  constructor
  · apply visit_alike fuel stmts _ e f
    · exact ⟨pc, jumped, memory, agree, fun name => Or.inr ⟨rfl, rfl⟩⟩
    · intro name read
      rw [reads]
      exact (collected name).1.mpr read
  · intro e' ran name unwritten other
    have stays : name ∉ (accessesIn stmts).2 := fun written => unwritten (writes ▸ (collected name).2.mpr written)
    have apart : name ≠ e.pc ∨ jumpsIn false stmts = [] := by
      apply other.imp_right
      intro none
      simp only [BapInsn.isJump, bil, Option.isNone_some, Bool.false_eq_true, if_false, decide_eq_false_iff_not,
        ne_eq, not_not] at none
      apply List.eq_nil_iff_forall_not_mem.mpr
      intro jmp member
      have made := (mem_jumps_of_bil bil descends).mpr member
      rw [none] at made
      cases made
    exact (visit_frame fuel stays apart e () e' ⟨rfl, rfl⟩ ran).2

/-- Like `counting`, with a register that is not read. -/
def countingWithRegister : ConcreteExecutor := bound counting ⟨"EAX", .imm 32⟩ (.bits (.ofInt 32 7))

theorem accesses_sound_loop :
    loopInsn.regsRead inOrder ≠ [] ∧ loopInsn.regsWrite inOrder ≠ [] ∧
    Related (Tracks (· ∈ loopInsn.regsRead inOrder) counting countingWithRegister)
        (visitStmts 0 countDown counting) (visitStmts 0 countDown countingWithRegister) ∧
      ∀ e', visitStmts 0 countDown counting = .ok () e' → ∀ name, name ∉ loopInsn.regsWrite inOrder →
        name ≠ counting.pc ∨ loopInsn.isJump inOrder = false →
          e'.state.vars.lookup name = counting.state.vars.lookup name := by
  have agree : ∀ name ∈ loopInsn.regsRead inOrder,
      counting.state.vars.lookup name = countingWithRegister.state.vars.lookup name := by
    intro name read
    have different : name ≠ "EAX" := by
      rw [(mem_regsRead_loopInsn name).mp read]
      decide
    exact (AList.lookup_insert_ne different).symm
  exact ⟨List.ne_nil_of_mem ((mem_regsRead_loopInsn "ECX").mpr rfl),
    List.ne_nil_of_mem ((mem_regsWrite_loopInsn "ECX").mpr rfl),
    accesses_sound inOrder inOrder_descends loopInsn countDown rfl 0 counting countingWithRegister agree
      (SameReads.refl _) rfl rfl⟩

end Qira.BapAccesses
