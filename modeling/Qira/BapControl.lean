import Qira.BapInstructions
import Qira.BilRuns
import Qira.Library.Triples

/-!
Control flow by the executor and by `BapInsn`. Where the executor does not jump, code follows; where it jumps, it does
so by one of the jumps that the visitor collects. A loop may be left without a round, and then its jumps are not made.
-/

namespace Qira.BapControl
open ConcreteExecution BitVectors Bil LetScopes BilAgreement BilRuns Instructions BapVisitors BapInstructions
open Library.Programs Library.Triples

/-- The jumps of a loop are made under conditions of their own. -/
def LoopsPlain (stmts : List Stmt) : Prop :=
  ∀ cond body, .whileStmt cond body ∈ stmts → ∀ jmp ∈ jumpsIn false body, jmp.2 = .cjump

section Collected

mutual

theorem jumpsOf_true (stmt : Stmt) : ∀ jmp ∈ jumpsOf true stmt, jmp.2 = .cjump :=
  match stmt with
  | .move _ _ => nofun
  | .jmp _ => by simp [jumpsOf]
  | .whileStmt _ stmts => jumpsIn_true stmts
  | .ifStmt _ yes no => by
    intro jmp member
    rcases List.mem_append.mp member with inYes | inNo
    · exact jumpsIn_true yes jmp inYes
    · exact jumpsIn_true no jmp inNo

theorem jumpsIn_true (stmts : List Stmt) : ∀ jmp ∈ jumpsIn true stmts, jmp.2 = .cjump :=
  match stmts with
  | [] => nofun
  | stmt :: rest => by
    intro jmp member
    rcases List.mem_append.mp member with first | later
    · exact jumpsOf_true stmt jmp first
    · exact jumpsIn_true rest jmp later

end

theorem mem_jumpsIn {inCondition : Bool} {stmts : List Stmt} {jmp : Exp × DestType} :
    jmp ∈ jumpsIn inCondition stmts ↔ ∃ stmt ∈ stmts, jmp ∈ jumpsOf inCondition stmt := by
  induction stmts with
  | nil => simp [jumpsIn]
  | cons stmt rest ih => simp [jumpsIn, ih]

/-- Where there are jumps and none is conditional, one is a statement of the list itself. -/
theorem exists_jmp {stmts : List Stmt} (plain : LoopsPlain stmts) (some : ∃ jmp, jmp ∈ jumpsIn false stmts)
    (unconditional : ∀ jmp ∈ jumpsIn false stmts, jmp.2 ≠ .cjump) : ∃ arg, .jmp arg ∈ stmts := by
  obtain ⟨jmp, member⟩ := some
  obtain ⟨stmt, inside, found⟩ := mem_jumpsIn.mp member
  have notConditional := unconditional jmp member
  cases stmt with
  | move v expr => cases found
  | jmp arg => exact ⟨arg, inside⟩
  | whileStmt cond body => exact absurd (plain cond body inside jmp found) notConditional
  | ifStmt cond yes no =>
    exact absurd (jumpsOf_true (.ifStmt cond yes no) jmp (by simpa [jumpsOf] using found)) notConditional

end Collected

section Visiting
variable {α : Type}

/-- What depends on the variables and on control only is kept by expressions. -/
theorem run_triple {P : ConcreteExecutor → Prop} (exp : Exp)
    (kept : ∀ e e', P e → (∀ name, e'.state.vars.lookup name = e.state.vars.lookup name) → e'.pc = e.pc →
      e'.jumped = e.jumped → P e') : Triple P (run exp) fun _ => P := by
  intro e val e' holds ran
  have left := run_leaves exp e
  have control := run_keepsControl exp e
  unfold after at control
  rw [ran] at left control
  exact kept e e' holds left.2 control.1 control.2

theorem bitsOf_triple {P : ConcreteExecutor → Prop} (val : Val) : Triple P (bitsOf val) fun _ => P := by
  cases val with
  | bits x => exact Triple.pure fun _ holds => holds
  | mem exp => exact Triple.throw _

theorem orRaise_triple {P : ConcreteExecutor → Prop} (result : Option α) : Triple P (orRaise result) fun _ => P := by
  cases result with
  | none => exact Triple.throw _
  | some a => exact Triple.pure fun _ holds => holds

theorem isOne_triple {P : ConcreteExecutor → Prop} {cond : Exp} (kept : Triple P (run cond) fun _ => P) :
    Triple P (isOne cond) fun _ => P :=
  kept.bind fun val => (bitsOf_triple val).bind fun _ => Triple.pure fun _ holds => holds

end Visiting

section Commands

mutual

theorem place_within {conditions : Exp → Prop} {commands : BilMeaning.Command → Prop} (inCondition : Bool)
    (all : ∀ c, conditions c) (stmt : Stmt) {rest : Program Exp BilMeaning.Command}
    (moves : ∀ v expr, v.name ∈ (accessesOf stmt).2 → commands (.move v expr))
    (made : ∀ jmp ∈ jumpsOf inCondition stmt, commands (.jmp jmp.1)) (within : rest.Within conditions commands) :
    (BilMeaning.place stmt rest).Within conditions commands :=
  match stmt with
  | .move v expr => ⟨moves v expr (by simp [accessesOf]), within⟩
  | .jmp arg => ⟨made _ List.mem_cons_self, within⟩
  | .whileStmt cond stmts => ⟨all cond, program_within inCondition all stmts moves made, within⟩
  | .ifStmt cond yes no =>
    ⟨all cond, program_within true all yes (fun v expr member => moves v expr (List.mem_append_left _ member))
        (fun jmp member => made jmp (List.mem_append_left _ member)),
      program_within true all no (fun v expr member => moves v expr (List.mem_append_right _ member))
        (fun jmp member => made jmp (List.mem_append_right _ member)), within⟩

/-- The commands of a program are assignments to what is written, and jumps that were collected. -/
theorem program_within {conditions : Exp → Prop} {commands : BilMeaning.Command → Prop} (inCondition : Bool)
    (all : ∀ c, conditions c) (stmts : List Stmt)
    (moves : ∀ v expr, v.name ∈ (accessesIn stmts).2 → commands (.move v expr))
    (made : ∀ jmp ∈ jumpsIn inCondition stmts, commands (.jmp jmp.1)) :
    (BilMeaning.program stmts).Within conditions commands :=
  match stmts with
  | [] => trivial
  | stmt :: rest =>
    place_within inCondition all stmt (fun v expr member => moves v expr (List.mem_append_left _ member))
      (fun jmp member => made jmp (List.mem_append_left _ member))
      (program_within inCondition all rest (fun v expr member => moves v expr (List.mem_append_right _ member))
        (fun jmp member => made jmp (List.mem_append_right _ member)))

end

/-- An assignment changes its variable only, and not control. -/
theorem move_triple {P : ConcreteExecutor → Prop} {v : Var} (expr : Exp)
    (kept : ∀ e e', P e → (∀ name, name ≠ v.name → e'.state.vars.lookup name = e.state.vars.lookup name) →
      e'.pc = e.pc → e'.jumped = e.jumped → P e') : Triple P (executor.command (.move v expr)) fun _ => P := by
  have evaluated : Triple P (run expr) fun _ => P :=
    run_triple expr fun e e' holds vars => kept e e' holds fun name _ => vars name
  change Triple P (visitStmt 0 (.move v expr)) fun _ => P
  rw [visitStmt]
  cases v.type with
  | mem => exact evaluated.bind fun _ => Triple.pure fun _ holds => holds
  | imm size =>
    refine evaluated.bind fun val => (bitsOf_triple val).bind fun x => (orRaise_triple _).bind fun made => ?_
    rintro e _ _ holds ⟨⟩
    exact kept e _ holds (fun name other => AList.lookup_insert_ne other) rfl rfl

/-- The program counter is what one of these expressions was evaluated to, once there was a jump. -/
structure Target (args : Exp → Prop) (pc : String) (e : ConcreteExecutor) : Prop where
  counter : e.pc = pc
  made : e.jumped = true → ∃ arg, args arg ∧
    ∃ e1 val e2, run arg e1 = .ok val e2 ∧ e.state.vars.lookup pc = some val

theorem jmp_triple {arg : Exp} (args : Exp → Prop) (pc : String) (one : args arg) :
    Triple (fun e => e.pc = pc) (executor.command (.jmp arg)) fun _ e => Target args pc e ∧ e.jumped = true := by
  intro e _ e' isPc ran
  have visit : executor.command (.jmp arg) e = (do
      let val ← run arg
      setVar (← get).pc val) { e with jumped := true } := by
    simp only [executor, visitStmt]
    rfl
  rw [visit] at ran
  obtain ⟨val, mid, ranArg, set⟩ := bind_eq_ok_iff.mp ran
  have control := run_keepsControl arg { e with jumped := true }
  unfold after at control
  rw [ranArg] at control
  have isPc' : mid.pc = pc := control.1.trans isPc
  cases set
  refine ⟨⟨isPc', fun _ => ⟨arg, one, _, val, mid, ranArg, ?_⟩⟩, control.2⟩
  rw [← isPc']
  exact AList.lookup_insert _

end Commands

section Outcomes

/-- The arguments of the jumps. -/
def Collected (stmts : List Stmt) (arg : Exp) : Prop := ∃ type, (arg, type) ∈ jumpsIn false stmts

theorem visit_target {fuel : Nat} {stmts : List Stmt} {pc : String} (kept : pc ∉ (accessesIn stmts).2) :
    Triple (Target (Collected stmts) pc) (visitStmts fuel stmts) fun _ => Target (Collected stmts) pc := by
  rw [← visit_program]
  refine Triple.visit (fun _ => True)
    (fun p => Triple (Target (Collected stmts) pc) (executor.command p) fun _ => Target (Collected stmts) pc)
    (fun cond _ => isOne_triple ?_) (fun p good => good) fuel
    (program_within false (fun _ => trivial) stmts (fun v expr written => ?_) (fun jmp member => ?_))
  · refine run_triple cond fun e e' target vars control jumped => ⟨control.trans target.counter, fun made => ?_⟩
    rw [vars]
    exact target.made (jumped ▸ made)
  · have other : pc ≠ v.name := fun same => kept (same ▸ written)
    refine move_triple expr fun e e' target vars control jumped => ⟨control.trans target.counter, fun made => ?_⟩
    rw [vars pc other]
    exact target.made (jumped ▸ made)
  · intro e a e' target ran
    exact (jmp_triple _ pc ⟨jmp.2, member⟩ e a e' target.counter ran).1

theorem jmp_jumped (fuel : Nat) (arg : Exp) :
    Triple (fun _ => True) (visitStmt fuel (.jmp arg)) fun _ e => e.jumped = true := by
  intro e a e' _ ran
  have same : visitStmt fuel (.jmp arg) = executor.command (.jmp arg) := by simp only [executor, visitStmt]
  rw [same] at ran
  exact (jmp_triple (fun _ => True) e.pc trivial e a e' rfl ran).2

/-- A jump is not taken back. -/
theorem visit_jumped (fuel : Nat) (stmts : List Stmt) :
    Triple (fun e => e.jumped = true) (visitStmts fuel stmts) fun _ e => e.jumped = true := by
  rw [← visit_program]
  refine Triple.visit (fun _ => True)
    (fun p => Triple (fun e => e.jumped = true) (executor.command p) fun _ e => e.jumped = true)
    (fun cond _ => isOne_triple (run_triple cond fun e e' made _ _ jumped => jumped.trans made)) (fun p good => good)
    fuel (program_within false (fun _ => trivial) stmts (fun v expr _ => ?_) (fun jmp _ => ?_))
  · exact move_triple expr fun e e' made _ _ jumped => jumped.trans made
  · exact fun e a e' _ ran => jmp_jumped 0 jmp.1 e a e' trivial ran

theorem visit_jmp (fuel : Nat) {stmts : List Stmt} {arg : Exp} (inside : .jmp arg ∈ stmts) :
    Triple (fun _ => True) (visitStmts fuel stmts) fun _ e => e.jumped = true := by
  induction stmts with
  | nil => cases inside
  | cons stmt rest ih =>
    rw [visitStmts]
    rcases List.mem_cons.mp inside with rfl | later
    · exact (jmp_jumped fuel arg).bind fun _ => visit_jumped fuel rest
    · exact Triple.bind (fun _ _ _ _ _ => trivial) fun _ => ih later

end Outcomes

section Destinations
variable {visitor : Visitor} {d : BapInsn}

/-- A number that BIL says to jump to is a destination. -/
theorem mem_dests (notRet : d.isRet = false) (hasBil : d.insn.bil.isSome = true) {value : Int} {size : Nat}
    {type : DestType} (member : (.int value size, type) ∈ d.jumps visitor) :
    (value, if d.isCall then .call else type) ∈ d.dests visitor := by
  have found : (value, if d.isCall then DestType.call else type) ∈ d.bilDests visitor :=
    List.mem_filterMap.mpr ⟨_, member, rfl⟩
  rw [BapInsn.dests, notRet, if_neg Bool.false_ne_true, if_pos hasBil]
  exact List.mem_append_right _ found

theorem mem_jumps_of_bil {stmts : List Stmt} (bil : d.insn.bil = some stmts) (descends : visitor.Descends)
    {jmp : Exp × DestType} : jmp ∈ d.jumps visitor ↔ jmp ∈ jumpsIn false stmts := by
  rw [BapInsn.jumps, bil]
  exact mem_jumps descends stmts

/-- Code does not follow only where there is a jump that is always made. -/
theorem codeFollows_of_no_jmp {stmts : List Stmt} (bil : d.insn.bil = some stmts) (descends : visitor.Descends)
    (plain : LoopsPlain stmts) (notRet : d.isRet = false) (none : ∀ arg, .jmp arg ∉ stmts) :
    d.codeFollows visitor = true := by
  rw [BapInsn.codeFollows, notRet, Bool.false_or, Bool.or_eq_true, Bool.not_eq_true']
  refine Or.inr (Bool.eq_false_iff.mpr fun unconditional => ?_)
  simp only [BapInsn.isUnconditional, BapInsn.isConditional, bil, Option.isNone_some, Bool.false_eq_true, if_false,
    Bool.if_false_left, Bool.and_eq_true, Bool.not_eq_true', decide_eq_false_iff_not, List.any_eq_false,
    decide_eq_true_eq] at unconditional
  obtain ⟨jmp, member⟩ := List.exists_mem_of_ne_nil _ unconditional.1
  obtain ⟨arg, inside⟩ := exists_jmp plain ⟨jmp, (mem_jumps_of_bil bil descends).mp member⟩
    fun jmp member => unconditional.2 jmp ((mem_jumps_of_bil bil descends).mpr member)
  exact none arg inside

end Destinations

/-- A register is counted down, and there is a jump back until it is zero. -/
def countDown : List Stmt :=
  [.move ⟨"ECX", .imm 32⟩ (.binOp .minus (.var ⟨"ECX", .imm 32⟩) (.int 1 32)),
    .ifStmt (.binOp .neq (.var ⟨"ECX", .imm 32⟩) (.int 0 32)) [.jmp (.int 0xFF2 32)] []]

def loopInsn : BapInsn :=
  ⟨⟨0x1000, 2, "\tloop\t-0x10", [.branch, .conditionalBranch], some (-0x10), some countDown⟩, 0x1000, "i386"⟩

def counting : ConcreteExecutor := bound started ⟨"ECX", .imm 32⟩ (.bits (.ofInt 32 3))

theorem mem_regsRead_loopInsn (name : String) : name ∈ loopInsn.regsRead inOrder ↔ name = "ECX" := by
  change name ∈ (accesses inOrder countDown).1 ↔ name = "ECX"
  rw [(mem_accesses inOrder_descends name countDown).1]
  simp [countDown, accessesIn, accessesOf, namesIn]

theorem mem_regsWrite_loopInsn (name : String) : name ∈ loopInsn.regsWrite inOrder ↔ name = "ECX" := by
  change name ∈ (accesses inOrder countDown).2 ↔ name = "ECX"
  rw [(mem_accesses inOrder_descends name countDown).2]
  simp [countDown, accessesIn, accessesOf]

end Qira.BapControl
