import Qira.BilAgreement

/-!
Typed programs of BIL: the executor ends where the program runs to, for every bound on the rounds of its loops from
some number on, and it ends only where the program runs to, if no byte of memory is missing.
-/

namespace Qira.BilRuns
open ConcreteExecution BitVectors Bil BilMemory LetScopes BilMeaning BilOperators BilAgreement
open Library.Words Library.Programs

def executor : Interpreter Exp Command Stop ConcreteExecutor where
  condition := isOne
  command
    | .move v expr => visitStmt 0 (.move v expr)
    | .jmp arg => visitStmt 0 (.jmp arg)
  unfinished := .outOfFuel

theorem loop_eq_rounds (cond : Visit Bool) (body : Visit Unit) (fuel : Nat) :
    loop cond body fuel = rounds .outOfFuel cond body fuel := by
  induction fuel with
  | zero => rfl
  | succ fuel ih => rw [loop, rounds, ih]

mutual

theorem visit_place (fuel : Nat) (stmt : Stmt) (rest : Program Exp Command) :
    executor.visit fuel (place stmt rest) = (do visitStmt fuel stmt; executor.visit fuel rest) :=
  match stmt with
  | .move v expr => by
    rw [place, Interpreter.visit]
    simp only [executor, visitStmt]
  | .jmp arg => by
    rw [place, Interpreter.visit]
    simp only [executor, visitStmt]
  | .whileStmt cond stmts => by
    rw [place, Interpreter.visit, visit_program fuel stmts, visitStmt, loop_eq_rounds]
    rfl
  | .ifStmt cond yes no => by
    rw [place, Interpreter.visit, visit_program fuel yes, visit_program fuel no, visitStmt]
    rfl

/-- A list of statements is visited as the program that it is. -/
theorem visit_program (fuel : Nat) (stmts : List Stmt) : executor.visit fuel (program stmts) = visitStmts fuel stmts :=
  match stmts with
  | [] => rfl
  | stmt :: rest => by rw [program, visit_place fuel stmt, visit_program fuel rest, visitStmts]

end

section Steps
variable {widths : String → Nat} {pc : String} {s t : Machine} {e e' : ConcreteExecutor}

/-- The variables have their widths and, where that is asked for, no byte is missing. -/
def Ready (widths : String → Nat) (whole : Prop) (s : Machine) : Prop :=
  Fits widths s ∧ (whole → ∀ addr, s.memory addr ≠ none)

theorem eq_one_iff (w : BitVec 1) : eq (vector ⟨1, w⟩) (.number 1) = decide ((⟨1, w⟩ : Word) = bit true) := by
  revert w
  decide

theorem language_condition (cond : Exp) : (language pc).condition cond s =
    (means cond s).bind fun val => val.asWord.bind fun w => if w.1 = 1 then some (decide (w = bit true)) else none :=
  rfl

theorem language_move (v : Var) (expr : Exp) :
    (language pc).command (.move v expr) s = (means expr s).bind (s.assign v) := rfl

theorem language_jmp (arg : Exp) : (language pc).command (.jmp arg) s =
    (means arg s).bind fun val => val.asWord.bind fun w => some { s.set pc w with jumped := true } := rfl

/-- A condition is found to be what it means, or it means nothing and is not found, unless a byte is missing. -/
theorem condition_agrees {cond : Exp} (typed : Typed widths cond 1) (fits : Fits widths s)
    (represented : Represents pc e s) :
    (∃ b f, (language pc).condition cond s = some b ∧ isOne cond e = .ok b f ∧ Represents pc f s) ∨
      (language pc).condition cond s = none ∧
        ((∃ stop f, isOne cond e = .error stop f) ∨ ∃ addr, s.memory addr = none) := by
  have agrees := run_agrees typed fits represented
  rw [language_condition]
  generalize means cond s = value at agrees
  generalize ran : run cond e = result at agrees
  cases agrees with
  | returns w represented' => exact .inl ⟨_, _, rfl, eq_one_iff w ▸ isOne_of_bits cond ran, represented'⟩
  | raises raised f => exact .inr ⟨rfl, .inl ⟨_, f, isOne_of_error cond ran⟩⟩
  | missing _ absent => exact .inr ⟨rfl, .inr ⟨_, absent⟩⟩

/-- And so is the effect of a command. -/
def CommandAgrees (widths : String → Nat) (pc : String) (s : Machine) (e : ConcreteExecutor) (p : Command) : Prop :=
  (∃ t f, (language pc).command p s = some t ∧ executor.command p e = .ok () f ∧ Represents pc f t ∧
    Fits widths t ∧ ((∀ addr, s.memory addr ≠ none) → ∀ addr, t.memory addr ≠ none)) ∨
  (language pc).command p s = none ∧
    ((∃ stop f, executor.command p e = .error stop f) ∨ ∃ addr, s.memory addr = none)

theorem move_agrees {v : Var} {expr : Exp} (isWord : v.type = .imm (widths v.name)) (small : widths v.name ≤ maxsize)
    (typed : Typed widths expr (widths v.name)) (fits : Fits widths s) (represented : Represents pc e s) :
    CommandAgrees widths pc s e (.move v expr) := by
  have agrees := run_agrees typed fits represented
  have visit : executor.command (.move v expr) = (do
      let val ← bitsOf (← run expr)
      setVar v.name (.bits (← orRaise (make (widths v.name) val.value)))) := by
    simp only [executor, visitStmt, isWord]
  unfold CommandAgrees
  rw [language_move, visit]
  generalize means expr s = value at agrees
  generalize ran : run expr e = result at agrees
  cases agrees with
  | @returns w f represented' =>
    have kept : make (widths v.name) ((vector ⟨widths v.name, w⟩).value : Int) = some (vector ⟨widths v.name, w⟩) := by
      rw [make_of_le small, Option.some_inj]
      exact ofInt_natCast_eq (Nat.mod_eq_of_lt w.isLt).symm
    refine .inl ⟨_, _, assign_word isWord w, ?_, represents_bound represented' _, fits_set fits w, fun whole => whole⟩
    rw [Bil.bind_of_ok ran]
    change (do setVar v.name (.bits (← orRaise (make (widths v.name) (vector ⟨widths v.name, w⟩).value)))) f = _
    rw [kept]
    rfl
  | raises raised f => exact .inr ⟨rfl, .inl ⟨_, f, Bil.bind_of_error ran⟩⟩
  | missing _ absent => exact .inr ⟨rfl, .inr ⟨_, absent⟩⟩

theorem jmp_agrees {arg : Exp} (typed : Typed widths arg (widths pc)) (fits : Fits widths s)
    (represented : Represents pc e s) : CommandAgrees widths pc s e (.jmp arg) := by
  let jumping : ConcreteExecutor := { e with jumped := true }
  have agrees : Agrees pc { s with jumped := true } (widths pc) _ (run arg jumping) :=
    run_agrees typed fits ⟨represented.vars, represented.memory, rfl, represented.pc⟩
  have visit : executor.command (.jmp arg) e = (do
      let val ← run arg
      setVar (← get).pc val) jumping := by
    simp only [executor, visitStmt]
    rfl
  unfold CommandAgrees
  rw [language_jmp, visit]
  rw [means_jumped] at agrees
  generalize means arg s = value at agrees
  generalize ran : run arg jumping = result at agrees
  cases agrees with
  | @returns w f represented' =>
    have set (val : Val) : (do setVar (← get).pc val) f = .ok () (bound f ⟨pc, .mem⟩ val) := by
      rw [← represented'.pc]
      rfl
    exact .inl ⟨{ s.set pc ⟨widths pc, w⟩ with jumped := true }, _, rfl, (Bil.bind_of_ok ran).trans (set _),
      represents_bound represented' _, fits_set fits w, fun whole => whole⟩
  | raises raised f => exact .inr ⟨rfl, .inl ⟨_, f, Bil.bind_of_error ran⟩⟩
  | missing _ absent => exact .inr ⟨rfl, .inr ⟨_, absent⟩⟩

theorem store_agrees {v m : Var} {idx value : Exp} {n count : Nat} {endian : Endian} (isMem : v.type = .mem)
    (isMem' : m.type = .mem) (typedIdx : Typed widths idx n) (typedValue : Typed widths value (8 * count))
    (small : 8 * count ≤ maxsize) (fits : Fits widths s) (represented : Represents pc e s) :
    CommandAgrees widths pc s e (.move v (.store (.var m) idx value endian (8 * count))) := by
  have agrees := run_agrees typedIdx fits represented
  have memory : means (.var m) s = some (.memory s.memory) := by simp only [means, isMem']
  have visit : executor.command (.move v (.store (.var m) idx value endian (8 * count))) =
      (do let _ ← run (.store (.var m) idx value endian (8 * count))) := by
    simp only [executor, visitStmt, isMem]
  unfold CommandAgrees
  rw [language_move, visit, means, memory, Nat.mul_div_cancel_left count (by decide)]
  generalize means idx s = found at agrees
  generalize ran : run idx e = result at agrees
  cases agrees with
  | missing _ absent => exact .inr ⟨rfl, .inr ⟨_, absent⟩⟩
  | raises raised f =>
    have raises : run (.store (.var m) idx value endian (8 * count)) e = .error (.raised raised) f := by
      simp only [run]
      exact Bil.bind_of_error ran
    exact .inr ⟨rfl, .inl ⟨_, f, Bil.bind_of_error raises⟩⟩
  | @returns x f representedIdx =>
    have agreesValue := run_agrees typedValue fits representedIdx
    generalize means value s = found' at agreesValue
    generalize ran' : run value f = result' at agreesValue
    cases agreesValue with
    | missing _ absent => exact .inr ⟨rfl, .inr ⟨_, absent⟩⟩
    | raises raised f' =>
      have raises : run (.store (.var m) idx value endian (8 * count)) e = .error (.raised raised) f' := by
        simp only [run]
        exact (Bil.bind_of_ok ran).trans (Bil.bind_of_error ran')
      exact .inr ⟨rfl, .inl ⟨_, f', Bil.bind_of_error raises⟩⟩
    | @returns y f' representedValue =>
      obtain ⟨g, ranStore, reads⟩ := @store_of_le (.var m) idx value endian count small e f f' _ _ ran ran'
      let memory := stored s.memory x.toNat count endian ⟨8 * count, y⟩
      have assigned : s.assign v (.memory memory) = some { s with memory } := by simp only [Machine.assign, isMem]
      refine .inl ⟨{ s with memory }, g, assigned, Bil.bind_of_ok ranStore, ?_, fits, fun whole addr => ?_⟩
      · have left := run_leaves (.store (.var m) idx value endian (8 * count)) e
        have control := run_keepsControl (.store (.var m) idx value endian (8 * count)) e
        unfold after at control
        rw [ranStore] at left control
        refine ⟨fun name => (left.2 name).trans (represented.vars name), fun addr => (reads addr).trans ?_,
          control.2.trans represented.jumped, control.1.trans represented.pc⟩
        have bytes (k : Nat) : byteOfVector (vector ⟨8 * count, y⟩) k = byteOf y k := by
          rw [byteOfVector]
          change byteOf (BitVec.ofNat (8 * count) y.toNat) k = _
          rw [BitVec.ofNat_toNat, BitVec.setWidth_eq]
        rw [bytes, representedValue.memory]
        exact (apply_ite some _ _ _).symm
      · change (if _ then some _ else s.memory addr) ≠ none
        split
        next => exact Option.some_ne_none _
        next => exact whole addr

theorem command_agrees {p : Command} (typed : Typed.Command widths pc p) (fits : Fits widths s)
    (represented : Represents pc e s) : CommandAgrees widths pc s e p := by
  cases typed with
  | move isWord small inner => exact move_agrees isWord small inner fits represented
  | store endian isMem isMem' index inner small => exact store_agrees isMem isMem' index inner small fits represented
  | jmp inner => exact jmp_agrees inner fits represented

theorem executor_implements (widths : String → Nat) (pc : String) (whole : Prop) :
    Implements executor (language pc) (Represents pc) (Ready widths whole) (Typed widths · 1)
      (Typed.Command widths pc) where
  condition c e s b typed ready represented means := by
    rcases condition_agrees typed ready.1 represented with ⟨b', f, means', ran, represented'⟩ | ⟨nothing, -⟩
    · obtain rfl := Option.some.inj (means.symm.trans means')
      exact ⟨f, ran, represented'⟩
    · exact absurd (nothing.symm.trans means) nofun
  command p e s t typed ready represented does := by
    rcases command_agrees typed ready.1 represented with ⟨t', f, does', ran, represented', fits, kept⟩ | ⟨nothing, -⟩
    · obtain rfl := Option.some.inj (does.symm.trans does')
      exact ⟨⟨fits, fun isWhole => kept (ready.2 isWhole)⟩, f, ran, represented'⟩
    · exact absurd (nothing.symm.trans does) nofun

/-- Where memory is whole, the executor stops at what means nothing. -/
theorem executor_guards (widths : String → Nat) (pc : String) :
    Guards executor (language pc) (Represents pc) (Ready widths True) (Typed widths · 1)
      (Typed.Command widths pc) where
  condition c e s b e' typed ready represented ran nothing := by
    rcases condition_agrees typed ready.1 represented with ⟨b', f, means, -⟩ | ⟨-, ⟨stop, f, raised⟩ | ⟨addr, absent⟩⟩
    · exact absurd (nothing.symm.trans means) nofun
    · exact absurd (ran.symm.trans raised) nofun
    · exact ready.2 trivial addr absent
  command p e s e' typed ready represented ran nothing := by
    rcases command_agrees typed ready.1 represented with ⟨t, f, does, -⟩ | ⟨-, ⟨stop, f, raised⟩ | ⟨addr, absent⟩⟩
    · exact absurd (nothing.symm.trans does) nofun
    · exact absurd (ran.symm.trans raised) nofun
    · exact ready.2 trivial addr absent

end Steps

def counter : Var := ⟨"R0", .imm 8⟩

def mem : Var := ⟨"mem", .mem⟩

def counterWidths (name : String) : Nat := if name = "R0" then 8 else 32

/-- Up to 3, with each number stored at its own address, and then on. -/
def countUp : List Stmt :=
  [.whileStmt (.binOp .lt (.var counter) (.int 3 8))
    [.move counter (.binOp .plus (.var counter) (.int 1 8)),
      .move mem (.store (.var mem) (.cast .unsigned 32 (.var counter)) (.var counter) .littleEndian (8 * 1))],
    .jmp (.int 0x1000 32)]

/-- The counter is zero, and so is all memory. -/
def zeroMachine : Machine := ⟨fun name => if name = "R0" then some ⟨8, 0⟩ else none, fun _ => some 0, false⟩

def zeroExecutor : ConcreteExecutor :=
  ⟨⟨(∅ : Library.Dictionaries.Dict String Val).insert "R0" (.bits (vector ⟨8, 0⟩)), ⟨fun _ => some (some 0), ∅⟩⟩, "PC",
    false⟩

theorem countUp_typed : (program countUp).Within (Typed counterWidths · 1) (Typed.Command counterWidths "PC") := by
  have count : Typed counterWidths (.var counter) 8 := .var rfl
  have number (value : Int) : Typed counterWidths (.int value 8) 8 := .int value (by decide)
  exact ⟨.comparison (by simp) count (number 3),
    ⟨.move rfl (by decide) (.arithmetic (by simp) count (number 1)),
      .store .littleEndian rfl rfl (.unsigned (by decide) count) count (by decide), trivial⟩,
    .jmp (.int 0x1000 (by decide)), trivial⟩

end Qira.BilRuns
