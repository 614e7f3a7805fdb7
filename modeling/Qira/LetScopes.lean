import Qira.Bil

/-!
What evaluating an expression does to the variables. A `Let` puts back what its variable was only after its body
has returned, so that an exception in the body leaves the binding behind, and `validate_bil` goes on with it.
-/

namespace Qira.LetScopes
open Bil BitVectors ConcreteExecution Library.Words Library.Dictionaries

/-- The state that a visit ends in, normally or with an exception. -/
def after {α : Type} (visit : Visit α) (e : ConcreteExecutor) : ConcreteExecutor :=
  match visit e with
  | .ok _ e' => e'
  | .error _ e' => e'

/-- `variables[op.var.name] = val`. -/
def bound (e : ConcreteExecutor) (v : Var) (val : Val) : ConcreteExecutor :=
  { e with state := { e.state with vars := e.state.vars.insert v.name val } }

/-- Of two expressions, one after the other, the one that an exception ends. -/
def either (first : EStateM.Result Stop ConcreteExecutor Val) (inFirst : List (String × Val))
    (inSecond : Val → ConcreteExecutor → List (String × Val)) : List (String × Val) :=
  match first with
  | .ok val e => inSecond val e
  | .error _ _ => inFirst

/-- The bindings of the `Let`s whose body is left by an exception, the innermost first. -/
def abandoned : Exp → ConcreteExecutor → List (String × Val)
  | .load _ idx _ _, e => abandoned idx e
  | .store _ idx value _ _, e => either (run idx e) (abandoned idx e) (fun _ => abandoned value)
  | .binOp _ lhs rhs, e => either (run lhs e) (abandoned lhs e) (fun _ => abandoned rhs)
  | .unOp _ arg, e => abandoned arg e
  | .var _, _ => []
  | .int _ _, _ => []
  | .cast _ _ expr, e => abandoned expr e
  | .letVar v value expr, e =>
      either (run value e) (abandoned value e) (fun val e =>
        match run expr (bound e v val) with
        | .ok _ _ => []
        | .error _ _ => abandoned expr (bound e v val) ++ [(v.name, val)])
  | .unknown, _ => []
  | .ite cond yes no, e =>
      either (run cond e) (abandoned cond e) (fun val e => if isTrue val then abandoned yes e else abandoned no e)
  | .extract _ _ expr, e => abandoned expr e
  | .concat lhs rhs, e => either (run lhs e) (abandoned lhs e) (fun _ => abandoned rhs)

section Keeping
variable {α β : Type}

/-- However it ends, the variables are as they were. -/
def KeepsVars (visit : Visit α) : Prop := ∀ e, (after visit e).state.vars = e.state.vars

theorem keepsVars_pure (val : α) : KeepsVars (pure val) := fun _ => rfl

theorem keepsVars_throw (stop : Stop) : KeepsVars (throw stop : Visit α) := fun _ => rfl

theorem KeepsVars.bind {first : Visit α} {next : α → Visit β} (kept : KeepsVars first)
    (keptNext : ∀ val, KeepsVars (next val)) : KeepsVars (first >>= next) := by
  intro e
  have before := kept e
  unfold after at before ⊢
  cases ran : first e with
  | error stop e' =>
    rw [ran] at before
    rw [bind_of_error ran]
    exact before
  | ok val e' =>
    rw [ran] at before
    rw [bind_of_ok ran]
    exact (keptNext val e').trans before

theorem keepsVars_orRaise (result : Option α) : KeepsVars (orRaise result) := by
  cases result with
  | none => exact keepsVars_throw _
  | some val => exact keepsVars_pure val

theorem keepsVars_bitsOf (val : Val) : KeepsVars (bitsOf val) := by
  cases val with
  | bits x => exact keepsVars_pure x
  | mem exp => exact keepsVars_throw _

theorem keepsVars_setMemory (memory : Memory) : KeepsVars (setMemory memory) := fun _ => rfl

theorem keepsVars_get : KeepsVars get := fun _ => rfl

theorem keepsVars_mapM (visit : α → Visit β) (kept : ∀ a, KeepsVars (visit a)) (items : List α) :
    KeepsVars (items.mapM visit) := by
  induction items with
  | nil => exact keepsVars_pure []
  | cons item rest ih =>
    rw [List.mapM_cons]
    exact (kept item).bind fun _ => ih.bind fun _ => keepsVars_pure _

theorem keepsVars_forM (visit : α → Visit Unit) (kept : ∀ a, KeepsVars (visit a)) (items : List α) :
    KeepsVars (items.forM visit) := by
  induction items with
  | nil => exact keepsVars_pure ()
  | cons item rest ih => exact (kept item).bind fun _ => ih

theorem keepsVars_getVar (name : String) : KeepsVars (getVar name) := fun _ => rfl

theorem keepsVars_getItem (addr : Nat) : KeepsVars (getItem addr) :=
  keepsVars_get.bind fun _ => (keepsVars_orRaise _).bind fun fetched =>
    (keepsVars_setMemory fetched.1).bind fun _ => keepsVars_pure fetched.2

theorem keepsVars_getMem (addr size : Nat) (endian : Endian) : KeepsVars (getMem addr size endian) :=
  (keepsVars_mapM _ (fun i => keepsVars_getItem (addr + i)) _).bind fun _ => keepsVars_pure _

theorem keepsVars_setByte (addr val : Val) (i shift : Nat) : KeepsVars (setByte addr val i shift) :=
  (keepsVars_bitsOf addr).bind fun _ => (keepsVars_bitsOf val).bind fun _ => (keepsVars_orRaise _).bind fun _ =>
    keepsVars_get.bind fun _ => keepsVars_setMemory _

theorem keepsVars_setMem (addr : Val) (size : Nat) (val : Val) (endian : Endian) :
    KeepsVars (setMem addr size val endian) :=
  keepsVars_forM _ (fun i => keepsVars_setByte addr val i _) _

theorem keepsVars_method (val : Val) (method : ConcreteBitVector → Option ConcreteBitVector) :
    KeepsVars (do return Val.bits (← orRaise (method (← bitsOf val)))) :=
  (keepsVars_bitsOf val).bind fun _ => (keepsVars_orRaise _).bind fun _ => keepsVars_pure _

theorem keepsVars_method₂ (lhs rhs : Val) (method : ConcreteBitVector → ConcreteBitVector → Option ConcreteBitVector) :
    KeepsVars (do return Val.bits (← orRaise (method (← bitsOf lhs) (← bitsOf rhs)))) :=
  (keepsVars_bitsOf lhs).bind fun lhs => keepsVars_method rhs (method lhs)

/-- What a load does once its address is known. -/
theorem keepsVars_fetch (addr : Val) (endian : Endian) (size : Nat) : KeepsVars (do
    let addr ← bitsOf addr
    let mem ← getMem addr.value (size / 8) endian
    if mem = [] then throw (.raised (.memoryException addr.value))
    return Val.bits (← orRaise (make size (littleEndian mem.reverse)))) := by
  refine (keepsVars_bitsOf addr).bind fun addr => (keepsVars_getMem _ _ _).bind fun mem => ?_
  by_cases empty : mem = []
  · simp only [if_pos empty]
    exact (keepsVars_throw _).bind fun _ => (keepsVars_orRaise _).bind fun _ => keepsVars_pure _
  · simp only [if_neg empty]
    exact (keepsVars_orRaise _).bind fun _ => keepsVars_pure _

end Keeping

section Leaving
variable {α : Type}

/-- A visit from `e` that returns has left nothing behind; one that ends with an exception has left these bindings. -/
def Leaves (e : ConcreteExecutor) (bindings : List (String × Val)) : EStateM.Result Stop ConcreteExecutor α → Prop
  | .ok _ e' => bindings = [] ∧ ∀ name, e'.state.vars.lookup name = e.state.vars.lookup name
  | .error _ e' => ∀ name, e'.state.vars.lookup name = (bindings.lookup name).or (e.state.vars.lookup name)

theorem KeepsVars.leaves {visit : Visit α} (kept : KeepsVars visit) (e : ConcreteExecutor) : Leaves e [] (visit e) := by
  have same := kept e
  unfold after at same
  cases ran : visit e with
  | ok val e' =>
    rw [ran] at same
    exact ⟨rfl, fun name => congrArg (·.lookup name) same⟩
  | error stop e' =>
    rw [ran] at same
    exact fun name => congrArg (·.lookup name) same

/-- What leaves something behind from a state with the same variables leaves the same from the other. -/
theorem Leaves.of_same {e first : ConcreteExecutor} {bindings : List (String × Val)}
    {result : EStateM.Result Stop ConcreteExecutor α} (left : Leaves e bindings result)
    (same : ∀ name, e.state.vars.lookup name = first.state.vars.lookup name) : Leaves first bindings result := by
  cases result with
  | ok val e' => exact ⟨left.1, fun name => (left.2 name).trans (same name)⟩
  | error stop e' => exact fun name => (left name).trans (congrArg _ (same name))

theorem Leaves.bind {first : Visit Val} {next : Val → Visit α} {e : ConcreteExecutor} {inFirst : List (String × Val)}
    {inSecond : Val → ConcreteExecutor → List (String × Val)} (left : Leaves e inFirst (first e))
    (leftNext : ∀ val e', first e = .ok val e' → Leaves e' (inSecond val e') (next val e')) :
    Leaves e (either (first e) inFirst inSecond) ((first >>= next) e) := by
  cases ran : first e with
  | error stop e' =>
    rw [ran] at left
    rw [bind_of_error ran]
    exact left
  | ok val e' =>
    rw [ran] at left
    rw [bind_of_ok ran]
    exact (leftNext val e' ran).of_same left.2

/-- What comes after the only expression does not matter, if it keeps the variables. -/
theorem Leaves.then {first : Visit Val} {next : Val → Visit α} {e : ConcreteExecutor}
    {bindings : List (String × Val)} (left : Leaves e bindings (first e)) (kept : ∀ val, KeepsVars (next val)) :
    Leaves e bindings ((first >>= next) e) := by
  have both := left.bind fun val e' _ => (kept val).leaves e'
  cases ran : first e with
  | error stop e' =>
    rw [ran] at both
    exact both
  | ok val e' =>
    rw [ran] at left both
    rw [left.1]
    exact both

end Leaving

/-- What the end of a `Let` does puts the variable back, and nothing else was changed. -/
theorem lookup_restored {vars inside : Dict String Val} {v : String} {val : Val}
    (kept : ∀ name, inside.lookup name = (vars.insert v val).lookup name) (name : String) :
    ((vars.lookup v).elim (inside.erase v) (inside.insert v)).lookup name = vars.lookup name := by
  by_cases same : name = v
  · subst same
    cases old : vars.lookup name with
    | none => exact AList.lookup_erase name inside
    | some tmp => exact AList.lookup_insert inside
  · have other := (kept name).trans (AList.lookup_insert_ne same)
    cases vars.lookup v with
    | none => exact (AList.lookup_erase_ne same).trans other
    | some tmp => exact (AList.lookup_insert_ne same).trans other

/-- A `Let` leaves its own binding behind, under those of its body, where an exception leaves its body. -/
theorem leaves_letVar (v : Var) (expr : Exp) (val : Val) (e : ConcreteExecutor) {inside : List (String × Val)}
    {tmp : Option Val} (old : e.state.vars.lookup v.name = tmp)
    (left : Leaves (bound e v val) inside (run expr (bound e v val))) :
    Leaves e (match run expr (bound e v val) with
      | .ok _ _ => []
      | .error _ _ => inside ++ [(v.name, val)])
      ((do
        setVar v.name val
        let result ← run expr
        match tmp with
        | none => popVar v.name
        | some tmp => setVar v.name tmp
        return result) e) := by
  have set : setVar v.name val e = .ok () (bound e v val) := rfl
  rw [bind_of_ok set]
  cases ran : run expr (bound e v val) with
  | error stop e' =>
    rw [ran] at left
    rw [bind_of_error ran]
    intro name
    rw [left name, List.lookup_append, Option.or_assoc]
    congr 1
    by_cases same : name = v.name
    · subst same
      simp [bound]
    · have other : (name == v.name) = false := beq_false_of_ne same
      simp [bound, other, AList.lookup_insert_ne same, List.lookup_cons]
  | ok result e' =>
    rw [ran] at left
    rw [bind_of_ok ran]
    have restored := lookup_restored left.2
    rw [old] at restored
    cases tmp with
    | none => exact ⟨rfl, restored⟩
    | some tmp => exact ⟨rfl, restored⟩

theorem run_leaves (exp : Exp) (e : ConcreteExecutor) : Leaves e (abandoned exp e) (run exp e) := by
  induction exp generalizing e with
  | load mem idx endian size _ ih => exact (ih e).then fun addr => keepsVars_fetch addr endian size
  | store mem idx value endian size _ ihIdx ihValue =>
    exact (ihIdx e).bind fun addr e' _ => (ihValue e').then fun val =>
      (keepsVars_setMem addr (size / 8) val endian).bind fun _ => keepsVars_pure _
  | binOp op lhs rhs ihLhs ihRhs =>
    exact (ihLhs e).bind fun lhs e' _ => (ihRhs e').then fun rhs => keepsVars_method₂ lhs rhs (visitBinOp op)
  | unOp op arg ih =>
    exact (ih e).then fun val => keepsVars_method val (visitUnOp op)
  | var v =>
    refine KeepsVars.leaves ((keepsVars_getVar v.name).bind fun found => ?_) e
    cases found with
    | none => exact keepsVars_throw _
    | some val => exact keepsVars_pure val
  | int value size => exact KeepsVars.leaves ((keepsVars_orRaise _).bind fun _ => keepsVars_pure _) e
  | cast op size expr ih =>
    exact (ih e).then fun val => keepsVars_method val (visitCast op size)
  | letVar v value expr ihValue ihExpr =>
    have evaluated := ihValue e
    refine evaluated.bind fun val e' ran => leaves_letVar v expr val e' ?_ (ihExpr (bound e' v val))
    rw [ran] at evaluated
    exact evaluated.2 v.name
  | unknown => exact KeepsVars.leaves (keepsVars_pure _) e
  | ite cond yes no ihCond ihYes ihNo =>
    exact (ihCond e).bind fun _ e' _ => ihYes e'
  | extract highBit lowBit expr ih =>
    exact (ih e).then fun val => keepsVars_method val (fun x => getBits x lowBit highBit)
  | concat lhs rhs ihLhs ihRhs =>
    exact (ihLhs e).bind fun lhs e' _ => (ihRhs e').then fun rhs => keepsVars_method₂ lhs rhs BitVectors.concat

theorem lookup_after (exp : Exp) (e : ConcreteExecutor) (name : String) :
    (after (run exp) e).state.vars.lookup name = ((abandoned exp e).lookup name).or (e.state.vars.lookup name) := by
  have left := run_leaves exp e
  unfold after
  cases ran : run exp e with
  | error stop e' =>
    rw [ran] at left
    exact left name
  | ok val e' =>
    rw [ran] at left
    rw [left.1]
    exact left.2 name

/-- Evaluating an expression keeps all variables exactly if each binding it abandons is what the variable was. -/
theorem run_keeps_variables_iff (exp : Exp) (e : ConcreteExecutor) :
    (∀ name, (after (run exp) e).state.vars.lookup name = e.state.vars.lookup name) ↔
      ∀ name val, (abandoned exp e).lookup name = some val → e.state.vars.lookup name = some val := by
  refine forall_congr' fun name => ?_
  rw [lookup_after]
  cases left : (abandoned exp e).lookup name with
  | none => exact iff_of_true rfl nofun
  | some val =>
    constructor
    · rintro same _ ⟨⟩
      exact same.symm
    · exact fun same => (same val rfl).symm

/-- `Let t = 1 in u`, without a variable `u`, is a `VariableException` that leaves `t` behind. -/
theorem let_left_behind :
    (∃ e', run (.letVar ⟨"t", .imm 8⟩ (.int 1 8) (.var ⟨"u", .imm 8⟩)) started =
      .error (.raised (.variableException "u")) e') ∧
    ¬ ∀ name, (after (run (.letVar ⟨"t", .imm 8⟩ (.int 1 8) (.var ⟨"u", .imm 8⟩))) started).state.vars.lookup name =
      started.state.vars.lookup name := by
  refine ⟨⟨bound started ⟨"t", .imm 8⟩ (.bits (.ofInt 8 1)), rfl⟩, fun same => ?_⟩
  have found : some (Val.bits (.ofInt 8 1)) = none := same "t"
  cases found

end Qira.LetScopes
