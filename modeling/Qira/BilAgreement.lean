import Qira.BilOperators
import Qira.LetScopes

/-!
The executor agrees with what BIL means: from a state that represents another one it evaluates each typed expression
to the vector of its word, and typed programs run in both alike. It may go its own way only where a load finds some
of its bytes missing.
-/

namespace Qira.BilAgreement
open ConcreteExecution BitVectors Bil BilMemory LetScopes BilMeaning BilOperators Library.Words Library.Programs

section Control
variable {α β : Type}

/-- The visit neither jumps nor changes which variable is the program counter. -/
def KeepsControl (visit : Visit α) : Prop :=
  ∀ e, (after visit e).pc = e.pc ∧ (after visit e).jumped = e.jumped

theorem keepsControl_pure (val : α) : KeepsControl (pure val) := fun _ => ⟨rfl, rfl⟩

theorem keepsControl_throw (stop : Stop) : KeepsControl (throw stop : Visit α) := fun _ => ⟨rfl, rfl⟩

theorem keepsControl_get : KeepsControl get := fun _ => ⟨rfl, rfl⟩

theorem keepsControl_modifyState (change : Bil.State → Bil.State) : KeepsControl (modifyState change) := fun _ => ⟨rfl, rfl⟩

theorem KeepsControl.bind {first : Visit α} {next : α → Visit β} (kept : KeepsControl first)
    (keptNext : ∀ val, KeepsControl (next val)) : KeepsControl (first >>= next) := by
  intro e
  have before := kept e
  unfold after at before ⊢
  cases ran : first e with
  | error stop e' =>
    rw [ran] at before
    rw [Bil.bind_of_error ran]
    exact before
  | ok val e' =>
    rw [ran] at before
    rw [Bil.bind_of_ok ran]
    have later := keptNext val e'
    exact ⟨later.1.trans before.1, later.2.trans before.2⟩

theorem keepsControl_orRaise (result : Option α) : KeepsControl (orRaise result) := by
  cases result with
  | none => exact keepsControl_throw _
  | some val => exact keepsControl_pure val

theorem keepsControl_bitsOf (val : Val) : KeepsControl (bitsOf val) := by
  cases val with
  | bits x => exact keepsControl_pure x
  | mem exp => exact keepsControl_throw _

theorem keepsControl_getVar (name : String) : KeepsControl (getVar name) := fun _ => ⟨rfl, rfl⟩

theorem keepsControl_mapM (visit : α → Visit β) (kept : ∀ a, KeepsControl (visit a)) (items : List α) :
    KeepsControl (items.mapM visit) := by
  induction items with
  | nil => exact keepsControl_pure []
  | cons item rest ih =>
    rw [List.mapM_cons]
    exact (kept item).bind fun _ => ih.bind fun _ => keepsControl_pure _

theorem keepsControl_forM (visit : α → Visit Unit) (kept : ∀ a, KeepsControl (visit a)) (items : List α) :
    KeepsControl (items.forM visit) := by
  induction items with
  | nil => exact keepsControl_pure ()
  | cons item rest ih => exact (kept item).bind fun _ => ih

theorem keepsControl_getItem (addr : Nat) : KeepsControl (getItem addr) :=
  keepsControl_get.bind fun _ => (keepsControl_orRaise _).bind fun _ =>
    (keepsControl_modifyState _).bind fun _ => keepsControl_pure _

theorem keepsControl_setByte (addr val : Val) (i shift : Nat) : KeepsControl (setByte addr val i shift) :=
  (keepsControl_bitsOf addr).bind fun _ => (keepsControl_bitsOf val).bind fun _ =>
    (keepsControl_orRaise _).bind fun _ => keepsControl_get.bind fun _ => keepsControl_modifyState _

theorem keepsControl_method (val : Val) (method : ConcreteBitVector → Option ConcreteBitVector) :
    KeepsControl (do return Val.bits (← orRaise (method (← bitsOf val)))) :=
  (keepsControl_bitsOf val).bind fun _ => (keepsControl_orRaise _).bind fun _ => keepsControl_pure _

theorem keepsControl_method₂ (lhs rhs : Val)
    (method : ConcreteBitVector → ConcreteBitVector → Option ConcreteBitVector) :
    KeepsControl (do return Val.bits (← orRaise (method (← bitsOf lhs) (← bitsOf rhs)))) :=
  (keepsControl_bitsOf lhs).bind fun lhs => keepsControl_method rhs (method lhs)

theorem run_keepsControl (exp : Exp) : KeepsControl (run exp) := by
  induction exp with
  | load mem idx endian size _ ih =>
    refine ih.bind fun addr => (keepsControl_bitsOf addr).bind fun addr =>
      ((keepsControl_mapM _ (fun i => keepsControl_getItem _) _).bind fun _ => keepsControl_pure _).bind fun bytes => ?_
    by_cases empty : bytes = []
    · simp only [if_pos empty]
      exact (keepsControl_throw _).bind fun _ => (keepsControl_orRaise _).bind fun _ => keepsControl_pure _
    · simp only [if_neg empty]
      exact (keepsControl_orRaise _).bind fun _ => keepsControl_pure _
  | store mem idx value endian size _ ihIdx ihValue =>
    exact ihIdx.bind fun addr => ihValue.bind fun val =>
      (keepsControl_forM _ (fun i => keepsControl_setByte addr val i _) _).bind fun _ => keepsControl_pure _
  | binOp op lhs rhs ihLhs ihRhs =>
    exact ihLhs.bind fun lhs => ihRhs.bind fun rhs => keepsControl_method₂ lhs rhs (visitBinOp op)
  | unOp op arg ih => exact ih.bind fun val => keepsControl_method val (visitUnOp op)
  | var v =>
    refine (keepsControl_getVar v.name).bind fun found => ?_
    cases found with
    | none => exact keepsControl_throw _
    | some val => exact keepsControl_pure val
  | int value size => exact (keepsControl_orRaise _).bind fun _ => keepsControl_pure _
  | cast op size expr ih => exact ih.bind fun val => keepsControl_method val (visitCast op size)
  | letVar v value expr ihValue ihExpr =>
    refine (keepsControl_getVar v.name).bind fun tmp => ihValue.bind fun val =>
      (keepsControl_modifyState _).bind fun _ => ihExpr.bind fun result => ?_
    cases tmp with
    | none => exact (keepsControl_modifyState _).bind fun _ => keepsControl_pure _
    | some tmp => exact (keepsControl_modifyState _).bind fun _ => keepsControl_pure _
  | unknown => exact keepsControl_pure _
  | ite cond yes no ihCond ihYes ihNo => exact ihCond.bind fun _ => ihYes
  | extract highBit lowBit expr ih =>
    exact ih.bind fun val => keepsControl_method val (fun x => getBits x lowBit highBit)
  | concat lhs rhs ihLhs ihRhs =>
    exact ihLhs.bind fun lhs => ihRhs.bind fun rhs => keepsControl_method₂ lhs rhs BitVectors.concat

end Control

/-- The executor is in this state of variables and memory. -/
structure Represents (pc : String) (e : ConcreteExecutor) (s : Machine) : Prop where
  vars : ∀ name, e.state.vars.lookup name = (s.vars name).map (fun w => .bits (vector w))
  memory : ∀ addr, e.state.memory.read addr = some (s.memory addr)
  jumped : e.jumped = s.jumped
  pc : e.pc = pc

/-- A result that is the vector of the word that is meant, or an exception where nothing is. -/
inductive Agrees (pc : String) (s : Machine) (n : Nat) : Option Value → EStateM.Result Stop ConcreteExecutor Val → Prop
  | returns (w : BitVec n) {e : ConcreteExecutor} (represented : Represents pc e s) :
      Agrees pc s n (some (.word ⟨n, w⟩)) (.ok (.bits (vector ⟨n, w⟩)) e)
  | raises (raised : Raised) (e : ConcreteExecutor) : Agrees pc s n none (.error (.raised raised) e)
  | missing (result : EStateM.Result Stop ConcreteExecutor Val) {addr : Nat} (absent : s.memory addr = none) :
      Agrees pc s n none result

section Expressions
variable {pc : String} {s : Machine} {e e' : ConcreteExecutor}

/-- An expression that has left memory as it was has left everything as it was. -/
theorem represents_after {exp : Exp} {val : Val} (represented : Represents pc e s) (ran : run exp e = .ok val e')
    (same : SameReads e.state.memory e'.state.memory) : Represents pc e' s := by
  have left := run_leaves exp e
  have control := run_keepsControl exp e
  unfold after at control
  rw [ran] at left control
  exact ⟨fun name => (left.2 name).trans (represented.vars name), fun addr => (same addr).trans (represented.memory addr),
    control.2.trans represented.jumped, control.1.trans represented.pc⟩

theorem bind_orRaise {result : Option ConcreteBitVector} :
    (do return Val.bits (← orRaise result) : Visit Val) e =
      result.elim (.error (.raised .other) e) (fun x => .ok (.bits x) e) := by
  cases result <;> rfl

theorem agrees_gives {n : Nat} {result : Option ConcreteBitVector} {meaning : Option Word} (represented : Represents pc e s)
    (gives : Gives n result meaning) :
    Agrees pc s n (do return .word (← meaning)) ((do return Val.bits (← orRaise result) : Visit Val) e) := by
  rw [bind_orRaise]
  cases gives with
  | word w => exact .returns w represented
  | nothing => exact .raises _ _

theorem agrees_unary {expr : Exp} {n k : Nat} {method : ConcreteBitVector → Option ConcreteBitVector}
    {meaning : Word → Option Word} (inner : Agrees pc s n (means expr s) (run expr e))
    (gives : ∀ x : BitVec n, Gives k (method (vector ⟨n, x⟩)) (meaning ⟨n, x⟩)) :
    Agrees pc s k (do return .word (← meaning (← (← means expr s).asWord)))
      ((do return Val.bits (← orRaise (method (← bitsOf (← run expr)))) : Visit Val) e) := by
  generalize means expr s = value at inner
  generalize ran : run expr e = result at inner
  cases inner with
  | returns x represented =>
    rw [Bil.bind_of_ok ran]
    exact agrees_gives represented (gives x)
  | raises raised e' =>
    rw [Bil.bind_of_error ran]
    exact .raises raised e'
  | missing _ absent => exact .missing _ absent

theorem agrees_binary {lhs rhs : Exp} {n m k : Nat} {method : ConcreteBitVector → ConcreteBitVector → Option ConcreteBitVector}
    {meaning : Word → Word → Option Word} (left : Agrees pc s n (means lhs s) (run lhs e))
    (right : ∀ e', Represents pc e' s → Agrees pc s m (means rhs s) (run rhs e'))
    (gives : ∀ (x : BitVec n) (y : BitVec m), means rhs s = some (.word ⟨m, y⟩) →
      Gives k (method (vector ⟨n, x⟩) (vector ⟨m, y⟩)) (meaning ⟨n, x⟩ ⟨m, y⟩)) :
    Agrees pc s k (do
        let lhs ← (← means lhs s).asWord
        let rhs ← (← means rhs s).asWord
        return .word (← meaning lhs rhs))
      ((do
        let lhs ← run lhs
        let rhs ← run rhs
        return Val.bits (← orRaise (method (← bitsOf lhs) (← bitsOf rhs))) : Visit Val) e) := by
  generalize means lhs s = value at left
  generalize ran : run lhs e = result at left
  cases left with
  | raises raised e' =>
    rw [Bil.bind_of_error ran]
    exact .raises raised e'
  | missing _ absent => exact .missing _ absent
  | @returns x mid represented =>
    rw [Bil.bind_of_ok ran]
    have second := right mid represented
    generalize means rhs s = value at second gives
    generalize ran' : run rhs mid = result at second
    cases second with
    | raises raised e' =>
      rw [Bil.bind_of_error ran']
      exact .raises raised e'
    | missing _ absent => exact .missing _ absent
    | returns y represented' =>
      rw [Bil.bind_of_ok ran']
      exact agrees_gives represented' (gives x y rfl)

/-- Bytes that are there are loaded, and memory reads as before. -/
theorem load_of_bytes {m idx : Exp} {endian : Endian} {count : Nat} {bytes : List Byte} {n : Nat} {x : BitVec n}
    (some : 0 < count) (small : 8 * count ≤ maxsize) (represented : Represents pc e' s)
    (ran : run idx e = .ok (.bits (vector ⟨n, x⟩)) e') (found : bytesAt s.memory x.toNat count = .some bytes) :
    ∃ f, run (.load m idx endian (8 * count)) e = .ok (.bits (vector ⟨8 * count,
        BitVec.ofNat (8 * count) (littleEndian (ordered endian bytes))⟩)) f ∧
      SameReads e'.state.memory f.state.memory := by
  have reads : ∀ i < count, e'.state.memory.read (x.toNat + i) = .some (s.memory (x.toNat + i)) :=
    fun i _ => represented.memory _
  obtain ⟨f, got, same⟩ := getMem_of_read endian reads
  unfold bytesAt at found
  simp only [Option.ite_none_left_eq_some, Option.some_inj] at found
  obtain ⟨whole, rfl⟩ := found
  have nonempty : ((List.range count).map (fun i => s.memory (x.toNat + i))).reduceOption ≠ [] := by
    intro empty
    rw [nothing_iff] at empty
    exact whole (List.mem_map.mpr ⟨0, List.mem_range.mpr some, empty 0 some⟩)
  have address : bitsOf (.bits (vector ⟨n, x⟩)) e' = .ok (vector ⟨n, x⟩) e' := rfl
  have joined := fun bytes : List Byte => ofInt_eq_vector (8 * count) (littleEndian bytes)
  refine ⟨f, ?_, same⟩
  simp only [run]
  rw [Bil.bind_of_ok ran, Bil.bind_of_ok address, Nat.mul_div_cancel_left count (by decide)]
  refine (Bil.bind_of_ok got).trans ?_
  generalize ((List.range count).map (fun i => s.memory (x.toNat + i))).reduceOption = bytes at nonempty
  have order : (if endian = .littleEndian then bytes.reverse else bytes).reverse = ordered endian bytes := by
    cases endian <;> simp [ordered]
  have nonempty' : (if endian = .littleEndian then bytes.reverse else bytes) ≠ [] := by
    cases endian <;> simpa using nonempty
  rw [if_neg nonempty', order, make_of_le small, joined, BitVec.ofInt_natCast]
  rfl

theorem agrees_load {m : Var} {idx : Exp} {endian : Endian} {count n : Nat} (isMem : m.type = .mem)
    (some : 0 < count) (small : 8 * count ≤ maxsize) (start : Represents pc e s)
    (inner : Agrees pc s n (means idx s) (run idx e)) :
    Agrees pc s (8 * count) (means (.load (.var m) idx endian (8 * count)) s)
      (run (.load (.var m) idx endian (8 * count)) e) := by
  have memory : means (.var m) s = .some (.memory s.memory) := by simp only [means, isMem]
  rw [means, memory, Nat.mul_div_cancel_left count (by decide)]
  generalize means idx s = value at inner
  generalize ran : run idx e = result at inner
  cases inner with
  | raises raised e' =>
    have raises : run (.load (.var m) idx endian (8 * count)) e = .error (.raised raised) e' := by
      simp only [run]
      exact Bil.bind_of_error ran
    rw [raises]
    exact .raises raised e'
  | missing _ absent => exact .missing _ absent
  | @returns x e' represented =>
    change Agrees pc s (8 * count) (do
      let bytes ← bytesAt s.memory x.toNat count
      return .word ⟨8 * count, BitVec.ofNat (8 * count) (littleEndian (ordered endian bytes))⟩) _
    cases found : bytesAt s.memory x.toNat count with
    | none =>
      simp only [bytesAt, ite_eq_left_iff, reduceCtorEq, imp_false, not_not, List.mem_map] at found
      obtain ⟨i, -, absent⟩ := found
      exact .missing _ absent
    | some bytes =>
      obtain ⟨f, loaded, same⟩ := load_of_bytes some small represented ran found
      have reads : SameReads e.state.memory f.state.memory := fun addr =>
        (same addr).trans ((represented.memory addr).trans (start.memory addr).symm)
      rw [loaded]
      exact .returns _ (represents_after start loaded reads)

theorem represents_bound {v : Var} (represented : Represents pc e s) (w : Word) :
    Represents pc (bound e v (.bits (vector w))) (s.set v.name w) := by
  refine ⟨fun name => ?_, represented.memory, represented.jumped, represented.pc⟩
  by_cases same : name = v.name
  · subst same
    simp [bound]
  · simp [bound, AList.lookup_insert_ne same, s.set_vars_ne w same, represented.vars]

theorem fits_set {widths : String → Nat} {name : String} (fits : Fits widths s) (w : BitVec (widths name)) :
    Fits widths (s.set name ⟨widths name, w⟩) := by
  intro other w' found
  by_cases same : other = name
  · subst same
    rw [s.set_vars_self, Option.some_inj] at found
    rw [← found]
  · rw [s.set_vars_ne _ same] at found
    exact fits other w' found

theorem assign_word {v : Var} {n : Nat} (isWord : v.type = .imm n) (w : BitVec n) :
    s.assign v (.word ⟨n, w⟩) = some (s.set v.name ⟨n, w⟩) := by
  simp only [Machine.assign, isWord, if_true]

/-- After the body of a `Let`, the variable is what it was. -/
theorem agrees_letVar {v : Var} {value expr : Exp} {n k : Nat} (isWord : v.type = .imm n) (start : Represents pc e s)
    (given : Agrees pc s n (means value s) (run value e))
    (inner : ∀ (w : BitVec n) mid, Represents pc mid s →
      Agrees pc (s.set v.name ⟨n, w⟩) k (means expr (s.set v.name ⟨n, w⟩))
        (run expr (bound mid v (.bits (vector ⟨n, w⟩))))) :
    Agrees pc s k (means (.letVar v value expr) s) (run (.letVar v value expr) e) := by
  have tmp : getVar v.name e = .ok (e.state.vars.lookup v.name) e := rfl
  rw [means]
  generalize means value s = meant at given
  generalize ran : run value e = result at given
  cases given with
  | raises raised e' =>
    have raises : run (.letVar v value expr) e = .error (.raised raised) e' := by
      simp only [run]
      rw [Bil.bind_of_ok tmp]
      exact Bil.bind_of_error ran
    rw [raises]
    exact .raises raised e'
  | missing _ absent => exact .missing _ absent
  | @returns w mid represented =>
    have body := inner w mid represented
    have set : setVar v.name (.bits (vector ⟨n, w⟩)) mid = .ok () (bound mid v (.bits (vector ⟨n, w⟩))) := rfl
    have assigned : (do means expr (← s.assign v (← some (.word ⟨n, w⟩)))) = means expr (s.set v.name ⟨n, w⟩) := by
      change (s.assign v (.word ⟨n, w⟩)).bind (means expr) = _
      rw [assign_word isWord, Option.bind_some]
    rw [assigned]
    generalize means expr (s.set v.name ⟨n, w⟩) = meant at body
    generalize ranBody : run expr (bound mid v (.bits (vector ⟨n, w⟩))) = result at body
    cases body with
    | raises raised e' =>
      have raises : run (.letVar v value expr) e = .error (.raised raised) e' := by
        simp only [run]
        rw [Bil.bind_of_ok tmp, Bil.bind_of_ok ran, Bil.bind_of_ok set]
        exact Bil.bind_of_error ranBody
      rw [raises]
      exact .raises raised e'
    | missing _ absent => exact .missing _ absent
    | @returns x f representedBody =>
      have returns : ∃ f', run (.letVar v value expr) e = .ok (.bits (vector ⟨k, x⟩)) f' ∧
          f'.state.memory = f.state.memory := by
        simp only [run]
        rw [Bil.bind_of_ok tmp, Bil.bind_of_ok ran, Bil.bind_of_ok set, Bil.bind_of_ok ranBody]
        cases e.state.vars.lookup v.name with
        | none => exact ⟨_, rfl, rfl⟩
        | some val => exact ⟨_, rfl, rfl⟩
      obtain ⟨f', ranLet, kept⟩ := returns
      have reads : SameReads e.state.memory f'.state.memory := by
        intro addr
        rw [kept, representedBody.memory, start.memory]
        rfl
      rw [ranLet]
      exact .returns x (represents_after start ranLet reads)

theorem agrees_var {widths : String → Nat} {v : Var} (isWord : v.type = .imm (widths v.name)) (fits : Fits widths s)
    (represented : Represents pc e s) : Agrees pc s (widths v.name) (means (.var v) s) (run (.var v) e) := by
  have found : getVar v.name e = .ok ((s.vars v.name).map (fun w => .bits (vector w))) e :=
    congrArg (EStateM.Result.ok · e) (represented.vars v.name)
  simp only [means, isWord, run]
  rw [Bil.bind_of_ok found]
  cases present : s.vars v.name with
  | none => exact .raises _ e
  | some w =>
    obtain ⟨n, w⟩ := w
    obtain rfl : n = widths v.name := fits _ _ present
    exact .returns w represented

theorem amount_small {rhs : Exp} {m : Nat} {y : BitVec m} (amount : Amount rhs m)
    (meant : means rhs s = some (.word ⟨m, y⟩)) : y.toNat ≤ maxsize := by
  rcases amount with narrow | ⟨value, rfl, small⟩
  · have bound : y.toNat < 2 ^ 63 := y.isLt.trans_le (Nat.pow_le_pow_right (by decide) narrow)
    exact Nat.le_sub_one_of_lt bound
  · cases meant
    exact small

/-- A typed expression is evaluated to what it means. -/
theorem run_agrees {widths : String → Nat} {exp : Exp} {n : Nat} (typed : Typed widths exp n) (fits : Fits widths s)
    (represented : Represents pc e s) : Agrees pc s n (means exp s) (run exp e) := by
  induction typed generalizing e s with
  | load endian isMem _ some small ih => exact agrees_load isMem some small represented (ih fits represented)
  | arithmetic plain _ _ ihLeft ihRight =>
    exact agrees_binary (ihLeft fits represented) (fun _ => ihRight fits) fun x y _ => gives_arithmetic x y plain
  | comparison plain _ _ ihLeft ihRight =>
    exact agrees_binary (ihLeft fits represented) (fun _ => ihRight fits) fun x y _ => gives_comparison x y plain
  | signedComparison plain positive small _ _ ihLeft ihRight =>
    exact agrees_binary (ihLeft fits represented) (fun _ => ihRight fits) fun x y _ =>
      gives_signedComparison x y plain positive small
  | shift plain _ _ amount ihLeft ihRight =>
    exact agrees_binary (ihLeft fits represented) (fun _ => ihRight fits) fun x y meant =>
      gives_shift x plain (amount_small amount meant)
  | signedShift positive small _ _ amount ihLeft ihRight =>
    refine agrees_binary (ihLeft fits represented) (fun _ => ihRight fits) fun x y meant =>
      gives_signedShift x positive small ?_
    cases meant
    exact amount
  | @not arg n _ ih =>
    have meaning : means (.unOp .not arg) s = do return .word (← some (unary .not (← (← means arg s).asWord))) := rfl
    rw [meaning]
    exact agrees_unary (ih fits represented) fun x => gives_not x
  | var isWord => exact agrees_var isWord fits represented
  | int value small =>
    rw [run_int value small, ofInt_eq_vector]
    exact .returns _ represented
  | unsigned small _ ih => exact agrees_unary (ih fits represented) fun x => gives_unsigned x small
  | signed small narrower _ ih => exact agrees_unary (ih fits represented) fun x => gives_signed x small narrower
  | part isPart small narrower _ ih => exact agrees_unary (ih fits represented) fun x => gives_part x isPart small narrower
  | letVar isWord _ _ ihGiven ihInner =>
    exact agrees_letVar isWord represented (ihGiven fits represented) fun w mid representedMid =>
      ihInner (fits_set fits w) (represents_bound representedMid _)
  | extract order small _ ih => exact agrees_unary (ih fits represented) fun x => gives_extracted x order small
  | @concat lhs rhs n small _ _ ihLeft ihRight =>
    have meaning : means (.concat lhs rhs) s = (do
        let lhs ← (← means lhs s).asWord
        let rhs ← (← means rhs s).asWord
        return .word (← some (appended lhs rhs))) := rfl
    rw [meaning]
    exact agrees_binary (ihLeft fits represented) (fun _ => ihRight fits) fun x y _ => gives_appended x y small

end Expressions

end Qira.BilAgreement
