import Qira.ConcreteExecution
import Qira.Library.Machines

/-!
`validate_bil`: the instructions of a trace are run one after the other on a state of the concrete
executor, and after each the state is compared with the trace and put right. The state is built anew only
where that cannot be done; else the next instruction runs on what the one before has left.
-/

namespace Qira.BilValidator
open ConcreteExecution Library.Words Library.Dictionaries Library.Machines

/-- The architectures that are supported. -/
inductive Arch
  | arm
  | i386
  | x86_64
  deriving DecidableEq

namespace Arch

def registers : Arch → List String
  | .arm => ["R0", "R1", "R2", "R3", "R4", "R5", "R6", "R7", "R8", "R9", "R10", "R11", "R12", "SP", "LR", "PC"]
  | .i386 => ["EAX", "ECX", "EDX", "EBX", "ESP", "EBP", "ESI", "EDI", "EIP"]
  | .x86_64 => ["RAX", "RCX", "RDX", "RBX", "RSP", "RBP", "RSI", "RDI", "R8", "R9", "R10", "R11", "R12", "R13",
      "R14", "R15", "RIP"]

def regsize : Arch → Nat
  | .arm => 8 * 4
  | .i386 => 8 * 4
  | .x86_64 => 8 * 8

def cpuFlags : Arch → List String
  | .arm => ["ZF", "CF", "NF", "VF"]
  | .i386 => ["CF", "PF", "AF", "ZF", "SF", "OF", "DF"]
  | .x86_64 => ["CF", "PF", "AF", "ZF", "SF", "OF", "DF"]

def PC : Arch → String
  | .arm => "PC"
  | .i386 => "EIP"
  | .x86_64 => "RIP"

end Arch

/-- `program.traces[0]`, with the base and size of each mapped library. -/
structure Trace where
  arch : Arch
  fetchRegisters : Nat → Vector (BitVec 64) arch.registers.length
  fetchRawMemory : Nat → Fetch
  libraries : List (Int × Int)

def newStateForClnum (t : Trace) (clnum : Nat) (includeFlags : Bool) : State :=
  let flags := if includeFlags then t.arch.cpuFlags else []
  let flagvalues := flags.map (fun _ => (0 : Int))
  let varnames := t.arch.registers ++ flags
  let initialRegs := (t.fetchRegisters clnum).toList.map (fun x => (x.toNat : Int))
  let varvals := (initialRegs ++ flagvalues).map (ConcreteBitVector.ofInt t.arch.regsize)
  ⟨ofPairs (varnames.zip varvals), ⟨t.fetchRawMemory clnum, ∅⟩⟩

/-- The instruction of a flow element: printed as `text`, and a `BapInsn` or not; `bil` is missing where it
is `None`. -/
inductive Instr
  | other (text : String)
  | bap (text : String) (size : Nat) (bil : Option Behaviour)

structure Element where
  clnum : Nat
  instr : Instr

structure Issue where
  clnum : Nat
  insn : Instr
  message : String

/-- The variables of the loop of `validate_bil`, with the changelist of the element before. -/
structure Validation where
  state : State
  errors : List Issue
  warnings : List Issue
  clnum : Nat

def start (t : Trace) : Validation := ⟨newStateForClnum t 0 true, [], [], 0⟩

def Validation.error (v : Validation) (e : Element) (message : String) : Validation :=
  { v with errors := v.errors ++ [⟨e.clnum, e.instr, message⟩] }

def Validation.warning (v : Validation) (e : Element) (message : String) : Validation :=
  { v with warnings := v.warnings ++ [⟨e.clnum, e.instr, message⟩] }

def Validation.setState (v : Validation) (state : State) : Validation := { v with state }

/-- `"%x"`. -/
def hex (n : Nat) : String := String.ofList (Nat.toDigits 16 n)

/-- `state[PC] = change(state[PC])`; `none` is a `KeyError`. -/
def movePC (arch : Arch) (change : ConcreteBitVector → ConcreteBitVector) (s : State) : Option State :=
  (s.vars.lookup arch.PC).map (fun val => { s with vars := s.vars.insert arch.PC (change val) })

/-- Before the executor runs. -/
def prepare (arch : Arch) (s : State) : Option State :=
  if arch = .arm then movePC arch (·.add 8) s else some s

/-- The exceptions that are caught are reported, and all others raised. -/
def report (v : Validation) (e : Element) : Option Raised → Option Validation
  | none => some v
  | some (.variableException name) => some (v.error e ("No BIL variable " ++ name ++ "!"))
  | some (.memoryException addr) => some (v.error e ("Used invalid address " ++ hex addr ++ "."))
  | some .other => none

/-- After the executor has run. -/
def advance (arch : Arch) (size : Nat) (executor : Executor) : Option State :=
  if executor.jumped then some executor.state
  else if arch = .arm then movePC arch (·.sub 4) executor.state
  else movePC arch (·.add size) executor.state

/-- From the start of an element that has BIL up to the test for libraries. -/
def executed (t : Trace) (v : Validation) (e : Element) (size : Nat) (bil : Behaviour) : Option Validation :=
  (prepare t.arch v.state).bind (fun before =>
    let ran := Executor.visit bil ⟨before, false⟩
    (report v e ran.2).bind (fun v => (advance t.arch size ran.1).map v.setState))

/-- A jump into a library, which cannot be traced. -/
def inLibrary (t : Trace) (val : ConcreteBitVector) : Bool :=
  val.value > 0xf0000000 ∨ t.libraries.any (fun library => val.value ≥ library.1 ∧ val.value ≤ library.1 + library.2)

def checkRegister (e : Element) (v : Validation) (correct : Sigma fun _ : String => ConcreteBitVector) :
    Option Validation :=
  (v.state.vars.lookup correct.1).map (fun val =>
    if val.value ≠ correct.2.value then
      (v.error e (correct.1 ++ " was incorrect! (" ++ hex val.value ++ " != " ++ hex correct.2.value ++ ").")).setState
        { v.state with vars := v.state.vars.insert correct.1 correct.2 }
    else v)

/-- The loop body for the memory of the state; `realval` is fetched anew. -/
def checkByte (t : Trace) (e : Element) (v : Validation) (item : Sigma fun _ : Nat => Option Byte) :
    Option Validation :=
  (t.fetchRawMemory e.clnum item.1).map (fun realval =>
    match item.2, realval with
    | some val, some real =>
        if val ≠ real then
          (v.error e ("Value at address " ++ hex item.1 ++ " is wrong! (" ++ hex val.toNat ++ " != " ++
            hex real.toNat ++ ").")).setState
            { v.state with memory := v.state.memory.setItem item.1 realval }
        else v
    | _, _ =>
        (v.error e ("Used invalid address " ++ hex item.1 ++ ".")).setState (newStateForClnum t e.clnum true))

/-- The loop body of `validate_bil`; `none` is an exception that leaves it. -/
def step (t : Trace) (order : Order) (v : Validation) (e : Element) : Option Validation :=
  match e.instr with
  | .other text =>
      some { v.error e ("Could not make BAP instruction for " ++ text) with
        state := newStateForClnum t e.clnum true
        clnum := e.clnum }
  | .bap text _ none =>
      some { v.error e ("No BIL for instruction " ++ text) with
        state := newStateForClnum t e.clnum true
        clnum := e.clnum }
  | .bap _ size (some bil) =>
      (executed t v e size bil).bind (fun v =>
        (v.state.vars.lookup t.arch.PC).bind (fun pcVal =>
          if inLibrary t pcVal then
            some { v.warning e "Jumping into library. Cannot trace this" with
              state := newStateForClnum t e.clnum true
              clnum := e.clnum }
          else
            ((order.walk (newStateForClnum t e.clnum false).vars.entries).foldlM (checkRegister e) v).bind (fun v =>
              ((order.walk v.state.memory.dict.entries).foldlM (checkByte t e) v).map (fun v =>
                { v with clnum := e.clnum }))))

/-- The errors and warnings for a flow; a trace is missing where its architecture is not supported. -/
def validateBil (order : Order) (flow : List Element) : Option Trace → Option (List Issue × List Issue)
  | none => some ([], [])
  | some t => (run (step t order) (start t) flow).map (fun v => (v.errors, v.warnings))

/-- The state is that of the trace: its registers, and every byte that can be obtained from it. -/
structure Exact (t : Trace) (s : State) (clnum : Nat) : Prop where
  registers : ∀ (i : Nat) (inside : i < t.arch.registers.length), ∃ val,
    s.vars.lookup t.arch.registers[i] = some val ∧
      val.value = (t.fetchRegisters clnum)[i].toNat % 2 ^ t.arch.regsize
  memory : ∀ addr, s.memory.read addr = t.fetchRawMemory clnum addr

/-- The next instruction runs on a state that an instruction has left, put right byte by byte. -/
structure CarriedOn (t : Trace) (clnum : Nat) (s : State) : Prop where
  traced : ∀ pcVal, s.vars.lookup t.arch.PC = some pcVal → inLibrary t pcVal = false
  fixable : ∀ addr val, s.memory.dict.lookup addr = some val →
    val ≠ none ∧ t.fetchRawMemory clnum addr ≠ some none

/-- Where a state is carried on, the bytes that the trace changes from the element before to this one have
been read or stored by the BIL run since the state was built. -/
def Covered (t : Trace) (v : Validation) (e : Element) : Prop :=
  ∀ text size bil, e.instr = .bap text size (some bil) →
    ∀ left, executed t v e size bil = some left → CarriedOn t e.clnum left.state →
      ∀ addr, t.fetchRawMemory v.clnum addr ≠ t.fetchRawMemory e.clnum addr →
        (left.state.memory.dict.lookup addr).isSome

section Loop
variable {t : Trace} {order : Order} {v w : Validation} {e : Element} {clnum : Nat}

theorem names_nodup (arch : Arch) (includeFlags : Bool) :
    (arch.registers ++ if includeFlags then arch.cpuFlags else []).Nodup := by
  cases arch <;> cases includeFlags <;> decide

theorem newState_lookup (t : Trace) (clnum : Nat) (includeFlags : Bool) (i : Nat)
    (inside : i < t.arch.registers.length) :
    (newStateForClnum t clnum includeFlags).vars.lookup t.arch.registers[i] =
      some (ConcreteBitVector.ofInt t.arch.regsize ((t.fetchRegisters clnum)[i].toNat : Int)) := by
  let flags := if includeFlags then t.arch.cpuFlags else []
  let varvals := ((t.fetchRegisters clnum).toList.map (fun x => (x.toNat : Int)) ++
    flags.map (fun _ => (0 : Int))).map (ConcreteBitVector.ofInt t.arch.regsize)
  have lengths : (t.arch.registers ++ flags).length = varvals.length := by
    simp only [varvals, List.length_append, List.length_map, Vector.length_toList]
  have keys : ((t.arch.registers ++ flags).zip varvals).map Prod.fst = t.arch.registers ++ flags :=
    List.map_fst_zip lengths.le
  apply lookup_ofPairs
  · change (((t.arch.registers ++ flags).zip varvals).map Prod.fst).Nodup
    rw [keys]
    exact names_nodup t.arch includeFlags
  · refine List.mem_iff_getElem?.mpr ⟨i, ?_⟩
    have name : (t.arch.registers ++ flags)[i]? = some t.arch.registers[i] := by
      rw [List.getElem?_append_left inside, List.getElem?_eq_getElem inside]
    have value : varvals[i]? =
        some (ConcreteBitVector.ofInt t.arch.regsize ((t.fetchRegisters clnum)[i].toNat : Int)) := by
      have listed : i < ((t.fetchRegisters clnum).toList.map (fun x => (x.toNat : Int))).length := by
        rw [List.length_map, Vector.length_toList]
        exact inside
      rw [List.getElem?_map, List.getElem?_append_left listed, List.getElem?_eq_getElem listed, List.getElem_map,
        Vector.getElem_toList]
      rfl
    exact List.getElem?_zip_eq_some.mpr ⟨name, value⟩

theorem newState_exact (t : Trace) (clnum : Nat) (includeFlags : Bool) :
    Exact t (newStateForClnum t clnum includeFlags) clnum where
  registers i inside :=
    ⟨_, newState_lookup t clnum includeFlags i inside, ConcreteBitVector.ofInt_value _ _⟩
  memory addr := Memory.read_of_absent (AList.lookup_empty addr)

/-- What the registers checked so far are, and that nothing else has happened to the state. -/
structure Checked (correct : Dict String ConcreteBitVector) (s s' : State) (done : List String) : Prop where
  memory : s'.memory = s.memory
  registers : ∀ reg ∈ done, ∀ val, correct.lookup reg = some val →
    ∃ held, s'.vars.lookup reg = some held ∧ held.value = val.value

theorem Checked.refl (correct : Dict String ConcreteBitVector) (s : State) : Checked correct s s [] :=
  ⟨rfl, fun _ inside => absurd inside List.not_mem_nil⟩

theorem checkRegister_checked {correct : Dict String ConcreteBitVector} {s : State} {done : List String}
    (checked : Checked correct s v.state done) (item : Sigma fun _ : String => ConcreteBitVector)
    (listed : correct.lookup item.1 = some item.2) (ran : checkRegister e v item = some w) :
    Checked correct s w.state (item.1 :: done) := by
  obtain ⟨val, held, same⟩ := Option.map_eq_some_iff.mp ran
  by_cases wrong : val.value ≠ item.2.value
  · rw [if_pos wrong] at same
    subst same
    refine ⟨checked.memory, fun reg inside correctly found => ?_⟩
    by_cases own : reg = item.1
    · subst own
      obtain rfl := Option.some.inj (listed.symm.trans found)
      exact ⟨item.2, AList.lookup_insert v.state.vars, rfl⟩
    · obtain ⟨old, before, equal⟩ := checked.registers reg ((List.mem_cons.mp inside).resolve_left own) correctly found
      exact ⟨old, (AList.lookup_insert_ne own).trans before, equal⟩
  · rw [if_neg wrong] at same
    subst same
    refine ⟨checked.memory, fun reg inside correctly found => ?_⟩
    rcases List.mem_cons.mp inside with rfl | earlier
    · obtain rfl := Option.some.inj (listed.symm.trans found)
      exact ⟨val, held, not_not.mp wrong⟩
    · exact checked.registers reg earlier correctly found

theorem foldlM_checkRegister {correct : Dict String ConcreteBitVector} {s : State} {done : List String}
    (items : List (Sigma fun _ : String => ConcreteBitVector))
    (listed : ∀ item ∈ items, correct.lookup item.1 = some item.2) (checked : Checked correct s v.state done)
    (ran : items.foldlM (checkRegister e) v = some w) :
    Checked correct s w.state (items.reverse.map Sigma.fst ++ done) := by
  induction items generalizing v done with
  | nil =>
    obtain rfl := Option.some.inj ran
    exact checked
  | cons item rest ih =>
    obtain ⟨mid, first, later⟩ := Option.bind_eq_some_iff.mp ran
    have next := ih (fun other inRest => listed other (List.mem_cons_of_mem item inRest))
      (checkRegister_checked checked item (listed item List.mem_cons_self) first) later
    rwa [List.reverse_cons, List.map_append, List.append_assoc]

/-- An address has what the trace has. -/
def Right (t : Trace) (clnum : Nat) (m : Memory) (addr : Nat) : Prop :=
  ∃ real, t.fetchRawMemory clnum addr = some real ∧ m.dict.lookup addr = some real

theorem right_setItem (m : Memory) {addr : Nat} {real : Option Byte}
    (fetched : t.fetchRawMemory clnum addr = some real) : Right t clnum (m.setItem addr real) addr :=
  ⟨real, fetched, AList.lookup_insert m.dict⟩

theorem Right.setItem {m : Memory} {a : Nat} (right : Right t clnum m a) {addr : Nat} {real : Option Byte}
    (fetched : t.fetchRawMemory clnum addr = some real) : Right t clnum (m.setItem addr real) a := by
  by_cases same : a = addr
  · subst same
    exact right_setItem m fetched
  · obtain ⟨old, fetchedOld, held⟩ := right
    exact ⟨old, fetchedOld, (AList.lookup_insert_ne same).trans held⟩

/-- A state put right at some of the addresses it has, and the same otherwise. -/
structure Patched (t : Trace) (clnum : Nat) (s s' : State) (done : List Nat) : Prop where
  vars : s'.vars = s.vars
  fetchMem : s'.memory.fetchMem = s.memory.fetchMem
  cached : ∀ addr, s'.memory.dict.lookup addr = s.memory.dict.lookup addr ∨
    ((s.memory.dict.lookup addr).isSome ∧ Right t clnum s'.memory addr)
  right : ∀ addr ∈ done, Right t clnum s'.memory addr

theorem Patched.refl (s : State) : Patched t clnum s s [] := ⟨rfl, rfl, fun _ => .inl rfl, nofun⟩

/-- A byte is available to both the state and the trace. -/
def Available (t : Trace) (clnum : Nat) (item : Sigma fun _ : Nat => Option Byte) : Prop :=
  item.2 ≠ none ∧ t.fetchRawMemory clnum item.1 ≠ some none

/-- An available byte is compared, and put right where it differs. -/
theorem checkByte_available (item : Sigma fun _ : Nat => Option Byte) (available : Available t e.clnum item)
    (ran : checkByte t e v item = some w) :
    ∃ val real, item.2 = some val ∧ t.fetchRawMemory e.clnum item.1 = some (some real) ∧
      (w.state = { v.state with memory := v.state.memory.setItem item.1 (some real) } ∨
        val = real ∧ w = v) := by
  obtain ⟨addr, held⟩ := item
  obtain ⟨realval, fetched, same⟩ := Option.map_eq_some_iff.mp ran
  obtain ⟨val, rfl⟩ := Option.ne_none_iff_exists'.mp available.1
  obtain ⟨real, rfl⟩ := Option.ne_none_iff_exists'.mp (fun none => available.2 (fetched.trans (none ▸ rfl)))
  refine ⟨val, real, rfl, fetched, ?_⟩
  by_cases wrong : val ≠ real
  · obtain rfl := (if_pos wrong).symm.trans same
    exact .inl rfl
  · obtain rfl := (if_neg wrong).symm.trans same
    exact .inr ⟨not_not.mp wrong, rfl⟩

/-- An unavailable byte resets the state. -/
theorem checkByte_unavailable (item : Sigma fun _ : Nat => Option Byte)
    (unavailable : ¬ Available t e.clnum item) (ran : checkByte t e v item = some w) :
    Exact t w.state e.clnum := by
  obtain ⟨addr, held⟩ := item
  obtain ⟨realval, fetched, same⟩ := Option.map_eq_some_iff.mp ran
  rcases held with _ | val
  · exact same ▸ newState_exact t e.clnum true
  rcases realval with _ | real
  · exact same ▸ newState_exact t e.clnum true
  exact absurd ⟨Option.some_ne_none val, fun none => by cases fetched.symm.trans none⟩ unavailable

theorem checkByte_patched {s : State} {done : List Nat} (patched : Patched t e.clnum s v.state done)
    (item : Sigma fun _ : Nat => Option Byte) (listed : s.memory.dict.lookup item.1 = some item.2)
    (available : Available t e.clnum item) (ran : checkByte t e v item = some w) :
    Patched t e.clnum s w.state (item.1 :: done) := by
  obtain ⟨val, real, held, fetched, moved | ⟨rfl, rfl⟩⟩ := checkByte_available item available ran
  · rw [moved]
    refine ⟨patched.vars, patched.fetchMem, fun a => ?_, fun a inside => ?_⟩
    · by_cases own : a = item.1
      · subst own
        exact .inr ⟨Option.isSome_iff_exists.mpr ⟨_, listed⟩, right_setItem v.state.memory fetched⟩
      · rcases patched.cached a with old | ⟨present, right⟩
        · exact .inl ((AList.lookup_insert_ne own).trans old)
        · exact .inr ⟨present, right.setItem fetched⟩
    · rcases List.mem_cons.mp inside with rfl | earlier
      · exact right_setItem v.state.memory fetched
      · exact (patched.right a earlier).setItem fetched
  · refine ⟨patched.vars, patched.fetchMem, patched.cached, fun a inside => ?_⟩
    rcases List.mem_cons.mp inside with rfl | earlier
    · rcases patched.cached item.1 with old | ⟨-, right⟩
      · exact ⟨some val, fetched, old.trans (listed.trans (congrArg some held))⟩
      · exact right
    · exact patched.right a earlier

/-- An exact state stays exact. -/
theorem checkByte_exact (item : Sigma fun _ : Nat => Option Byte) (exact : Exact t v.state e.clnum)
    (ran : checkByte t e v item = some w) : Exact t w.state e.clnum := by
  by_cases available : Available t e.clnum item
  · obtain ⟨val, real, -, fetched, moved | ⟨-, rfl⟩⟩ := checkByte_available item available ran
    · rw [moved]
      refine ⟨exact.registers, fun a => ?_⟩
      by_cases own : a = item.1
      · subst own
        exact (Memory.read_of_lookup (AList.lookup_insert v.state.memory.dict)).trans fetched.symm
      · exact (Memory.read_setItem_ne (some real) own).trans (exact.memory a)
    · exact exact
  · exact checkByte_unavailable item available ran

/-- Where all bytes are available, the state is put right at each of them. -/
theorem foldlM_checkByte {s : State} {done : List Nat} (items : List (Sigma fun _ : Nat => Option Byte))
    (listed : ∀ item ∈ items, s.memory.dict.lookup item.1 = some item.2)
    (available : ∀ item ∈ items, Available t e.clnum item) (patched : Patched t e.clnum s v.state done)
    (ran : items.foldlM (checkByte t e) v = some w) :
    Patched t e.clnum s w.state (items.reverse.map Sigma.fst ++ done) := by
  induction items generalizing v done with
  | nil =>
    obtain rfl := Option.some.inj ran
    exact patched
  | cons item rest ih =>
    obtain ⟨mid, first, later⟩ := Option.bind_eq_some_iff.mp ran
    have next := ih (fun other inRest => listed other (List.mem_cons_of_mem item inRest))
      (fun other inRest => available other (List.mem_cons_of_mem item inRest))
      (checkByte_patched patched item (listed item List.mem_cons_self) (available item List.mem_cons_self) first)
      later
    rwa [List.reverse_cons, List.map_append, List.append_assoc]

/-- Where one is not, the state ends as a new one put right. -/
theorem foldlM_checkByte_unavailable (items : List (Sigma fun _ : Nat => Option Byte))
    (unavailable : ∃ item ∈ items, ¬ Available t e.clnum item)
    (ran : items.foldlM (checkByte t e) v = some w) : Exact t w.state e.clnum := by
  induction items generalizing v with
  | nil =>
    obtain ⟨item, inside, -⟩ := unavailable
    exact absurd inside List.not_mem_nil
  | cons item rest ih =>
    obtain ⟨mid, first, later⟩ := Option.bind_eq_some_iff.mp ran
    by_cases here : Available t e.clnum item
    · obtain ⟨other, inside, missing⟩ := unavailable
      rcases List.mem_cons.mp inside with rfl | inRest
      · exact absurd here missing
      · exact ih ⟨other, inRest, missing⟩ later
    · exact run_invariant (fun v => Exact t v.state e.clnum)
        (fun v item w exact checked => checkByte_exact item exact checked)
        (checkByte_unavailable item here first) later

/-- Up to the test for libraries, memory keeps its source and its bytes. -/
theorem executed_memory {size : Nat} {bil : Behaviour} (ran : executed t v e size bil = some w) :
    v.state.memory.Extends w.state.memory := by
  have moved : ∀ {s s' : State} {change : ConcreteBitVector → ConcreteBitVector},
      movePC t.arch change s = some s' → s'.memory = s.memory := by
    intro s s' change done
    obtain ⟨_, -, rfl⟩ := Option.map_eq_some_iff.mp done
    rfl
  obtain ⟨before, prepared, ran⟩ := Option.bind_eq_some_iff.mp ran
  obtain ⟨reported, -, ran⟩ := Option.bind_eq_some_iff.mp ran
  obtain ⟨after, advanced, rfl⟩ := Option.map_eq_some_iff.mp ran
  have start : before.memory = v.state.memory := by
    unfold prepare at prepared
    split at prepared
    next => exact moved prepared
    next => exact Option.some.inj prepared ▸ rfl
  have finish : after.memory = (Executor.visit bil ⟨before, false⟩).1.state.memory := by
    unfold advance at advanced
    split at advanced
    next => exact Option.some.inj advanced ▸ rfl
    next =>
      split at advanced
      next => exact moved advanced
      next => exact moved advanced
  change v.state.memory.Extends after.memory
  rw [finish, ← start]
  exact Executor.visit_memory bil ⟨before, false⟩

/-- Put right at every byte it has, memory is that of the trace exactly if no other byte has changed since
the changelist it was exact at. -/
theorem Patched.read_iff {before : Memory} {left s : State} {done : List Nat} {earlier : Nat}
    (exact : ∀ addr, before.read addr = t.fetchRawMemory earlier addr) (extended : before.Extends left.memory)
    (patched : Patched t clnum left s done)
    (whole : ∀ addr, (left.memory.dict.lookup addr).isSome → addr ∈ done) :
    (∀ addr, s.memory.read addr = t.fetchRawMemory clnum addr) ↔
      ∀ addr, t.fetchRawMemory earlier addr ≠ t.fetchRawMemory clnum addr →
        (left.memory.dict.lookup addr).isSome := by
  have there : ∀ addr, (left.memory.dict.lookup addr).isSome →
      s.memory.read addr = t.fetchRawMemory clnum addr := by
    intro addr present
    obtain ⟨real, fetched, held⟩ := patched.right addr (whole addr present)
    exact (Memory.read_of_lookup held).trans fetched.symm
  have elsewhere : ∀ addr, left.memory.dict.lookup addr = none →
      s.memory.read addr = t.fetchRawMemory earlier addr := by
    intro addr absent
    have still : s.memory.dict.lookup addr = none := by
      rcases patched.cached addr with same | ⟨present, -⟩
      · exact same.trans absent
      · rw [absent] at present
        cases present
    calc s.memory.read addr = s.memory.fetchMem addr := Memory.read_of_absent still
      _ = before.fetchMem addr := by rw [patched.fetchMem, extended.fetchMem]
      _ = before.read addr := (Memory.read_of_absent (extended.kept addr absent)).symm
      _ = t.fetchRawMemory earlier addr := exact addr
  constructor
  · intro right addr changed
    by_contra absent
    have absent' := Option.not_isSome_iff_eq_none.mp absent
    exact changed ((elsewhere addr absent').symm.trans (right addr))
  · intro covered addr
    by_cases present : (left.memory.dict.lookup addr).isSome
    · exact there addr present
    · rw [elsewhere addr (Option.not_isSome_iff_eq_none.mp present)]
      by_contra changed
      exact present (covered addr changed)

/-- After the registers have been checked they are those of the trace. -/
theorem Checked.exact_registers {s s' : State} {done : List String}
    (checked : Checked (newStateForClnum t clnum false).vars s s' done)
    (whole : ∀ reg, ((newStateForClnum t clnum false).vars.lookup reg).isSome → reg ∈ done) (i : Nat)
    (inside : i < t.arch.registers.length) :
    ∃ val, s'.vars.lookup t.arch.registers[i] = some val ∧
      val.value = (t.fetchRegisters clnum)[i].toNat % 2 ^ t.arch.regsize := by
  have correct := newState_lookup t clnum false i inside
  obtain ⟨held, found, same⟩ := checked.registers t.arch.registers[i]
    (whole _ (Option.isSome_iff_exists.mpr ⟨_, correct⟩)) _ correct
  exact ⟨held, found, same.trans (ConcreteBitVector.ofInt_value _ _)⟩

theorem mem_reverse_walk {κ α : Type} [DecidableEq κ] (order : Order) (d : Dict κ α) (k : κ)
    (present : (d.lookup k).isSome) : k ∈ (order.walk d.entries).reverse.map Sigma.fst ++ [] := by
  obtain ⟨val, found⟩ := Option.isSome_iff_exists.mp present
  rw [List.append_nil, List.map_reverse, List.mem_reverse]
  exact List.mem_map.mpr ⟨⟨k, val⟩, (mem_walk order d k val).mpr found, rfl⟩

/-- Where the state is compared with the trace, it is exact afterwards if it was reset, or if no byte
outside it has changed. -/
theorem compared_exact_iff {left : Validation} (extended : v.state.memory.Extends left.state.memory)
    (exact : Exact t v.state v.clnum) {mid : Validation}
    (registers : (order.walk (newStateForClnum t e.clnum false).vars.entries).foldlM (checkRegister e) left =
      some mid)
    (bytes : (order.walk mid.state.memory.dict.entries).foldlM (checkByte t e) mid = some w) :
    Exact t w.state e.clnum ↔
      ((∀ addr val, left.state.memory.dict.lookup addr = some val →
          val ≠ none ∧ t.fetchRawMemory e.clnum addr ≠ some none) →
        ∀ addr, t.fetchRawMemory v.clnum addr ≠ t.fetchRawMemory e.clnum addr →
          (left.state.memory.dict.lookup addr).isSome) := by
  have checked : Checked (newStateForClnum t e.clnum false).vars left.state mid.state _ :=
    foldlM_checkRegister _ (fun item listed => (mem_walk order _ item.1 item.2).mp listed)
      (Checked.refl _ left.state) registers
  have listed : ∀ item ∈ order.walk mid.state.memory.dict.entries,
      mid.state.memory.dict.lookup item.1 = some item.2 :=
    fun item inside => (mem_walk order _ item.1 item.2).mp inside
  rw [← checked.memory] at extended ⊢
  by_cases available : ∀ item ∈ order.walk mid.state.memory.dict.entries, Available t e.clnum item
  · have fixable : ∀ addr val, mid.state.memory.dict.lookup addr = some val →
        val ≠ none ∧ t.fetchRawMemory e.clnum addr ≠ some none :=
      fun addr val held => available ⟨addr, val⟩ ((mem_walk order _ addr val).mpr held)
    have patched := foldlM_checkByte _ listed available (Patched.refl mid.state) bytes
    have read := patched.read_iff exact.memory extended (mem_reverse_walk order _)
    rw [imp_iff_right fixable, ← read]
    constructor
    · exact Exact.memory
    · intro memory
      refine ⟨fun i inside => ?_, memory⟩
      rw [patched.vars]
      exact checked.exact_registers (mem_reverse_walk order _) i inside
  · simp only [not_forall] at available
    obtain ⟨item, inside, missing⟩ := available
    refine iff_of_true (foldlM_checkByte_unavailable _ ⟨item, inside, missing⟩ bytes) (fun fixable => ?_)
    exact absurd (fixable item.1 item.2 (listed item inside)) missing

/-- An element leaves an exact state exact just where the changes of the trace are covered. -/
theorem step_exact_iff (exact : Exact t v.state v.clnum) (taken : step t order v e = some w) :
    Exact t w.state w.clnum ↔ Covered t v e := by
  obtain ⟨clnum, instr⟩ := e
  unfold step at taken
  split at taken
  next text isOther =>
    obtain rfl := Option.some.inj taken
    refine iff_of_true (newState_exact t clnum true) (fun text size bil isBap => ?_)
    cases isOther.symm.trans isBap
  next text size noBil =>
    obtain rfl := Option.some.inj taken
    refine iff_of_true (newState_exact t clnum true) (fun text size bil isBap => ?_)
    cases noBil.symm.trans isBap
  next text size bil hasBil =>
    obtain ⟨left, ran, taken⟩ := Option.bind_eq_some_iff.mp taken
    obtain ⟨pcVal, atPC, taken⟩ := Option.bind_eq_some_iff.mp taken
    have covered : Covered t v ⟨clnum, instr⟩ ↔ (CarriedOn t clnum left.state →
        ∀ addr, t.fetchRawMemory v.clnum addr ≠ t.fetchRawMemory clnum addr →
          (left.state.memory.dict.lookup addr).isSome) := by
      constructor
      · exact fun each => each text size bil hasBil left ran
      · intro holds text' size' bil' hasBil' left' ran'
        obtain ⟨rfl, rfl, sameBil⟩ := Instr.bap.inj (hasBil.symm.trans hasBil')
        obtain rfl := Option.some.inj sameBil
        obtain rfl := Option.some.inj (ran.symm.trans ran')
        exact holds
    rw [covered]
    by_cases library : inLibrary t pcVal = true
    · obtain rfl := Option.some.inj ((if_pos library).symm.trans taken)
      refine iff_of_true (newState_exact t clnum true) (fun carried => ?_)
      cases (carried.traced pcVal atPC).symm.trans library
    · obtain ⟨mid, registers, taken⟩ := Option.bind_eq_some_iff.mp ((if_neg library).symm.trans taken)
      obtain ⟨last, bytes, rfl⟩ := Option.map_eq_some_iff.mp taken
      have compared := compared_exact_iff (executed_memory ran) exact registers bytes
      have carried : CarriedOn t clnum left.state ↔ ∀ addr val,
          left.state.memory.dict.lookup addr = some val →
            val ≠ none ∧ t.fetchRawMemory clnum addr ≠ some none := by
        refine ⟨CarriedOn.fixable, fun fixable => ⟨fun pcVal' atPC' => ?_, fixable⟩⟩
        obtain rfl := Option.some.inj (atPC.symm.trans atPC')
        exact Bool.eq_false_iff.mpr library
      rw [carried]
      exact compared

/-- Throughout a run each instruction starts from the recorded state exactly if, wherever a state is carried
on, it has the bytes that the trace changes. -/
theorem always_exact_iff (t : Trace) (order : Order) (flow : List Element) (v : Validation)
    (ran : run (step t order) (start t) flow = some v) :
    Always (step t order) (fun v => Exact t v.state v.clnum) (start t) flow ↔
      Along (step t order) (Covered t) (start t) flow :=
  always_iff_along (fun _ => True) _ (Covered t) (fun _ _ _ _ _ => trivial)
    (fun _ _ _ _ exact taken => step_exact_iff exact taken) trivial (newState_exact t 0 true) ran

end Loop

/-- A system call that writes a byte: at changelist 1 the one at 0x1000 is no longer 0. -/
def kernelWrite : Trace where
  arch := .i386
  fetchRegisters clnum := #v[0, 0, 0, 0, 0, 0, 0, 0, 0x8048000 + 2 * BitVec.ofNat 64 clnum]
  fetchRawMemory clnum addr := some (some (if addr = 0x1000 ∧ 1 ≤ clnum then 1 else 0))
  libraries := []

/-- It has BIL, which does nothing. -/
def syscall : List Element := [⟨1, .bap "int\t0x80" 2 (some .done)⟩]

def asStored : Order := ⟨fun items => items, fun items => List.Perm.refl items⟩

theorem always_exact_iff_syscall :
    Always (step kernelWrite asStored) (fun v => Exact kernelWrite v.state v.clnum) (start kernelWrite) syscall ↔
      Along (step kernelWrite asStored) (Covered kernelWrite) (start kernelWrite) syscall :=
  always_exact_iff kernelWrite asStored syscall _ rfl

/-- What comes after it runs on the byte from before. -/
theorem syscall_stale :
    ∃ v, run (step kernelWrite asStored) (start kernelWrite) syscall = some v ∧
      v.state.memory.read 0x1000 = some (some 0) ∧ kernelWrite.fetchRawMemory v.clnum 0x1000 = some (some 1) ∧
      ¬ Exact kernelWrite v.state v.clnum := by
  refine ⟨_, rfl, rfl, rfl, fun exact => ?_⟩
  have same : some (some (0 : Byte)) = some (some 1) := exact.memory 0x1000
  exact absurd same (by decide)

end Qira.BilValidator
