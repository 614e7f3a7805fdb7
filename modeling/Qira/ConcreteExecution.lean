import Qira.Library.Dictionaries
import Qira.Library.Words

/-!
The state of the concrete executor: variables, and memory that is fetched byte by byte when it is first
asked for and kept from then on.
-/

namespace Qira.ConcreteExecution
open Library.Words Library.Dictionaries

/-- A bit vector, whose value is masked when it is made. -/
structure ConcreteBitVector where
  size : Nat
  value : Nat
  masked : value < 2 ^ size
  deriving DecidableEq

namespace ConcreteBitVector

def ofInt (size : Nat) (value : Int) : ConcreteBitVector where
  size := size
  value := (value % 2 ^ size).toNat
  masked := by
    have positive : (0 : Int) < 2 ^ size := Int.pow_pos (by decide)
    have below := Int.emod_lt_of_pos value positive
    have room : ((value % 2 ^ size).toNat : Int) < ((2 ^ size : Nat) : Int) := by
      rw [Int.toNat_of_nonneg (Int.emod_nonneg value positive.ne')]
      exact_mod_cast below
    exact_mod_cast room

/-- `add` and `sub` with a number. -/
def add (x : ConcreteBitVector) (other : Int) : ConcreteBitVector := ofInt x.size (x.value + other)

def sub (x : ConcreteBitVector) (other : Int) : ConcreteBitVector := ofInt x.size (x.value - other)

theorem ofInt_value (size n : Nat) : (ofInt size n).value = n % 2 ^ size := by
  change ((n : Int) % 2 ^ size).toNat = n % 2 ^ size
  exact_mod_cast Int.toNat_natCast (n % 2 ^ size)

end ConcreteBitVector

/-- `fetch_raw_memory` at one changelist and for one byte: a string of that byte, or an empty one; `none`
is an exception. -/
abbrev Fetch := Nat → Option (Option Byte)

structure Memory where
  fetchMem : Fetch
  dict : Dict Nat (Option Byte)

/-- `Memory.__getitem__` -/
def Memory.getItem (m : Memory) (addr : Nat) : Option (Memory × Option Byte) :=
  match m.dict.lookup addr with
  | some val => some (m, val)
  | none => (m.fetchMem addr).map (fun val => ({ m with dict := m.dict.insert addr val }, val))

def Memory.setItem (m : Memory) (addr : Nat) (val : Option Byte) : Memory :=
  { m with dict := m.dict.insert addr val }

/-- What an executor obtains for an address. -/
def Memory.read (m : Memory) (addr : Nat) : Option (Option Byte) := (m.getItem addr).map Prod.snd

structure State where
  vars : Dict String ConcreteBitVector
  memory : Memory

inductive Raised
  | variableException (name : String)
  | memoryException (addr : Nat)
  | other

/-- What running an executor on some BIL does to its state, depending on what it reads there; `jump` is the
assignment to `jumped`. -/
inductive Behaviour
  | done
  | raise (raised : Raised)
  | getVar (name : String) (next : Option ConcreteBitVector → Behaviour)
  | setVar (name : String) (val : ConcreteBitVector) (next : Behaviour)
  | popVar (name : String) (next : Behaviour)
  | getMem (addr : Nat) (next : Option Byte → Behaviour)
  | setMem (addr : Nat) (byte : Byte) (next : Behaviour)
  | jump (next : Behaviour)

structure Executor where
  state : State
  jumped : Bool

def Executor.setVar (e : Executor) (name : String) (val : ConcreteBitVector) : Executor :=
  { e with state := { e.state with vars := e.state.vars.insert name val } }

def Executor.popVar (e : Executor) (name : String) : Executor :=
  { e with state := { e.state with vars := e.state.vars.erase name } }

def Executor.setMemory (e : Executor) (memory : Memory) : Executor :=
  { e with state := { e.state with memory } }

/-- `adt.visit(executor, bil)`, with the exception that ended it. -/
def Executor.visit : Behaviour → Executor → Executor × Option Raised
  | .done, e => (e, none)
  | .raise raised, e => (e, some raised)
  | .getVar name next, e => visit (next (e.state.vars.lookup name)) e
  | .setVar name val next, e => visit next (e.setVar name val)
  | .popVar name next, e => visit next (e.popVar name)
  | .getMem addr next, e =>
      match e.state.memory.getItem addr with
      | none => (e, some .other)
      | some (memory, val) => visit (next val) (e.setMemory memory)
  | .setMem addr byte next, e => visit next (e.setMemory (e.state.memory.setItem addr (some byte)))
  | .jump next, e => visit next { e with jumped := true }

theorem Memory.read_of_lookup {m : Memory} {addr : Nat} {val : Option Byte}
    (cached : m.dict.lookup addr = some val) : m.read addr = some val := by
  rw [Memory.read, Memory.getItem, cached]
  rfl

theorem Memory.read_of_absent {m : Memory} {addr : Nat} (absent : m.dict.lookup addr = none) :
    m.read addr = m.fetchMem addr := by
  rw [Memory.read, Memory.getItem, absent]
  cases m.fetchMem addr <;> rfl

theorem Memory.read_setItem_ne {m : Memory} {addr a : Nat} (val : Option Byte) (other : a ≠ addr) :
    (m.setItem addr val).read a = m.read a := by
  have kept : (m.setItem addr val).dict.lookup a = m.dict.lookup a := AList.lookup_insert_ne other
  cases held : m.dict.lookup a with
  | none => exact (Memory.read_of_absent (kept.trans held)).trans (Memory.read_of_absent held).symm
  | some old => exact (Memory.read_of_lookup (kept.trans held)).trans (Memory.read_of_lookup held).symm

/-- Memory of the same source, which has at least the bytes of the other. -/
structure Memory.Extends (m m' : Memory) : Prop where
  fetchMem : m'.fetchMem = m.fetchMem
  kept : ∀ addr, m'.dict.lookup addr = none → m.dict.lookup addr = none

theorem Memory.Extends.refl (m : Memory) : m.Extends m := ⟨rfl, fun _ => id⟩

theorem Memory.Extends.trans {m m' m'' : Memory} (first : m.Extends m') (second : m'.Extends m'') :
    m.Extends m'' :=
  ⟨second.fetchMem.trans first.fetchMem, fun addr absent => first.kept addr (second.kept addr absent)⟩

theorem Memory.extends_setItem (m : Memory) (addr : Nat) (val : Option Byte) : m.Extends (m.setItem addr val) := by
  refine ⟨rfl, fun a absent => ?_⟩
  by_cases same : a = addr
  · subst same
    cases (AList.lookup_insert m.dict).symm.trans absent
  · exact (AList.lookup_insert_ne same).symm.trans absent

theorem Memory.extends_getItem {m m' : Memory} {addr : Nat} {val : Option Byte}
    (got : m.getItem addr = some (m', val)) : m.Extends m' := by
  unfold Memory.getItem at got
  split at got
  next => exact (Prod.mk.inj (Option.some.inj got)).1 ▸ Memory.Extends.refl m
  next =>
    obtain ⟨fetched, -, same⟩ := Option.map_eq_some_iff.mp got
    obtain ⟨rfl, -⟩ := Prod.mk.inj same
    exact m.extends_setItem addr fetched

/-- However a run of BIL ends, memory keeps its source and its bytes. -/
theorem Executor.visit_memory (bil : Behaviour) (e : Executor) :
    e.state.memory.Extends (e.visit bil).1.state.memory := by
  induction bil generalizing e with
  | done => exact Memory.Extends.refl _
  | raise => exact Memory.Extends.refl _
  | getVar name next ih => exact ih _ e
  | setVar name val next ih => exact ih (e.setVar name val)
  | popVar name next ih => exact ih (e.popVar name)
  | getMem addr next ih =>
    unfold Executor.visit
    split
    next => exact Memory.Extends.refl _
    next memory val got => exact (Memory.extends_getItem got).trans (ih val (e.setMemory memory))
  | setMem addr byte next ih =>
    exact (Memory.extends_setItem _ addr (some byte)).trans
      (ih (e.setMemory (e.state.memory.setItem addr (some byte))))
  | jump next ih => exact ih { e with jumped := true }

end Qira.ConcreteExecution
