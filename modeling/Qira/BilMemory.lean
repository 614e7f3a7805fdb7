import Qira.Bil

/-!
Loads and stores of BIL. A store writes one byte after the other; a load joins the bytes that there are, so that a
missing byte shortens the number instead of raising `MemoryException`, unless all are missing.
-/

namespace Qira.BilMemory
open Bil BitVectors ConcreteExecution Library.Words

/-- Both give the same for every address. -/
def SameReads (m m' : Memory) : Prop := ∀ addr, m'.read addr = m.read addr

theorem SameReads.refl (m : Memory) : SameReads m m := fun _ => rfl

theorem SameReads.trans {m m' m'' : Memory} (first : SameReads m m') (second : SameReads m' m'') : SameReads m m'' :=
  fun addr => (second addr).trans (first addr)

theorem read_setItem (m : Memory) (addr a : Nat) (val : Option Byte) :
    (m.setItem addr val).read a = if a = addr then some val else m.read a := by
  by_cases same : a = addr
  · subst same
    rw [if_pos rfl]
    exact Memory.read_of_lookup (AList.lookup_insert _)
  · rw [if_neg same]
    exact Memory.read_setItem_ne val same

/-- Fetching a byte and keeping it changes nothing that is read. -/
theorem sameReads_getItem {m m' : Memory} {addr : Nat} {val : Option Byte} (got : m.getItem addr = some (m', val)) :
    SameReads m m' := by
  have found : m.read addr = some val := congrArg (Option.map Prod.snd) got
  intro a
  unfold Memory.getItem at got
  split at got
  next => rw [(Prod.mk.inj (Option.some.inj got)).1]
  next absent =>
    obtain ⟨fetched, -, same⟩ := Option.map_eq_some_iff.mp got
    obtain ⟨rfl, rfl⟩ := Prod.mk.inj same
    change (m.setItem addr fetched).read a = m.read a
    rw [read_setItem]
    split
    next here => rw [here, found]
    next => rfl

theorem getItem_of_read {e : ConcreteExecutor} {addr : Nat} {val : Option Byte}
    (found : e.state.memory.read addr = some val) :
    ∃ e', getItem addr e = .ok val e' ∧ SameReads e.state.memory e'.state.memory := by
  obtain ⟨⟨m, val'⟩, got, rfl⟩ := Option.map_eq_some_iff.mp found
  have fetched : orRaise (e.state.memory.getItem addr) e = .ok (m, val') e := by
    rw [got]
    rfl
  have current : (get : Visit ConcreteExecutor) e = .ok e e := rfl
  exact ⟨_, (bind_of_ok current).trans (bind_of_ok fetched), sameReads_getItem got⟩

section Fetching
variable {addr : Nat} {vals : Nat → Option Byte}

theorem mapM_getItem (offsets : List Nat) {e : ConcreteExecutor}
    (found : ∀ i ∈ offsets, e.state.memory.read (addr + i) = some (vals i)) :
    ∃ e', offsets.mapM (fun i => getItem (addr + i)) e = .ok (offsets.map vals) e' ∧
      SameReads e.state.memory e'.state.memory := by
  induction offsets generalizing e with
  | nil => exact ⟨e, rfl, SameReads.refl _⟩
  | cons i rest ih =>
    obtain ⟨first, ran, same⟩ := getItem_of_read (found i List.mem_cons_self)
    obtain ⟨last, ranRest, sameRest⟩ := @ih first
      (fun k inside => (same _).trans (found k (List.mem_cons_of_mem _ inside)))
    refine ⟨last, ?_, same.trans sameRest⟩
    rw [List.mapM_cons, bind_of_ok ran, bind_of_ok ranRest]
    rfl

/-- The bytes that there are, most significant first. -/
theorem getMem_of_read {size : Nat} {e : ConcreteExecutor} (endian : Endian)
    (found : ∀ i < size, e.state.memory.read (addr + i) = some (vals i)) :
    ∃ e', getMem addr size endian e = .ok (if endian = .littleEndian
        then ((List.range size).map vals).reduceOption.reverse else ((List.range size).map vals).reduceOption) e' ∧
      SameReads e.state.memory e'.state.memory := by
  obtain ⟨e', ran, same⟩ := mapM_getItem (List.range size) (fun i inside => found i (List.mem_range.mp inside))
  exact ⟨e', bind_of_ok ran, same⟩

end Fetching

/-- Bytes from the lowest address on, with the least significant one first. -/
def ordered (endian : Endian) (bytes : List Byte) : List Byte :=
  if endian = .littleEndian then bytes else bytes.reverse

theorem load_of_read {mem idx : Exp} (endian : Endian) {m : Nat} {e e' : ConcreteExecutor} {addr : ConcreteBitVector}
    {vals : Nat → Option Byte} (ran : run idx e = .ok (.bits addr) e')
    (found : ∀ i < m, e'.state.memory.read (addr.value + i) = some (vals i)) :
    ∃ f, run (.load mem idx endian (8 * m)) e = (if ((List.range m).map vals).reduceOption = [] then
        .error (.raised (.memoryException addr.value)) f
      else if 8 * m ≤ maxsize then
        .ok (.bits (.ofInt (8 * m) (littleEndian (ordered endian ((List.range m).map vals).reduceOption)))) f
      else .error (.raised .other) f) := by
  obtain ⟨f, got, -⟩ := getMem_of_read endian found
  have address : bitsOf (.bits addr) e' = .ok addr e' := rfl
  refine ⟨f, ?_⟩
  simp only [run]
  rw [bind_of_ok ran, bind_of_ok address, Nat.mul_div_cancel_left m (by decide), bind_of_ok got]
  generalize ((List.range m).map vals).reduceOption = bytes
  have joined : littleEndian (if endian = .littleEndian then bytes.reverse else bytes).reverse =
      littleEndian (ordered endian bytes) := by
    cases endian <;> simp [ordered]
  have empty : (if endian = .littleEndian then bytes.reverse else bytes) = [] ↔ bytes = [] := by
    cases endian <;> simp
  rw [joined]
  by_cases none : bytes = []
  · rw [if_pos (empty.mpr none), if_pos none]
    rfl
  · rw [if_neg (mt empty.mp none), if_neg none]
    by_cases small : 8 * m ≤ maxsize
    · rw [if_pos small, make_of_le small]
      rfl
    · rw [if_neg small, make, count_of_gt (not_le.mp small)]
      rfl

/-- The byte at an address; `none` where it is not there. -/
def byteAt (e : ConcreteExecutor) (addr : Nat) : Option Byte := (e.state.memory.read addr).join

theorem read_of_answers {e : ConcreteExecutor} (answers : ∀ addr, (e.state.memory.fetchMem addr).isSome) (addr : Nat) :
    e.state.memory.read addr = some (byteAt e addr) := by
  unfold byteAt
  cases cached : e.state.memory.dict.lookup addr with
  | some val => rw [Memory.read_of_lookup cached, Option.join_some]
  | none =>
    obtain ⟨val, fetched⟩ := Option.isSome_iff_exists.mp (answers addr)
    rw [Memory.read_of_absent cached, fetched, Option.join_some]

/-- A load returns the number of all bytes, or raises since one of them is missing. -/
def AllOrNothing (e : ConcreteExecutor) (addr m : Nat) (endian : Endian)
    (result : EStateM.Result Stop ConcreteExecutor Val) : Prop :=
  (∃ bytes f, (List.range m).map (fun i => byteAt e (addr + i)) = bytes.map some ∧
    result = .ok (.bits (.ofInt (8 * m) (littleEndian (ordered endian bytes)))) f) ∨
  ∃ i f, i < m ∧ byteAt e (addr + i) = none ∧ result = .error (.raised (.memoryException addr)) f

theorem nothing_iff (vals : Nat → Option Byte) (m : Nat) :
    ((List.range m).map vals).reduceOption = [] ↔ ∀ i < m, vals i = none := by
  rw [List.reduceOption_eq_nil_iff]
  simp only [List.eq_replicate_iff, List.length_map, List.length_range, List.mem_map, List.mem_range]
  constructor
  · rintro ⟨n, -, none⟩ i inside
    exact none _ ⟨i, inside, rfl⟩
  · intro none
    refine ⟨m, rfl, ?_⟩
    rintro _ ⟨i, inside, rfl⟩
    exact none i inside

theorem exists_bytes_iff (vals : Nat → Option Byte) (m : Nat) :
    (∃ bytes : List Byte, (List.range m).map vals = bytes.map some) ↔ ∀ i < m, vals i ≠ none := by
  constructor
  · rintro ⟨bytes, all⟩ i inside
    have found : vals i ∈ bytes.map some := all ▸ List.mem_map_of_mem (List.mem_range.mpr inside)
    obtain ⟨byte, -, same⟩ := List.mem_map.mp found
    rw [← same]
    exact Option.some_ne_none byte
  · intro all
    refine ⟨(List.range m).map fun i => (vals i).getD 0, ?_⟩
    rw [List.map_map]
    refine List.map_inj_left.mpr fun i inside => ?_
    obtain ⟨byte, found⟩ := Option.ne_none_iff_exists'.mp (all i (List.mem_range.mp inside))
    rw [Function.comp_apply, found, Option.getD_some]

theorem reduceOption_map_some (bytes : List Byte) : (bytes.map some).reduceOption = bytes := by
  rw [List.reduceOption, List.filterMap_map]
  exact List.filterMap_some

/-- A load is all or nothing exactly if all of its bytes are there and their vector can be made, or none is there. -/
theorem load_all_or_nothing_iff {mem idx : Exp} (endian : Endian) {m : Nat} (positive : 0 < m)
    {e e' : ConcreteExecutor} {addr : ConcreteBitVector} (ran : run idx e = .ok (.bits addr) e')
    (answers : ∀ addr, (e'.state.memory.fetchMem addr).isSome) :
    AllOrNothing e' addr.value m endian (run (.load mem idx endian (8 * m)) e) ↔
      ((∀ i < m, byteAt e' (addr.value + i) ≠ none) ∧ 8 * m ≤ maxsize) ∨
        ∀ i < m, byteAt e' (addr.value + i) = none := by
  obtain ⟨f, result⟩ := @load_of_read mem idx endian m e e' addr _ ran fun i _ => read_of_answers answers _
  have empty := nothing_iff (fun i => byteAt e' (addr.value + i)) m
  rw [result, AllOrNothing]
  by_cases nothing : ∀ i < m, byteAt e' (addr.value + i) = none
  · rw [if_pos (empty.mpr nothing)]
    exact iff_of_true (.inr ⟨0, f, positive, nothing 0 positive, rfl⟩) (.inr nothing)
  rw [if_neg (mt empty.mp nothing), or_iff_left nothing]
  by_cases small : 8 * m ≤ maxsize
  · rw [if_pos small, and_iff_left small, ← exists_bytes_iff]
    constructor
    · rintro (⟨bytes, f', all, -⟩ | ⟨i, f', -, -, raised⟩)
      · exact ⟨bytes, all⟩
      · cases raised
    · rintro ⟨bytes, all⟩
      refine .inl ⟨bytes, f, all, ?_⟩
      rw [all, reduceOption_map_some]
  · rw [if_neg small]
    refine iff_of_false ?_ fun both => small both.2
    rintro (⟨bytes, f', -, same⟩ | ⟨i, f', -, -, same⟩)
    · cases same
    · cases same

/-- A byte of two is missing, and the load returns the other one. -/
def half : ConcreteExecutor := ⟨⟨∅, ⟨fun addr => some (if addr = 0 then some 0x41 else none), ∅⟩⟩, "EIP", false⟩

theorem load_all_or_nothing_iff_half :
    AllOrNothing half 0 2 .littleEndian (run (.load .unknown (.int 0 32) .littleEndian (8 * 2)) half) ↔
      ((∀ i < 2, byteAt half (0 + i) ≠ none) ∧ 8 * 2 ≤ maxsize) ∨ ∀ i < 2, byteAt half (0 + i) = none :=
  load_all_or_nothing_iff .littleEndian (by decide) (run_int 0 (by decide) half) fun _ => rfl

theorem load_half : ¬ AllOrNothing half 0 2 .littleEndian (run (.load .unknown (.int 0 32) .littleEndian 16) half) := by
  rintro (⟨bytes, f, all, -⟩ | ⟨i, f, -, -, raised⟩)
  · exact (exists_bytes_iff _ 2).mp ⟨bytes, all⟩ 1 (by decide) rfl
  · cases raised

section Storing

/-- Byte `k` of the vector `x`. -/
def byteOfVector (x : ConcreteBitVector) (k : Nat) : Byte := byteOf (BitVec.ofNat x.size x.value) k

theorem byteOfVector_toNat (x : ConcreteBitVector) (k : Nat) : (byteOfVector x k).toNat = x.value / 256 ^ k % 256 := by
  rw [byteOfVector, byteOf_toNat, BitVec.toNat_ofNat, Nat.mod_eq_of_lt x.masked]

/-- `(val >> shift*8) & 0xff`. -/
theorem byteval_eq (x : ConcreteBitVector) (shift : Nat) :
    BitVec.ofNat 8 (band (.ofInt x.size (x.value / 2 ^ (shift * 8) : Nat)) (.number 0xff)).value =
      byteOfVector x shift := by
  have kept : (band (.ofInt x.size (x.value / 2 ^ (shift * 8) : Nat)) (.number 0xff)).value =
      x.value / 2 ^ (shift * 8) % 256 :=
    (band_ones _ 8).trans (congrArg (· % 256) (ofInt_shifted x (shift * 8)))
  have power : 2 ^ (shift * 8) = 256 ^ shift := by rw [Nat.mul_comm, Nat.pow_mul]
  apply BitVec.eq_of_toNat_eq
  rw [BitVec.toNat_ofNat, kept, Nat.mod_mod, byteOfVector_toNat, power]

def withMemory (e : ConcreteExecutor) (memory : Memory) : ConcreteExecutor :=
  { e with state := { e.state with memory } }

theorem setByte_of_le {addr x : ConcreteBitVector} {i shift : Nat} (small : shift * 8 ≤ maxsize)
    (e : ConcreteExecutor) : setByte (.bits addr) (.bits x) i shift e =
      .ok () (withMemory e (e.state.memory.setItem (addr.value + i) (some (byteOfVector x shift)))) := by
  have address : bitsOf (.bits addr) e = .ok addr e := rfl
  have value : bitsOf (.bits x) e = .ok x e := rfl
  have shifted : orRaise (BitVectors.rshift x (.number (shift * 8 : Int))) e =
      .ok (.ofInt x.size (x.value / 2 ^ (shift * 8) : Nat)) e := by
    rw [rshift_of_le x (show (Operand.number (shift * 8 : Int)).value = (shift * 8 : Nat) by push_cast; rfl) small]
    rfl
  have current : (get : Visit ConcreteExecutor) e = .ok e e := rfl
  rw [setByte, bind_of_ok address, bind_of_ok value, bind_of_ok shifted, bind_of_ok current, byteval_eq]
  rfl

/-- The bytes of a store: byte `i` of memory is this one of the vector. -/
def shiftAt (endian : Endian) (size i : Nat) : Nat := if endian = .littleEndian then i else size - i - 1

/-- The first `n` rounds of the loop of `set_mem`. -/
theorem setMem_rounds (addr x : ConcreteBitVector) (endian : Endian) {m : Nat} (small : 8 * m ≤ maxsize) (n : Nat)
    (rounds : n ≤ m) (e : ConcreteExecutor) :
    ∃ e', (List.range n).forM (fun i => setByte (.bits addr) (.bits x) i (shiftAt endian m i)) e = .ok () e' ∧
      ∀ a, e'.state.memory.read a = if addr.value ≤ a ∧ a < addr.value + n
        then some (some (byteOfVector x (shiftAt endian m (a - addr.value)))) else e.state.memory.read a := by
  induction n with
  | zero => exact ⟨e, rfl, fun a => (if_neg (by omega)).symm⟩
  | succ n ih =>
    obtain ⟨e', ran, reads⟩ := ih (by omega)
    have last : shiftAt endian m n * 8 ≤ maxsize := by
      unfold shiftAt
      split <;> omega
    let stored := e'.state.memory.setItem (addr.value + n) (some (byteOfVector x (shiftAt endian m n)))
    have step : [n].forM (fun i => setByte (.bits addr) (.bits x) i (shiftAt endian m i)) e' =
        .ok () (withMemory e' stored) :=
      bind_of_ok (setByte_of_le last e')
    refine ⟨withMemory e' stored, ?_, fun a => (read_setItem _ (addr.value + n) a _).trans ?_⟩
    · rw [List.range_succ]
      exact (congrFun List.forM_append e).trans ((bind_of_ok ran).trans step)
    · rw [reads]
      by_cases here : a = addr.value + n
      · rw [if_pos here, if_pos (by omega), here, Nat.add_sub_cancel_left]
      · by_cases inside : addr.value ≤ a ∧ a < addr.value + n
        · rw [if_neg here, if_pos inside, if_pos (by omega)]
        · rw [if_neg here, if_neg inside, if_neg (by omega)]

theorem store_of_le {mem idx value : Exp} (endian : Endian) {m : Nat} (small : 8 * m ≤ maxsize)
    {e e1 e2 : ConcreteExecutor} {addr x : ConcreteBitVector} (runIdx : run idx e = .ok (.bits addr) e1)
    (runValue : run value e1 = .ok (.bits x) e2) :
    ∃ e3, run (.store mem idx value endian (8 * m)) e = .ok (.mem mem) e3 ∧
      ∀ a, e3.state.memory.read a = if addr.value ≤ a ∧ a < addr.value + m
        then some (some (byteOfVector x (shiftAt endian m (a - addr.value)))) else e2.state.memory.read a := by
  obtain ⟨e3, ran, reads⟩ := setMem_rounds addr x endian small m le_rfl e2
  refine ⟨e3, ?_, reads⟩
  simp only [run]
  rw [bind_of_ok runIdx, bind_of_ok runValue, Nat.mul_div_cancel_left m (by decide)]
  exact bind_of_ok ran

/-- The number whose `m` bytes are those of `n` in the other order. -/
def byteReversal (m n : Nat) : Nat := Nat.ofDigits 256 ((List.range m).map (fun i => n / 256 ^ i % 256)).reverse

def opposite : Endian → Endian
  | .littleEndian => .bigEndian
  | .bigEndian => .littleEndian

theorem ordered_stored (x : ConcreteBitVector) (endian : Endian) (m : Nat) :
    ordered endian ((List.range m).map (fun i => byteOfVector x (shiftAt endian m i))) =
      (List.range m).map (byteOfVector x) := by
  cases endian with
  | littleEndian => rfl
  | bigEndian =>
    refine List.ext_getElem (by simp [ordered]) fun i _ inside => ?_
    have small : i < m := by simpa using inside
    simp only [ordered, shiftAt, reduceCtorEq, if_false, List.getElem_reverse, List.getElem_map, List.getElem_range,
      List.length_map, List.length_range]
    rw [show m - (m - 1 - i) - 1 = i by omega]

theorem ordered_opposite (endian : Endian) (bytes : List Byte) :
    ordered (opposite endian) bytes = (ordered endian bytes).reverse := by
  cases endian with
  | littleEndian => rfl
  | bigEndian => exact (List.reverse_reverse bytes).symm

theorem ofInt_bytes (x : ConcreteBitVector) (m : Nat) :
    ConcreteBitVector.ofInt (8 * m) (littleEndian ((List.range m).map (byteOfVector x))) = .ofInt (8 * m) x.value := by
  have value : (BitVec.ofNat x.size x.value).toNat = x.value := by rw [BitVec.toNat_ofNat, Nat.mod_eq_of_lt x.masked]
  have bytes := littleEndian_bytes_mod (BitVec.ofNat x.size x.value) m
  rw [value] at bytes
  rw [ofInt_eq_iff, Int.natCast_modEq_iff, Nat.pow_mul]
  exact (congrArg (· % (2 ^ 8) ^ m) bytes).trans (Nat.mod_mod _ _)

theorem littleEndian_reverse (x : ConcreteBitVector) (m : Nat) :
    littleEndian ((List.range m).map (byteOfVector x)).reverse = byteReversal m x.value := by
  rw [littleEndian, byteReversal, List.map_reverse, List.map_map]
  congr 2
  exact List.map_inj_left.mpr fun k _ => byteOfVector_toNat x k

/-- A load of the bytes of `x` in either order. -/
theorem load_stored {mem idx : Exp} (endian endian' : Endian) {m : Nat} (positive : 0 < m) (small : 8 * m ≤ maxsize)
    {e e' : ConcreteExecutor} {addr x : ConcreteBitVector} (ran : run idx e = .ok (.bits addr) e')
    (reads : ∀ i < m, e'.state.memory.read (addr.value + i) = some (some (byteOfVector x (shiftAt endian m i)))) :
    ∃ f, run (.load mem idx endian' (8 * m)) e = .ok (.bits (.ofInt (8 * m) (littleEndian (ordered endian'
      ((List.range m).map (fun i => byteOfVector x (shiftAt endian m i))))))) f := by
  have bytes : ((List.range m).map (fun i => some (byteOfVector x (shiftAt endian m i)))).reduceOption =
      (List.range m).map (fun i => byteOfVector x (shiftAt endian m i)) := by
    rw [← reduceOption_map_some ((List.range m).map _), List.map_map]
    rfl
  have some : (List.range m).map (fun i => byteOfVector x (shiftAt endian m i)) ≠ [] := by
    rw [Ne, List.map_eq_nil_iff, List.range_eq_nil]
    exact positive.ne'
  obtain ⟨f, result⟩ := @load_of_read mem idx endian' m e e' addr _ ran reads
  rw [bytes, if_neg some, if_pos small] at result
  exact ⟨f, result⟩

/-- A stored vector is loaded again, with its bytes in the other order where the load is of the other order. -/
theorem store_then_load {mem idx value : Exp} (endian : Endian) {m : Nat} (positive : 0 < m) (small : 8 * m ≤ maxsize)
    {e e1 e2 : ConcreteExecutor} {addr x : ConcreteBitVector} (runIdx : run idx e = .ok (.bits addr) e1)
    (runValue : run value e1 = .ok (.bits x) e2) :
    ∃ e3, run (.store mem idx value endian (8 * m)) e = .ok (.mem mem) e3 ∧
      (∀ mem' idx' addr' e4, run idx' e3 = .ok (.bits addr') e4 → addr'.value = addr.value →
        SameReads e3.state.memory e4.state.memory →
        (∃ f, run (.load mem' idx' endian (8 * m)) e3 = .ok (.bits (.ofInt (8 * m) x.value)) f) ∧
        ∃ f, run (.load mem' idx' (opposite endian) (8 * m)) e3 =
          .ok (.bits (.ofInt (8 * m) (byteReversal m x.value))) f) ∧
      ∀ a, ¬ (addr.value ≤ a ∧ a < addr.value + m) → e3.state.memory.read a = e2.state.memory.read a := by
  obtain ⟨e3, stored, reads⟩ := store_of_le endian small runIdx runValue
  refine ⟨e3, stored, fun mem' idx' addr' e4 runIdx' same kept => ?_, fun a outside => (reads a).trans (if_neg outside)⟩
  have inside : ∀ i < m, e4.state.memory.read (addr'.value + i) =
      some (some (byteOfVector x (shiftAt endian m i))) := by
    intro i small
    rw [kept, same, reads, if_pos (by omega), Nat.add_sub_cancel_left]
  have loaded := fun endian' => @load_stored mem' idx' endian endian' m positive small e3 e4 addr' x runIdx' inside
  have straight := loaded endian
  have reversed := loaded (opposite endian)
  rw [ordered_stored, ofInt_bytes] at straight
  rw [ordered_opposite, ordered_stored, littleEndian_reverse] at reversed
  exact ⟨straight, reversed⟩

theorem store_then_load_started :
    ∃ e3, run (.store .unknown (.int 16 32) (.int 0x1234 16) .bigEndian (8 * 2)) started = .ok (.mem .unknown) e3 ∧
      (∀ mem' idx' addr' e4, run idx' e3 = .ok (.bits addr') e4 → addr'.value = 16 →
        SameReads e3.state.memory e4.state.memory →
        (∃ f, run (.load mem' idx' .bigEndian (8 * 2)) e3 = .ok (.bits (.ofInt (8 * 2) 0x1234)) f) ∧
        ∃ f, run (.load mem' idx' .littleEndian (8 * 2)) e3 = .ok (.bits (.ofInt (8 * 2) (byteReversal 2 0x1234))) f) ∧
      ∀ a, ¬ (16 ≤ a ∧ a < 16 + 2) → e3.state.memory.read a = started.state.memory.read a :=
  store_then_load .bigEndian (by decide) (by decide) (run_int 16 (by decide) started)
    (run_int 0x1234 (by decide) started)

end Storing

end Qira.BilMemory
