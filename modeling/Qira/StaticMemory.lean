import Qira.Library.Dictionaries
import Qira.Library.Gaps
import Qira.Library.Machines
import Qira.Library.Words

/-!
The bytes of the binary and of what it maps, as `Static` keeps them: chunks in a dictionary keyed by
their range, added by three loaders that know nothing of each other, and read by walking the
dictionary for the first range that has the address.
-/

namespace Qira.StaticMemory
open Library.Words Library.Dictionaries Library.Gaps Library.Machines

abbrev Range := Int × Int

/-- `base_memory` and the global tag `segments`. -/
structure Memory where
  base : Dict Range (List Byte)
  segments : List (Int × Nat)

def Memory.empty : Memory := ⟨∅, []⟩

def inRange (ri : Int) (r : Range) : Bool := r.1 ≤ ri ∧ ri < r.2

/-- `Static.memory`. An address in no range adds nothing; a chunk shorter than its range ends the
read. -/
def memory (base : Dict Range (List Byte)) (address : Int) : Nat → List Byte
  | 0 => []
  | ln + 1 =>
      match base.keys.find? (inRange address) with
      | none => memory base (address + 1) ln
      | some r =>
          match (base.lookup r).bind (fun dat => dat[(address - r.1).toNat]?) with
          | some byte => byte :: memory base (address + 1) ln
          | none => []

def Memory.addMemoryChunk (m : Memory) (address : Int) (dat : List Byte) : Memory :=
  if ∃ r ∈ m.base.keys, address = r.1 then m
  else
    { base := m.base.insert (address, address + dat.length) dat
      segments := m.segments ++ [(address, dat.length)] }

structure Chunk where
  address : Int
  dat : List Byte

def Memory.step (m : Memory) (c : Chunk) : Option Memory := some (m.addMemoryChunk c.address c.dat)

def Apart (r r' : Range) : Prop := ∀ ri, ¬ (inRange ri r = true ∧ inRange ri r' = true)

/-- The registered ranges are pairwise disjoint, and a byte read does not depend on the order in which
the dictionary is walked. -/
structure Unambiguous (m : Memory) : Prop where
  disjoint : m.base.keys.Pairwise Apart
  determined : ∀ other : Dict Range (List Byte), other.entries.Perm m.base.entries →
    ∀ address, memory other address 1 = memory m.base address 1

/-- A new chunk shares no address with the registered ranges, unless one begins at its very start. -/
def AddsApart (m : Memory) (c : Chunk) : Prop :=
  (∃ r ∈ m.base.keys, c.address = r.1) ∨
    ∀ r ∈ m.base.keys, Apart r (c.address, c.address + c.dat.length)

/-- Disjoint ranges are read alike in every order. -/
theorem memory_perm (base other : Dict Range (List Byte)) (same : other.entries.Perm base.entries)
    (disjoint : base.keys.Pairwise Apart) (address : Int) (ln : Nat) :
    memory other address ln = memory base address ln := by
  induction ln generalizing address with
  | zero => rfl
  | succ ln ih =>
    have found : other.keys.find? (inRange address) = base.keys.find? (inRange address) :=
      (find?_perm _ _ _ (same.symm.map Sigma.fst)
        (disjoint.imp (fun apart => apart address))).symm
    have values : ∀ r, other.lookup r = base.lookup r := fun r => AList.perm_lookup same
    rw [memory, memory, found, ih]
    simp only [values]

theorem unambiguous_iff (m : Memory) : Unambiguous m ↔ m.base.keys.Pairwise Apart :=
  ⟨Unambiguous.disjoint, fun disjoint =>
    ⟨disjoint, fun other same address => memory_perm _ other same disjoint address 1⟩⟩

theorem Apart.symm {r r' : Range} (apart : Apart r r') : Apart r' r :=
  fun ri both => apart ri both.symm

theorem step_unambiguous_iff {m t : Memory} {c : Chunk} (good : Unambiguous m)
    (taken : m.step c = some t) : Unambiguous t ↔ AddsApart m c := by
  obtain rfl := Option.some.inj taken
  rw [unambiguous_iff] at good ⊢
  unfold Memory.addMemoryChunk
  by_cases known : ∃ r ∈ m.base.keys, c.address = r.1
  · rw [if_pos known]
    exact iff_of_true good (Or.inl known)
  · rw [if_neg known]
    have fresh : (c.address, c.address + (c.dat.length : Int)) ∉ m.base.keys :=
      fun member => known ⟨_, member, rfl⟩
    have keys : (m.base.insert (c.address, c.address + (c.dat.length : Int)) c.dat).keys =
        (c.address, c.address + (c.dat.length : Int)) :: m.base.keys := by
      rw [AList.keys, AList.entries_insert_of_notMem (fun member => fresh (AList.mem_keys.mp member))]
      rfl
    change (m.base.insert _ _).keys.Pairwise Apart ↔ _
    rw [keys, List.pairwise_cons, and_iff_left good, AddsApart, or_iff_right known]
    exact ⟨fun apart r member => (apart r member).symm, fun apart r member => (apart r member).symm⟩

theorem empty_unambiguous : Unambiguous Memory.empty :=
  (unambiguous_iff _).mpr List.Pairwise.nil

/-- The registered memory is unambiguous all along a sequence of chunks exactly if each new chunk lies
apart from those registered. -/
theorem unambiguous_iff_addsApart (chunks : List Chunk) :
    Always Memory.step Unambiguous Memory.empty chunks ↔
      Along Memory.step AddsApart Memory.empty chunks := by
  obtain ⟨t, ran, -⟩ : ∃ t, run Memory.step Memory.empty chunks = some t ∧ True :=
    run_returns (fun _ => True)
      (fun m c _ _ => ⟨m.addMemoryChunk c.address c.dat, rfl, trivial⟩) trivial
  exact always_iff_along (fun _ => True) Unambiguous AddsApart (fun _ _ _ _ _ => trivial)
    (fun _ _ _ _ good taken => step_unambiguous_iff good taken) trivial empty_unambiguous ran

/-- A library mapped whole, then a piece of it mapped again inside the first range. -/
def nestedChunks : List Chunk := [⟨0x1000, [1, 1, 1, 1]⟩, ⟨0x1002, [2]⟩]

theorem nested_ambiguous :
    ∃ m, run Memory.step Memory.empty nestedChunks = some m ∧ ¬ m.base.keys.Pairwise Apart ∧
      memory m.base 0x1002 1 = [2] ∧
      ∃ other : Dict Range (List Byte), other.entries.Perm m.base.entries ∧
        memory other 0x1002 1 = [1] := by
  have nodup : [((0x1000 : Int), (0x1004 : Int)), (0x1002, 0x1003)].Nodup := by decide
  refine ⟨_, rfl, ?_, rfl, ⟨[⟨(0x1000, 0x1004), [1, 1, 1, 1]⟩, ⟨(0x1002, 0x1003), [2]⟩], nodup⟩,
    List.Perm.swap _ _ _, rfl⟩
  intro disjoint
  exact (List.pairwise_cons.mp disjoint).1 (0x1000, 0x1004) List.mem_cons_self 0x1002 (by decide)

/-! What a range that spans several chunks is read as. An address in no chunk adds nothing, and the bytes
behind it move up. -/

section Reads

/-- A registered chunk has the byte at the address. -/
def Registered (base : Dict Range (List Byte)) (address : Int) (byte : Byte) : Prop :=
  ∃ r dat, base.lookup r = some dat ∧ r.1 ≤ address ∧ dat[(address - r.1).toNat]? = some byte

def Mapped (base : Dict Range (List Byte)) (address : Int) : Prop :=
  ∃ r ∈ base.keys, inRange address r = true

/-- As the chunks are registered, each fills its range. -/
def Whole (base : Dict Range (List Byte)) : Prop :=
  ∀ r dat, base.lookup r = some dat → r.2 = r.1 + dat.length

/-- The byte found for an address. -/
def byteAt (base : Dict Range (List Byte)) (address : Int) : Option Byte :=
  (base.keys.find? (inRange address)).bind
    (fun r => (base.lookup r).bind (fun dat => dat[(address - r.1).toNat]?))

/-- What is read for a range has at most its length, and each byte is that of its own address. -/
def ReadsInPlace (base : Dict Range (List Byte)) (address : Int) (ln : Nat) : Prop :=
  (memory base address ln).length ≤ ln ∧
    ∀ (k : Nat) (byte : Byte), (memory base address ln)[k]? = some byte → Registered base (address + k) byte

/-- In the range, no address in a chunk comes after one in no chunk. -/
def HolesLast (base : Dict Range (List Byte)) (address : Int) (ln : Nat) : Prop :=
  ∀ i j : Nat, i < j → j < ln → Mapped base (address + j) → Mapped base (address + i)

variable {base : Dict Range (List Byte)}

theorem inRange_iff (ri : Int) (r : Range) : inRange ri r = true ↔ r.1 ≤ ri ∧ ri < r.2 := decide_eq_true_iff

theorem step_whole {m t : Memory} {c : Chunk} (whole : Whole m.base) (taken : m.step c = some t) :
    Whole t.base := by
  obtain rfl := Option.some.inj taken
  unfold Memory.addMemoryChunk
  split
  · exact whole
  · intro r dat found
    by_cases own : r = (c.address, c.address + (c.dat.length : Int))
    · subst own
      obtain rfl := Option.some.inj ((AList.lookup_insert m.base).symm.trans found)
      rfl
    · exact whole r dat ((AList.lookup_insert_ne own).symm.trans found)

theorem whole_of_run {chunks : List Chunk} {m : Memory}
    (ran : run Memory.step Memory.empty chunks = some m) : Whole m.base :=
  run_invariant (fun m => Whole m.base) (fun _ _ _ whole taken => step_whole whole taken)
    (fun r _ found => absurd found (by rw [Memory.empty, AList.lookup_empty]; nofun)) ran

/-- An address in a chunk has a byte. -/
theorem byteAt_isSome (whole : Whole base) {address : Int} {r : Range}
    (first : base.keys.find? (inRange address) = some r) : (byteAt base address).isSome := by
  obtain ⟨dat, held⟩ := Option.isSome_iff_exists.mp
    (AList.lookup_isSome.mpr (AList.mem_keys.mpr (List.mem_of_find?_eq_some first)))
  have range := (inRange_iff address r).mp (List.find?_some first)
  have filled := whole r dat held
  have inside : (address - r.1).toNat < dat.length := by omega
  rw [byteAt, first, Option.bind_some, held, Option.bind_some, List.getElem?_eq_getElem inside]
  rfl

theorem byteAt_eq_none_iff (whole : Whole base) (address : Int) :
    byteAt base address = none ↔ ¬ Mapped base address := by
  cases first : base.keys.find? (inRange address) with
  | none =>
    refine iff_of_true (by rw [byteAt, first]; rfl) ?_
    rintro ⟨r, member, inside⟩
    exact List.find?_eq_none.mp first r member inside
  | some r =>
    have held := byteAt_isSome whole first
    rw [← Option.not_isSome_iff_eq_none]
    exact iff_of_false (not_not.mpr held)
      (not_not.mpr ⟨r, List.mem_of_find?_eq_some first, List.find?_some first⟩)

/-- With disjoint chunks, the byte found is the one registered. -/
theorem registered_iff (whole : Whole base) (disjoint : base.keys.Pairwise Apart) (address : Int)
    (byte : Byte) : Registered base address byte ↔ byteAt base address = some byte := by
  constructor
  · rintro ⟨r, dat, held, lower, there⟩
    have filled := whole r dat held
    have upper := (List.getElem?_eq_some_iff.mp there).1
    have inside : inRange address r = true := (inRange_iff address r).mpr ⟨lower, by omega⟩
    have member : r ∈ base.keys := AList.mem_keys.mp (AList.lookup_isSome.mp (by rw [held]; rfl))
    cases first : base.keys.find? (inRange address) with
    | none => exact absurd inside (List.find?_eq_none.mp first r member)
    | some r' =>
      have same : r' = r := by
        by_contra different
        have symmetric : Std.Symm Apart := ⟨fun _ _ apart => apart.symm⟩
        exact disjoint.forall (List.mem_of_find?_eq_some first) member different address
          ⟨List.find?_some first, inside⟩
      rw [byteAt, first, same, Option.bind_some, held]
      exact there
  · intro found
    obtain ⟨r, first, more⟩ := Option.bind_eq_some_iff.mp found
    obtain ⟨dat, held, there⟩ := Option.bind_eq_some_iff.mp more
    exact ⟨r, dat, held, ((inRange_iff address r).mp (List.find?_some first)).1, there⟩

/-- A read lists the bytes that are found. -/
theorem memory_eq_found (whole : Whole base) (address : Int) (ln : Nat) :
    memory base address ln = found (fun k => byteAt base (address + k)) ln := by
  induction ln generalizing address with
  | zero => rfl
  | succ ln ih =>
    have onward : (fun k : Nat => byteAt base (address + (k + 1 : Nat))) =
        fun k : Nat => byteAt base (address + 1 + k) := by
      funext k
      congr 1
      push_cast
      ring
    rw [found_succ', onward, ← ih, Nat.cast_zero, add_zero]
    cases first : base.keys.find? (inRange address) with
    | none =>
      have nothing : byteAt base address = none := by rw [byteAt, first]; rfl
      rw [memory, first, nothing]
      rfl
    | some r =>
      obtain ⟨byte, held⟩ := Option.isSome_iff_exists.mp (byteAt_isSome whole first)
      have chunk := held
      rw [byteAt, first, Option.bind_some] at chunk
      rw [memory, first, held]
      simp only [chunk]
      rfl

/-- Over disjoint registered chunks, bytes are read in place exactly if the holes of the range come
last. -/
theorem readsInPlace_iff_holesLast (chunks : List Chunk) (m : Memory)
    (ran : run Memory.step Memory.empty chunks = some m) (disjoint : m.base.keys.Pairwise Apart)
    (address : Int) (ln : Nat) : ReadsInPlace m.base address ln ↔ HolesLast m.base address ln := by
  have whole := whole_of_run ran
  have inPlace := inPlace_found_iff (fun k => byteAt m.base (address + k)) ln
  rw [ReadsInPlace, memory_eq_found whole, and_iff_right (found_length_le _ ln)]
  simp only [registered_iff whole disjoint]
  refine inPlace.trans (forall₄_congr fun i j _ _ => ?_)
  rw [byteAt_eq_none_iff whole, byteAt_eq_none_iff whole, not_imp_not]

/-- Two chunks of one byte, with a hole of one byte between them. -/
def splitChunks : List Chunk := [⟨0, [1]⟩, ⟨2, [3]⟩]

theorem split_apart : [((2 : Int), (3 : Int)), (0, 1)].Pairwise Apart := by
  apply List.Pairwise.cons _ (List.pairwise_singleton Apart (0, 1))
  intro r member ri both
  obtain rfl := List.mem_singleton.mp member
  rw [inRange_iff, inRange_iff] at both
  omega

theorem readsInPlace_iff_holesLast_split : ∃ m, run Memory.step Memory.empty splitChunks = some m ∧
    (ReadsInPlace m.base 0 3 ↔ HolesLast m.base 0 3) :=
  ⟨_, rfl, readsInPlace_iff_holesLast splitChunks _ rfl split_apart 0 3⟩

/-- The byte at 2 is read for the one at 1. -/
theorem split_shifted : ∃ m, run Memory.step Memory.empty splitChunks = some m ∧
    m.base.keys.Pairwise Apart ∧ memory m.base 0 3 = [1, 3] ∧ ¬ ReadsInPlace m.base 0 3 := by
  refine ⟨_, rfl, split_apart, rfl, fun reads => ?_⟩
  have whole := @whole_of_run splitChunks _ rfl
  have registered := (registered_iff whole split_apart _ _).mp (reads.2 1 3 rfl)
  cases registered

end Reads

end Qira.StaticMemory
