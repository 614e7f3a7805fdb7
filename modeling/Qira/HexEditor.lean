import Qira.TraceMemory
import Qira.StaticMemory
import Qira.Library.Numerals

/-!
The hex editor. The middleware fetches a range of bytes at a changelist, from the trace where it knows
them and from the binary elsewhere; the client puts the bytes of each word together again and shows it
as a hexadecimal number.
-/

namespace Qira.HexEditor
open ChangeRecord TraceIndex TraceProcess TraceMemory StaticMemory
open Library.Words Library.Timelines Library.Overwrites Library.Dictionaries Library.Numerals

/-- A byte of `fetch_memory`, of which `m` is what the trace answers. -/
def fetchedByte (base : Dict Range (List Byte)) (m : MemoryWithValid) (ri : Int) : Option Byte :=
  if m &&& MEMORY_VALID ≠ 0 then some (m.setWidth 8) else (memory base ri 1).head?

/-- The loop body of `fetch_memory`; `none` is an `IndexError`. -/
def fetchByte (base : Dict Range (List Byte)) (mem : List MemoryWithValid) (address : Address)
    (dat : Dict Nat Byte) (i : Nat) : Option (Dict Nat Byte) :=
  mem[i]?.map (fun m =>
    match fetchedByte base m (address.toNat + i) with
    | some byte => dat.insert i byte
    | none => dat)

/-- `fetch_memory` of the middleware. -/
def fetchMemory {cfg : Config} (t : Trace cfg) (base : Dict Range (List Byte)) (clnum : Clnum)
    (address : Address) (ln : Int) : Option (Dict Nat Byte) :=
  (List.range ln.toNat).foldlM (fetchByte base (t.fetchMemory clnum address ln) address) ∅

structure MemoryMessage where
  address : Address
  len : Int
  dat : Dict Nat Byte
  isBigEndian : Bool
  ptrsize : Nat

def getmemory {cfg : Config} (t : Trace cfg) (base : Dict Range (List Byte)) (clnum : Clnum)
    (address : Address) (ln : Int) : Option MemoryMessage :=
  (fetchMemory t base clnum address ln).map (fun dat =>
    { address, len := ln, dat, isBigEndian := cfg.isBigEndian, ptrsize := cfg.registerSize })

/-- `hex2`; a byte is missing where it is `undefined`. -/
def hex2 : Option Byte → List Char
  | none => ['_', '_']
  | some a =>
      let ret := Nat.toDigits 16 a.toNat
      if ret.length = 1 then '0' :: ret else ret

def bnCanonicalize (s : List Char) : List Char := '0' :: 'x' :: (s.drop 2).dropWhile (fun c => c = '0')

/-- The digits `on_memory` puts together for the cell at `i`. -/
def MemoryMessage.v (msg : MemoryMessage) (i : Nat) : List Char :=
  let order := if msg.isBigEndian then List.range msg.ptrsize else (List.range msg.ptrsize).reverse
  bnCanonicalize (order.foldl (fun v j => v ++ hex2 (msg.dat.lookup (i + j))) ['0', 'x'])

/-- The number that a string with the prefix `0x` stands for. -/
def readNumber : List Char → Option Nat
  | '0' :: 'x' :: digits => readHex digits
  | _ => none

def Touches (c : Change) (x : Address) : Prop := (c.type = 'L' ∨ c.type = 'S') ∧ c.covers x = true

/-- Of the load and store records up to `clnum` that touch an address, a record between `front` and `back`
has the highest changelist number, and comes last among those with it. -/
structure LastTouch (front : List Change) (r : Change) (back : List Change) (clnum : Clnum) (x : Address) :
    Prop where
  touches : Touches r x
  early : r.clnum ≤ clnum
  before : ∀ c ∈ front, Touches c x → c.clnum ≤ clnum → c.clnum ≤ r.clnum
  behind : ∀ c ∈ back, Touches c x → c.clnum ≤ clnum → c.clnum < r.clnum

theorem hex2_some (b : Byte) : hex2 (some b) = hexByte b := by
  change (if (Nat.toDigits 16 b.toNat).length = 1 then '0' :: Nat.toDigits 16 b.toNat
    else Nat.toDigits 16 b.toNat) = hexByte b
  by_cases oneDigit : b.toNat < 16
  · rw [Nat.toDigits_of_lt_base oneDigit]
    rw [if_pos (List.length_singleton ..), hexByte, Nat.div_eq_of_lt oneDigit, Nat.mod_eq_of_lt oneDigit]
    rfl
  · have large : 16 ≤ b.toNat := not_lt.mp oneDigit
    have high : b.toNat / 16 < 16 := by
      have := b.isLt
      omega
    rw [Nat.toDigits_of_base_le (by decide) large, Nat.toDigits_of_lt_base high]
    rfl

/-- An address within the fewest bytes of both ends of a cell has it as its own. -/
theorem address_of_covers (c : Change) (a : Address) (count : Nat) (positive : 0 < count)
    (width : c.byteCount = count) (first : c.covers a = true)
    (last : c.covers (a + BitVec.ofNat 64 (count - 1)) = true) : c.address = a := by
  have few := c.byteCount_lt
  have near : (a - c.address).toNat < count := width ▸ of_decide_eq_true first
  have near' : (a + BitVec.ofNat 64 (count - 1) - c.address).toNat < count :=
    (of_decide_eq_true last).trans_eq width
  have ends : (a + BitVec.ofNat 64 (count - 1) - c.address).toNat =
      (a - c.address).toNat + (count - 1) := by
    rw [show a + BitVec.ofNat 64 (count - 1) - c.address = (a - c.address) + BitVec.ofNat 64 (count - 1)
      by bv_omega, BitVec.toNat_add, BitVec.toNat_ofNat, Nat.add_mod_mod, Nat.mod_eq_of_lt (by omega)]
  have zero : (a - c.address).toNat = 0 := by omega
  have none : a - c.address = 0 := BitVec.eq_of_toNat_eq zero
  bv_omega

/-- The byte of the last record to touch an address is the one answered. -/
theorem getByte_lastTouch (cfg : Config) (front back : List Change) (r : Change) (clnum : Clnum)
    (x : Address) (last : LastTouch front r back clnum x) :
    (ingestAll cfg (front ++ r :: back)).getByte clnum x =
      MEMORY_VALID ||| (r.laidByte cfg.isBigEndian (r.offset x)).setWidth 16 := by
  have touched : ∀ part : List Change, ∀ write ∈ stamped Change.clnum (accessWrite cfg.isBigEndian) part x,
      ∃ c ∈ part, Touches c x ∧ c.clnum = write.1 := by
    intro part write inside
    obtain ⟨c, member, wrote⟩ := List.mem_filterMap.mp inside
    obtain ⟨byte, written, rfl⟩ := Option.map_eq_some_iff.mp wrote
    exact ⟨c, member, (Option.ite_none_right_eq_some.mp written).1, rfl⟩
  have own : accessWrite cfg.isBigEndian r x = some (r.laidByte cfg.isBigEndian (r.offset x)) :=
    if_pos last.touches
  have writes : stamped Change.clnum (accessWrite cfg.isBigEndian) (front ++ r :: back) x =
      stamped Change.clnum (accessWrite cfg.isBigEndian) front x ++
        (r.clnum, r.laidByte cfg.isBigEndian (r.offset x)) ::
          stamped Change.clnum (accessWrite cfg.isBigEndian) back x := by
    simp only [stamped, List.filterMap_append, List.filterMap_cons, own, Option.map_some]
  rw [getByte_eq, cellOf_ingestAll, writes, asOf_record_last _ _ r.clnum clnum _ last.early]
  · rfl
  · intro write inside early
    obtain ⟨c, member, touches, same⟩ := touched front write inside
    exact same ▸ last.before c member touches (same ▸ early)
  · intro write inside early
    obtain ⟨c, member, touches, same⟩ := touched back write inside
    exact same ▸ last.behind c member touches (same ▸ early)

theorem fetchMemoryLoop_getElem {cfg : Config} (t : Trace cfg) (clnum : Clnum) (i stop : Address) (k : Nat)
    (m : MemoryWithValid) (found : (t.fetchMemoryLoop clnum i stop)[k]? = some m) :
    m = t.getByte clnum (i + BitVec.ofNat 64 k) := by
  induction i using Trace.fetchMemoryLoop.induct stop generalizing k with
  | case1 i below ih =>
    rw [Trace.fetchMemoryLoop, if_pos below] at found
    rcases k with _ | k
    · have here : i + BitVec.ofNat 64 0 = i := BitVec.add_zero i
      rw [here]
      exact (Option.some.inj found).symm
    · rw [ih k found, BitVec.ofNat_add, BitVec.add_assoc, BitVec.add_comm (BitVec.ofNat 64 k)]
      rfl
  | case2 i done =>
    rw [Trace.fetchMemoryLoop, if_neg done] at found
    cases found

/-- The first indices of an answer have what was fetched for them, and there are no others. -/
theorem foldlM_fetchByte {base : Dict Range (List Byte)} {mem : List MemoryWithValid} {address : Address}
    {n : Nat} {dat : Dict Nat Byte} (filled : (List.range n).foldlM (fetchByte base mem address) ∅ = some dat) :
    (∀ k < n, ∃ m, mem[k]? = some m ∧ dat.lookup k = fetchedByte base m (address.toNat + k)) ∧
      ∀ k ≥ n, dat.lookup k = none := by
  induction n generalizing dat with
  | zero =>
    obtain rfl := Option.some.inj filled
    exact ⟨fun k none => absurd none (Nat.not_lt_zero k), fun k _ => AList.lookup_empty k⟩
  | succ n ih =>
    rw [List.range_succ, List.foldlM_append] at filled
    obtain ⟨front, before, last⟩ := Option.bind_eq_some_iff.mp filled
    obtain ⟨next, mapped, same⟩ := Option.bind_eq_some_iff.mp last
    obtain rfl := Option.some.inj same
    obtain ⟨m, found, rfl⟩ := Option.map_eq_some_iff.mp mapped
    obtain ⟨old, fresh⟩ := ih before
    cases byte : fetchedByte base m (address.toNat + n) with
    | none =>
      refine ⟨fun k small => ?_, fun k large => fresh k (Nat.le_of_succ_le large)⟩
      rcases Nat.lt_succ_iff_lt_or_eq.mp small with earlier | rfl
      · exact old k earlier
      · exact ⟨m, found, (fresh k le_rfl).trans byte.symm⟩
    | some b =>
      refine ⟨fun k small => ?_, fun k large => ?_⟩
      · rcases Nat.lt_succ_iff_lt_or_eq.mp small with earlier | rfl
        · obtain ⟨m', found', same⟩ := old k earlier
          exact ⟨m', found', (AList.lookup_insert_ne earlier.ne).trans same⟩
        · exact ⟨m, found, (AList.lookup_insert front).trans byte.symm⟩
      · exact (AList.lookup_insert_ne (by omega)).trans (fresh k (Nat.le_of_succ_le large))

/-- What the answer has for an index. -/
theorem fetchMemory_lookup {cfg : Config} {t : Trace cfg} {base : Dict Range (List Byte)} {clnum : Clnum}
    {address : Address} {ln : Int} {dat : Dict Nat Byte}
    (fetched : fetchMemory t base clnum address ln = some dat) (k : Nat) (inside : (k : Int) < ln) :
    dat.lookup k =
      fetchedByte base (t.getByte clnum (address + BitVec.ofNat 64 k)) (address.toNat + k) := by
  obtain ⟨m, found, same⟩ := (foldlM_fetchByte fetched).1 k (by omega)
  rw [same, fetchMemoryLoop_getElem t clnum address _ k m found]

theorem fetchMemoryLoop_length {cfg : Config} (t : Trace cfg) (clnum : Clnum) (i stop : Address) (n : Nat)
    (distance : stop.toNat = i.toNat + n) : (t.fetchMemoryLoop clnum i stop).length = n := by
  induction n generalizing i with
  | zero =>
    have done : ¬ i < stop := by bv_omega
    rw [Trace.fetchMemoryLoop, if_neg done]
    rfl
  | succ n ih =>
    have below : i < stop := by bv_omega
    rw [Trace.fetchMemoryLoop, if_pos below, List.length_cons, ih (i + 1) (by bv_omega)]

/-- A range that does not reach the last address is answered. -/
theorem getmemory_answered {cfg : Config} (t : Trace cfg) (base : Dict Range (List Byte)) (clnum : Clnum)
    (address : Address) (ln : Int) (room : address.toNat + ln < 2 ^ 64) :
    ∃ msg, getmemory t base clnum address ln = some msg := by
  have long : ∀ i < ln.toNat, i < (t.fetchMemory clnum address ln).length := by
    intro i inside
    have stop : (address + BitVec.ofInt 64 ln).toNat = address.toNat + ln.toNat := by
      have whole : BitVec.ofInt 64 ln = BitVec.ofNat 64 ln.toNat := by
        rw [← BitVec.ofInt_natCast, Int.toNat_of_nonneg (by omega)]
      rw [whole, BitVec.toNat_add, BitVec.toNat_ofNat, Nat.add_mod_mod, Nat.mod_eq_of_lt (by omega)]
    rw [Trace.fetchMemory, fetchMemoryLoop_length t clnum address _ ln.toNat stop]
    exact inside
  have filled : ∀ n ≤ ln.toNat, ∃ dat,
      (List.range n).foldlM (fetchByte base (t.fetchMemory clnum address ln) address) ∅ = some dat := by
    intro n
    induction n with
    | zero => exact fun _ => ⟨∅, rfl⟩
    | succ n ih =>
      intro inside
      obtain ⟨dat, before⟩ := ih (Nat.le_of_succ_le inside)
      rw [List.range_succ, List.foldlM_append, before, Option.bind_eq_bind, Option.bind_some, List.foldlM_cons,
        fetchByte, List.getElem?_eq_getElem (long n inside)]
      exact ⟨_, rfl⟩
  obtain ⟨dat, fetched⟩ := filled ln.toNat le_rfl
  exact ⟨_, Option.map_eq_some_iff.mpr ⟨dat, fetched, rfl⟩⟩

theorem fetchedByte_valid (base : Dict Range (List Byte)) (d : Byte) (ri : Int) :
    fetchedByte base (MEMORY_VALID ||| d.setWidth 16) ri = some d := by
  have valid : ∀ d : Byte, (MEMORY_VALID ||| d.setWidth 16) &&& MEMORY_VALID ≠ 0 := by decide
  have low : ∀ d : Byte, (MEMORY_VALID ||| d.setWidth 16).setWidth 8 = d := by decide
  rw [fetchedByte, if_pos (valid d), low]

theorem readNumber_bnCanonicalize (digits : List Char) :
    readNumber (bnCanonicalize ('0' :: 'x' :: digits)) = readHex digits :=
  readHex_dropWhile_zero digits

theorem v_eq (msg : MemoryMessage) (i : Nat) :
    msg.v i = bnCanonicalize ('0' :: 'x' ::
      (if msg.isBigEndian then List.range msg.ptrsize else (List.range msg.ptrsize).reverse).flatMap
        (fun j => hex2 (msg.dat.lookup (i + j)))) := by
  simp only [MemoryMessage.v, List.foldl_append_eq_append, List.flatMap_def]
  rfl

theorem range_reverse (count : Nat) :
    (List.range count).reverse = (List.range count).map (fun k => count - 1 - k) := by
  rw [List.range_eq_range', List.reverse_range', Nat.zero_add, ← List.range_eq_range']

/-- Bytes laid out in either order are put together to the number they came from. -/
theorem readNumber_v (msg : MemoryMessage) (r : Change) (i : Nat) (width : r.byteCount = msg.ptrsize)
    (small : r.data.toNat < 256 ^ msg.ptrsize)
    (bytes : ∀ j < msg.ptrsize, msg.dat.lookup (i + j) = some (r.laidByte msg.isBigEndian j)) :
    readNumber (msg.v i) = some r.data.toNat := by
  have shown : ∀ j < msg.ptrsize,
      hex2 (msg.dat.lookup (i + j)) = hexByte (r.laidByte msg.isBigEndian j) := by
    intro j inside
    rw [bytes j inside, hex2_some]
  have digits : (if msg.isBigEndian then List.range msg.ptrsize
      else (List.range msg.ptrsize).reverse).flatMap (fun j => hex2 (msg.dat.lookup (i + j))) =
        (List.range msg.ptrsize).flatMap (fun k => hexByte (byteOf r.data (msg.ptrsize - 1 - k))) := by
    cases big : msg.isBigEndian with
    | true =>
      rw [if_pos rfl]
      apply List.flatMap_congr
      intro j inside
      rw [shown j (List.mem_range.mp inside), big, Change.laidByte, if_pos rfl, width]
    | false =>
      rw [if_neg Bool.false_ne_true, range_reverse, List.flatMap_map]
      apply List.flatMap_congr
      intro k inside
      have below := List.mem_range.mp inside
      rw [shown _ (by omega), big, Change.laidByte, if_neg Bool.false_ne_true]
  rw [v_eq, digits, readNumber_bnCanonicalize, readHex_bytes r.data msg.ptrsize small]

/-- The word that a record wrote last is the word shown for its cell. -/
theorem getmemory_v (cfg : Config) (width : cfg.registerSize = 4 ∨ cfg.registerSize = 8)
    (front back : List Change) (r : Change) (t : Trace cfg) (ingested : Ingested cfg (front ++ r :: back) t)
    (base : Dict Range (List Byte)) (clnum : Clnum) (view : Address) (ln : Int) (msg : MemoryMessage)
    (answered : getmemory t base clnum view ln = some msg) (i : Nat) (cell : (i + cfg.registerSize : Int) ≤ ln)
    (size : (r.flags &&& SIZE_MASK).toNat = 8 * cfg.registerSize)
    (small : r.data.toNat < 2 ^ (8 * cfg.registerSize))
    (last : ∀ j < cfg.registerSize, LastTouch front r back clnum (view + BitVec.ofNat 64 (i + j))) :
    readNumber (msg.v i) = some r.data.toNat := by
  obtain ⟨dat, fetched, rfl⟩ := Option.map_eq_some_iff.mp answered
  have count : r.byteCount = cfg.registerSize := by
    rw [Change.byteCount, size, Nat.mul_div_cancel_left _ (by decide)]
  have place : ∀ j, view + BitVec.ofNat 64 (i + j) = view + BitVec.ofNat 64 i + BitVec.ofNat 64 j := by
    intro j
    rw [BitVec.ofNat_add, BitVec.add_assoc]
  have own : r.address = view + BitVec.ofNat 64 i := by
    have atStart := (last 0 (by omega)).touches.2
    have atEnd := (last (cfg.registerSize - 1) (by omega)).touches.2
    rw [place] at atEnd
    exact address_of_covers r _ cfg.registerSize (by omega) count atStart atEnd
  apply readNumber_v _ r i count
  · rwa [Nat.pow_mul] at small
  · intro j inside
    have inWord : j < cfg.registerSize := inside
    have answer := fetchMemory_lookup fetched (i + j) (by push_cast; omega)
    rw [ingested.eq_ingestAll, getByte_lastTouch cfg front back r clnum _ (last j inside), fetchedByte_valid,
      place, ← own, r.offset_add j (by omega)] at answer
    exact answer

/-- A word stored at 0x1004, and overwritten later. -/
theorem getmemory_v_overwritten :
    ∃ t, Ingested ⟨false, 4, 9⟩ ([] ++ ⟨0x1004, 0x11223344, 1, 0xE0000020⟩ :: [⟨0x1004, 7, 2, 0xE0000020⟩]) t ∧
      ∃ msg, getmemory t ∅ 1 0x1000 0x200 = some msg ∧ readNumber (msg.v 4) = some 0x11223344 := by
  obtain ⟨t, ingested⟩ := exists_ingested ⟨false, 4, 9⟩
    ([] ++ ⟨0x1004, 0x11223344, 1, 0xE0000020⟩ :: [⟨0x1004, 7, 2, 0xE0000020⟩]) (by decide)
  obtain ⟨msg, answered⟩ := getmemory_answered t ∅ 1 0x1000 0x200 (by decide)
  have covered : ∀ j < 4, (⟨0x1004, 0x11223344, 1, 0xE0000020⟩ : Change).covers
      (0x1000 + BitVec.ofNat 64 (4 + j)) = true := by decide
  refine ⟨t, ingested, msg, answered, getmemory_v ⟨false, 4, 9⟩ (.inl rfl) [] [⟨0x1004, 7, 2, 0xE0000020⟩]
    ⟨0x1004, 0x11223344, 1, 0xE0000020⟩ t ingested ∅ 1 0x1000 0x200 msg answered 4 (by decide) (by decide)
    (by decide) (fun j inside => ⟨⟨.inr rfl, covered j inside⟩, by decide, nofun, ?_⟩)⟩
  intro c inBack _ early
  obtain rfl := List.mem_singleton.mp inBack
  exact absurd early (by decide)

end Qira.HexEditor
