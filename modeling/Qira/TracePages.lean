import Qira.TraceMemory

/-!
The page table beside the memory index. A record tags the page of its address and nothing else, while
its bytes may run on into the next page; which pages are reported is decided by the records that begin
in them.
-/

namespace Qira.TracePages
open ChangeRecord TraceIndex TraceProcess TraceMemory
open Library.Words Library.Timelines Library.Overwrites

def pageOf (a : Address) : Address := a &&& PAGE_MASK

/-- `pages_` has an entry for the page, with one of the bits set. -/
def Reports (pages : PageMap) (page : Address) (bits : Byte) : Prop :=
  ∃ found, pages[page]? = some found ∧ found &&& bits ≠ 0

/-- The bits a record tags its page with. -/
def pageBits (c : Change) : Byte :=
  if c.type = 'I' then PAGE_INSTRUCTION
  else if c.type = 'L' then PAGE_READ
  else if c.type = 'S' then PAGE_WRITE else 0

/-- Every address at which some changelist has a byte lies on a page reported as read or written, and
as written if a store covers it. -/
def Reported {cfg : Config} (log : List Change) (t : Trace cfg) : Prop :=
  ∀ a, (∃ clnum, ∃ d : Byte, t.getByte clnum a = MEMORY_VALID ||| d.setWidth 16) →
    Reports t.pages (pageOf a) (PAGE_READ ||| PAGE_WRITE) ∧
      ((∃ c ∈ log, c.type = 'S' ∧ c.covers a = true) → Reports t.pages (pageOf a) PAGE_WRITE)

def lastByte (c : Change) : Address := c.address + BitVec.ofNat 64 (c.byteCount - 1)

/-- An access that runs into a second page has another begin in that page, a store if it is one. -/
def CrossingsReported (log : List Change) : Prop :=
  ∀ c ∈ log, c.type = 'L' ∨ c.type = 'S' → pageOf (lastByte c) ≠ pageOf c.address →
    ∃ d ∈ log, pageOf d.address = pageOf (lastByte c) ∧
      (d.type = 'S' ∨ (c.type = 'L' ∧ d.type = 'L'))

section Pages
variable (cfg : Config)

theorem getD_orPage (pages : PageMap) (a page : Address) (bits : Byte) :
    (orPage pages a bits)[page]?.getD 0 =
      if page = pageOf a then pages[page]?.getD 0 ||| bits else pages[page]?.getD 0 := by
  unfold orPage
  rw [Std.TreeMap.getElem?_alter]
  by_cases same : page = pageOf a
  · subst same
    simp [pageOf]
  · have different : ¬ compare (a &&& PAGE_MASK) page = Ordering.eq := by
      intro equal
      exact same (Std.LawfulEqOrd.eq_of_compare equal).symm
    simp [different, same]

/-- A record adds its bits to the page of its address. -/
theorem getD_touchPages (pages : PageMap) (c : Change) (page : Address) :
    (touchPages pages c)[page]?.getD 0 =
      pages[page]?.getD 0 ||| (if page = pageOf c.address then pageBits c else 0) := by
  unfold touchPages pageBits
  by_cases instruction : c.type = 'I'
  · simp only [instruction, if_true, (by decide : 'I' ≠ 'L'), (by decide : 'I' ≠ 'S'), if_false,
      getD_orPage]
    split <;> simp
  · by_cases load : c.type = 'L'
    · simp only [load, if_true, (by decide : 'L' ≠ 'I'), (by decide : 'L' ≠ 'S'), if_false,
        getD_orPage]
      split <;> simp
    · by_cases store : c.type = 'S'
      · simp only [store, if_true, (by decide : 'S' ≠ 'I'), (by decide : 'S' ≠ 'L'), if_false,
          getD_orPage]
        split <;> simp
      · simp [instruction, load, store]

theorem or_and_ne_zero_iff (x y mask : Byte) :
    (x ||| y) &&& mask ≠ 0 ↔ x &&& mask ≠ 0 ∨ y &&& mask ≠ 0 := by
  have both : (x &&& mask) ||| (y &&& mask) = 0 ↔ x &&& mask = 0 ∧ y &&& mask = 0 :=
    BitVec.or_eq_zero_iff
  rw [BitVec.and_or_distrib_right, ne_eq, both]
  exact not_and_or

theorem reports_iff_getD (pages : PageMap) (page : Address) (bits : Byte) :
    Reports pages page bits ↔ pages[page]?.getD 0 &&& bits ≠ 0 := by
  unfold Reports
  cases pages[page]? with
  | none => simp
  | some found => simp

/-- A page is reported with a bit exactly if some record tagged it so. -/
theorem reports_ingestAll (log : List Change) (page : Address) (bits : Byte) :
    Reports (ingestAll cfg log).pages page bits ↔
      ∃ c ∈ log, pageOf c.address = page ∧ pageBits c &&& bits ≠ 0 := by
  rw [reports_iff_getD]
  induction log using List.reverseRecOn with
  | nil => simp [ingestAll, Trace.new]
  | append_singleton front c ih =>
    rw [ingestAll_concat]
    change (touchPages _ c)[page]?.getD 0 &&& bits ≠ 0 ↔ _
    rw [getD_touchPages, or_and_ne_zero_iff, ih]
    by_cases same : page = pageOf c.address
    · simp [same, or_and_right, exists_or]
    · have other : ¬ pageOf c.address = page := fun equal => same equal.symm
      simp [same, other, or_and_right, exists_or]

/-- The same where the type of a record decides whether it sets the bits. -/
theorem reports_type_iff (log : List Change) (page : Address) (bits : Byte) (sets : Char → Prop)
    (decides : ∀ c : Change, pageBits c &&& bits ≠ 0 ↔ sets c.type) :
    Reports (ingestAll cfg log).pages page bits ↔ ∃ c ∈ log, pageOf c.address = page ∧ sets c.type := by
  rw [reports_ingestAll]
  simp only [decides]

theorem reports_write_iff (log : List Change) (page : Address) :
    Reports (ingestAll cfg log).pages page PAGE_WRITE ↔
      ∃ c ∈ log, pageOf c.address = page ∧ c.type = 'S' := by
  apply reports_type_iff cfg log page PAGE_WRITE (fun type => type = 'S')
  intro c
  unfold pageBits
  split_ifs with instruction load store <;> simp_all +decide

theorem reports_access_iff (log : List Change) (page : Address) :
    Reports (ingestAll cfg log).pages page (PAGE_READ ||| PAGE_WRITE) ↔
      ∃ c ∈ log, pageOf c.address = page ∧ (c.type = 'L' ∨ c.type = 'S') := by
  apply reports_type_iff cfg log page (PAGE_READ ||| PAGE_WRITE) (fun type => type = 'L' ∨ type = 'S')
  intro c
  unfold pageBits
  split_ifs with instruction load store <;> simp_all +decide

/-- The writes entered in a cell are those of the accesses that cover its address. -/
theorem stamped_ne_nil_iff (isBigEndian : Bool) (log : List Change) (a : Address) :
    stamped Change.clnum (accessWrite isBigEndian) log a ≠ [] ↔
      ∃ c ∈ log, (c.type = 'L' ∨ c.type = 'S') ∧ c.covers a = true := by
  unfold stamped
  rw [ne_eq, List.filterMap_eq_nil_iff]
  push Not
  apply exists_congr
  intro c
  apply and_congr_right
  intro _
  by_cases covered : (c.type = 'L' ∨ c.type = 'S') ∧ c.covers a = true
  · simp [accessWrite, covered]
  · rw [accessWrite, if_neg covered]
    simpa using covered

/-- The database has a byte for an address exactly if some access covers it. -/
theorem known_iff (log : List Change) (a : Address) :
    (∃ clnum, ∃ d : Byte, (ingestAll cfg log).getByte clnum a = MEMORY_VALID ||| d.setWidth 16) ↔
      ∃ c ∈ log, (c.type = 'L' ∨ c.type = 'S') ∧ c.covers a = true := by
  have written := record_entries_eq_nil_iff empty
    (stamped Change.clnum (accessWrite cfg.isBigEndian) log a)
  rw [← stamped_ne_nil_iff cfg.isBigEndian]
  constructor
  · intro known none
    obtain ⟨clnum, d, valid⟩ := known
    rw [getByte_eq, cellOf_ingestAll, none] at valid
    exact valid_ne_zero d valid.symm
  · intro some
    have present : ((empty : MemoryCell).record
        (stamped Change.clnum (accessWrite cfg.isBigEndian) log a)).entries ≠ [] :=
      fun nothing => some (written.mp nothing).2
    obtain ⟨entry, member⟩ := List.exists_mem_of_ne_nil _ present
    have answered := (asOf_isSome_iff _ entry.1).mpr ⟨entry, member, le_rfl⟩
    obtain ⟨d, answer⟩ := Option.isSome_iff_exists.mp answered
    refine ⟨entry.1, d, ?_⟩
    rw [getByte_eq, cellOf_ingestAll, answer, Option.elim_some]

end Pages

/-- Addresses lie on one page exactly if they agree above the low twelve bits. -/
theorem pageOf_eq_iff (a b : Address) : pageOf a = pageOf b ↔ a.toNat / 4096 = b.toNat / 4096 := by
  have floor : ∀ x : Address, (pageOf x).toNat = x.toNat / 4096 * 4096 := by
    intro x
    have shifted : pageOf x = x >>> 12 <<< 12 := by
      have mask : PAGE_MASK = BitVec.allOnes 64 <<< 12 := by decide
      rw [pageOf, mask]
      apply BitVec.eq_of_getLsbD_eq
      intro i inside
      simp only [BitVec.getLsbD_and, BitVec.getLsbD_shiftLeft, BitVec.getLsbD_ushiftRight,
        BitVec.getLsbD_allOnes]
      by_cases low : i < 12
      · simp [low]
      · have back : 12 + (i - 12) = i := by omega
        have width : i - 12 < 64 := by omega
        simp [low, inside, back, width]
    have room := x.isLt
    rw [shifted, BitVec.toNat_shiftLeft, BitVec.toNat_ushiftRight, Nat.shiftLeft_eq,
      Nat.shiftRight_eq_div_pow]
    omega
  constructor
  · intro same
    have numbers := congrArg BitVec.toNat same
    rw [floor, floor] at numbers
    omega
  · intro same
    apply BitVec.eq_of_toNat_eq
    rw [floor, floor, same]

/-- An access of at most eight bytes touches the page of its first byte and that of its last. -/
theorem pageOf_covered (c : Change) (a : Address) (few : c.byteCount ≤ 8) (covered : c.covers a = true) :
    pageOf a = pageOf c.address ∨ pageOf a = pageOf (lastByte c) := by
  obtain ⟨i, inside, rfl⟩ := (Change.covers_iff c a).mp covered
  rw [pageOf_eq_iff, pageOf_eq_iff, lastByte]
  simp only [BitVec.toNat_add, BitVec.toNat_ofNat]
  have room := c.address.isLt
  omega

theorem covers_lastByte (c : Change) (some : 1 ≤ c.byteCount) : c.covers (lastByte c) = true :=
  (Change.covers_iff c _).mpr ⟨c.byteCount - 1, by omega, rfl⟩

/-- For logs with accesses of one to eight bytes, every byte the database knows lies on a page it
reports exactly if every access that crosses into a page is joined by one that begins there. -/
theorem reported_iff (cfg : Config) (log : List Change)
    (sizes : ∀ c ∈ log, c.type = 'L' ∨ c.type = 'S' → 1 ≤ c.byteCount ∧ c.byteCount ≤ 8)
    (t : Trace cfg) (ingested : Ingested cfg log t) :
    Reported log t ↔ CrossingsReported log := by
  rw [ingested.eq_ingestAll]
  unfold Reported
  simp only [known_iff, reports_write_iff, reports_access_iff]
  constructor
  · intro reported c member access crosses
    obtain ⟨some, few⟩ := sizes c member access
    have covered := covers_lastByte c some
    obtain ⟨touched, stored⟩ := reported (lastByte c) ⟨c, member, access, covered⟩
    by_cases store : c.type = 'S'
    · obtain ⟨d, inLog, here, isStore⟩ := stored ⟨c, member, store, covered⟩
      exact ⟨d, inLog, here, Or.inl isStore⟩
    · have load : c.type = 'L' := access.resolve_right store
      obtain ⟨d, inLog, here, kind⟩ := touched
      exact ⟨d, inLog, here, kind.symm.imp id (fun isLoad => ⟨load, isLoad⟩)⟩
  · intro crossings a known
    have begins : ∀ c ∈ log, c.type = 'L' ∨ c.type = 'S' → c.covers a = true →
        ∃ d ∈ log, pageOf d.address = pageOf a ∧ (d.type = 'S' ∨ (c.type = 'L' ∧ d.type = 'L')) := by
      intro c member access covered
      have own : c.type = 'S' ∨ (c.type = 'L' ∧ c.type = 'L') := access.symm.imp id (fun l => ⟨l, l⟩)
      rcases pageOf_covered c a (sizes c member access).2 covered with first | last
      · exact ⟨c, member, first.symm, own⟩
      · by_cases crosses : pageOf (lastByte c) = pageOf c.address
        · exact ⟨c, member, (last.trans crosses).symm, own⟩
        · obtain ⟨d, inLog, here, kind⟩ := crossings c member access crosses
          exact ⟨d, inLog, here.trans last.symm, kind⟩
    refine ⟨?_, ?_⟩
    · obtain ⟨c, member, access, covered⟩ := known
      obtain ⟨d, inLog, here, kind⟩ := begins c member access covered
      exact ⟨d, inLog, here, kind.symm.imp And.right id⟩
    · rintro ⟨c, member, store, covered⟩
      obtain ⟨d, inLog, here, kind⟩ := begins c member (Or.inr store) covered
      refine ⟨d, inLog, here, kind.resolve_right ?_⟩
      intro both
      rw [store] at both
      exact absurd both.1 (by decide)

/-- A store over the boundary of two pages, and one that begins in the second. -/
def joinedCrossing : List Change :=
  [⟨0x1FFC, 0x1122334455667788, 1, 0xE0000040⟩, ⟨0x2002, 0x44, 1, 0xE0000008⟩]

theorem reported_iff_joined :
    ∃ t, Ingested ⟨false, 8, 17⟩ joinedCrossing t ∧
      (Reported joinedCrossing t ↔ CrossingsReported joinedCrossing) := by
  obtain ⟨t, ingested⟩ := exists_ingested ⟨false, 8, 17⟩ joinedCrossing (by decide)
  exact ⟨t, ingested, reported_iff ⟨false, 8, 17⟩ joinedCrossing (by decide) t ingested⟩

/-- An eight-byte store from 0x1FFC on, and nothing else. -/
def loneCrossing : List Change := [⟨0x1FFC, 0x1122334455667788, 1, 0xE0000040⟩]

/-- The byte at 0x2000 is known, and its page is not reported with any bit. -/
theorem crossing_unreported :
    ∃ t : Trace ⟨false, 8, 17⟩, Ingested ⟨false, 8, 17⟩ loneCrossing t ∧
      t.getByte 1 0x2000 = MEMORY_VALID ||| (0x44 : Byte).setWidth 16 ∧
      ¬ Reports t.pages (pageOf 0x2000) 0xFF ∧ ¬ Reported loneCrossing t := by
  obtain ⟨t, ingested⟩ := exists_ingested ⟨false, 8, 17⟩ loneCrossing (by decide)
  have known : t.getByte 1 0x2000 = MEMORY_VALID ||| (0x44 : Byte).setWidth 16 := by
    rw [ingested.eq_ingestAll, getByte_ingestAll _ _ _ _ (by decide)]
    decide
  refine ⟨t, ingested, known, ?_, ?_⟩
  · rw [ingested.eq_ingestAll, reports_ingestAll]
    decide
  · intro reported
    have touched := (reported 0x2000 ⟨1, 0x44, known⟩).1
    rw [ingested.eq_ingestAll, reports_access_iff] at touched
    exact absurd touched (by decide)

end Qira.TracePages
