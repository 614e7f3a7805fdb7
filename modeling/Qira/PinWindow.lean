import Qira.PinPublish

/-!
The region of its log file that a PIN thread has mapped, in the 64-bit sizes of the code, and the
pointers that `change` hands out into it.
-/

namespace Qira.PinWindow
open SharedLog PinPublish Library.Machines

/-- What `mmap_map` was asked for. -/
structure Mapping where
  size : BitVec 64
  offset : BitVec 64

/-- `mapped_region_start`, `mapped_region_end` and `mapped_region`. -/
structure Region where
  start : BitVec 64
  stop : BitVec 64
  mapped : Mapping

/-- As `Thread_State::Thread_State` leaves it. -/
def Region.new : Region := ⟨0, 8096, ⟨8096 - 0, 0⟩⟩

def pageMask (bytes : BitVec 64) : BitVec 64 := bytes &&& ~~~4095

def regionStart (target : BitVec 64) : BitVec 64 :=
  let behind := 32 * 24
  pageMask (if behind < target then target - behind else 0)

/-- The size of the region doubled, up to a limit. -/
def grownSize (regionSize : BitVec 64) : BitVec 64 :=
  let regionSize := regionSize * 2
  pageMask (if 512 <<< 20 < regionSize then 512 <<< 20 else regionSize)

/-- A size that does not do for the record is replaced by one that does. -/
def neededSize (start regionSize endtarget : BitVec 64) : BitVec 64 :=
  if start + regionSize < endtarget then pageMask (endtarget - start + 4096) else regionSize

def Region.remap (r : Region) (target endtarget : BitVec 64) : Region :=
  let start := regionStart target
  let regionSize := neededSize start (grownSize (r.stop - r.start)) endtarget
  ⟨start, start + regionSize, ⟨regionSize, start⟩⟩

/-- `Thread_State::change`, with the pointer that it returns as an offset in the mapping. -/
def Region.change (r : Region) (i : BitVec 64) : Region × BitVec 64 :=
  let target := 24 * (i + 1)
  let endtarget := target + 24
  let r := if r.stop < endtarget then r.remap target endtarget else r
  (r, target - r.start)

def Region.step (r : Region) (i : BitVec 64) : Option Region := some (r.change i).1

def Region.window (r : Region) : Window := ⟨r.start.toNat, r.stop.toNat⟩

/-- No operation of the call overflows; those not named have smaller results. -/
structure Exact (r : Region) (i : BitVec 64) : Prop where
  endtarget : CHANGE_SIZE * (i.toNat + 1) + CHANGE_SIZE < 2 ^ 64
  doubled : r.stop.toNat < CHANGE_SIZE * (i.toNat + 1) + CHANGE_SIZE →
    (r.stop.toNat - r.start.toNat) * 2 < 2 ^ 64
  stop : (r.window.change (CHANGE_SIZE * (i.toNat + 1))).stop < 2 ^ 64

/-- The record asked for is in the region, and the pointer leads to it. -/
structure Contains (i : BitVec 64) (r : Region) (pointer : BitVec 64) : Prop where
  start : r.start.toNat ≤ CHANGE_SIZE * (i.toNat + 1)
  stop : CHANGE_SIZE * (i.toNat + 2) ≤ r.stop.toNat
  place : pointer.toNat = CHANGE_SIZE * (i.toNat + 1) - r.start.toNat
  inside : pointer.toNat + CHANGE_SIZE ≤ r.mapped.size.toNat
  aligned : r.start.toNat % 4096 = 0
  size : r.mapped.size.toNat = r.stop.toNat - r.start.toNat
  offset : r.mapped.offset = r.start

/-- What holds of a region between two calls. -/
structure Region.Sound (r : Region) : Prop where
  ordered : r.start.toNat ≤ r.stop.toNat
  aligned : r.start.toNat % 4096 = 0
  size : r.mapped.size.toNat = r.stop.toNat - r.start.toNat
  offset : r.mapped.offset = r.start

theorem toNat_pageMask (bytes : BitVec 64) : (pageMask bytes).toNat = pageFloor bytes.toNat := by
  have mask : ∀ i < 64, (4095 : BitVec 64).getLsbD i = decide (i < 12) := by decide
  have shifts : pageMask bytes = (bytes >>> 12) <<< 12 := by
    apply BitVec.eq_of_getLsbD_eq
    intro i inside
    simp only [pageMask, BitVec.getLsbD_and, BitVec.getLsbD_not, mask i inside,
      BitVec.getLsbD_shiftLeft, BitVec.getLsbD_ushiftRight]
    by_cases low : i < 12
    · simp [low]
    · have back : 12 + (i - 12) = i := by omega
      simp [low, inside, back]
  have small := bytes.isLt
  rw [shifts, BitVec.toNat_shiftLeft, BitVec.toNat_ushiftRight, Nat.shiftLeft_eq,
    Nat.shiftRight_eq_div_pow, pageFloor, Nat.mod_eq_of_lt]
  omega

theorem toNat_regionStart (target : BitVec 64) :
    (regionStart target).toNat = pageFloor
      (if 32 * CHANGE_SIZE < target.toNat then target.toNat - 32 * CHANGE_SIZE else 0) := by
  have behind : (32 * 24 : BitVec 64).toNat = 32 * CHANGE_SIZE := by decide
  have far : (32 * 24 : BitVec 64) < target ↔ 32 * CHANGE_SIZE < target.toNat := by
    rw [← behind]
    exact Iff.rfl
  rw [regionStart, toNat_pageMask]
  by_cases beyond : 32 * CHANGE_SIZE < target.toNat
  · have distance : (target - 32 * 24).toNat = target.toNat - 32 * CHANGE_SIZE := by
      rw [← behind]
      exact BitVec.toNat_sub_of_le (far.mpr beyond).le
    rw [if_pos (far.mpr beyond), if_pos beyond, distance]
  · rw [if_neg (mt far.mp beyond), if_neg beyond]
    rfl

/-- A region starts on a page, at or before the record. -/
theorem regionStart_spec (target : BitVec 64) :
    (regionStart target).toNat ≤ target.toNat ∧ (regionStart target).toNat % 4096 = 0 := by
  rw [toNat_regionStart]
  constructor
  · apply (pageFloor_le _).trans
    split <;> omega
  · exact Nat.mul_mod_left _ _

theorem toNat_grownSize (regionSize : BitVec 64) (exact : regionSize.toNat * 2 < 2 ^ 64) :
    (grownSize regionSize).toNat = pageFloor (min (regionSize.toNat * 2) (512 * 2 ^ 20)) := by
  have double : (regionSize * 2).toNat = regionSize.toNat * 2 := by
    rw [BitVec.toNat_mul]
    exact Nat.mod_eq_of_lt exact
  have limit : (512 <<< 20 : BitVec 64).toNat = 512 * 2 ^ 20 := by decide
  have above : (512 <<< 20 : BitVec 64) < regionSize * 2 ↔ 512 * 2 ^ 20 < regionSize.toNat * 2 := by
    rw [← limit, ← double]
    exact Iff.rfl
  rw [grownSize, toNat_pageMask]
  by_cases capped : 512 * 2 ^ 20 < regionSize.toNat * 2
  · rw [if_pos (above.mpr capped), min_eq_right capped.le, limit]
  · rw [if_neg (mt above.mp capped), min_eq_left (not_lt.mp capped), double]

/-- The size and the end of a moved region, for the size that is needed. -/
theorem toNat_neededSize (start regionSize endtarget : BitVec 64) (needed : Nat)
    (low : start.toNat ≤ endtarget.toNat)
    (chosen : needed = if start.toNat + regionSize.toNat < endtarget.toNat
      then pageFloor (endtarget.toNat - start.toNat + 4096) else regionSize.toNat)
    (exact : start.toNat + needed < 2 ^ 64) :
    (neededSize start regionSize endtarget).toNat = needed ∧
      (start + neededSize start regionSize endtarget).toNat = start.toNat + needed := by
  have bound := endtarget.isLt
  have sum : (start + regionSize).toNat = start.toNat + regionSize.toNat := by
    rw [BitVec.toNat_add]
    apply Nat.mod_eq_of_lt
    split at chosen <;> omega
  have short : start + regionSize < endtarget ↔ start.toNat + regionSize.toNat < endtarget.toNat := by
    rw [← sum]
    exact Iff.rfl
  have size : (neededSize start regionSize endtarget).toNat = needed := by
    unfold neededSize
    by_cases missing : start.toNat + regionSize.toNat < endtarget.toNat
    · rw [if_pos missing] at chosen
      have distance : (endtarget - start).toNat = endtarget.toNat - start.toNat := BitVec.toNat_sub_of_le low
      have more : (endtarget - start + 4096).toNat = endtarget.toNat - start.toNat + 4096 := by
        rw [BitVec.toNat_add, distance]
        apply Nat.mod_eq_of_lt
        change endtarget.toNat - start.toNat + 4096 < 2 ^ 64
        unfold pageFloor at chosen
        omega
      rw [if_pos (short.mpr missing), toNat_pageMask, more, chosen]
    · rw [if_neg missing] at chosen
      rw [if_neg (mt short.mp missing), chosen]
  rw [BitVec.toNat_add, size, Nat.mod_eq_of_lt exact]
  exact ⟨rfl, rfl⟩

section Calls
variable {r : Region} {i : BitVec 64}

/-- Where nothing overflows, the offset of the record is what it should be. -/
theorem Exact.target (exact : Exact r i) :
    (24 * (i + 1) : BitVec 64).toNat = CHANGE_SIZE * (i.toNat + 1) ∧
      (24 * (i + 1) + 24 : BitVec 64).toNat = CHANGE_SIZE * (i.toNat + 1) + CHANGE_SIZE := by
  have bound := exact.endtarget
  unfold CHANGE_SIZE at *
  bv_omega

/-- A region that does not reach to the end of the record moves as the sizes say. -/
theorem remap_sound (ordered : r.start.toNat ≤ r.stop.toNat) (exact : Exact r i)
    (beyond : r.stop.toNat < CHANGE_SIZE * (i.toNat + 1) + CHANGE_SIZE) :
    (r.remap (24 * (i + 1)) (24 * (i + 1) + 24)).window =
        r.window.change (CHANGE_SIZE * (i.toNat + 1)) ∧
      (r.remap (24 * (i + 1)) (24 * (i + 1) + 24)).Sound := by
  obtain ⟨target, endtarget⟩ := exact.target
  have old : (r.stop - r.start).toNat = r.stop.toNat - r.start.toNat := BitVec.toNat_sub_of_le ordered
  have begins := toNat_regionStart (24 * (i + 1))
  have doubled := toNat_grownSize (r.stop - r.start) (by rw [old]; exact exact.doubled beyond)
  obtain ⟨low, pages⟩ := regionStart_spec (24 * (i + 1))
  rw [target] at begins low
  rw [old] at doubled
  obtain ⟨needed, chosen⟩ : ∃ needed, needed =
      if (regionStart (24 * (i + 1))).toNat + (grownSize (r.stop - r.start)).toNat <
          (24 * (i + 1) + 24 : BitVec 64).toNat
      then pageFloor ((24 * (i + 1) + 24 : BitVec 64).toNat - (regionStart (24 * (i + 1))).toNat + 4096)
      else (grownSize (r.stop - r.start)).toNat := ⟨_, rfl⟩
  have moved : r.window.change (CHANGE_SIZE * (i.toNat + 1)) =
      ⟨(regionStart (24 * (i + 1))).toNat, (regionStart (24 * (i + 1))).toNat + needed⟩ := by
    rw [chosen, endtarget, begins, doubled]
    exact if_pos beyond
  have top : (regionStart (24 * (i + 1))).toNat + needed < 2 ^ 64 := by
    have stop := exact.stop
    rw [moved] at stop
    exact stop
  obtain ⟨size, stop⟩ := toNat_neededSize _ _ _ needed (by omega) chosen top
  refine ⟨?_, ?_, pages, ?_, rfl⟩
  · rw [moved, ← stop]
    rfl
  · exact (Nat.le_add_right _ _).trans_eq stop.symm
  · change (neededSize _ _ _).toNat = (_ + neededSize _ _ _ : BitVec 64).toNat - (regionStart _).toNat
    rw [stop, size, Nat.add_sub_cancel_left]

/-- One call does with the region what `Window.change` does with its bounds. -/
theorem change_sound (sound : r.Sound) (exact : Exact r i) :
    (r.change i).1.window = r.window.change (CHANGE_SIZE * (i.toNat + 1)) ∧ (r.change i).1.Sound := by
  obtain ⟨target, endtarget⟩ := exact.target
  have short : r.stop < 24 * (i + 1) + 24 ↔ r.stop.toNat < CHANGE_SIZE * (i.toNat + 1) + CHANGE_SIZE := by
    rw [← endtarget]
    exact Iff.rfl
  by_cases beyond : r.stop.toNat < CHANGE_SIZE * (i.toNat + 1) + CHANGE_SIZE
  · have moved : (r.change i).1 = r.remap (24 * (i + 1)) (24 * (i + 1) + 24) := if_pos (short.mpr beyond)
    rw [moved]
    exact remap_sound sound.ordered exact beyond
  · have kept : (r.change i).1 = r := if_neg (mt short.mp beyond)
    have same : r.window.change (CHANGE_SIZE * (i.toNat + 1)) = r.window := if_neg beyond
    rw [kept, same]
    exact ⟨rfl, sound⟩

/-- A call for a record that is not before the region gets a region with the record. -/
theorem change_contains (sound : r.Sound) (exact : Exact r i)
    (reached : r.start.toNat ≤ CHANGE_SIZE * (i.toNat + 1)) :
    Contains i (r.change i).1 (r.change i).2 := by
  obtain ⟨target, -⟩ := exact.target
  obtain ⟨window, after⟩ := change_sound sound exact
  obtain ⟨start, stop⟩ := r.window.change_covers (CHANGE_SIZE * (i.toNat + 1)) reached
  rw [← window] at start stop
  change (r.change i).1.start.toNat ≤ _ at start
  change _ ≤ (r.change i).1.stop.toNat at stop
  have place : (r.change i).2.toNat = CHANGE_SIZE * (i.toNat + 1) - (r.change i).1.start.toNat := by
    rw [← target] at start ⊢
    exact BitVec.toNat_sub_of_le start
  have size := after.size
  exact ⟨start, by omega, place, by omega, after.aligned, size, after.offset⟩

/-- Calls that do not go back leave the region at or before the records still to come. -/
theorem calls_contain (calls : List (BitVec 64)) (sound : r.Sound)
    (reached : ∀ j ∈ calls ++ [i], r.start.toNat ≤ CHANGE_SIZE * (j.toNat + 1))
    (ordered : (calls ++ [i]).Pairwise (· ≤ ·)) (exact : Along Region.step Exact r (calls ++ [i])) :
    ∃ r', run Region.step r calls = some r' ∧ Contains i (r'.change i).1 (r'.change i).2 := by
  induction calls generalizing r with
  | nil => exact ⟨r, rfl, change_contains sound exact.1 (reached i (List.mem_singleton.mpr rfl))⟩
  | cons j rest ih =>
    obtain ⟨first, later⟩ := List.pairwise_cons.mp ordered
    have here := change_contains sound exact.1 (reached j List.mem_cons_self)
    have ahead : ∀ k ∈ rest ++ [i], (r.change j).1.start.toNat ≤ CHANGE_SIZE * (k.toNat + 1) := by
      intro k member
      have next : j.toNat ≤ k.toNat := first k member
      exact here.start.trans (Nat.mul_le_mul_left _ (by omega))
    exact ih (change_sound sound exact.1).2 ahead later (exact.2 _ rfl)

end Calls

theorem new_sound : Region.new.Sound := ⟨by decide, by decide, by decide, rfl⟩

/-- After any calls with nondecreasing indices and without overflow, the record asked for is in the
region. -/
theorem region_contains (calls : List (BitVec 64)) (i : BitVec 64)
    (ordered : (calls ++ [i]).Pairwise (· ≤ ·))
    (exact : Along Region.step Exact Region.new (calls ++ [i])) :
    ∃ r, run Region.step Region.new calls = some r ∧ Contains i (r.change i).1 (r.change i).2 :=
  calls_contain calls new_sound (fun _ _ => Nat.zero_le _) ordered exact

/-- The second call moves the region. -/
theorem region_contains_moved :
    ∃ r, run Region.step Region.new [0] = some r ∧ Contains 1000 (r.change 1000).1 (r.change 1000).2 :=
  region_contains [0] 1000 (by decide) ⟨⟨by decide, by decide, by decide⟩, fun _ taken => by
    obtain rfl := Option.some.inj taken
    exact ⟨⟨by decide, by decide, by decide⟩, fun _ _ => trivial⟩⟩

end Qira.PinWindow
