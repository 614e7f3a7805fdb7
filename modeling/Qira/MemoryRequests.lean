import Qira.HexEditor

/-!
Requests for memory. The database counts addresses from the first up to the sum of address and length, which is
less than the first where it passes the end of the address space; the middleware counts bytes.
-/

namespace Qira.MemoryRequests
open ChangeRecord TraceIndex StaticMemory Library.Words Library.Dictionaries

/-- Each byte of the request is answered, and the middleware finds all of them. -/
def Answered {cfg : Config} (t : Trace cfg) (base : Dict Range (List Byte)) (clnum : Clnum) (address : Address)
    (ln : Nat) : Prop :=
  t.fetchMemory clnum address ln = (List.range ln).map (fun k => t.getByte clnum (address + BitVec.ofNat 64 k)) ∧
    (HexEditor.fetchMemory t base clnum address ln).isSome

section Requests
variable {cfg : Config} (t : Trace cfg) (base : Dict Range (List Byte)) (clnum : Clnum) (address : Address) {ln : Nat}

theorem stop_toNat (int : ln < 2 ^ 31) :
    (address + BitVec.ofInt 64 ln).toNat =
      if address.toNat + ln < 2 ^ 64 then address.toNat + ln else address.toNat + ln - 2 ^ 64 := by
  have first := address.isLt
  rw [BitVec.ofInt_natCast, BitVec.toNat_add, BitVec.toNat_ofNat, Nat.add_mod_mod]
  split
  next room => exact Nat.mod_eq_of_lt room
  next past => rw [Nat.mod_eq_sub_mod (not_lt.mp past), Nat.mod_eq_of_lt (by omega)]

theorem fetchMemory_of_room (int : ln < 2 ^ 31) (room : address.toNat + ln < 2 ^ 64) :
    t.fetchMemory clnum address ln = (List.range ln).map (fun k => t.getByte clnum (address + BitVec.ofNat 64 k)) := by
  have stop := (stop_toNat address int).trans (if_pos room)
  have length : (t.fetchMemory clnum address ln).length = ln :=
    HexEditor.fetchMemoryLoop_length t clnum address _ ln stop
  refine List.ext_getElem (by simpa using length) fun k inside _ => ?_
  rw [List.getElem_map, List.getElem_range]
  exact HexEditor.fetchMemoryLoop_getElem t clnum address _ k _ (List.getElem?_eq_getElem inside)

/-- A request past the end of the address space has no answer at all. -/
theorem fetchMemory_beyond (int : ln < 2 ^ 31) (past : 2 ^ 64 ≤ address.toNat + ln) :
    t.fetchMemory clnum address ln = [] := by
  have first := address.isLt
  have stop := (stop_toNat address int).trans (if_neg past.not_gt)
  have done : ¬ address < address + BitVec.ofInt 64 ln := by
    rw [BitVec.lt_def, stop]
    omega
  rw [Trace.fetchMemory, Trace.fetchMemoryLoop, if_neg done]

theorem answered_iff_room (int : ln < 2 ^ 31) : Answered t base clnum address ln ↔ address.toNat + ln < 2 ^ 64 := by
  constructor
  · rintro ⟨bytes, -⟩
    by_contra past
    have first := address.isLt
    have none := congrArg List.length ((fetchMemory_beyond t clnum address int (not_lt.mp past)).symm.trans bytes)
    rw [List.length_nil, List.length_map, List.length_range] at none
    omega
  · intro room
    obtain ⟨msg, answer⟩ := HexEditor.getmemory_answered t base clnum address ln (by exact_mod_cast room)
    obtain ⟨dat, found, -⟩ := Option.map_eq_some_iff.mp answer
    exact ⟨fetchMemory_of_room t clnum address int room, Option.isSome_iff_exists.mpr ⟨dat, found⟩⟩

end Requests

theorem answered_iff_room_three :
    Answered (Trace.new ⟨false, 4, 9⟩) ∅ 0 16 3 ↔ (16 : Address).toNat + 3 < 2 ^ 64 :=
  answered_iff_room (Trace.new ⟨false, 4, 9⟩) ∅ 0 16 (by decide)

/-- The last byte of the address space is not answered. -/
theorem last_byte_unanswered : ¬ Answered (Trace.new ⟨false, 4, 9⟩) ∅ 0 (BitVec.allOnes 64) 1 := by
  rintro ⟨bytes, -⟩
  rw [fetchMemory_beyond _ _ _ (by decide) (by decide)] at bytes
  cases bytes

end Qira.MemoryRequests
