import Qira.ChangeRecord

/-!
The dynamic slice of a changelist: those before it that it depends on. The walk back keeps the addresses at which a
value that is needed was loaded, each by its first byte only and the same for registers and memory.
-/

namespace Qira.DynamicSlice
open ChangeRecord

/-- `fetch_changes_by_clnum(clnum, 100)`. -/
abbrev Changes := Nat → List Change

def isStore (r : Change) : Bool := r.type = 'W' ∨ r.type = 'S'

def isLoad (r : Change) : Bool := r.type = 'R' ∨ r.type = 'L'

def getStores (fetch : Changes) (clnum : Nat) : Finset Address :=
  (((fetch clnum).filter isStore).map Change.address).toFinset

def getLoads (fetch : Changes) (clnum : Nat) : Finset Address :=
  (((fetch clnum).filter isLoad).map Change.address).toFinset

/-- The stack pointer of `i386`, in the middle of its registers. -/
def STACK : Address := 0x10

/-- The loop of `slice`; `stop` is `max(0, inclnum-100)`. -/
def sliceLoop (fetch : Changes) (stop : Nat) : Nat → Finset Address → List Nat → List Nat
  | 0, _, cls => cls
  | clnum + 1, st, cls =>
      if clnum + 1 > stop then
        let st := st.erase STACK
        if (fetch (clnum + 1)).length > 20 then cls
        else
          let overwrite := st ∩ getStores fetch (clnum + 1)
          if overwrite.card > 0 then
            sliceLoop fetch stop clnum (st \ overwrite ∪ getLoads fetch (clnum + 1)) (cls ++ [clnum + 1])
          else sliceLoop fetch stop clnum st cls
      else cls

def slice (fetch : Changes) (inclnum : Nat) : Finset Nat :=
  (sliceLoop fetch (inclnum - 100) inclnum (getLoads fetch inclnum) [inclnum]).toFinset.erase inclnum

section Walk
variable {fetch : Changes} {stop : Nat} {a : Address} {c : Nat}

theorem sliceLoop_keeps (clnum : Nat) (st : Finset Address) (cls : List Nat) :
    cls ⊆ sliceLoop fetch stop clnum st cls := by
  induction clnum generalizing st cls with
  | zero => exact List.Subset.refl cls
  | succ clnum ih =>
    simp only [sliceLoop]
    split_ifs
    · exact List.Subset.refl cls
    · exact fun m inside => ih _ _ (List.mem_append_left _ inside)
    · exact ih _ _
    · exact List.Subset.refl cls

/-- An address that is needed leads to the changelist that has last stored there. -/
theorem sliceLoop_finds (clnum : Nat) {st : Finset Address} (cls : List Nat)
    (few : ∀ k, stop < k → k ≤ clnum → (fetch k).length ≤ 20) (above : stop < c) (upTo : c ≤ clnum)
    (needed : a ∈ st) (notStack : a ≠ STACK) (stored : a ∈ getStores fetch c)
    (between : ∀ j, c < j → j ≤ clnum → a ∉ getStores fetch j) : c ∈ sliceLoop fetch stop clnum st cls := by
  induction clnum generalizing st cls with
  | zero => omega
  | succ clnum ih =>
    have running : clnum + 1 > stop := by omega
    have short := (few (clnum + 1) running le_rfl).not_gt
    have kept : a ∈ st.erase STACK := Finset.mem_erase.mpr ⟨notStack, needed⟩
    simp only [sliceLoop, if_pos running, if_neg short]
    by_cases here : c = clnum + 1
    · have found : a ∈ st.erase STACK ∩ getStores fetch (clnum + 1) := Finset.mem_inter.mpr ⟨kept, here ▸ stored⟩
      rw [if_pos (Finset.card_pos.mpr ⟨a, found⟩), here]
      exact sliceLoop_keeps _ _ _ List.mem_concat_self
    · have other : a ∉ getStores fetch (clnum + 1) := between (clnum + 1) (by omega) le_rfl
      have next := fun (st : Finset Address) (inside : a ∈ st) (cls : List Nat) =>
        @ih st cls (fun k low high => few k low (by omega)) (by omega) inside
          (fun j low high => between j low (by omega))
      split_ifs
      · refine next _ (Finset.mem_union_left _ (Finset.mem_sdiff.mpr ⟨kept, fun both => other ?_⟩)) _
        exact (Finset.mem_inter.mp both).2
      · exact next _ kept _

/-- What a changelist that the walk adds has loaded leads on to the changelist that has last stored there. -/
theorem sliceLoop_follows (clnum : Nat) {st : Finset Address} {cls : List Nat} {m : Nat}
    (few : ∀ k, stop < k → k ≤ clnum → (fetch k).length ≤ 20) (above : stop < c) (before : c < m)
    (added : m ∈ sliceLoop fetch stop clnum st cls) (new : m ∉ cls) (loaded : a ∈ getLoads fetch m)
    (notStack : a ≠ STACK) (stored : a ∈ getStores fetch c)
    (between : ∀ j, c < j → j < m → a ∉ getStores fetch j) : c ∈ sliceLoop fetch stop clnum st cls := by
  induction clnum generalizing st cls with
  | zero => exact absurd added new
  | succ clnum ih =>
    by_cases running : clnum + 1 > stop
    · have short := (few (clnum + 1) running le_rfl).not_gt
      have fewer : ∀ k, stop < k → k ≤ clnum → (fetch k).length ≤ 20 :=
        fun k low high => few k low (Nat.le_succ_of_le high)
      simp only [sliceLoop, if_pos running, if_neg short] at added ⊢
      split_ifs at added ⊢
      · by_cases here : m = clnum + 1
        · exact sliceLoop_finds clnum _ fewer above (by omega) (Finset.mem_union_right _ (here ▸ loaded)) notStack stored
            (fun j low high => between j low (by omega))
        · refine ih fewer added fun inside => ?_
          rcases List.mem_append.mp inside with old | last
          · exact new old
          · exact here (List.mem_singleton.mp last)
      · exact ih fewer added new
    · simp only [sliceLoop, if_neg running] at added
      exact absurd added new

/-- The changelist itself: what it has loaded is needed, also where it stores at the same address. -/
theorem sliceLoop_first {inclnum : Nat} (few : ∀ k, stop < k → k ≤ inclnum → (fetch k).length ≤ 20) (above : stop < c)
    (before : c < inclnum) (loaded : a ∈ getLoads fetch inclnum) (notStack : a ≠ STACK)
    (stored : a ∈ getStores fetch c) (between : ∀ j, c < j → j < inclnum → a ∉ getStores fetch j) (cls : List Nat) :
    c ∈ sliceLoop fetch stop inclnum (getLoads fetch inclnum) cls := by
  obtain ⟨n, rfl⟩ : ∃ n, inclnum = n + 1 := ⟨inclnum - 1, by omega⟩
  have running : n + 1 > stop := by omega
  have short := (few (n + 1) running le_rfl).not_gt
  have next := fun (st : Finset Address) (inside : a ∈ st) (cls : List Nat) =>
    sliceLoop_finds n cls (fun k low high => few k low (Nat.le_succ_of_le high)) above (by omega) inside notStack stored
      (fun j low high => between j low (by omega))
  simp only [sliceLoop, if_pos running, if_neg short]
  split_ifs
  · exact next _ (Finset.mem_union_right _ loaded) _
  · exact next _ (Finset.mem_erase.mpr ⟨notStack, loaded⟩) _

end Walk

/-- The slice has each changelist of its window that stores at an address at which a later member loads, if none
between them stores at it and it is not that of the stack pointer. -/
theorem slice_complete (fetch : Changes) (inclnum : Nat)
    (few : ∀ k, inclnum - 100 < k → k ≤ inclnum → (fetch k).length ≤ 20) {c m : Nat} {a : Address}
    (window : inclnum - 100 < c ∧ c < inclnum) (before : c < m) (member : m = inclnum ∨ m ∈ slice fetch inclnum)
    (stored : a ∈ getStores fetch c) (loaded : a ∈ getLoads fetch m)
    (between : ∀ j, c < j → j < m → a ∉ getStores fetch j) (notStack : a ≠ STACK) : c ∈ slice fetch inclnum := by
  refine Finset.mem_erase.mpr ⟨window.2.ne, List.mem_toFinset.mpr ?_⟩
  rcases member with rfl | inside
  · exact sliceLoop_first few window.1 before loaded notStack stored between _
  · obtain ⟨other, added⟩ := Finset.mem_erase.mp inside
    exact sliceLoop_follows inclnum few window.1 before (List.mem_toFinset.mp added)
      (fun first => other (List.mem_singleton.mp first)) loaded notStack stored between

/-- The changelists of a log. -/
def changesOf (log : List Change) : Changes := fun clnum => log.filter (fun r => r.clnum.toNat = clnum)

theorem changesOf_few {log : List Change} (short : log.length ≤ 20) (clnum : Nat) :
    (changesOf log clnum).length ≤ 20 :=
  (List.length_filter_le _ log).trans short

/-- Four bytes are stored and loaded. -/
def stored : List Change := [⟨0x1000, 7, 1, 0xE0000020⟩, ⟨0x1000, 7, 2, 0xA0000020⟩]

theorem slice_complete_stored : 1 ∈ slice (changesOf stored) 2 :=
  @slice_complete (changesOf stored) 2 (fun k _ _ => changesOf_few (by decide) k) 1 2 0x1000 (by decide) (by decide)
    (.inl rfl) (by decide) (by decide) (fun j low high => by omega) (by decide)

/-- A byte of a register or of memory. -/
inductive Cell
  | register (x : Address)
  | memory (x : Address)

def Cell.storedBy : Cell → Change → Bool
  | .register x, r => r.type = 'W' ∧ r.covers x
  | .memory x, r => r.type = 'S' ∧ r.covers x

def Cell.loadedBy : Cell → Change → Bool
  | .register x, r => r.type = 'R' ∧ r.covers x
  | .memory x, r => r.type = 'L' ∧ r.covers x

/-- A byte of the register at 0x10. -/
def Cell.ofStack (registerSize : Nat) : Cell → Bool
  | .register x => (x - STACK).toNat < registerSize
  | .memory _ => false

/-- No dependency through a byte is missed. -/
def Complete (fetch : Changes) (registerSize inclnum : Nat) : Prop :=
  ∀ (c m : Nat) (cell : Cell), inclnum - 100 < c ∧ c < inclnum → c < m → m = inclnum ∨ m ∈ slice fetch inclnum →
    (∃ r ∈ fetch c, cell.storedBy r = true) → (∃ r ∈ fetch m, cell.loadedBy r = true) →
    (∀ j, c < j → j < m → ∀ r ∈ fetch j, cell.storedBy r = false) → cell.ofStack registerSize = false →
    c ∈ slice fetch inclnum

/-- The second of four stored bytes is loaded. -/
def overlapping : List Change := [⟨0x1000, 7, 1, 0xE0000020⟩, ⟨0x1001, 0, 2, 0xA0000008⟩]

/-- A byte of memory at the offset of the stack pointer. -/
def low : List Change := [⟨0x10, 7, 1, 0xE0000008⟩, ⟨0x10, 7, 2, 0xA0000008⟩]

/-- Between the store and the load of a register the memory at its offset is stored to. -/
def shared : List Change := [⟨4, 7, 1, 0xC0000020⟩, ⟨4, 9, 2, 0xE0000020⟩, ⟨4, 7, 3, 0x80000020⟩]

theorem slice_misses :
    (∀ log ∈ [overlapping, low, shared], ∀ clnum, (changesOf log clnum).length ≤ 20) ∧
      ¬ Complete (changesOf overlapping) 4 2 ∧ ¬ Complete (changesOf low) 4 2 ∧ ¬ Complete (changesOf shared) 4 3 := by
  refine ⟨fun log inside => changesOf_few ?_, fun all => ?_, fun all => ?_, fun all => ?_⟩
  · revert log
    decide
  · have found := all 1 2 (.memory 0x1001) (by decide) (by decide) (.inl rfl) (by decide) (by decide)
      (fun j after before => by omega) rfl
    exact absurd found (by decide)
  · have found := all 1 2 (.memory 0x10) (by decide) (by decide) (.inl rfl) (by decide) (by decide)
      (fun j after before => by omega) rfl
    exact absurd found (by decide)
  · have found := all 1 3 (.register 4) (by decide) (by decide) (.inl rfl) (by decide) (by decide)
      (fun j after before => by
        obtain rfl : j = 2 := by omega
        decide) (by decide)
    exact absurd found (by decide)

end Qira.DynamicSlice
