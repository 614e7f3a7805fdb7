import Qira.Library.Timelines

/-!
Overlapping writes to an address space. A write is the partial function giving a value to each
address it covers, a sequence of writes is replayed in order, and an address ends up with the value
of the last write covering it. When the writes are stamped with times, a timeline for each address
remembers every such value.
-/

namespace Qira.Library.Overwrites
open Timelines

section Writes
variable {α β ι : Type*}

def overwrite (memory : α → β) (write : α → Option β) : α → β :=
  fun address => (write address).getD (memory address)

def replay (memory : α → β) (writes : List (α → Option β)) : α → β :=
  writes.foldl overwrite memory

/-- The value of the last write covering the address. -/
def lastWrite (writes : List (α → Option β)) (address : α) : Option β :=
  (writes.filterMap (fun write => write address)).getLast?

theorem replay_append (memory : α → β) (first second : List (α → Option β)) :
    replay memory (first ++ second) = replay (replay memory first) second :=
  List.foldl_append

theorem lastWrite_append_singleton (writes : List (α → Option β)) (write : α → Option β)
    (address : α) :
    lastWrite (writes ++ [write]) address = (write address).or (lastWrite writes address) := by
  cases covered : write address with
  | none => simp [lastWrite, List.filterMap_append, covered]
  | some value => simp [lastWrite, List.filterMap_append, covered]

/-- Replaying writes leaves each address with its last write, or with its old value. -/
theorem replay_eq_lastWrite (memory : α → β) (writes : List (α → Option β)) (address : α) :
    replay memory writes address = (lastWrite writes address).getD (memory address) := by
  induction writes using List.reverseRecOn with
  | nil => rfl
  | append_singleton front write ih =>
    rw [replay_append, lastWrite_append_singleton]
    change (write address).getD (replay memory front address) = _
    rw [ih]
    cases write address with
    | none => rfl
    | some value => rfl

theorem lastWrite_append (first second : List (α → Option β)) (address : α) :
    lastWrite (first ++ second) address =
      (lastWrite second address).or (lastWrite first address) := by
  unfold lastWrite
  rw [List.filterMap_append, List.getLast?_append]

theorem lastWrite_isSome_iff (writes : List (α → Option β)) (address : α) :
    (lastWrite writes address).isSome ↔ ∃ write ∈ writes, (write address).isSome := by
  simp only [lastWrite, Option.isSome_iff_ne_none, ne_eq, List.getLast?_eq_none_iff,
    List.filterMap_eq_nil_iff, not_forall, exists_prop]

/-- A write of the values already there changes nothing. -/
theorem overwrite_of_agrees (memory : α → β) (write : α → Option β)
    (agrees : ∀ address value, write address = some value → memory address = value) :
    overwrite memory write = memory := by
  funext address
  unfold overwrite
  cases covered : write address with
  | none => rfl
  | some value => exact (agrees address value covered).symm

/-- For writes read off a list of items, the last write is that of the last covering item. -/
theorem lastWrite_map (items : List ι) (write : ι → α → Option β) (address : α) :
    lastWrite (items.map write) address =
      ((items.filter (fun item => (write item address).isSome)).getLast?).bind
        (fun item => write item address) := by
  induction items using List.reverseRecOn with
  | nil => rfl
  | append_singleton front item ih =>
    rw [List.map_append, List.map_singleton, lastWrite_append_singleton, ih, List.filter_append]
    cases covered : write item address with
    | none => simp [covered]
    | some value => simp [covered]

/-- The same, when each item either covers the address with a value of its own or leaves it. -/
theorem lastWrite_covering (items : List ι) (write : ι → α → Option β) (address : α)
    (covers : ι → Bool) (value : ι → β)
    (written : ∀ item ∈ items,
      write item address = if covers item = true then some (value item) else none) :
    lastWrite (items.map write) address = ((items.filter covers).getLast?).map value := by
  have same : items.filter (fun item => (write item address).isSome) = items.filter covers := by
    apply List.filter_congr
    intro item member
    rw [written item member]
    cases covers item <;> rfl
  rw [lastWrite_map, same]
  cases last : (items.filter covers).getLast? with
  | none => rfl
  | some item =>
    have covered := List.mem_filter.mp (List.mem_of_getLast? last)
    rw [Option.bind_some, Option.map_some, written item covered.1, if_pos covered.2]

/-- The values the items write at one address, each with its time. -/
def stamped {τ : Type*} (stamp : ι → τ) (write : ι → α → Option β) (items : List ι) (address : α) :
    List (τ × β) :=
  items.filterMap (fun item => (write item address).map (fun value => (stamp item, value)))

theorem stamped_append_singleton {τ : Type*} (stamp : ι → τ) (write : ι → α → Option β)
    (items : List ι) (item : ι) (address : α) :
    stamped stamp write (items ++ [item]) address =
      stamped stamp write items address ++
        ((write item address).map (fun value => (stamp item, value))).toList := by
  cases covered : write item address with
  | none => simp [stamped, covered]
  | some value => simp [stamped, covered]

private theorem stamped_ordered {τ : Type*} [LinearOrder τ] (stamp : ι → τ)
    (write : ι → α → Option β) (items : List ι) (address : α)
    (ordered : items.Pairwise (fun a b => stamp a ≤ stamp b)) :
    (stamped stamp write items address).Pairwise (fun a b => a.1 ≤ b.1) := by
  refine List.Pairwise.filterMap _ ?_ ordered
  intro first second before timed isTimed other isOther
  obtain ⟨_, -, rfl⟩ := Option.map_eq_some_iff.mp isTimed
  obtain ⟨_, -, rfl⟩ := Option.map_eq_some_iff.mp isOther
  exact before

private theorem lastBy_stamped {τ : Type*} [LinearOrder τ] (stamp : ι → τ)
    (write : ι → α → Option β) (items : List ι) (address : α) (time : τ) :
    lastBy time (stamped stamp write items address) =
      lastWrite ((items.filter (fun item => stamp item ≤ time)).map write) address := by
  induction items using List.reverseRecOn with
  | nil => rfl
  | append_singleton front item ih =>
    rw [stamped_append_singleton, List.filter_append]
    by_cases early : stamp item ≤ time
    · cases covered : write item address with
      | none => simp [early, lastWrite_append_singleton, covered, ih]
      | some value =>
        simp [early, lastWrite_append_singleton, covered, lastBy_append_singleton]
    · cases covered : write item address with
      | none => simp [early, ih]
      | some value => simp [early, lastBy_append_singleton, ih]

/-- A cell that recorded the writes at its address, in time order, answers with the last write
stamped no later than the time asked for. -/
theorem asOf_stamped {τ : Type*} [LinearOrder τ] (stamp : ι → τ) (write : ι → α → Option β)
    (items : List ι) (address : α) (time : τ)
    (ordered : items.Pairwise (fun a b => stamp a ≤ stamp b)) :
    ((empty : Timeline τ β).record (stamped stamp write items address)).asOf time =
      lastWrite ((items.filter (fun item => stamp item ≤ time)).map write) address := by
  rw [asOf_record_empty _ _ (stamped_ordered stamp write items address ordered), lastBy_stamped]

end Writes

end Qira.Library.Overwrites
