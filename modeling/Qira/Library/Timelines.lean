import Mathlib

/-!
One cell whose earlier values stay readable. A timeline keeps its entries strictly ordered by time,
so a second value at the same time replaces the first, and `asOf` answers what the cell held at a
given time: the value of the last entry not after it.
-/

namespace Qira.Library.Timelines

/-- Insert at the ordered place, replacing an entry of the same time. -/
def insertEntry {τ α : Type*} [LinearOrder τ] (time : τ) (value : α) : List (τ × α) → List (τ × α)
  | [] => [(time, value)]
  | entry :: tail =>
      if time < entry.1 then (time, value) :: entry :: tail
      else if time = entry.1 then (time, value) :: tail
      else entry :: insertEntry time value tail

section Entries
variable {τ α : Type*} [LinearOrder τ]

theorem mem_insertEntry (time : τ) (value : α) (entries : List (τ × α))
    (sorted : entries.Pairwise (fun a b => a.1 < b.1)) (entry : τ × α) :
    entry ∈ insertEntry time value entries ↔
      entry = (time, value) ∨ (entry ∈ entries ∧ entry.1 ≠ time) := by
  induction entries with
  | nil => simp [insertEntry]
  | cons head tail ih =>
    have later := (List.pairwise_cons.mp sorted).1
    have rest := ih (List.pairwise_cons.mp sorted).2
    unfold insertEntry
    split_ifs with before same
    · have others : ∀ e ∈ head :: tail, e.1 ≠ time := by
        intro e member
        rcases List.mem_cons.mp member with rfl | inTail
        · exact before.ne'
        · exact (before.trans (later e inTail)).ne'
      rw [List.mem_cons]
      constructor
      · rintro (new | old)
        · exact Or.inl new
        · exact Or.inr ⟨old, others entry old⟩
      · rintro (new | ⟨old, -⟩)
        · exact Or.inl new
        · exact Or.inr old
    · subst same
      rw [List.mem_cons]
      constructor
      · rintro (new | old)
        · exact Or.inl new
        · exact Or.inr ⟨List.mem_cons_of_mem _ old, (later entry old).ne'⟩
      · rintro (new | ⟨old, different⟩)
        · exact Or.inl new
        · rcases List.mem_cons.mp old with rfl | inTail
          · exact absurd rfl different
          · exact Or.inr inTail
    · rw [List.mem_cons, rest, List.mem_cons]
      constructor
      · rintro (rfl | new | ⟨old, different⟩)
        · exact Or.inr ⟨Or.inl rfl, fun equal => same equal.symm⟩
        · exact Or.inl new
        · exact Or.inr ⟨Or.inr old, different⟩
      · rintro (new | ⟨rfl | old, different⟩)
        · exact Or.inr (Or.inl new)
        · exact Or.inl rfl
        · exact Or.inr (Or.inr ⟨old, different⟩)

theorem insertEntry_sorted (time : τ) (value : α) (entries : List (τ × α))
    (sorted : entries.Pairwise (fun a b => a.1 < b.1)) :
    (insertEntry time value entries).Pairwise (fun a b => a.1 < b.1) := by
  induction entries with
  | nil => simp [insertEntry]
  | cons head tail ih =>
    obtain ⟨later, tailSorted⟩ := List.pairwise_cons.mp sorted
    unfold insertEntry
    split_ifs with before same
    · refine List.pairwise_cons.mpr ⟨?_, sorted⟩
      intro e member
      rcases List.mem_cons.mp member with rfl | inTail
      · exact before
      · exact before.trans (later e inTail)
    · exact List.pairwise_cons.mpr ⟨fun e member => same ▸ later e member, tailSorted⟩
    · refine List.pairwise_cons.mpr ⟨?_, ih tailSorted⟩
      intro e member
      rcases (mem_insertEntry time value tail tailSorted e).mp member with rfl | ⟨inTail, -⟩
      · exact lt_of_le_of_ne (not_lt.mp before) (fun equal => same equal.symm)
      · exact later e inTail

end Entries

/-- The history of one cell, strictly ordered by time. -/
@[ext] structure Timeline (τ α : Type*) [LinearOrder τ] where
  entries : List (τ × α)
  sorted : entries.Pairwise (fun a b => a.1 < b.1)

/-- Where an item that passes has only passing items before it, those passing are a prefix. -/
theorem takeWhile_eq_filter {ι : Type*} (passes : ι → Bool) (items : List ι)
    (down : items.Pairwise (fun a b => passes b = true → passes a = true)) :
    items.takeWhile passes = items.filter passes := by
  induction items with
  | nil => rfl
  | cons head tail ih =>
    obtain ⟨later, tailDown⟩ := List.pairwise_cons.mp down
    by_cases early : passes head = true
    · simp [early, ih tailDown]
    · have dropped : tail.filter passes = [] := by
        apply List.filter_eq_nil_iff.mpr
        intro item member inTail
        exact early (later item member inTail)
      simp [early, dropped]

/-- Of items in time order, those not after a time, in particular. -/
theorem takeWhile_le_eq_filter {ι τ : Type*} [LinearOrder τ] (stamp : ι → τ) (time : τ)
    (items : List ι) (ordered : items.Pairwise (fun a b => stamp a ≤ stamp b)) :
    items.takeWhile (fun item => stamp item ≤ time) =
      items.filter (fun item => stamp item ≤ time) := by
  apply takeWhile_eq_filter _ items (ordered.imp _)
  intro a b below early
  exact decide_eq_true (below.trans (of_decide_eq_true early))

section Operations
variable {τ α : Type*} [LinearOrder τ]

def empty : Timeline τ α := ⟨[], List.Pairwise.nil⟩

/-- Set the value at one time. -/
def Timeline.put (cell : Timeline τ α) (time : τ) (value : α) : Timeline τ α :=
  ⟨insertEntry time value cell.entries, insertEntry_sorted time value cell.entries cell.sorted⟩

/-- The entry before the first one later than `time`. -/
def Timeline.asOf (cell : Timeline τ α) (time : τ) : Option α :=
  ((cell.entries.takeWhile (fun entry => entry.1 ≤ time)).getLast?).map Prod.snd

theorem mem_put (cell : Timeline τ α) (time : τ) (value : α) (entry : τ × α) :
    entry ∈ (cell.put time value).entries ↔
      entry = (time, value) ∨ (entry ∈ cell.entries ∧ entry.1 ≠ time) :=
  mem_insertEntry time value cell.entries cell.sorted entry

theorem asOf_empty (time : τ) : (empty : Timeline τ α).asOf time = none := rfl

private theorem getLast_eq_some_iff (entries : List (τ × α)) (entry : τ × α)
    (sorted : entries.Pairwise (fun a b => a.1 < b.1)) :
    entries.getLast? = some entry ↔ entry ∈ entries ∧ ∀ e ∈ entries, e.1 ≤ entry.1 := by
  rcases List.eq_nil_or_concat' entries with rfl | ⟨front, last, rfl⟩
  · simp
  · have below := (List.pairwise_append.mp sorted).2.2
    rw [List.getLast?_concat, Option.some.injEq]
    constructor
    · rintro rfl
      refine ⟨by simp, ?_⟩
      intro e member
      rcases List.mem_append.mp member with inFront | isLast
      · exact (below e inFront last (by simp)).le
      · rw [List.mem_singleton.mp isLast]
    · rintro ⟨member, greatest⟩
      rcases List.mem_append.mp member with inFront | isLast
      · have strict := below entry inFront last (by simp)
        exact absurd (greatest last (by simp)) (not_le.mpr strict)
      · exact (List.mem_singleton.mp isLast).symm

/-- `asOf` returns the value of the latest entry not after `time`. -/
theorem asOf_eq_some_iff (cell : Timeline τ α) (time : τ) (value : α) :
    cell.asOf time = some value ↔ ∃ stamp, (stamp, value) ∈ cell.entries ∧ stamp ≤ time ∧
      ∀ entry ∈ cell.entries, entry.1 ≤ time → entry.1 ≤ stamp := by
  have kept : (cell.entries.filter (fun entry => entry.1 ≤ time)).Pairwise
      (fun a b => a.1 < b.1) := cell.sorted.sublist List.filter_sublist
  unfold Timeline.asOf
  rw [takeWhile_le_eq_filter Prod.fst _ _ (cell.sorted.imp le_of_lt), Option.map_eq_some_iff]
  constructor
  · rintro ⟨⟨stamp, held⟩, last, rfl⟩
    obtain ⟨member, greatest⟩ := (getLast_eq_some_iff _ _ kept).mp last
    simp only [List.mem_filter, decide_eq_true_eq] at member greatest
    exact ⟨stamp, member.1, member.2, fun entry inside early => greatest entry ⟨inside, early⟩⟩
  · rintro ⟨stamp, member, early, greatest⟩
    refine ⟨(stamp, value), (getLast_eq_some_iff _ _ kept).mpr ⟨?_, ?_⟩, rfl⟩
    · simpa using And.intro member early
    · intro entry inside
      simp only [List.mem_filter, decide_eq_true_eq] at inside
      exact greatest entry inside.1 inside.2

theorem asOf_isSome_iff (cell : Timeline τ α) (time : τ) :
    (cell.asOf time).isSome ↔ ∃ entry ∈ cell.entries, entry.1 ≤ time := by
  unfold Timeline.asOf
  rw [takeWhile_le_eq_filter Prod.fst _ _ (cell.sorted.imp le_of_lt), Option.isSome_map,
    Option.isSome_iff_ne_none, ne_eq, List.getLast?_eq_none_iff, List.filter_eq_nil_iff]
  simp

/-- A value set at `time` is what the cell holds from then on, up to the next entry. -/
theorem asOf_put_newest (cell : Timeline τ α) (time later : τ) (value : α) (after : time ≤ later)
    (newest : ∀ entry ∈ cell.entries, entry.1 ≤ later → entry.1 ≤ time) :
    (cell.put time value).asOf later = some value := by
  refine (asOf_eq_some_iff _ _ _).mpr ⟨time, (mem_put ..).mpr (Or.inl rfl), after, ?_⟩
  intro entry member early
  rcases (mem_put ..).mp member with rfl | ⟨old, -⟩
  · exact le_rfl
  · exact newest entry old early

theorem asOf_put_self (cell : Timeline τ α) (time : τ) (value : α) :
    (cell.put time value).asOf time = some value :=
  asOf_put_newest cell time time value le_rfl (fun _ _ early => early)

/-- The past is not rewritten. -/
theorem asOf_put_before (cell : Timeline τ α) (time earlier : τ) (value : α)
    (before : earlier < time) : (cell.put time value).asOf earlier = cell.asOf earlier := by
  apply Option.ext
  intro held
  rw [asOf_eq_some_iff, asOf_eq_some_iff]
  have same : ∀ entry : τ × α, entry.1 ≤ earlier →
      (entry ∈ (cell.put time value).entries ↔ entry ∈ cell.entries) := by
    intro entry early
    have different : entry.1 ≠ time := (early.trans_lt before).ne
    rw [mem_put]
    constructor
    · rintro (rfl | ⟨old, -⟩)
      · exact absurd rfl different
      · exact old
    · exact fun old => Or.inr ⟨old, different⟩
  constructor
  · rintro ⟨stamp, member, early, greatest⟩
    exact ⟨stamp, (same _ early).mp member, early,
      fun entry inside first => greatest entry ((same _ first).mpr inside) first⟩
  · rintro ⟨stamp, member, early, greatest⟩
    exact ⟨stamp, (same _ early).mpr member, early,
      fun entry inside first => greatest entry ((same _ first).mp inside) first⟩

/-- Set a sequence of timed values, in order. -/
def Timeline.record (cell : Timeline τ α) (writes : List (τ × α)) : Timeline τ α :=
  writes.foldl (fun cell write => cell.put write.1 write.2) cell

/-- The last of a sequence of timed values that is not after `time`. -/
def lastBy (time : τ) (writes : List (τ × α)) : Option α :=
  ((writes.filter (fun write => write.1 ≤ time)).getLast?).map Prod.snd

theorem lastBy_append_singleton (time : τ) (front : List (τ × α)) (last : τ × α) :
    lastBy time (front ++ [last]) = if last.1 ≤ time then some last.2 else lastBy time front := by
  by_cases early : last.1 ≤ time
  · simp [lastBy, List.filter_append, early]
  · simp [lastBy, List.filter_append, early]

theorem record_append (cell : Timeline τ α) (first second : List (τ × α)) :
    cell.record (first ++ second) = (cell.record first).record second :=
  List.foldl_append

/-- A cell is empty only if nothing was ever set. -/
theorem record_entries_eq_nil_iff (cell : Timeline τ α) (writes : List (τ × α)) :
    (cell.record writes).entries = [] ↔ cell.entries = [] ∧ writes = [] := by
  induction writes generalizing cell with
  | nil => simp [Timeline.record]
  | cons write rest ih =>
    change ((cell.put write.1 write.2).record rest).entries = [] ↔ _
    rw [ih]
    have present : (cell.put write.1 write.2).entries ≠ [] :=
      List.ne_nil_of_mem ((mem_put ..).mpr (Or.inl rfl))
    simp [present]

theorem mem_record (cell : Timeline τ α) (writes : List (τ × α)) (entry : τ × α)
    (member : entry ∈ (cell.record writes).entries) :
    entry ∈ cell.entries ∨ entry ∈ writes := by
  induction writes generalizing cell with
  | nil => exact Or.inl member
  | cons write rest ih =>
    rcases ih (cell.put write.1 write.2) member with inCell | inRest
    · rcases (mem_put ..).mp inCell with rfl | ⟨old, -⟩
      · exact Or.inr List.mem_cons_self
      · exact Or.inl old
    · exact Or.inr (List.mem_cons_of_mem _ inRest)

/-- Values recorded in time order are read back as the last one not after the time asked for. -/
theorem asOf_record (cell : Timeline τ α) (writes : List (τ × α)) (time : τ)
    (ordered : writes.Pairwise (fun a b => a.1 ≤ b.1))
    (later : ∀ entry ∈ cell.entries, ∀ write ∈ writes, entry.1 ≤ write.1) :
    (cell.record writes).asOf time = (lastBy time writes).or (cell.asOf time) := by
  induction writes using List.reverseRecOn with
  | nil => simp [Timeline.record, lastBy]
  | append_singleton front last ih =>
    obtain ⟨frontOrdered, -, below⟩ := List.pairwise_append.mp ordered
    have frontRead := ih frontOrdered
      (fun entry inside write member => later entry inside write (List.mem_append_left _ member))
    have grown : cell.record (front ++ [last]) = (cell.record front).put last.1 last.2 :=
      record_append cell front [last]
    rw [grown, lastBy_append_singleton]
    by_cases early : last.1 ≤ time
    · rw [if_pos early, Option.some_or]
      apply asOf_put_newest _ _ _ _ early
      intro entry member _
      rcases mem_record cell front entry member with inCell | inFront
      · exact later entry inCell last (by simp)
      · exact below entry inFront last (by simp)
    · rw [if_neg early, asOf_put_before _ _ _ _ (not_le.mp early), frontRead]

theorem asOf_record_empty (writes : List (τ × α)) (time : τ)
    (ordered : writes.Pairwise (fun a b => a.1 ≤ b.1)) :
    ((empty : Timeline τ α).record writes).asOf time = lastBy time writes := by
  rw [asOf_record _ _ _ ordered (by simp [empty]), asOf_empty, Option.or_none]

/-- Later writes that come before the last entry, or after the time asked for, do not count. -/
theorem asOf_record_of_last (cell : Timeline τ α) (writes : List (τ × α)) (stamp time : τ) (value : α)
    (member : (stamp, value) ∈ cell.entries) (early : stamp ≤ time)
    (greatest : ∀ entry ∈ cell.entries, entry.1 ≤ time → entry.1 ≤ stamp)
    (behind : ∀ write ∈ writes, write.1 ≤ time → write.1 < stamp) :
    (cell.record writes).asOf time = some value := by
  induction writes generalizing cell with
  | nil => exact (asOf_eq_some_iff ..).mpr ⟨stamp, member, early, greatest⟩
  | cons write rest ih =>
    have other : stamp ≠ write.1 := by
      rintro rfl
      exact absurd (behind write List.mem_cons_self early) (lt_irrefl _)
    refine ih (cell.put write.1 write.2) ((mem_put ..).mpr (Or.inr ⟨member, other⟩)) ?_
      (fun later inRest => behind later (List.mem_cons_of_mem _ inRest))
    intro entry inside notAfter
    rcases (mem_put ..).mp inside with rfl | ⟨old, -⟩
    · exact (behind write List.mem_cons_self notAfter).le
    · exact greatest entry old notAfter

/-- Values recorded in any order: of those not after `time`, the last one with the greatest time is read
back. -/
theorem asOf_record_last (front back : List (τ × α)) (stamp time : τ) (value : α) (early : stamp ≤ time)
    (before : ∀ write ∈ front, write.1 ≤ time → write.1 ≤ stamp)
    (behind : ∀ write ∈ back, write.1 ≤ time → write.1 < stamp) :
    ((empty : Timeline τ α).record (front ++ (stamp, value) :: back)).asOf time = some value := by
  rw [record_append]
  refine asOf_record_of_last ((empty.record front).put stamp value) back stamp time value
    ((mem_put ..).mpr (Or.inl rfl)) early ?_ behind
  intro entry inside notAfter
  rcases (mem_put ..).mp inside with rfl | ⟨old, -⟩
  · exact le_rfl
  · exact before entry ((mem_record _ front entry old).resolve_left (List.not_mem_nil)) notAfter

/-- Values all recorded at one time: the last of them is what the cell then holds. -/
theorem asOf_record_same (cell : Timeline τ α) (time : τ) (values : List α) :
    (cell.record (values.map (fun value => (time, value)))).asOf time =
      values.getLast?.or (cell.asOf time) := by
  induction values using List.reverseRecOn with
  | nil => rfl
  | append_singleton front value _ =>
    rw [List.map_append, record_append, List.getLast?_concat, Option.some_or]
    exact asOf_put_self _ time value

end Operations

end Qira.Library.Timelines
