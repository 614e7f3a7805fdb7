import Qira.DynamicBlocks
import Qira.Library.Repetitions

/-!
Loops in a trace of blocks. Three or more copies of a sequence of blocks are a loop, of which one copy is left, until
there are no loops. The changelist a loop is said to end with is taken from the block behind it.
-/

namespace Qira.LoopCollapsing
open DynamicBlocks Library.Repetitions Library.PartialMaps

def hex (a : Int) : String := (if a < 0 then "-0x" else "0x") ++ String.ofList (Nat.toDigits 16 a.natAbs)

/-- What tells blocks apart. -/
def blockName (start stop : Int) : String := hex start ++ "-" ++ hex stop

structure RealBlock where
  start : Int
  stop : Int
  idx : Nat
  deriving DecidableEq

/-- The variables of the first loop of `do_loop_analysis`. -/
structure Numbering where
  arr : List String
  realblocks : List RealBlock
  realtrace : List Nat

def Numbering.block (n : Numbering) (b : Block) : Numbering :=
  let h := blockName b.start b.stop
  let n := if h ∈ n.arr then n else
    { n with arr := n.arr ++ [h], realblocks := n.realblocks ++ [⟨b.start, b.stop, n.realblocks.length⟩] }
  { n with realtrace := n.realtrace ++ [n.arr.idxOf h] }

def numbering (blocks : List Block) : Numbering := blocks.foldl Numbering.block ⟨[], [], []⟩

structure Loop where
  clstart : Nat
  clendone : Nat
  clend : Nat
  blockstart : Nat
  blockend : Nat
  count : Nat
  deriving DecidableEq

/-- The variables of the second loop. -/
structure Collapsing where
  bb : List Nat
  ab : List Nat
  loops : List Loop

/-- Something must run three times to make it a loop. -/
def IsLoop (bb : List Nat) (i j : Nat) : Prop :=
  slice bb i (i + j) = slice bb (i + j) (i + j * 2) ∧ slice bb i (i + j) = slice bb (i + j * 2) (i + j * 3)
  deriving Decidable

/-- The first `i`, and for it the first `j` of `range(1,i)`, that make a loop. -/
def findLoop (bb : List Nat) : Option (Nat × Nat) :=
  ((List.range bb.length).flatMap (fun i => (List.range' 1 (i - 1)).map (fun j => (i, j)))).find?
    (fun loop => IsLoop bb loop.1 loop.2)

theorem mem_places {length i j : Nat} :
    (i, j) ∈ (List.range length).flatMap (fun i => (List.range' 1 (i - 1)).map (fun j => (i, j))) ↔
      i < length ∧ 1 ≤ j ∧ j < i := by
  simp only [List.mem_flatMap, List.mem_range, List.mem_map, List.mem_range'_1, Prod.mk.injEq]
  constructor
  · rintro ⟨_, inside, _, between, rfl, rfl⟩
    exact ⟨inside, between.1, by omega⟩
  · rintro ⟨inside, positive, below⟩
    exact ⟨i, inside, j, ⟨positive, by omega⟩, rfl, rfl⟩

theorem findLoop_some {bb : List Nat} {i j : Nat} (found : findLoop bb = some (i, j)) :
    i < bb.length ∧ 1 ≤ j ∧ j < i ∧ IsLoop bb i j := by
  obtain ⟨inside, positive, below⟩ := mem_places.mp (List.mem_of_find?_eq_some found)
  have loop := @List.find?_some _ (fun loop : Nat × Nat => decide (IsLoop bb loop.1 loop.2)) _ _ found
  exact ⟨inside, positive, below, of_decide_eq_true loop⟩

theorem findLoop_eq_none {bb : List Nat} :
    findLoop bb = none ↔ ∀ i j, i < bb.length → 1 ≤ j → j < i → ¬ IsLoop bb i j := by
  rw [findLoop, List.find?_eq_none]
  constructor
  · intro none i j inside positive below loop
    exact none (i, j) (mem_places.mpr ⟨inside, positive, below⟩) (decide_eq_true loop)
  · rintro none ⟨i, j⟩ place loop
    obtain ⟨inside, positive, below⟩ := mem_places.mp place
    exact none i j inside positive below (of_decide_eq_true loop)

/-- `while bb[i+j*loopcnt:i+j*(loopcnt+1)] == bb[i:i+j]: loopcnt += 1` -/
def countLoop (bb : List Nat) (i j : Nat) (inside : i < bb.length) (positive : 1 ≤ j) (loopcnt : Nat) : Nat :=
  if slice bb (i + j * loopcnt) (i + j * (loopcnt + 1)) = slice bb i (i + j) then
    countLoop bb i j inside positive (loopcnt + 1)
  else loopcnt
termination_by bb.length - (i + j * loopcnt)
decreasing_by
  rename_i again
  have lengths := congrArg List.length again
  rw [Nat.mul_succ, ← Nat.add_assoc, length_slice_add, length_slice_add] at lengths
  rw [Nat.mul_succ]
  omega

/-- `blocks[ab[k]]` -/
def blockAt (blocks : List Block) (ab : List Nat) (k : Nat) : Option Block := ab[k]?.bind (fun idx => blocks[idx]?)

/-- What is documented of a loop; `none` is an `IndexError`. -/
def document (blocks : List Block) (ab : List Nat) (i j loopcnt : Nat) : Option Loop :=
  ab[i]?.bind (fun blockstart => (blockAt blocks ab i).bind (fun first => (blockAt blocks ab (i + j - 1)).bind (fun one =>
    (blockAt blocks ab (i + j * loopcnt)).map (fun last =>
      { clstart := first.clstart
        clendone := one.clend
        clend := last.clend
        blockstart
        blockend := blockstart + j - 1
        count := loopcnt }))))

/-- The body of the second loop where there is a loop of `j` blocks at `i`. -/
def Collapsing.removeLoop (blocks : List Block) (s : Collapsing) (i j : Nat) (inside : i < s.bb.length)
    (positive : 1 ≤ j) : Option Collapsing :=
  let loopcnt := countLoop s.bb i j inside positive 1
  (document blocks s.ab i j loopcnt).map (fun loop =>
    { bb := Library.Repetitions.collapse s.bb i j loopcnt
      ab := Library.Repetitions.collapse s.ab i j loopcnt
      loops := s.loops ++ [loop] })

section Counting
variable {bb : List Nat} {i j : Nat}

theorem IsLoop.inside (loop : IsLoop bb i j) (inside : i < bb.length) (positive : 1 ≤ j) :
    i + j * 3 ≤ bb.length := by
  have first := congrArg List.length loop.1
  have second := congrArg List.length loop.2
  rw [show i + j * 2 = i + j + j by ring] at first second
  rw [show i + j * 3 = i + j + j + j by ring] at second ⊢
  rw [length_slice_add, length_slice_add] at first second
  omega

/-- The count is how many copies there are. -/
theorem countLoop_spec (inside : i < bb.length) (positive : 1 ≤ j) (loopcnt : Nat) :
    let n := countLoop bb i j inside positive loopcnt
    loopcnt ≤ n ∧
      (∀ m, loopcnt ≤ m → m < n → slice bb (i + j * m) (i + j * (m + 1)) = slice bb i (i + j)) ∧
      slice bb (i + j * n) (i + j * (n + 1)) ≠ slice bb i (i + j) := by
  induction loopcnt using countLoop.induct bb i j inside positive with
  | case1 loopcnt again ih =>
    rw [countLoop, if_pos again]
    obtain ⟨more, same, ends⟩ := ih
    refine ⟨Nat.le_of_succ_le more, fun m from_here few => ?_, ends⟩
    rcases Nat.eq_or_lt_of_le from_here with rfl | later
    · exact again
    · exact same m later few
  | case2 loopcnt ends =>
    rw [countLoop, if_neg ends]
    exact ⟨le_rfl, fun m from_here few => absurd few (Nat.not_lt.mpr from_here), ends⟩

theorem repeats_countLoop (loop : IsLoop bb i j) (inside : i < bb.length) (positive : 1 ≤ j) :
    3 ≤ countLoop bb i j inside positive 1 ∧ Repeats bb i j (countLoop bb i j inside positive 1) := by
  obtain ⟨some, same, ends⟩ := countLoop_spec inside positive 1
  obtain ⟨n, count⟩ : ∃ n, n = countLoop bb i j inside positive 1 := ⟨_, rfl⟩
  rw [← count] at some same ends ⊢
  have room := loop.inside inside positive
  have three : 3 ≤ n := by
    by_contra few
    have two : n = 1 ∨ n = 2 := by omega
    rcases two with rfl | rfl
    · exact ends (by rw [Nat.mul_one]; exact loop.1.symm)
    · exact ends loop.2.symm
  refine ⟨three, ?_, fun m few => ?_⟩
  · have last := congrArg List.length (same (n - 1) (by omega) (by omega))
    have step : j * (n - 1) + j = j * n := mul_pred_add j (by omega)
    rw [Nat.sub_add_cancel (by omega), ← step, ← Nat.add_assoc, length_slice_add, length_slice_add] at last
    omega
  · rcases Nat.eq_zero_or_pos m with rfl | positive'
    · rw [Nat.mul_zero, Nat.zero_add, Nat.mul_one, Nat.add_zero]
    · exact same m positive' few

end Counting

theorem Collapsing.removeLoop_some {blocks : List Block} {s t : Collapsing} {i j : Nat} {inside : i < s.bb.length}
    {positive : 1 ≤ j} (removed : s.removeLoop blocks i j inside positive = some t) :
    ∃ loop, document blocks s.ab i j (countLoop s.bb i j inside positive 1) = some loop ∧
      t = ⟨collapse s.bb i j (countLoop s.bb i j inside positive 1),
        collapse s.ab i j (countLoop s.bb i j inside positive 1), s.loops ++ [loop]⟩ := by
  obtain ⟨loop, documented, rfl⟩ := Option.map_eq_some_iff.mp removed
  exact ⟨loop, documented, rfl⟩

/-- Each loop that is removed makes the trace shorter. -/
theorem Collapsing.removeLoop_shorter {blocks : List Block} {s t : Collapsing} {i j : Nat} {inside : i < s.bb.length}
    {positive : 1 ≤ j} (loop : IsLoop s.bb i j) (removed : s.removeLoop blocks i j inside positive = some t) :
    t.bb.length < s.bb.length := by
  obtain ⟨_, -, rfl⟩ := removeLoop_some removed
  obtain ⟨three, repeats⟩ := repeats_countLoop loop inside positive
  have length := length_collapse repeats.inside (by omega)
  have gone := Nat.mul_le_mul positive (show 1 ≤ countLoop s.bb i j inside positive 1 - 1 by omega)
  simp only
  omega

/-- The second loop of `do_loop_analysis`. -/
def collapseLoops (blocks : List Block) (s : Collapsing) : Option Collapsing :=
  match found : findLoop s.bb with
  | none => some s
  | some (i, j) =>
      have facts := findLoop_some found
      match _removed : s.removeLoop blocks i j facts.1 facts.2.1 with
      | none => none
      | some t => collapseLoops blocks t
termination_by s.bb.length
decreasing_by exact Collapsing.removeLoop_shorter facts.2.2.2 _removed

structure LoopAnalysis where
  ret : List (Block × Nat)
  loops : List Loop
  realblocks : List RealBlock
  realtrace : List Nat

/-- `do_loop_analysis`; `none` is an `IndexError`. -/
def doLoopAnalysis (blocks : List Block) : Option LoopAnalysis :=
  let n := numbering blocks
  (collapseLoops blocks ⟨n.realtrace, List.range blocks.length, []⟩).bind (fun s =>
    (s.ab.mapM (fun i => blocks[i]?.map (fun t => (t, i)))).map (fun ret =>
      { ret, loops := s.loops, realblocks := n.realblocks, realtrace := n.realtrace }))

/-- The loop that is removed next: where it is, how long it is and how often it runs. -/
def removal (bb : List Nat) : Option (Nat × Nat × Nat) :=
  match found : findLoop bb with
  | none => none
  | some (i, j) => some (i, j, countLoop bb i j (findLoop_some found).1 (findLoop_some found).2.1 1)

/-- The record of `n` runs of `j` blocks from `i` on, of the blocks that are left. -/
structure Recorded (blocks : List Block) (ab : List Nat) (i j n : Nat) (loop : Loop) : Prop where
  count : loop.count = n
  start : ab[i]? = some loop.blockstart
  stop : loop.blockend = loop.blockstart + j - 1
  clstart : (blockAt blocks ab i).map Block.clstart = some loop.clstart
  clend : (blockAt blocks ab (i + j * n - 1)).map Block.clend = some loop.clend

/-- Removing the loops one by one, each with its record, leads from one sequence of blocks to another. -/
inductive Collapses (blocks : List Block) : List Nat → List Nat → List Loop → List Nat → List Nat → Prop
  | done (bb ab : List Nat) : Collapses blocks bb ab [] bb ab
  | loop {bb ab bb' ab' : List Nat} {loop : Loop} {loops : List Loop} (i j n : Nat) (positive : 1 ≤ j) (three : 3 ≤ n)
      (repeats : Repeats bb i j n) (recorded : Recorded blocks ab i j n loop)
      (rest : Collapses blocks (collapse bb i j n) (collapse ab i j n) loops bb' ab') :
      Collapses blocks bb ab (loop :: loops) bb' ab'

/-- Expands the loops, the last one first. -/
def expandLoops : List Loop → List Nat → List Nat → List Nat
  | [], _, bb => bb
  | loop :: rest, ab, bb =>
      let i := ab.idxOf loop.blockstart
      let j := loop.blockend + 1 - loop.blockstart
      unroll (expandLoops rest (collapse ab i j loop.count) bb) i j loop.count

/-- How many blocks the records take out. -/
def removed (loops : List Loop) : Nat :=
  (loops.map (fun loop => (loop.blockend + 1 - loop.blockstart) * (loop.count - 1))).sum

/-- The trace that the blocks left and the loops stand for. -/
def LoopAnalysis.restore (a : LoopAnalysis) : List Nat :=
  expandLoops a.loops (List.range (a.ret.length + removed a.loops))
    (a.ret.map (fun t => (a.realblocks.map (fun r => blockName r.start r.stop)).idxOf (blockName t.1.start t.1.stop)))

/-- The analysis returns, its records are right, and nothing is lost. -/
def Sound (blocks : List Block) : Prop :=
  ∃ a, doLoopAnalysis blocks = some a ∧
    (∃ bb ab, Collapses blocks a.realtrace (List.range blocks.length) a.loops bb ab ∧
      a.ret.map (fun t => (some t.1, t.2)) = ab.map (fun i => (blocks[i]?, i))) ∧
    a.restore = a.realtrace

/-- One loop is removed. -/
def Removes (s t : List Nat × List Nat) : Prop :=
  ∃ i j n, removal s.1 = some (i, j, n) ∧ t = (collapse s.1 i j n, collapse s.2 i j n)

/-- There is a block behind the loop, and it ends with the same changelist. -/
def Followed (blocks : List Block) (ab : List Nat) (i j n : Nat) : Prop :=
  ∃ last next, blockAt blocks ab (i + j * n - 1) = some last ∧ blockAt blocks ab (i + j * n) = some next ∧
    next.clend = last.clend

/-- All loops that are removed are followed so. -/
def AllFollowed (blocks : List Block) (bb ab : List Nat) : Prop :=
  ∀ left, Relation.ReflTransGen Removes (bb, ab) left → ∀ i j n, removal left.1 = some (i, j, n) →
    Followed blocks left.2 i j n

theorem removal_some {bb : List Nat} {i j n : Nat} (found : removal bb = some (i, j, n)) :
    1 ≤ j ∧ j < i ∧ IsLoop bb i j ∧ 3 ≤ n ∧ Repeats bb i j n := by
  unfold removal at found
  split at found
  next => cases found
  next i' j' place =>
    obtain ⟨rfl, same⟩ := Prod.mk.inj (Option.some.inj found)
    obtain ⟨rfl, rfl⟩ := Prod.mk.inj same
    obtain ⟨inside, positive, below, loop⟩ := findLoop_some place
    exact ⟨positive, below, loop, repeats_countLoop loop inside positive⟩

theorem removal_eq_none {bb : List Nat} :
    removal bb = none ↔ ∀ i j, i < bb.length → 1 ≤ j → j < i → ¬ IsLoop bb i j := by
  rw [← findLoop_eq_none]
  unfold removal
  split
  next none => exact iff_of_true rfl none
  next i j place => exact iff_of_false nofun (by rw [place]; exact nofun)

theorem collapseLoops_eq (blocks : List Block) (s : Collapsing) :
    collapseLoops blocks s =
      (removal s.bb).elim (some s) (fun loop =>
        (document blocks s.ab loop.1 loop.2.1 loop.2.2).bind (fun record =>
          collapseLoops blocks
            ⟨collapse s.bb loop.1 loop.2.1 loop.2.2, collapse s.ab loop.1 loop.2.1 loop.2.2, s.loops ++ [record]⟩)) := by
  rw [collapseLoops]
  unfold removal
  split
  next => rfl
  next i j place =>
    rw [Option.elim_some]
    dsimp only
    split
    next fails =>
      rw [Option.map_eq_none_iff.mp fails]
      rfl
    next t removed =>
      obtain ⟨loop, documented, rfl⟩ := Collapsing.removeLoop_some removed
      rw [documented]
      rfl

/-- A sequence of blocks that are left, by their numbers and by their places in the trace. -/
structure Left (blocks : List Block) (bb ab : List Nat) : Prop where
  nodup : ab.Nodup
  length : ab.length = bb.length
  inside : ∀ k ∈ ab, k < blocks.length

section Removing
variable {blocks : List Block} {bb ab : List Nat} {i j n : Nat}

theorem Left.collapse (left : Left blocks bb ab) (repeats : Repeats bb i j n) (some : 1 ≤ n) :
    Left blocks (collapse bb i j n) (collapse ab i j n) where
  nodup := left.nodup.sublist (collapse_sublist ab i j n some)
  length := by
    have length := length_collapse repeats.inside some
    have length' := length_collapse (left.length ▸ repeats.inside) some
    have same := left.length
    omega
  inside := fun k member => left.inside k ((collapse_sublist ab i j n some).subset member)

theorem Left.blockAt (left : Left blocks bb ab) (k : Nat) (inside : k < bb.length) :
    ∃ b, blockAt blocks ab k = some b := by
  have place := List.getElem?_eq_getElem (inside.trans_eq left.length.symm)
  have found := List.getElem?_eq_getElem (left.inside _ (List.mem_of_getElem? place))
  exact ⟨_, by rw [LoopCollapsing.blockAt, place, Option.bind_some, found]⟩

theorem document_some {loop : Loop} (documented : document blocks ab i j n = some loop) :
    loop.count = n ∧ ab[i]? = some loop.blockstart ∧ loop.blockend = loop.blockstart + j - 1 ∧
      (blockAt blocks ab i).map Block.clstart = some loop.clstart ∧
      (blockAt blocks ab (i + j * n)).map Block.clend = some loop.clend := by
  obtain ⟨blockstart, place, documented⟩ := Option.bind_eq_some_iff.mp documented
  obtain ⟨first, atFirst, documented⟩ := Option.bind_eq_some_iff.mp documented
  obtain ⟨one, -, documented⟩ := Option.bind_eq_some_iff.mp documented
  obtain ⟨last, atLast, rfl⟩ := Option.map_eq_some_iff.mp documented
  exact ⟨rfl, place, rfl, by rw [atFirst]; rfl, by rw [atLast]; rfl⟩

theorem Left.document (left : Left blocks bb ab) (repeats : Repeats bb i j n) (positive : 1 ≤ j) (some' : 1 ≤ n)
    {next : Block} (behind : LoopCollapsing.blockAt blocks ab (i + j * n) = some next) :
    ∃ loop, document blocks ab i j n = some loop := by
  have room := repeats.inside
  have one : j ≤ j * n := Nat.le_mul_of_pos_right j some'
  obtain ⟨first, atFirst⟩ := left.blockAt i (by omega)
  obtain ⟨last, atLast⟩ := left.blockAt (i + j - 1) (by omega)
  obtain ⟨blockstart, place, -⟩ := Option.bind_eq_some_iff.mp atFirst
  rw [LoopCollapsing.document, place, Option.bind_some, atFirst, Option.bind_some, atLast, Option.bind_some, behind]
  exact ⟨_, rfl⟩

/-- The record of a removed loop is right exactly if the block behind it ends with the same changelist. -/
theorem Left.recorded_iff (left : Left blocks bb ab) (repeats : Repeats bb i j n) (positive : 1 ≤ j) (some' : 1 ≤ n) :
    (∃ loop, LoopCollapsing.document blocks ab i j n = some loop ∧ Recorded blocks ab i j n loop) ↔
      Followed blocks ab i j n := by
  have room := repeats.inside
  have one : j ≤ j * n := Nat.le_mul_of_pos_right j some'
  obtain ⟨last, atLast⟩ := left.blockAt (i + j * n - 1) (by omega)
  constructor
  · rintro ⟨loop, documented, recorded⟩
    obtain ⟨next, behind, same⟩ := Option.map_eq_some_iff.mp (document_some documented).2.2.2.2
    refine ⟨last, next, atLast, behind, ?_⟩
    have ends := recorded.clend
    rw [atLast] at ends
    exact same.trans (Option.some.inj ends).symm
  · rintro ⟨last', next, atLast', behind, same⟩
    obtain ⟨loop, documented⟩ := left.document repeats positive some' behind
    obtain ⟨count, start, stop, clstart, clend⟩ := document_some documented
    refine ⟨loop, documented, count, start, stop, clstart, ?_⟩
    rw [atLast', Option.map_some, ← same, ← clend, behind]
    rfl

/-- A record tells where its loop was, how long it was and how often it ran. -/
theorem place_unique {i' j' n' : Nat} {loop : Loop} (nodup : ab.Nodup) (positive : 1 ≤ j) (positive' : 1 ≤ j')
    (documented : document blocks ab i j n = some loop) (recorded : Recorded blocks ab i' j' n' loop) :
    i = i' ∧ j = j' ∧ n = n' := by
  obtain ⟨count, start, stop, -, -⟩ := document_some documented
  refine ⟨?_, ?_, count.symm.trans recorded.count⟩
  · obtain ⟨inside, -⟩ := List.getElem?_eq_some_iff.mp start
    exact (List.getElem?_inj inside nodup).mp (start.trans recorded.start.symm)
  · have ends := stop.symm.trans recorded.stop
    omega

/-- Records are only added, and numbers and places stay together. -/
theorem collapseLoops_extends (s t : Collapsing) (analysed : collapseLoops blocks s = some t) :
    (∃ more, t.loops = s.loops ++ more) ∧ ∀ f : Nat → Nat, s.bb = s.ab.map f → t.bb = t.ab.map f := by
  induction length : s.bb.length using Nat.strong_induction_on generalizing s with
  | _ length ih =>
    rw [collapseLoops_eq] at analysed
    cases found : removal s.bb with
    | none =>
      rw [found] at analysed
      obtain rfl := Option.some.inj analysed
      exact ⟨⟨[], (List.append_nil _).symm⟩, fun f numbers => numbers⟩
    | some loop =>
      obtain ⟨i, j, n⟩ := loop
      rw [found] at analysed
      obtain ⟨record, -, analysed⟩ := Option.bind_eq_some_iff.mp analysed
      obtain ⟨positive, -, -, three, repeats⟩ := removal_some found
      have shorter := length_collapse repeats.inside (by omega)
      have gone := Nat.mul_le_mul positive (show 1 ≤ n - 1 by omega)
      obtain ⟨⟨more, extended⟩, kept⟩ := ih _ (by dsimp only; omega) _ analysed rfl
      refine ⟨⟨record :: more, by rw [extended, List.append_assoc, List.singleton_append]⟩, fun f numbers => kept f ?_⟩
      exact (congrArg (collapse · i j n) numbers).trans (map_collapse f s.ab i j n).symm

/-- What is left after some removals is followed by what is left after the next one. -/
theorem allFollowed_iff (found : removal bb = some (i, j, n)) :
    AllFollowed blocks bb ab ↔
      Followed blocks ab i j n ∧ AllFollowed blocks (collapse bb i j n) (collapse ab i j n) := by
  constructor
  · intro all
    exact ⟨all _ Relation.ReflTransGen.refl i j n found,
      fun left reached => all left (reached.head ⟨i, j, n, found, rfl⟩)⟩
  · rintro ⟨here, later⟩ left reached
    rcases Relation.ReflTransGen.cases_head reached with rfl | ⟨_, ⟨i', j', n', found', rfl⟩, reached⟩
    · intro i' j' n' found'
      obtain ⟨rfl, same⟩ := Prod.mk.inj (Option.some.inj (found.symm.trans found'))
      obtain ⟨rfl, rfl⟩ := Prod.mk.inj same
      exact here
    · obtain ⟨rfl, same⟩ := Prod.mk.inj (Option.some.inj (found.symm.trans found'))
      obtain ⟨rfl, rfl⟩ := Prod.mk.inj same
      exact later left reached

theorem allFollowed_of_none (found : removal bb = none) : AllFollowed blocks bb ab := by
  intro left reached i j n found'
  rcases Relation.ReflTransGen.cases_head reached with rfl | ⟨_, ⟨i', j', n', found', -⟩, -⟩
  · cases found.symm.trans found'
  · cases found.symm.trans found'

theorem collapses_iff (s : Collapsing) (left : Left blocks s.bb s.ab) :
    (∃ t loops, collapseLoops blocks s = some t ∧ t.loops = s.loops ++ loops ∧
      Collapses blocks s.bb s.ab loops t.bb t.ab) ↔ AllFollowed blocks s.bb s.ab := by
  induction length : s.bb.length using Nat.strong_induction_on generalizing s with
  | _ length ih =>
    rw [collapseLoops_eq]
    cases found : removal s.bb with
    | none => exact iff_of_true ⟨s, [], rfl, (List.append_nil _).symm, .done _ _⟩ (allFollowed_of_none found)
    | some loop =>
      obtain ⟨i, j, n⟩ := loop
      obtain ⟨positive, -, -, three, repeats⟩ := removal_some found
      have shorter := length_collapse repeats.inside (by omega)
      have gone := Nat.mul_le_mul positive (show 1 ≤ n - 1 by omega)
      have next : ∀ record, _ := fun record => ih (collapse s.bb i j n).length (by omega)
        ⟨collapse s.bb i j n, collapse s.ab i j n, s.loops ++ [record]⟩ (left.collapse repeats (by omega)) rfl
      rw [allFollowed_iff found, ← left.recorded_iff repeats positive (by omega)]
      constructor
      · rintro ⟨t, loops, analysed, extended, collapses⟩
        obtain ⟨record, documented, analysed⟩ := Option.bind_eq_some_iff.mp analysed
        obtain ⟨⟨more, extended'⟩, -⟩ := collapseLoops_extends _ t analysed
        obtain rfl : loops = record :: more := by
          rw [extended, List.append_assoc] at extended'
          exact List.append_cancel_left extended'
        cases collapses with
        | loop i' j' n' positive' three' repeats' recorded rest =>
          obtain ⟨rfl, rfl, rfl⟩ := place_unique left.nodup positive positive' documented recorded
          exact ⟨⟨record, documented, recorded⟩, (next record).mp ⟨t, more, analysed, extended', rest⟩⟩
      · rintro ⟨⟨record, documented, recorded⟩, all⟩
        obtain ⟨t, loops, analysed, extended, collapses⟩ := (next record).mpr all
        refine ⟨t, record :: loops, ?_, ?_, .loop i j n positive three repeats recorded collapses⟩
        · rw [Option.elim_some, documented]
          exact analysed
        · rw [extended, List.append_assoc, List.singleton_append]

end Removing

section Expanding
variable {blocks : List Block} {bb ab bb' ab' : List Nat} {loops : List Loop}

theorem expandLoops_of_collapses (collapses : Collapses blocks bb ab loops bb' ab') (nodup : ab.Nodup) :
    expandLoops loops ab bb' = bb := by
  induction collapses with
  | done => rfl
  | @loop bb ab bb' ab' record loops i j n positive three repeats recorded rest ih =>
    obtain ⟨inside, start⟩ := List.getElem?_eq_some_iff.mp recorded.start
    have place : ab.idxOf record.blockstart = i := start ▸ nodup.idxOf_getElem i inside
    have length : record.blockend + 1 - record.blockstart = j := by
      rw [recorded.stop]
      omega
    rw [expandLoops, place, length, recorded.count, ih (nodup.sublist (collapse_sublist ab i j n (by omega)))]
    exact unroll_collapse repeats (by omega)

theorem length_of_collapses (collapses : Collapses blocks bb ab loops bb' ab') :
    bb'.length + removed loops = bb.length := by
  induction collapses with
  | done => rfl
  | @loop bb ab bb' ab' record loops i j n positive three repeats recorded rest ih =>
    have length : record.blockend + 1 - record.blockstart = j := by
      rw [recorded.stop]
      omega
    have shorter := length_collapse repeats.inside (by omega)
    rw [removed, List.map_cons, List.sum_cons, length, recorded.count, ← removed]
    omega

/-- What the numbers say of the places, they say of those that are left. -/
theorem numbers_of_collapses (collapses : Collapses blocks bb ab loops bb' ab') {f : Nat → Nat}
    (numbers : bb = ab.map f) : bb' = ab'.map f := by
  induction collapses with
  | done => exact numbers
  | @loop bb ab bb' ab' record loops i j n positive three repeats recorded rest ih =>
    exact ih (by rw [numbers, map_collapse])

theorem inside_of_collapses (collapses : Collapses blocks bb ab loops bb' ab') : ∀ k ∈ ab', k ∈ ab := by
  induction collapses with
  | done => exact fun k member => member
  | @loop bb ab bb' ab' record loops i j n positive three repeats recorded rest ih =>
    exact fun k member => (collapse_sublist ab i j n (by omega)).subset (ih k member)

end Expanding

/-- The number of a block among those found. -/
def numberOf (realblocks : List RealBlock) (b : Block) : Nat :=
  (realblocks.map (fun r => blockName r.start r.stop)).idxOf (blockName b.start b.stop)

/-- The blocks are numbered by their names. -/
theorem numbering_spec (blocks : List Block) :
    (numbering blocks).arr = (numbering blocks).realblocks.map (fun r => blockName r.start r.stop) ∧
      (∀ b ∈ blocks, blockName b.start b.stop ∈ (numbering blocks).arr) ∧
      (numbering blocks).realtrace = blocks.map (numberOf (numbering blocks).realblocks) := by
  induction blocks using List.reverseRecOn with
  | nil => exact ⟨rfl, nofun, rfl⟩
  | append_singleton blocks b ih =>
    obtain ⟨names, known, trace⟩ := ih
    have next : numbering (blocks ++ [b]) = (numbering blocks).block b := List.foldl_concat ..
    rw [next, Numbering.block]
    by_cases old : blockName b.start b.stop ∈ (numbering blocks).arr
    · simp only [if_pos old]
      refine ⟨names, fun c member => ?_, ?_⟩
      · rcases List.mem_append.mp member with inside | new
        · exact known c inside
        · rw [List.mem_singleton.mp new]
          exact old
      · rw [List.map_append, trace, List.map_singleton, numberOf, names]
    · simp only [if_neg old, List.map_append, List.map_singleton, ← names]
      refine ⟨trivial, fun c member => List.mem_append.mpr ?_, ?_⟩
      · rcases List.mem_append.mp member with inside | new
        · exact .inl (known c inside)
        · rw [List.mem_singleton.mp new]
          exact .inr (List.mem_singleton_self _)
      · rw [trace]
        congr 1
        · apply List.map_congr_left
          intro c member
          rw [numberOf, numberOf, ← names, List.map_append, ← names, List.idxOf_append_of_mem (known c member)]
        · rw [numberOf, List.map_append, ← names]
          rfl

theorem places_of_ret {blocks : List Block} {ab : List Nat} {ret : List (Block × Nat)}
    (copied : ab.mapM (fun i => blocks[i]?.map (fun t => (t, i))) = some ret) : ret.map Prod.snd = ab := by
  have each := (mapM_eq_some_iff _ _ _).mp copied
  induction each with
  | nil => rfl
  | cons here later ih =>
    obtain ⟨b, -, rfl⟩ := Option.map_eq_some_iff.mp here
    rw [List.map_cons, ih ((mapM_eq_some_iff _ _ _).mpr later)]

theorem exists_ret {blocks : List Block} (ab : List Nat) (inside : ∀ k ∈ ab, k < blocks.length) :
    ∃ ret, ab.mapM (fun i => blocks[i]?.map (fun t => (t, i))) = some ret ∧
      ret.map (fun t => (some t.1, t.2)) = ab.map (fun i => (blocks[i]?, i)) := by
  induction ab with
  | nil => exact ⟨[], rfl, rfl⟩
  | cons k rest ih =>
    obtain ⟨ret, ran, same⟩ := ih fun i member => inside i (List.mem_cons_of_mem k member)
    obtain ⟨b, found⟩ : ∃ b, blocks[k]? = some b := ⟨_, List.getElem?_eq_getElem (inside k List.mem_cons_self)⟩
    refine ⟨(b, k) :: ret, ?_, ?_⟩
    · rw [List.mapM_cons, found, ran]
      rfl
    · rw [List.map_cons, List.map_cons, same, found]

theorem left_numbering (blocks : List Block) :
    Left blocks (numbering blocks).realtrace (List.range blocks.length) where
  nodup := List.nodup_range
  length := by rw [(numbering_spec blocks).2.2, List.length_map, List.length_range]
  inside := fun _ member => List.mem_range.mp member

/-- The numbers of the trace, by place. -/
def numberAt (blocks : List Block) (k : Nat) : Nat :=
  (blocks[k]?.map (numberOf (numbering blocks).realblocks)).getD 0

theorem realtrace_eq (blocks : List Block) :
    (numbering blocks).realtrace = (List.range blocks.length).map (numberAt blocks) := by
  rw [(numbering_spec blocks).2.2]
  apply List.ext_getElem (by simp)
  intro k inside _
  rw [List.length_map] at inside
  simp [numberAt, inside]

theorem sound_iff_collapses (blocks : List Block) :
    Sound blocks ↔ ∃ t loops,
      collapseLoops blocks ⟨(numbering blocks).realtrace, List.range blocks.length, []⟩ = some t ∧ t.loops = [] ++ loops ∧
        Collapses blocks (numbering blocks).realtrace (List.range blocks.length) loops t.bb t.ab := by
  have left := left_numbering blocks
  constructor
  · rintro ⟨a, analysed, ⟨bb, ab, collapses, same⟩, -⟩
    obtain ⟨t, collapsed, analysed⟩ := Option.bind_eq_some_iff.mp analysed
    obtain ⟨ret, copied, rfl⟩ := Option.map_eq_some_iff.mp analysed
    have numbers := (collapseLoops_extends _ t collapsed).2 (numberAt blocks) (realtrace_eq blocks)
    obtain rfl : t.ab = ab := by
      have places := congrArg (List.map Prod.snd) same
      rw [List.map_map, List.map_map] at places
      exact (places_of_ret copied).symm.trans (places.trans (List.map_id ab))
    have same' := (numbers_of_collapses collapses (realtrace_eq blocks)).trans numbers.symm
    exact ⟨t, t.loops, collapsed, rfl, same' ▸ collapses⟩
  · rintro ⟨t, loops, collapsed, extended, collapses⟩
    obtain ⟨ret, copied, same⟩ := exists_ret t.ab fun k member =>
      List.mem_range.mp (inside_of_collapses collapses k member)
    have analysed : doLoopAnalysis blocks =
        some ⟨ret, t.loops, (numbering blocks).realblocks, (numbering blocks).realtrace⟩ := by
      rw [doLoopAnalysis, collapsed, Option.bind_some, copied]
      rfl
    have extended : t.loops = loops := extended
    refine ⟨_, analysed, ⟨t.bb, t.ab, extended ▸ collapses, same⟩, ?_⟩
    have numbers := numbers_of_collapses collapses (realtrace_eq blocks)
    have numbered : ret.map (fun t => numberOf (numbering blocks).realblocks t.1) = t.bb := by
      have named := congrArg (List.map fun t => (t.1.map (numberOf (numbering blocks).realblocks)).getD 0) same
      rw [List.map_map, List.map_map] at named
      rw [numbers]
      exact named
    have length : ret.length + removed t.loops = blocks.length := by
      rw [← @List.length_range blocks.length, left.length, ← length_of_collapses collapses, ← numbered, List.length_map, extended]
    rw [LoopAnalysis.restore]
    dsimp only
    rw [length]
    exact (congrArg (expandLoops t.loops _) numbered).trans
      (expandLoops_of_collapses (extended ▸ collapses) left.nodup)

theorem sound_iff_allFollowed (blocks : List Block) :
    Sound blocks ↔ AllFollowed blocks (numbering blocks).realtrace (List.range blocks.length) :=
  (sound_iff_collapses blocks).trans
    (collapses_iff ⟨(numbering blocks).realtrace, List.range blocks.length, []⟩ (left_numbering blocks))

theorem blockAt_range {blocks : List Block} {k : Nat} {b : Block}
    (found : blockAt blocks (List.range blocks.length) k = some b) : blocks[k]? = some b := by
  obtain ⟨k', place, found⟩ := Option.bind_eq_some_iff.mp found
  obtain ⟨_, same⟩ := List.getElem?_eq_some_iff.mp place
  rwa [← same, List.getElem_range] at found

/-- Blocks one after the other in time end with different changelists, so that no loop may be removed. -/
theorem allFollowed_of_ordered {blocks : List Block} (ordered : blocks.Pairwise (fun b b' => b.clend < b'.clend)) :
    AllFollowed blocks (numbering blocks).realtrace (List.range blocks.length) ↔
      removal (numbering blocks).realtrace = none := by
  constructor
  · intro all
    by_contra some
    obtain ⟨⟨i, j, n⟩, found⟩ := Option.ne_none_iff_exists'.mp some
    obtain ⟨positive, -, -, three, repeats⟩ := removal_some found
    obtain ⟨last, next, atLast, behind, same⟩ := (allFollowed_iff found).mp all |>.1
    have one : j ≤ j * n := Nat.le_mul_of_pos_right j (by omega)
    obtain ⟨inside, rfl⟩ := List.getElem?_eq_some_iff.mp (blockAt_range atLast)
    obtain ⟨inside', rfl⟩ := List.getElem?_eq_some_iff.mp (blockAt_range behind)
    have earlier := List.pairwise_iff_getElem.mp ordered (i + j * n - 1) (i + j * n) inside inside' (by omega)
    omega
  · exact allFollowed_of_none

/-- The analysis is right exactly if each loop that it removes has a block behind it, which ends with the same
changelist. For blocks in the order of time that is where nothing runs three times. -/
theorem doLoopAnalysis_sound_iff (blocks : List Block) :
    (Sound blocks ↔ AllFollowed blocks (numbering blocks).realtrace (List.range blocks.length)) ∧
      (blocks.Pairwise (fun b b' => b.clend < b'.clend) →
        (Sound blocks ↔ ∀ i j, i < blocks.length → 1 ≤ j → j < i → ¬ IsLoop (numbering blocks).realtrace i j)) := by
  refine ⟨sound_iff_allFollowed blocks, fun ordered => ?_⟩
  have length : (numbering blocks).realtrace.length = blocks.length := by
    rw [(numbering_spec blocks).2.2, List.length_map]
  rw [sound_iff_allFollowed, allFollowed_of_ordered ordered, removal_eq_none, length]

/-- Two blocks, and a third that runs three times. -/
def spin : List Block := [⟨1, 1, 1, 1, ""⟩, ⟨2, 2, 2, 2, ""⟩, ⟨3, 3, 3, 3, ""⟩, ⟨4, 4, 3, 3, ""⟩, ⟨5, 5, 3, 3, ""⟩]

/-- The same, going on with another block. -/
def spinOut : List Block := spin ++ [⟨6, 6, 4, 4, ""⟩]

example : (numbering spinOut).realtrace = [0, 1, 2, 2, 2, 3] := by decide

theorem doLoopAnalysis_sound_iff_spin :
    Sound spin ↔ ∀ i j, i < spin.length → 1 ≤ j → j < i → ¬ IsLoop (numbering spin).realtrace i j :=
  (doLoopAnalysis_sound_iff spin).2 (by decide)

/-- A loop at the end of the trace has no block behind it, and one that is left has the wrong one. -/
theorem loop_unsound : ¬ Sound spin ∧ ¬ Sound spinOut := by
  have loops : ∀ blocks : List Block, blocks.Pairwise (fun b b' => b.clend < b'.clend) →
      IsLoop (numbering blocks).realtrace 2 1 → 2 < blocks.length → ¬ Sound blocks := by
    intro blocks ordered loop inside sound
    have length : (numbering blocks).realtrace.length = blocks.length := by
      rw [(numbering_spec blocks).2.2, List.length_map]
    rw [sound_iff_allFollowed, allFollowed_of_ordered ordered, removal_eq_none] at sound
    exact sound 2 1 (inside.trans_eq length.symm) le_rfl (by decide) loop
  exact ⟨loops spin (by decide) (by decide) (by decide), loops spinOut (by decide) (by decide) (by decide)⟩

end Qira.LoopCollapsing
