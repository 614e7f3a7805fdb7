import Qira.BasicBlocks
import Qira.Library.Chains

/-!
The addresses of a recovered block in the order in which it grew: one instruction behind the other, none
of them a start but the first, and an end only where there is a reason for one.
-/

namespace Qira.StraightBlocks
open Instructions Analyzer CallClosure BasicBlocks Library.Machines Library.Chains

/-- A block as it grew, from its start on while it could. -/
structure Line (bin : Binary) (start : Int → Prop) (block : Block) : Prop where
  first : block.addresses.head? = some block.start
  chain : Maximal (Continues bin start) block.addresses

section Growing
variable {bin : Binary}

/-- The inner loop appends the rest of a line that could not be longer. -/
theorem growBlock_line (blockStarts : List Int) (thisBlock fuel : Nat) (s t : Static) (address : Int)
    (addresses grown : List Int)
    (ran : growBlock bin blockStarts thisBlock fuel s address addresses = some (t, grown)) :
    ∃ rest, grown = addresses ++ rest ∧ Maximal (Continues bin (· ∈ blockStarts)) (address :: rest) := by
  induction fuel generalizing s address addresses with
  | zero => cases ran
  | succ fuel ih =>
    simp only [growBlock, Bool.and_eq_true, Bool.not_eq_true', decide_eq_true_eq] at ran
    split_ifs at ran with goesOn atStart
    · cases ran
      refine ⟨[], (List.append_nil _).symm, Maximal.singleton ?_⟩
      rintro d ⟨passes, notStart⟩
      exact notStart (passes.2.2 ▸ atStart)
    · obtain ⟨rest, grows, onward⟩ := ih _ _ _ ran
      refine ⟨(address + (bin.instruction address).size) :: rest, ?_, ?_⟩
      · rw [grows, List.append_assoc]
        rfl
      · exact Maximal.cons ⟨⟨goesOn.1, goesOn.2, rfl⟩, atStart⟩ onward
    · cases ran
      refine ⟨[], (List.append_nil _).symm, Maximal.singleton ?_⟩
      rintro d ⟨passes, -⟩
      exact goesOn ⟨passes.1, passes.2.1⟩

/-- The block finding pass only makes lines, whatever the starts are and in whichever order it takes
them. -/
theorem run_findBlock_lines (blockStarts : List Int) (thisFunction fuel : Nat) (s t : Static) (bs : List Int)
    (ran : run (findBlock bin blockStarts thisFunction fuel) s bs = some t) :
    ∃ made, t.blocks = s.blocks ++ made ∧ ∀ block ∈ made, Line bin (· ∈ blockStarts) block := by
  refine run_invariant (fun w => ∃ made, w.blocks = s.blocks ++ made ∧
    ∀ block ∈ made, Line bin (· ∈ blockStarts) block) ?_ ⟨[], (List.append_nil _).symm, nofun⟩ ran
  rintro w b w' ⟨made, blocks, lines⟩ taken
  obtain ⟨⟨u, grown⟩, grew, rfl⟩ := Option.map_eq_some_iff.mp taken
  obtain ⟨rest, rfl, chain⟩ := growBlock_line blockStarts _ fuel w u b [b] grown grew
  refine ⟨made ++ [⟨b, b :: rest⟩], ?_, ?_⟩
  · change w.blocks ++ [_] = _
    rw [blocks, List.append_assoc]
    rfl
  · intro block member
    rcases List.mem_append.mp member with old | new
    · exact lines block old
    · obtain rfl := List.mem_singleton.mp new
      exact ⟨rfl, chain⟩

end Growing

section Recovery
variable {bin : Binary} {order : SetOrder} {fuel : Nat} {s t u : Static} {address : Int}

theorem recover_lines {calls : List Int} (ran : recover bin order fuel s address = some (t, calls)) :
    ∃ made, Recovered bin s t address made ∧ ∀ block ∈ made, Line bin (BlockStart bin address) block := by
  obtain ⟨made, recovered⟩ := recover_blocks ran
  obtain ⟨p, isStart, -, blocks, -, found⟩ := recover_starts ran
  obtain ⟨made', more, lines⟩ := run_findBlock_lines p.blockStarts _ fuel p.static t _ found
  rw [blocks, recovered.blocks] at more
  rw [isStart] at lines
  exact ⟨made, recovered, List.append_cancel_left more ▸ lines⟩

/-- Each new block is one of a new function, grown from one of its starts, and each of the starts has one. -/
structure Adds (bin : Binary) (s t : Static) : Prop extends Extended s t where
  lines : ∀ j block, t.blocks[j]? = some block → s.blocks.length ≤ j →
    ∃ f ∈ t.functions.drop s.functions.length, j ∈ f.blocks ∧ BlockStart bin f.start block.start ∧
      Line bin (BlockStart bin f.start) block
  started : ∀ f ∈ t.functions.drop s.functions.length, ∀ b, BlockStart bin f.start b →
    ∃ j ∈ f.blocks, ∃ block, t.blocks[j]? = some block ∧ block.start = b

theorem Adds.refl (s : Static) : Adds bin s s := by
  refine ⟨Extended.refl s, fun j block there past => ?_, fun f new => ?_⟩
  · have inside : j < s.blocks.length := (List.getElem?_eq_some_iff.mp there).1
    omega
  · rw [List.drop_length] at new
    cases new

theorem Adds.trans (first : Adds bin s t) (second : Adds bin t u) : Adds bin s u := by
  refine ⟨first.toExtended.trans second.toExtended, fun j block there past => ?_, fun f new b isStart => ?_⟩
  · by_cases old : j < t.blocks.length
    · obtain ⟨rest, same⟩ := second.blocks
      rw [← same, List.getElem?_append_left old] at there
      obtain ⟨f, new, line⟩ := first.lines j block there past
      exact ⟨f, (second.functions.drop _).subset new, line⟩
    · obtain ⟨f, new, line⟩ := second.lines j block there (not_lt.mp old)
      exact ⟨f, List.drop_subset_drop_left _ first.functions.length_le new, line⟩
  · obtain ⟨rest, same⟩ := second.functions
    rw [← same, List.drop_append_of_le_length first.functions.length_le] at new
    rcases List.mem_append.mp new with old | late
    · obtain ⟨j, own, block, there, starts⟩ := first.started f old b isStart
      obtain ⟨more, grown⟩ := second.blocks
      have inside := (List.getElem?_eq_some_iff.mp there).1
      exact ⟨j, own, block, grown ▸ (List.getElem?_append_left inside).trans there, starts⟩
    · apply second.started f _ b isStart
      rw [← same, List.drop_left]
      exact late

theorem recover_adds {calls : List Int} (ran : recover bin order fuel s address = some (t, calls)) :
    Adds bin s t := by
  obtain ⟨made, recovered, lines⟩ := recover_lines ran
  refine ⟨recovered.extended, fun j block there past => ?_, fun f new b isStart => ?_⟩
  · rw [recovered.blocks, List.getElem?_append_right past] at there
    have member := List.mem_of_getElem? there
    have inside : j - s.blocks.length < made.length := (List.getElem?_eq_some_iff.mp there).1
    refine ⟨⟨address, List.range' s.blocks.length made.length⟩, ?_, ?_, ?_, lines block member⟩
    · rw [recovered.functions, List.drop_left]
      exact List.mem_singleton.mpr rfl
    · exact List.mem_range'_1.mpr ⟨past, by omega⟩
    · exact (recovered.starts _).mp (List.mem_map_of_mem member)
  · rw [recovered.functions, List.drop_left] at new
    obtain rfl := List.mem_singleton.mp new
    obtain ⟨block, member, starts⟩ := List.mem_map.mp ((recovered.starts b).mpr isStart)
    obtain ⟨i, inside, there⟩ := List.mem_iff_getElem.mp member
    refine ⟨s.blocks.length + i, List.mem_range'_1.mpr ⟨by omega, by omega⟩, block, ?_, starts⟩
    rw [recovered.blocks, List.getElem?_append_right (by omega), Nat.add_sub_cancel_left,
      List.getElem?_eq_getElem inside, there]

theorem makeFunctionAt_adds {recurse : Bool}
    (made : makeFunctionAt bin order fuel recurse s address = some t) : Adds bin s t :=
  makeFunctionAt_relation (Adds bin) Adds.refl (fun _ _ _ => Adds.trans)
    (fun _ _ _ _ _ _ ran => recover_adds ran) made

end Recovery

section Straight
variable (base : Library.Dictionaries.Dict StaticMemory.Range (List Library.Words.Byte)) (cs : Capstone)

/-- The addresses of a block, in order, for the starts of its function. -/
structure Straight (start : Int → Prop) (block : Block) : Prop where
  first : block.addresses.head? = some block.start
  steps : block.addresses.IsChain
    (fun u d => d = u + (insnAt base cs u).size ∧ 0 < (insnAt base cs u).size)
  inner : ∀ a ∈ block.addresses.tail, ¬ start a
  onward : ∀ a ∈ block.addresses.dropLast, (insnAt base cs a).isEnding = false
  stops : ∀ a ∈ block.addresses.getLast?, (insnAt base cs a).isEnding = true ∨
    (insnAt base cs a).i = none ∨ start (a + (insnAt base cs a).size)

variable {base cs}

/-- A line of `CsInsn`s: no size means that nothing was decoded. -/
theorem Line.straight {start : Int → Prop} {block : Block}
    (sized : ∀ raw address i, cs.disasm raw address = some i → 0 < i.size)
    (line : Line ⟨base, cs.decoder⟩ start block) : Straight base cs start block := by
  refine ⟨line.first, ?_, ?_, ?_, ?_⟩
  · apply line.chain.linked.imp
    rintro u d ⟨⟨-, size, next⟩, -⟩
    exact ⟨next, Nat.pos_of_ne_zero size⟩
  · intro a member
    obtain ⟨u, -, notStart⟩ := exists_before line.chain.linked a member
    exact notStart
  · intro a member
    obtain ⟨d, ⟨goesOn, -⟩, -⟩ := exists_after line.chain.linked a member
    exact goesOn
  · intro a last
    by_contra reasonless
    obtain ⟨goesOn, decoded, notStart⟩ : (insnAt base cs a).isEnding ≠ true ∧
        (insnAt base cs a).i ≠ none ∧ ¬ start (a + (insnAt base cs a).size) := by
      simpa only [not_or] using reasonless
    obtain ⟨i, found⟩ := Option.ne_none_iff_exists'.mp decoded
    have size : (insnAt base cs a).size ≠ 0 := by
      have positive := sized _ _ i found
      rw [CsInsn.size, found]
      exact positive.ne'
    exact line.chain.whole a last _ ⟨⟨Bool.not_eq_true _ ▸ goesOn, size, rfl⟩, notStart⟩

/-- All blocks that a call of `make_function_at` makes are straight lines, those of the function and
those of the functions it goes on with, each for the `block_starts` of its own function; and each of
these starts has a block. A function is made for an address that has none. -/
theorem makeFunctionAt_straight (sized : ∀ raw address i, cs.disasm raw address = some i → 0 < i.size)
    (order : SetOrder) (recurse : Bool) (s : Static) (address : Int) :
    ∃ enough, ∀ fuel ≥ enough, ∃ t,
      makeFunctionAt ⟨base, cs.decoder⟩ order fuel recurse s address = some t ∧
      s.blocks <+: t.blocks ∧ (∀ j block, t.blocks[j]? = some block → s.blocks.length ≤ j →
        ∃ f ∈ t.functions.drop s.functions.length, j ∈ f.blocks ∧
          BlockStart ⟨base, cs.decoder⟩ f.start block.start ∧
          Straight base cs (BlockStart ⟨base, cs.decoder⟩ f.start) block) ∧
      (∀ f ∈ t.functions.drop s.functions.length, ∀ b, BlockStart ⟨base, cs.decoder⟩ f.start b →
        ∃ j ∈ f.blocks, ∃ block, t.blocks[j]? = some block ∧ block.start = b) ∧
      (s.function address = none → ∃ f ∈ t.functions.drop s.functions.length, f.start = address) := by
  obtain ⟨enough, returns⟩ := makeFunction_returns ⟨base, cs.decoder⟩ order s ⟨address, recurse⟩
  refine ⟨enough, fun fuel more => ?_⟩
  obtain ⟨t, made⟩ := returns fuel more
  have adds := makeFunctionAt_adds made
  refine ⟨t, made, adds.blocks, fun j block there past => ?_, adds.started, fun new => ?_⟩
  · obtain ⟨f, new, place, isStart, line⟩ := adds.lines j block there past
    exact ⟨f, new, place, isStart, line.straight sized⟩
  · obtain ⟨u, blocks, recovered, extended⟩ := makeFunctionAt_blocks new made
    have first : (t.functions.drop s.functions.length)[0]? =
        some ⟨address, List.range' s.blocks.length blocks.length⟩ := by
      rw [List.getElem?_drop, Nat.add_zero]
      exact (recovered.places extended).1
    exact ⟨_, List.mem_of_getElem? first, rfl⟩

end Straight

theorem x86_sized (raw : List Library.Words.Byte) (address : Int) (i : Insn)
    (decoded : x86.disasm raw address = some i) : 0 < i.size := by
  cases raw with
  | nil => cases decoded
  | cons opcode rest =>
    simp only [x86] at decoded
    split_ifs at decoded <;> cases decoded <;> simp only [Nat.lt_add_one, Nat.zero_lt_succ]

theorem makeFunctionAt_straight_jumpInside :
    ∃ enough, ∀ fuel ≥ enough, ∃ t,
      makeFunctionAt ⟨jumpInside, x86.decoder⟩ fillOrder fuel true blank 0 = some t ∧
      blank.blocks <+: t.blocks ∧ (∀ j block, t.blocks[j]? = some block → 0 ≤ j →
        ∃ f ∈ t.functions.drop 0, j ∈ f.blocks ∧
          BlockStart ⟨jumpInside, x86.decoder⟩ f.start block.start ∧
          Straight jumpInside x86 (BlockStart ⟨jumpInside, x86.decoder⟩ f.start) block) ∧
      (∀ f ∈ t.functions.drop 0, ∀ b, BlockStart ⟨jumpInside, x86.decoder⟩ f.start b →
        ∃ j ∈ f.blocks, ∃ block, t.blocks[j]? = some block ∧ block.start = b) ∧
      (blank.function 0 = none → ∃ f ∈ t.functions.drop 0, f.start = 0) :=
  makeFunctionAt_straight x86_sized fillOrder true blank 0

end Qira.StraightBlocks
