import Qira.CallClosure

/-!
The blocks of a recovered function. Each is a line of instructions grown from its start until an
instruction ends it or the next one is a start itself; a start is the address the function is made at,
or where control gets from reached code otherwise than by running on.
-/

namespace Qira.BasicBlocks
open Instructions Analyzer CallClosure Library.Machines Library.Words Relation

/-- Where an instruction makes a block start, as `disassemble` decides it. -/
def breaks (d : Instruction) (address : Int) : List Int :=
  (d.dests.filter (fun dest =>
    dest.2 ≠ .call ∧ (dest.1 ≠ address + d.size ∨ (d.isJump && !d.isCall) = true))).map Prod.fst

section Lines
variable (bin : Binary)

/-- A block of the function made at the address starts there. -/
def BlockStart (address c : Int) : Prop :=
  c = address ∨ ∃ u, Flows bin address u ∧ c ∈ breaks (bin.instruction u) u

/-- The instruction does not end its block, and the other one is next. -/
def Passes (u d : Int) : Prop :=
  (bin.instruction u).isEnding = false ∧ (bin.instruction u).size ≠ 0 ∧
    d = u + (bin.instruction u).size

/-- A block goes on from one instruction to the next. -/
def Continues (start : Int → Prop) (u d : Int) : Prop := Passes bin u d ∧ ¬ start d

/-- A start, or reached from one by running on. -/
def OnLine (address x : Int) : Prop :=
  ∃ b, BlockStart bin address b ∧ ReflTransGen (Passes bin) b x

/-- The block has the addresses of the line from its start. -/
def Grown (start : Int → Prop) (block : Block) : Prop :=
  ∀ x, x ∈ block.addresses ↔ ReflTransGen (Continues bin start) block.start x

end Lines

/-- The blocks of a function, referred to by its place. -/
def blocksOf (s : Static) (k : Nat) : List Block :=
  ((s.functions[k]?).map Function.blocks).elim [] (fun places => places.filterMap (s.blocks[·]?))

section Growing
variable {bin : Binary}

theorem passes_unique (u d d' : Int) (first : Passes bin u d) (second : Passes bin u d') : d = d' :=
  first.2.2.trans second.2.2.symm

theorem continues_unique {start : Int → Prop} (u d d' : Int) (first : Continues bin start u d)
    (second : Continues bin start u d') : d = d' :=
  passes_unique u d d' first.1 second.1

theorem lt_of_passes {u d : Int} (passes : Passes bin u d) : u < d := by
  have sized := passes.2.1
  rw [passes.2.2]
  omega

theorem le_of_line {start : Int → Prop} {u x : Int} (line : ReflTransGen (Continues bin start) u x) :
    u ≤ x := by
  induction line with
  | refl => exact le_rfl
  | tail _ step ih => exact ih.trans (lt_of_passes step.1).le

theorem lt_of_line {start : Int → Prop} {u x : Int} (line : TransGen (Continues bin start) u x) :
    u < x := by
  obtain ⟨d, step, rest⟩ := TransGen.head'_iff.mp line
  exact (lt_of_passes step.1).trans_le (le_of_line rest)

/-- What is on the line from a start by running on is on the line of some block: the one of the last
start passed. -/
theorem onLine_iff (address x : Int) :
    OnLine bin address x ↔ ∃ b, BlockStart bin address b ∧
      ReflTransGen (Continues bin (BlockStart bin address)) b x := by
  constructor
  · rintro ⟨b, isStart, line⟩
    induction line with
    | refl => exact ⟨b, isStart, ReflTransGen.refl⟩
    | @tail u d _ passes ih =>
      by_cases starts : BlockStart bin address d
      · exact ⟨d, starts, ReflTransGen.refl⟩
      · obtain ⟨b', isStart', line'⟩ := ih
        exact ⟨b', isStart', line'.tail ⟨passes, starts⟩⟩
  · rintro ⟨b, isStart, line⟩
    exact ⟨b, isStart, ReflTransGen.mono (fun _ _ => And.left) b x line⟩

/-- A line goes to the next address first. -/
theorem continues_onward {p : Int → Prop} {address next : Int} (step : Continues bin p address next) (x : Int) :
    TransGen (Continues bin p) address x ↔ x = next ∨ TransGen (Continues bin p) next x := by
  rw [TransGen.head'_iff, ← reflTransGen_iff_eq_or_transGen]
  constructor
  · rintro ⟨d, first, rest⟩
    exact continues_unique address _ _ first step ▸ rest
  · exact fun rest => ⟨_, step, rest⟩

/-- Where the line ends, a block does not grow. -/
theorem growBlock_stops {p : Int → Prop} {thisBlock : Nat} {address : Int} {s t : Static} {addresses grown : List Int}
    (last : ∀ d, ¬ Continues bin p address d) (same : (s, addresses) = (t, grown)) :
    (∀ x, x ∈ grown ↔ x ∈ addresses ∨ TransGen (Continues bin p) address x) ∧
      ∀ x, t.block x = s.block x ∨ (t.block x = some thisBlock ∧ TransGen (Continues bin p) address x) := by
  obtain ⟨rfl, rfl⟩ := Prod.mk.inj same
  refine ⟨fun x => (or_iff_left ?_).symm, fun x => Or.inl rfl⟩
  intro line
  obtain ⟨d, step, -⟩ := TransGen.head'_iff.mp line
  exact last d step

/-- The inner loop adds the rest of the line, and tags what it adds. -/
theorem growBlock_spec (blockStarts : List Int) (thisBlock fuel : Nat) (s t : Static) (address : Int)
    (addresses grown : List Int)
    (ran : growBlock bin blockStarts thisBlock fuel s address addresses = some (t, grown)) :
    (∀ x, x ∈ grown ↔
      x ∈ addresses ∨ TransGen (Continues bin (· ∈ blockStarts)) address x) ∧
    ∀ x, t.block x = s.block x ∨
      (t.block x = some thisBlock ∧ TransGen (Continues bin (· ∈ blockStarts)) address x) := by
  induction fuel generalizing s address addresses with
  | zero => cases ran
  | succ fuel ih =>
    simp only [growBlock, Bool.and_eq_true, Bool.not_eq_true', decide_eq_true_eq] at ran
    split_ifs at ran with goesOn atStart
    · refine growBlock_stops ?_ (Option.some.inj ran)
      rintro d ⟨passes, notStart⟩
      exact notStart (passes.2.2 ▸ atStart)
    · have step : Continues bin (· ∈ blockStarts) address (address + (bin.instruction address).size) :=
        ⟨⟨goesOn.1, goesOn.2, rfl⟩, atStart⟩
      have onward := continues_onward step
      obtain ⟨members, tags⟩ := ih _ _ _ ran
      refine ⟨fun x => ?_, fun x => ?_⟩
      · rw [members, List.mem_append, List.mem_singleton, or_assoc, onward]
      · rw [onward]
        rcases tags x with kept | ⟨tagged, line⟩
        · rw [kept]
          change Function.update s.block _ _ x = _ ∨ Function.update s.block _ _ x = _ ∧ _
          by_cases here : x = address + (bin.instruction address).size
          · rw [here, Function.update_self]
            exact Or.inr ⟨rfl, Or.inl rfl⟩
          · rw [Function.update_of_ne here]
            exact Or.inl rfl
        · exact Or.inr ⟨tagged, Or.inr line⟩
    · refine growBlock_stops ?_ (Option.some.inj ran)
      rintro d ⟨passes, -⟩
      exact goesOn ⟨passes.1, passes.2.1⟩

theorem findBlock_spec (blockStarts : List Int) (thisFunction fuel : Nat) (s t : Static) (b : Int)
    (ran : findBlock bin blockStarts thisFunction fuel s b = some t) :
    ∃ block : Block, block.start = b ∧ Grown bin (· ∈ blockStarts) block ∧
      t.blocks = s.blocks ++ [block] ∧
      t.functions = s.functions.modify thisFunction
        (fun f => { f with blocks := f.blocks ++ [s.blocks.length] }) ∧
      ∀ x, t.block x = s.block x ∨
        (t.block x = some s.blocks.length ∧ TransGen (Continues bin (· ∈ blockStarts)) b x) := by
  obtain ⟨⟨u, grown⟩, grew, rfl⟩ := Option.map_eq_some_iff.mp ran
  obtain ⟨members, tags⟩ := growBlock_spec blockStarts s.blocks.length fuel s u b [b] grown grew
  refine ⟨⟨b, grown⟩, rfl, ?_, rfl, rfl, tags⟩
  intro x
  rw [members, List.mem_singleton, reflTransGen_iff_eq_or_transGen]

/-- The block finding pass makes one block for each start, in the order it takes them. -/
theorem run_findBlock (blockStarts : List Int) (thisFunction fuel : Nat) (s t : Static) (bs : List Int)
    (ran : run (findBlock bin blockStarts thisFunction fuel) s bs = some t) :
    ∃ made : List Block, made.map Block.start = bs ∧
      (∀ block ∈ made, Grown bin (· ∈ blockStarts) block) ∧ t.blocks = s.blocks ++ made ∧
      t.functions = s.functions.modify thisFunction
        (fun f => { f with blocks := f.blocks ++ List.range' s.blocks.length made.length }) ∧
      ∀ x j, t.block x = some j → s.block x = some j ∨ ∃ i block, made[i]? = some block ∧
        j = s.blocks.length + i ∧ TransGen (Continues bin (· ∈ blockStarts)) block.start x := by
  induction bs generalizing s with
  | nil =>
    obtain rfl := Option.some.inj ran
    refine ⟨[], rfl, nofun, (List.append_nil _).symm, ?_, fun x j tagged => Or.inl tagged⟩
    simp only [List.length_nil, List.range'_zero, List.append_nil]
    exact (List.modify_id thisFunction s.functions).symm
  | cons b rest ih =>
    obtain ⟨mid, first, later⟩ := (run_cons_eq_some_iff _ s t b rest).mp ran
    obtain ⟨block, start, line, blocks, functions, tags⟩ :=
      findBlock_spec blockStarts thisFunction fuel s mid b first
    obtain ⟨made, starts, lines, moreBlocks, moreFunctions, moreTags⟩ := ih mid later
    refine ⟨block :: made, ?_, ?_, ?_, ?_, ?_⟩
    · rw [List.map_cons, start, starts]
    · intro other member
      rcases List.mem_cons.mp member with rfl | inRest
      · exact line
      · exact lines other inRest
    · rw [moreBlocks, blocks, List.append_assoc]
      rfl
    · rw [moreFunctions, functions, blocks, List.modify_modify_eq]
      congr 1
      funext f
      simp [List.range'_succ]
    · intro x j tagged
      rcases moreTags x j tagged with before | ⟨i, other, there, place, reached⟩
      · rcases tags x with kept | ⟨here, reached⟩
        · exact Or.inl (kept ▸ before)
        · refine Or.inr ⟨0, block, rfl, ?_, start ▸ reached⟩
          rw [here] at before
          exact (Option.some.inj before).symm
      · refine Or.inr ⟨i + 1, other, there, ?_, reached⟩
        rw [place, blocks, List.length_append, List.length_singleton]
        omega

end Growing

section Descents
variable (thisFunction : Nat)

theorem dest_blocks (d : Instruction) (address : Int) (p : Descent) (dest : Int × DestType) :
    let t := p.dest d address dest
    t.static.block = p.static.block ∧ t.static.blocks = p.static.blocks ∧
      t.blockStarts = p.blockStarts ++
        if dest.2 ≠ .call ∧ (dest.1 ≠ address + d.size ∨ (d.isJump && !d.isCall) = true)
          then [dest.1] else [] := by
  obtain ⟨c, flag⟩ := dest
  by_cases isCall : flag = .call
  · simp [Descent.dest, isCall]
  · by_cases next : c = address + d.size
    · by_cases jumps : (d.isJump && !d.isCall) = true
      · simp only [Descent.dest, isCall, next, jumps]
        simp [isCall]
      · simp only [Descent.dest, isCall, next, jumps]
        simp
    · simp [Descent.dest, isCall, next]

theorem foldl_dest_blocks (d : Instruction) (address : Int) (dests : List (Int × DestType)) (p : Descent) :
    let t := dests.foldl (Descent.dest d address) p
    t.static.block = p.static.block ∧ t.static.blocks = p.static.blocks ∧
      t.blockStarts = p.blockStarts ++ (dests.filter (fun dest => dest.2 ≠ .call ∧
        (dest.1 ≠ address + d.size ∨ (d.isJump && !d.isCall) = true))).map Prod.fst := by
  induction dests generalizing p with
  | nil => exact ⟨rfl, rfl, (List.append_nil _).symm⟩
  | cons dest rest ih =>
    obtain ⟨tags, blocks, starts⟩ := ih (p.dest d address dest)
    obtain ⟨tags', blocks', starts'⟩ := dest_blocks d address p dest
    rw [List.foldl_cons]
    refine ⟨tags.trans tags', blocks.trans blocks', ?_⟩
    rw [starts, starts', List.append_assoc]
    congr 1
    by_cases breaks : dest.2 ≠ .call ∧ (dest.1 ≠ address + d.size ∨ (d.isJump && !d.isCall) = true)
    · rw [if_pos breaks, List.filter_cons_of_pos (by simpa using breaks)]
      rfl
    · rw [if_neg breaks, List.filter_cons_of_neg (by simpa using breaks)]
      rfl

theorem foldl_disassemble_blocks (bin : Binary) (visited : List Int) (p : Descent) :
    let t := visited.foldl (Descent.disassemble bin thisFunction) p
    t.static.block = p.static.block ∧ t.static.blocks = p.static.blocks ∧
      t.blockStarts = p.blockStarts ++ visited.flatMap (fun u => breaks (bin.instruction u) u) := by
  induction visited generalizing p with
  | nil => exact ⟨rfl, rfl, (List.append_nil _).symm⟩
  | cons u rest ih =>
    obtain ⟨tags, blocks, starts⟩ := ih (p.disassemble bin thisFunction u)
    obtain ⟨tags', blocks', starts'⟩ := foldl_dest_blocks (bin.instruction u) u
      (bin.instruction u).dests { p with static := { p.static with
        function := Function.update p.static.function u (some thisFunction) } }
    rw [List.foldl_cons]
    refine ⟨tags.trans tags', blocks.trans blocks', ?_⟩
    rw [starts, List.flatMap_cons, ← List.append_assoc]
    exact congrArg (· ++ _) starts'

end Descents

/-- What is there stays: functions and blocks are only added, and a block tag is an old one or refers to
an added block. -/
structure Extended (s t : Static) : Prop where
  functions : s.functions <+: t.functions
  blocks : s.blocks <+: t.blocks
  tags : ∀ x j, t.block x = some j → s.block x = some j ∨ s.blocks.length ≤ j

theorem Extended.refl (s : Static) : Extended s s :=
  ⟨List.prefix_rfl, List.prefix_rfl, fun _ _ tagged => Or.inl tagged⟩

theorem Extended.trans {s t u : Static} (first : Extended s t) (second : Extended t u) :
    Extended s u := by
  refine ⟨first.functions.trans second.functions, first.blocks.trans second.blocks, ?_⟩
  intro x j tagged
  rcases second.tags x j tagged with before | new
  · exact first.tags x j before
  · exact Or.inr (first.blocks.length_le.trans new)

section Recovery
variable {bin : Binary} {order : SetOrder} {fuel : Nat} {s t : Static} {address : Int}

/-- The blocks made for an address, as the block finding pass leaves them: one for each start, with the
line from there; and the tags it leaves, none of them at the block's own start. -/
structure Recovered (bin : Binary) (s t : Static) (address : Int) (made : List Block) : Prop where
  blocks : t.blocks = s.blocks ++ made
  functions : t.functions = s.functions ++ [⟨address, List.range' s.blocks.length made.length⟩]
  nodup : (made.map Block.start).Nodup
  starts : ∀ b, b ∈ made.map Block.start ↔ BlockStart bin address b
  lines : ∀ block ∈ made, Grown bin (BlockStart bin address) block
  tags : ∀ x j, t.block x = some j → s.block x = some j ∨
    ∃ i block, made[i]? = some block ∧ j = s.blocks.length + i ∧ block.start < x

/-- The block finding pass starts from what the descent found, with its `block_starts` for starts. -/
theorem recover_starts {calls : List Int} (ran : recover bin order fuel s address = some (t, calls)) :
    ∃ p : Descent, (· ∈ p.blockStarts) = BlockStart bin address ∧
      p.static.functions = s.functions ++ [⟨address, []⟩] ∧ p.static.blocks = s.blocks ∧
      p.static.block = s.block ∧
      run (findBlock bin p.blockStarts s.functions.length fuel) p.static (order.iter p.blockStarts) = some t := by
  obtain ⟨visited, p, reached, folded, found, -⟩ := recover_cases ran
  obtain ⟨-, functions, -⟩ := foldl_disassemble bin s.functions.length visited
    ⟨{ s with functions := s.functions ++ [⟨address, []⟩] }, [address], []⟩
  obtain ⟨tags, blocks, starts⟩ := foldl_disassemble_blocks s.functions.length bin visited
    ⟨{ s with functions := s.functions ++ [⟨address, []⟩] }, [address], []⟩
  rw [folded] at functions tags blocks starts
  refine ⟨p, ?_, functions, blocks, tags, found⟩
  funext c
  apply propext
  rw [starts, List.mem_append, List.mem_singleton, List.mem_flatMap]
  simp only [reached]
  exact Iff.rfl

theorem recover_blocks {calls : List Int} (ran : recover bin order fuel s address = some (t, calls)) :
    ∃ made, Recovered bin s t address made := by
  obtain ⟨p, isStart, functions, blocks, tags, found⟩ := recover_starts ran
  obtain ⟨made, order', lines, more, moreFunctions, moreTags⟩ :=
    run_findBlock p.blockStarts s.functions.length fuel p.static t (order.iter p.blockStarts) found
  rw [isStart] at lines moreTags
  rw [blocks] at more moreFunctions moreTags
  refine ⟨made, more, ?_, ?_, ?_, lines, ?_⟩
  · rw [moreFunctions, functions, List.modify_eq_take_cons_drop (by simp)]
    simp
  · rw [order']
    exact order.nodup p.blockStarts
  · intro b
    rw [order', order.mem_iter]
    exact iff_of_eq (congrFun isStart b)
  · intro x j tagged
    rcases moreTags x j tagged with before | ⟨i, block, there, place, line⟩
    · exact Or.inl (tags ▸ before)
    · exact Or.inr ⟨i, block, there, place, lt_of_line line⟩

theorem Recovered.extended {made : List Block} (recovered : Recovered bin s t address made) :
    Extended s t := by
  refine ⟨⟨_, recovered.functions.symm⟩, ⟨_, recovered.blocks.symm⟩, ?_⟩
  intro x j tagged
  rcases recovered.tags x j tagged with before | ⟨i, _, _, place, _⟩
  · exact Or.inl before
  · exact Or.inr (by omega)

theorem extended_of_makeFunctionAt {recurse : Bool}
    (made : makeFunctionAt bin order fuel recurse s address = some t) : Extended s t := by
  refine makeFunctionAt_relation Extended Extended.refl (fun _ _ _ => Extended.trans) ?_ made
  intro fuel s t address calls _ ran
  obtain ⟨_, recovered⟩ := recover_blocks ran
  exact recovered.extended

/-- The function is recovered first, and what the function pass goes on to make only adds to that. -/
theorem makeFunctionAt_blocks {recurse : Bool} (new : s.function address = none)
    (made : makeFunctionAt bin order fuel recurse s address = some t) :
    ∃ u blocks, Recovered bin s u address blocks ∧ Extended u t := by
  cases fuel with
  | zero => cases made
  | succ fuel =>
    obtain ⟨u, calls, ran, later⟩ := makeFunctionAt_cases new made
    obtain ⟨blocks, recovered⟩ := recover_blocks ran
    refine ⟨u, blocks, recovered, run_invariant (Extended u) ?_ (Extended.refl u) later⟩
    intro w f w' before taken
    unfold findMore at taken
    split_ifs at taken
    · exact before.trans (extended_of_makeFunctionAt taken)
    · exact Option.some.inj taken ▸ before

/-- With enough fuel, a call for a new address returns, and has recovered it. -/
theorem makeFunctionAt_recovers (bin : Binary) (order : SetOrder) (recurse : Bool) (s : Static) (address : Int)
    (new : s.function address = none) :
    ∃ enough, ∀ fuel ≥ enough, ∃ t u blocks, makeFunctionAt bin order fuel recurse s address = some t ∧
      Recovered bin s u address blocks ∧ Extended u t := by
  obtain ⟨enough, returns⟩ := makeFunction_returns bin order s ⟨address, recurse⟩
  refine ⟨enough, fun fuel more => ?_⟩
  obtain ⟨t, made⟩ := returns fuel more
  obtain ⟨u, blocks, recovered, extended⟩ := makeFunctionAt_blocks new made
  exact ⟨t, u, blocks, made, recovered, extended⟩

/-- The function made keeps its place, and its blocks theirs. -/
theorem Recovered.places {u : Static} {blocks : List Block}
    (recovered : Recovered bin s u address blocks) (more : Extended u t) :
    t.functions[s.functions.length]? =
        some ⟨address, List.range' s.blocks.length blocks.length⟩ ∧
      ∀ i block, blocks[i]? = some block → t.blocks[s.blocks.length + i]? = some block := by
  constructor
  · obtain ⟨rest, same⟩ := more.functions
    rw [← same, recovered.functions, List.append_assoc, List.getElem?_append_right le_rfl,
      Nat.sub_self]
    rfl
  · intro i block there
    obtain ⟨rest, same⟩ := more.blocks
    rw [← same, recovered.blocks, List.append_assoc,
      List.getElem?_append_right (Nat.le_add_right _ _), Nat.add_sub_cancel_left]
    exact List.getElem?_append_left (List.getElem?_eq_some_iff.mp there).1 |>.trans there

theorem Recovered.blocksOf {u : Static} {blocks : List Block}
    (recovered : Recovered bin s u address blocks) (more : Extended u t) :
    blocksOf t s.functions.length = blocks := by
  obtain ⟨place, there⟩ := recovered.places more
  rw [BasicBlocks.blocksOf, place]
  change (List.range' s.blocks.length blocks.length).filterMap (t.blocks[·]?) = blocks
  rw [List.range'_eq_map_range, List.filterMap_map]
  have inPlace : ∀ i ∈ List.range blocks.length, t.blocks[s.blocks.length + i]? = blocks[i]? := by
    intro i member
    have found := List.getElem?_eq_getElem (List.mem_range.mp member)
    exact (there i _ found).trans found.symm
  exact (List.filterMap_congr inPlace).trans (Library.Gaps.found_getElem? blocks)

/-- An address is in a block of the function exactly if it is on a line. -/
theorem Recovered.mem_blocks_iff {blocks : List Block} (recovered : Recovered bin s t address blocks)
    (x : Int) : (∃ block ∈ blocks, x ∈ block.addresses) ↔ OnLine bin address x := by
  rw [onLine_iff]
  constructor
  · rintro ⟨block, member, inside⟩
    exact ⟨block.start, (recovered.starts _).mp (List.mem_map_of_mem member),
      (recovered.lines block member x).mp inside⟩
  · rintro ⟨b, isStart, line⟩
    obtain ⟨block, member, rfl⟩ := List.mem_map.mp ((recovered.starts b).mpr isStart)
    exact ⟨block, member, (recovered.lines block member x).mpr line⟩

end Recovery

/-! Whether the blocks have all of the function's code. What follows a `hlt` is code of the function, but
starts no block. -/

section Cover

/-- An instruction that ends a block and is no jump and no return. -/
def isHlt (d : CsInsn) : Bool := d.i.any (fun i => i.mnemonic = "hlt") && !d.isJump

theorem mem_dests_next (d : CsInsn) (decoded : d.i.isSome) (noRet : d.isRet = false)
    (noJump : d.isJump = false) : (d.address + d.size, .implicit) ∈ d.dests := by
  have plain : d.dtype ≠ .jump := by
    intro same
    simp [CsInsn.isJump, same] at noJump
  have goesOn : d.codeFollows = true := by simp [CsInsn.codeFollows, decoded, noRet, plain]
  have some : ¬ (d.i.isNone || d.isRet) = true := by
    rw [noRet, Bool.or_false, Option.isNone_iff_eq_none]
    exact Option.isSome_iff_ne_none.mp decoded
  rw [CsInsn.dests, if_neg some, if_pos goesOn]
  exact List.mem_append_left _ List.mem_cons_self

theorem decoded_of_mem_dests (d : CsInsn) (dest : Int × DestType) (member : dest ∈ d.dests) :
    d.i.isSome ∧ d.isRet = false := by
  by_cases nothing : (d.i.isNone || d.isRet) = true
  · rw [CsInsn.dests, if_pos nothing] at member
    cases member
  · rw [Bool.or_eq_true, not_or, Option.isNone_iff_eq_none, Bool.not_eq_true] at nothing
    exact ⟨Option.isSome_iff_ne_none.mpr nothing.1, nothing.2⟩

theorem isCall_of_isJump (d : CsInsn) (jumps : d.isJump = true) : d.isCall = false := by
  rw [CsInsn.isJump, decide_eq_true_eq] at jumps
  rcases jumps with same | same <;> simp [CsInsn.isCall, same]

/-- An instruction without a jump that ends a block and has a next one is a `hlt`. -/
theorem isHlt_of_isEnding (d : CsInsn) (ends : d.isEnding = true) (noRet : d.isRet = false)
    (noJump : d.isJump = false) : isHlt d = true := by
  rw [CsInsn.isEnding, noJump, noRet, Bool.false_or, Bool.false_or] at ends
  rw [isHlt, ends, noJump]
  rfl

theorem decoded_of_isHlt (d : CsInsn) (halts : isHlt d = true) :
    d.i.isSome ∧ d.isRet = false ∧ d.isJump = false := by
  rw [isHlt, Bool.and_eq_true, Bool.not_eq_true', Option.any_eq_true] at halts
  obtain ⟨⟨i, decoded, named⟩, noJump⟩ := halts
  rw [decide_eq_true_eq] at named
  exact ⟨by rw [decoded]; rfl, by simp [CsInsn.isRet, decoded, named], noJump⟩

variable (base : Library.Dictionaries.Dict StaticMemory.Range (List Byte)) (cs : Capstone)

/-- The instruction at an address of the image. -/
def insnAt (u : Int) : CsInsn := cs.csInsn (StaticMemory.memory base u 16) u

/-- What comes after a reached `hlt` is on a line all the same. -/
def HltsCovered (address : Int) : Prop :=
  ∀ u, Flows ⟨base, cs.decoder⟩ address u → isHlt (insnAt base cs u) = true →
    OnLine ⟨base, cs.decoder⟩ address (u + (insnAt base cs u).size)

theorem follows_next (u : Int) (decoded : (insnAt base cs u).i.isSome)
    (noRet : (insnAt base cs u).isRet = false) (noJump : (insnAt base cs u).isJump = false) :
    u + (insnAt base cs u).size ∈ (Binary.instruction ⟨base, cs.decoder⟩ u).follows := by
  have next := mem_dests_next (insnAt base cs u) decoded noRet noJump
  exact List.mem_map.mpr ⟨_, List.mem_filter.mpr ⟨next, rfl⟩, rfl⟩

theorem flows_of_passes {u c : Int} (passes : Passes ⟨base, cs.decoder⟩ u c) :
    c ∈ (Binary.instruction ⟨base, cs.decoder⟩ u).follows := by
  obtain ⟨goesOn, sized, rfl⟩ := passes
  change (insnAt base cs u).isEnding = false at goesOn
  change (insnAt base cs u).size ≠ 0 at sized
  rw [CsInsn.isEnding, Bool.or_eq_false_iff, Bool.or_eq_false_iff] at goesOn
  apply follows_next base cs u ?_ goesOn.1.2 goesOn.1.1
  by_contra nothing
  rw [Option.not_isSome_iff_eq_none] at nothing
  exact sized (by rw [CsInsn.size, nothing]; rfl)

/-- Where control goes: a start, the next instruction of the block, or past a `hlt`. -/
theorem follows_cases (u c : Int) (member : c ∈ (Binary.instruction ⟨base, cs.decoder⟩ u).follows) :
    c ∈ breaks (Binary.instruction ⟨base, cs.decoder⟩ u) u ∨ c = u ∨
      Passes ⟨base, cs.decoder⟩ u c ∨
      (isHlt (insnAt base cs u) = true ∧ c = u + (insnAt base cs u).size) := by
  obtain ⟨dest, inDests, rfl⟩ := List.mem_map.mp member
  obtain ⟨there, noCall⟩ := List.mem_filter.mp inDests
  rw [decide_eq_true_eq] at noCall
  by_cases breaking : dest.1 ≠ u + (insnAt base cs u).size ∨ (insnAt base cs u).isJump = true
  · refine Or.inl (List.mem_map.mpr ⟨dest, List.mem_filter.mpr ⟨there, ?_⟩, rfl⟩)
    refine decide_eq_true ⟨noCall, breaking.imp_right fun jumps => ?_⟩
    change ((insnAt base cs u).isJump && !(insnAt base cs u).isCall) = true
    rw [jumps, isCall_of_isJump _ jumps]
    rfl
  · rw [not_or, not_not, Bool.not_eq_true] at breaking
    obtain ⟨next, noJump⟩ := breaking
    obtain ⟨-, noRet⟩ := decoded_of_mem_dests (insnAt base cs u) dest there
    by_cases sized : (insnAt base cs u).size = 0
    · exact Or.inr (Or.inl (by rw [next, sized]; simp))
    · cases ends : (insnAt base cs u).isEnding with
      | false => exact Or.inr (Or.inr (Or.inl ⟨ends, sized, next⟩))
      | true => exact Or.inr (Or.inr (Or.inr ⟨isHlt_of_isEnding _ ends noRet noJump, next⟩))

/-- Everything on a line is reached. -/
theorem flows_of_onLine {address x : Int} (line : OnLine ⟨base, cs.decoder⟩ address x) :
    Flows ⟨base, cs.decoder⟩ address x := by
  obtain ⟨b, isStart, passes⟩ := line
  induction passes with
  | refl =>
    rcases isStart with rfl | ⟨u, reached, breaking⟩
    · exact ReflTransGen.refl
    · obtain ⟨dest, inDests, rfl⟩ := List.mem_map.mp breaking
      obtain ⟨there, flags⟩ := List.mem_filter.mp inDests
      refine reached.tail (List.mem_map.mpr ⟨dest, List.mem_filter.mpr ⟨there, ?_⟩, rfl⟩)
      exact decide_eq_true (of_decide_eq_true flags).1
  | tail _ step ih => exact ih.tail (flows_of_passes base cs step)

/-- The lines have all that is reached exactly if they have what comes after each `hlt`. -/
theorem onLine_iff_flows (address : Int) :
    (∀ x, OnLine ⟨base, cs.decoder⟩ address x ↔ Flows ⟨base, cs.decoder⟩ address x) ↔
      HltsCovered base cs address := by
  constructor
  · intro cover u reached halts
    obtain ⟨decoded, noRet, noJump⟩ := decoded_of_isHlt _ halts
    exact (cover _).mpr (reached.tail (follows_next base cs u decoded noRet noJump))
  · intro covered x
    refine ⟨flows_of_onLine base cs, fun reached => ?_⟩
    induction reached with
    | refl => exact ⟨address, Or.inl rfl, ReflTransGen.refl⟩
    | @tail u c before step ih =>
      rcases follows_cases base cs u c step with breaking | rfl | passes | ⟨halts, rfl⟩
      · exact ⟨c, Or.inr ⟨u, before, breaking⟩, ReflTransGen.refl⟩
      · exact ih
      · obtain ⟨b, isStart, line⟩ := ih
        exact ⟨b, isStart, line.tail passes⟩
      · exact covered u before halts

/-- The blocks of a function, together, have the addresses that control leads to from its start. -/
def Cover (bin : Binary) (t : Static) (k : Nat) (address : Int) : Prop :=
  ∀ x, (∃ block ∈ blocksOf t k, x ∈ block.addresses) ↔ Flows bin address x

/-- The addresses a call tagged with its function are those that control leads to. -/
def Tagged (bin : Binary) (s t : Static) (k : Nat) (address : Int) : Prop :=
  ∀ x, (Flows bin address x → t.function x = some k) ∧
    (¬ Flows bin address x → t.function x = s.function x)

theorem recover_tagged {bin : Binary} {order : SetOrder} {fuel : Nat} {s t : Static} {address : Int}
    {calls : List Int} (ran : recover bin order fuel s address = some (t, calls)) :
    Tagged bin s t s.functions.length address := by
  obtain ⟨visited, p, reached, folded, blocks, -⟩ := recover_cases ran
  obtain ⟨tags, -, -⟩ := foldl_disassemble bin s.functions.length visited
    ⟨{ s with functions := s.functions ++ [⟨address, []⟩] }, [address], []⟩
  rw [folded] at tags
  have kept : t.function = p.static.function :=
    run_invariant (fun w => w.function = p.static.function)
      (fun w b w' before taken => (findBlock_frame bin _ _ fuel w w' b taken).1.trans before) rfl blocks
  intro x
  rw [kept, tags, ← reached]
  exact ⟨fun there => if_pos there, fun elsewhere => if_neg elsewhere⟩

/-- A call of `make_function_at` without recursion tags the addresses that control leads to, and the
blocks have all of these exactly if what comes after each `hlt` is on the line of some block. -/
theorem cover_iff_hltsCovered (order : SetOrder) (s : Static) (address : Int)
    (new : s.function address = none) :
    ∃ enough, ∀ fuel ≥ enough, ∃ t,
      makeFunctionAt ⟨base, cs.decoder⟩ order fuel false s address = some t ∧
      Tagged ⟨base, cs.decoder⟩ s t s.functions.length address ∧
      (Cover ⟨base, cs.decoder⟩ t s.functions.length address ↔ HltsCovered base cs address) := by
  obtain ⟨enough, returns⟩ := makeFunction_returns ⟨base, cs.decoder⟩ order s ⟨address, false⟩
  refine ⟨enough + 1, fun fuel more => ?_⟩
  obtain ⟨fuel, rfl⟩ : ∃ k, fuel = k + 1 := ⟨fuel - 1, by omega⟩
  obtain ⟨mid, made⟩ := returns (fuel + 1) (by omega)
  obtain ⟨u, calls, recovered, done⟩ := makeFunctionAt_cases new made
  obtain rfl := Option.some.inj done
  obtain ⟨blocks, shape⟩ := recover_blocks recovered
  refine ⟨u, made, recover_tagged recovered, ?_⟩
  rw [Cover, shape.blocksOf (Extended.refl u), ← onLine_iff_flows]
  simp only [shape.mem_blocks_iff]

end Cover

/-- A few x86 instructions. -/
def x86 : Capstone where
  disasm raw address :=
    match raw with
    | [] => none
    | opcode :: rest =>
        if opcode = 0xF4 then some ⟨1, "hlt", false, none⟩
        else if opcode = 0xC3 then some ⟨1, "ret", false, none⟩
        else if opcode = 0x74 then
          some ⟨2, "je", true, rest.head?.map (fun offset => address + 2 + offset.toInt)⟩
        else if opcode = 0x89 then some ⟨2, "mov", false, none⟩
        else if opcode = 0x66 then some ⟨3, "mov", false, none⟩
        else none
  empty _ := rfl

/-- `hlt` and `ret`. -/
def hltThenRet : Library.Dictionaries.Dict StaticMemory.Range (List Byte) :=
  AList.singleton (0, 2) [0xF4, 0xC3]

theorem cover_iff_hltsCovered_hlt :
    ∃ enough, ∀ fuel ≥ enough, ∃ t,
      makeFunctionAt ⟨hltThenRet, x86.decoder⟩ fillOrder fuel false blank 0 = some t ∧
      Tagged ⟨hltThenRet, x86.decoder⟩ blank t 0 0 ∧
      (Cover ⟨hltThenRet, x86.decoder⟩ t 0 0 ↔ HltsCovered hltThenRet x86 0) :=
  cover_iff_hltsCovered hltThenRet x86 fillOrder blank 0 rfl

/-- The `ret` after the `hlt` gets the function's tag and is in no block. -/
theorem afterHlt_uncovered :
    ∃ t, makeFunctionAt ⟨hltThenRet, x86.decoder⟩ fillOrder 4 false blank 0 = some t ∧
      t.function 1 = some 0 ∧ (blocksOf t 0).map Block.addresses = [[0]] ∧
      ¬ Cover ⟨hltThenRet, x86.decoder⟩ t 0 0 := by
  refine ⟨_, rfl, rfl, rfl, ?_⟩
  intro cover
  have step : (1 : Int) ∈ (Binary.instruction ⟨hltThenRet, x86.decoder⟩ 0).follows := by decide
  obtain ⟨block, member, inside⟩ := (cover 1).mpr (ReflTransGen.single step)
  obtain rfl := List.mem_singleton.mp member
  revert inside
  decide

/-! Whether the blocks are disjoint. Lines of different starts may run into the same instruction. -/

section Disjoint
variable {bin : Binary} {s t : Static} {address : Int}

def ShareNothing (block other : Block) : Prop := ∀ x ∈ block.addresses, x ∉ other.addresses

instance : Std.Symm ShareNothing := ⟨fun _ _ apart x inside inside' => apart x inside' inside⟩

/-- No address is in two blocks of the function. -/
def Disjoint (t : Static) (k : Nat) : Prop := (blocksOf t k).Pairwise ShareNothing

/-- Where two instructions of lines run into the same one, that is a start. -/
def MeetAtStarts (bin : Binary) (address : Int) : Prop :=
  ∀ u v x, OnLine bin address u → OnLine bin address v → u ≠ v → Passes bin u x → Passes bin v x →
    BlockStart bin address x

/-- Then lines of different starts share nothing: followed back from a shared address, they would meet. -/
theorem lines_apart (meet : MeetAtStarts bin address) {b b' x : Int} (isStart : BlockStart bin address b)
    (isStart' : BlockStart bin address b') (different : b ≠ b')
    (line : ReflTransGen (Continues bin (BlockStart bin address)) b x) :
    ¬ ReflTransGen (Continues bin (BlockStart bin address)) b' x := by
  induction line with
  | refl =>
    intro line'
    rcases ReflTransGen.cases_tail line' with same | ⟨v, _, step⟩
    · exact different same
    · exact step.2 isStart
  | @tail u x before step ih =>
    intro line'
    rcases ReflTransGen.cases_tail line' with rfl | ⟨v, before', step'⟩
    · exact step.2 isStart'
    · by_cases same : u = v
      · exact ih (same ▸ before')
      · exact step.2 (meet u v x ((onLine_iff address u).mpr ⟨b, isStart, before⟩)
          ((onLine_iff address v).mpr ⟨b', isStart', before'⟩) same step.1 step'.1)

/-- On one line, no two instructions run into the same one. -/
theorem line_injective {start : Int → Prop} {b u v x : Int}
    (first : ReflTransGen (Continues bin start) b u) (second : ReflTransGen (Continues bin start) b v)
    (step : Continues bin start u x) (step' : Continues bin start v x) : u = v := by
  have past : ∀ {w w' : Int}, Continues bin start w x → Continues bin start w' x →
      ReflTransGen (Continues bin start) w w' → w = w' := by
    intro w w' toX toX' line
    rcases ReflTransGen.cases_head line with same | ⟨d, head, rest⟩
    · exact same
    · obtain rfl := continues_unique w d x head toX
      exact absurd (le_of_line rest) (not_le.mpr (lt_of_passes toX'.1))
  rcases ReflTransGen.total_of_right_unique (fun w d d' => continues_unique w d d') first second with
    onward | onward
  · exact past step step' onward
  · exact (past step' step onward).symm

theorem Recovered.pairwise_iff {blocks : List Block} (recovered : Recovered bin s t address blocks) :
    blocks.Pairwise ShareNothing ↔ MeetAtStarts bin address := by
  constructor
  · intro disjoint u v x onU onV different stepU stepV
    by_contra notStart
    obtain ⟨b, isStart, line⟩ := (onLine_iff address u).mp onU
    obtain ⟨b', isStart', line'⟩ := (onLine_iff address v).mp onV
    obtain ⟨block, member, rfl⟩ := List.mem_map.mp ((recovered.starts b).mpr isStart)
    obtain ⟨other, member', rfl⟩ := List.mem_map.mp ((recovered.starts b').mpr isStart')
    have inBlock := (recovered.lines block member x).mpr (line.tail ⟨stepU, notStart⟩)
    have inOther := (recovered.lines other member' x).mpr (line'.tail ⟨stepV, notStart⟩)
    by_cases same : block = other
    · subst same
      exact different (line_injective line line' ⟨stepU, notStart⟩ ⟨stepV, notStart⟩)
    · exact disjoint.forall member member' same x inBlock inOther
  · intro meet
    apply (List.pairwise_map.mp recovered.nodup).imp_of_mem
    intro block other member member' different x inside inside'
    exact lines_apart meet ((recovered.starts _).mp (List.mem_map_of_mem member))
      ((recovered.starts _).mp (List.mem_map_of_mem member')) different
      ((recovered.lines block member x).mp inside) ((recovered.lines other member' x).mp inside')

/-- The blocks of a new function are disjoint exactly if lines meet at starts only. -/
theorem disjoint_iff_meetAtStarts (bin : Binary) (order : SetOrder) (recurse : Bool) (s : Static)
    (address : Int) (new : s.function address = none) :
    ∃ enough, ∀ fuel ≥ enough, ∃ t, makeFunctionAt bin order fuel recurse s address = some t ∧
      (Disjoint t s.functions.length ↔ MeetAtStarts bin address) := by
  obtain ⟨enough, recovers⟩ := makeFunctionAt_recovers bin order recurse s address new
  refine ⟨enough, fun fuel more => ?_⟩
  obtain ⟨mid, u, blocks, made, recovered, extended⟩ := recovers fuel more
  refine ⟨mid, made, ?_⟩
  rw [Disjoint, recovered.blocksOf extended]
  exact recovered.pairwise_iff

end Disjoint

/-- `je` into the middle of the three-byte `mov` after it, then `ret`. -/
def jumpInside : Library.Dictionaries.Dict StaticMemory.Range (List Byte) :=
  AList.singleton (0, 6) [0x74, 1, 0x66, 0x89, 0xC0, 0xC3]

theorem disjoint_iff_meetAtStarts_hlt :
    ∃ enough, ∀ fuel ≥ enough, ∃ t,
      makeFunctionAt ⟨hltThenRet, x86.decoder⟩ fillOrder fuel true blank 0 = some t ∧
      (Disjoint t 0 ↔ MeetAtStarts ⟨hltThenRet, x86.decoder⟩ 0) :=
  disjoint_iff_meetAtStarts ⟨hltThenRet, x86.decoder⟩ fillOrder true blank 0 rfl

/-- Both readings of the bytes after the jump run into the `ret`, which is in both blocks. -/
theorem lines_overlap :
    ∃ t, makeFunctionAt ⟨jumpInside, x86.decoder⟩ fillOrder 8 true blank 0 = some t ∧
      (blocksOf t 0).map Block.addresses = [[0], [2, 5], [3, 5]] ∧ ¬ Disjoint t 0 := by
  refine ⟨_, rfl, rfl, ?_⟩
  intro disjoint
  have last := (List.pairwise_cons.mp (List.pairwise_cons.mp disjoint).2).1
  exact last ⟨3, [3, 5]⟩ List.mem_cons_self 5 (by decide) (by decide)

/-! Whether the block tags agree with the blocks. Only what the inner loop adds is tagged. -/

section Index

/-- The tag of each address of each block of the function is that block. -/
def Indexed (t : Static) (k : Nat) : Prop :=
  ∀ f, t.functions[k]? = some f → ∀ j ∈ f.blocks, ∀ block, t.blocks[j]? = some block →
    ∀ a ∈ block.addresses, t.block a = some j

/-- A block tag refers to a block there is. -/
def TagsKnown (s : Static) : Prop := ∀ x j, s.block x = some j → j < s.blocks.length

/-- So it is in every state the analysis leads to. -/
theorem makeFunctionAt_tagsKnown {bin : Binary} {order : SetOrder} {fuel : Nat} {recurse : Bool}
    {s t : Static} {address : Int} (made : makeFunctionAt bin order fuel recurse s address = some t)
    (known : TagsKnown s) : TagsKnown t := by
  refine makeFunctionAt_relation (fun s t => TagsKnown s → TagsKnown t) (fun _ => id)
    (fun _ _ _ first second => second ∘ first) ?_ made known
  intro fuel s t address calls _ ran known x j tagged
  obtain ⟨blocks, recovered⟩ := recover_blocks ran
  rw [recovered.blocks, List.length_append]
  rcases recovered.tags x j tagged with old | ⟨i, block, found, place, -⟩
  · exact (known x j old).trans_le (Nat.le_add_right _ _)
  · have inside : i < blocks.length := (List.getElem?_eq_some_iff.mp found).1
    omega

/-- The block at the very start of a new function never gets its first address tagged, whether or not the
function's blocks are disjoint. -/
theorem not_indexed (bin : Binary) (order : SetOrder) (recurse : Bool) (s : Static) (address : Int)
    (new : s.function address = none) (known : TagsKnown s) :
    ∃ enough, ∀ fuel ≥ enough, ∃ t, makeFunctionAt bin order fuel recurse s address = some t ∧
      ¬ Indexed t s.functions.length := by
  obtain ⟨enough, recovers⟩ := makeFunctionAt_recovers bin order recurse s address new
  refine ⟨enough, fun fuel more => ?_⟩
  obtain ⟨mid, u, blocks, made, recovered, extended⟩ := recovers fuel more
  obtain ⟨place, there⟩ := recovered.places extended
  refine ⟨mid, made, fun indexed => ?_⟩
  obtain ⟨block, member, start⟩ := List.mem_map.mp ((recovered.starts address).mpr (Or.inl rfl))
  obtain ⟨i, found⟩ := List.getElem?_of_mem member
  have inside : i < blocks.length := (List.getElem?_eq_some_iff.mp found).1
  have first : address ∈ block.addresses := by
    rw [recovered.lines block member, start]
  have tagged := indexed _ place (s.blocks.length + i)
    (List.mem_range'_1.mpr ⟨Nat.le_add_right _ _, by omega⟩) block (there i block found) address first
  have counted : u.blocks.length = s.blocks.length + blocks.length := by
    rw [recovered.blocks, List.length_append]
  rcases extended.tags address _ tagged with before | new
  · rcases recovered.tags address _ before with old | ⟨i', other, found', same, below⟩
    · exact absurd (known address _ old) (by omega)
    · obtain rfl : i = i' := by omega
      obtain rfl := Option.some.inj (found.symm.trans found')
      exact absurd start below.ne
  · omega

end Index

theorem not_indexed_hlt :
    ∃ enough, ∀ fuel ≥ enough, ∃ t,
      makeFunctionAt ⟨hltThenRet, x86.decoder⟩ fillOrder fuel true blank 0 = some t ∧ ¬ Indexed t 0 :=
  not_indexed ⟨hltThenRet, x86.decoder⟩ fillOrder true blank 0 rfl (fun _ _ tagged => nomatch tagged)

/-- A block of one `ret`: its only address has no block tag. -/
theorem firstAddress_untagged :
    ∃ t, makeFunctionAt ⟨hltThenRet, x86.decoder⟩ fillOrder 4 true blank 1 = some t ∧
      (blocksOf t 0).map Block.addresses = [[1]] ∧ t.block 1 = none ∧ Disjoint t 0 ∧ ¬ Indexed t 0 := by
  refine ⟨_, rfl, rfl, rfl, List.pairwise_singleton _ _, ?_⟩
  intro indexed
  cases indexed _ rfl 0 List.mem_cons_self _ rfl 1 List.mem_cons_self

end Qira.BasicBlocks
