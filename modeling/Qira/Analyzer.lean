import Qira.Instructions
import Qira.Library.Worklists
import Qira.StaticNames

/-!
Function discovery: `make_function_at` disassembles what an address leads to, cuts it into blocks, and
goes on with the targets of its calls.
-/

namespace Qira.Analyzer
open Instructions StaticNames Library.Machines Library.Worklists

/-- Function and block objects are referred to by their place in the order of creation. -/
structure Function where
  start : Int
  blocks : List Nat

structure Block where
  start : Int
  addresses : List Int

/-- The tags and global tags of `Static` that the analysis reads and writes. -/
structure Static where
  names : Names
  function : Int → Option Nat
  block : Int → Option Nat
  crefs : Int → Finset Int
  xrefs : Int → Finset Int
  functions : List Function
  blocks : List Block

/-- The order in which a set of addresses is walked, which may depend on how it was filled. -/
structure SetOrder where
  iter : List Int → List Int
  nodup : ∀ added, (iter added).Nodup
  mem_iter : ∀ added x, x ∈ iter added ↔ x ∈ added

/-- The sets that `disassemble` fills beside the tags. -/
structure Descent where
  static : Static
  blockStarts : List Int
  functionStarts : List Int

/-- `"%x"`. -/
def hex (n : Int) : String :=
  (if n < 0 then "-" else "") ++ String.ofList (Nat.toDigits 16 n.natAbs)

/-- The loop body of `disassemble`. -/
def Descent.dest (d : Instruction) (address : Int) (p : Descent) : Int × DestType → Descent
  | (c, flag) =>
      if flag = .call then
        { p with
          static := { p.static with
            names := p.static.names.autoUpdateName c ("sub_" ++ hex c)
            xrefs := Function.update p.static.xrefs c (insert address (p.static.xrefs c)) }
          functionStarts := p.functionStarts ++ [c] }
      else if c ≠ address + d.size then
        { p with
          static := { p.static with
            crefs := Function.update p.static.crefs c (insert address (p.static.crefs c))
            names := p.static.names.autoUpdateName c ("loc_" ++ hex c) }
          blockStarts := p.blockStarts ++ [c] }
      else if d.isJump && !d.isCall then
        { p with
          static := { p.static with names := p.static.names.autoUpdateName c ("loc_" ++ hex c) }
          blockStarts := p.blockStarts ++ [c] }
      else p

def Descent.disassemble (bin : Binary) (thisFunction : Nat) (p : Descent) (address : Int) : Descent :=
  let d := bin.instruction address
  d.dests.foldl (Descent.dest d address)
    { p with static := { p.static with
        function := Function.update p.static.function address (some thisFunction) } }

/-- The recursive descent pass; dests with the flag `call` are left to the function pass. -/
def descend (bin : Binary) (thisFunction : Nat) :
    Nat → Descent → List Int → List Int → Option Descent
  | 0, _, _, _ => none
  | _ + 1, p, [], _ => some p
  | fuel + 1, p, address :: pending, done =>
      let queued := enqueue pending done (bin.instruction address).follows
      descend bin thisFunction fuel (p.disassemble bin thisFunction address) queued.1 queued.2

/-- The inner loop of the block finding pass, and the addresses the block ends up with. -/
def growBlock (bin : Binary) (blockStarts : List Int) (thisBlock : Nat) :
    Nat → Static → Int → List Int → Option (Static × List Int)
  | 0, _, _, _ => none
  | fuel + 1, s, address, addresses =>
      let i := bin.instruction address
      if !i.isEnding && i.size ≠ 0 then
        let next := address + i.size
        if next ∈ blockStarts then some (s, addresses)
        else growBlock bin blockStarts thisBlock fuel
          { s with block := Function.update s.block next (some thisBlock) } next (addresses ++ [next])
      else some (s, addresses)

def findBlock (bin : Binary) (blockStarts : List Int) (thisFunction fuel : Nat) (s : Static) (b : Int) :
    Option Static :=
  (growBlock bin blockStarts s.blocks.length fuel s b [b]).map (fun grown =>
    { grown.1 with
      blocks := s.blocks ++ [⟨b, grown.2⟩]
      functions := s.functions.modify thisFunction
        (fun f => { f with blocks := f.blocks ++ [s.blocks.length] }) })

/-- `make_function_at` up to the function pass, and the call targets it has collected. -/
def recover (bin : Binary) (order : SetOrder) (fuel : Nat) (s : Static) (address : Int) :
    Option (Static × List Int) :=
  let thisFunction := s.functions.length
  let created := { s with functions := s.functions ++ [⟨address, []⟩] }
  (descend bin thisFunction fuel ⟨created, [address], []⟩ [address] []).bind (fun p =>
    (run (findBlock bin p.blockStarts thisFunction fuel) p.static (order.iter p.blockStarts)).map
      (fun t => (t, p.functionStarts)))

/-- `none` is running out of fuel. -/
def makeFunctionAt (bin : Binary) (order : SetOrder) : Nat → Bool → Static → Int → Option Static
  | 0, _, _, _ => none
  | fuel + 1, recurse, s, address =>
      if s.function address ≠ none then some s
      else
        (recover bin order fuel s address).bind (fun recovered =>
          if recurse then
            run (fun s f => if s.function f = none then makeFunctionAt bin order fuel true s f else some s)
              recovered.1 (order.iter recovered.2)
          else some recovered.1)

/-- Control gets from one address to the other without a call. -/
def Flows (bin : Binary) : Int → Int → Prop := Leads (fun a => (bin.instruction a).follows)

def Static.starts (s : Static) : List Int := s.functions.map Function.start

section Descents
variable (bin : Binary) (thisFunction : Nat)

theorem dest_spec (d : Instruction) (address : Int) (p : Descent) (dest : Int × DestType) :
    let t := p.dest d address dest
    t.static.function = p.static.function ∧ t.static.functions = p.static.functions ∧
      t.functionStarts = p.functionStarts ++ if dest.2 = .call then [dest.1] else [] := by
  obtain ⟨c, flag⟩ := dest
  by_cases isCall : flag = .call
  · simp only [Descent.dest, isCall, if_true, and_self]
  · simp only [Descent.dest, isCall, if_false, List.append_nil]
    split_ifs <;> exact ⟨rfl, rfl, rfl⟩

/-- What the loop of `disassemble` leaves alone, and the call targets it collects. -/
theorem foldl_dest (d : Instruction) (address : Int) (dests : List (Int × DestType)) (p : Descent) :
    let t := dests.foldl (Descent.dest d address) p
    t.static.function = p.static.function ∧ t.static.functions = p.static.functions ∧
      t.functionStarts = p.functionStarts ++ (dests.filter (fun dest => dest.2 = .call)).map Prod.fst := by
  induction dests generalizing p with
  | nil => exact ⟨rfl, rfl, (List.append_nil _).symm⟩
  | cons dest rest ih =>
    obtain ⟨tags, functions, starts⟩ := ih (p.dest d address dest)
    obtain ⟨tags', functions', starts'⟩ := dest_spec d address p dest
    rw [List.foldl_cons]
    refine ⟨tags.trans tags', functions.trans functions', ?_⟩
    rw [starts, starts']
    by_cases isCall : dest.2 = .call <;> simp [isCall]

theorem disassemble_spec (p : Descent) (address : Int) :
    let t := p.disassemble bin thisFunction address
    t.static.function = Function.update p.static.function address (some thisFunction) ∧
      t.static.functions = p.static.functions ∧
      t.functionStarts = p.functionStarts ++ (bin.instruction address).calls :=
  foldl_dest (bin.instruction address) address (bin.instruction address).dests _

/-- The pass is a search, and has its effects at the visited addresses, one after the other. -/
theorem descend_eq (fuel : Nat) (p : Descent) (pending done : List Int) :
    descend bin thisFunction fuel p pending done =
      (visits (fun a => (bin.instruction a).follows) fuel pending done).map
        (fun visited => visited.foldl (Descent.disassemble bin thisFunction) p) := by
  induction fuel generalizing p pending done with
  | zero => rfl
  | succ fuel ih =>
    cases pending with
    | nil => rfl
    | cons address pending =>
      rw [descend, visits, ih, Option.map_map]
      rfl

theorem foldl_disassemble (visited : List Int) (p : Descent) :
    let t := visited.foldl (Descent.disassemble bin thisFunction) p
    (∀ x, t.static.function x = if x ∈ visited then some thisFunction else p.static.function x) ∧
      t.static.functions = p.static.functions ∧
      t.functionStarts = p.functionStarts ++ visited.flatMap (fun a => (bin.instruction a).calls) := by
  induction visited generalizing p with
  | nil => exact ⟨fun x => by simp, rfl, (List.append_nil _).symm⟩
  | cons address rest ih =>
    obtain ⟨tags, functions, starts⟩ := ih (p.disassemble bin thisFunction address)
    obtain ⟨tags', functions', starts'⟩ := disassemble_spec bin thisFunction p address
    rw [List.foldl_cons]
    refine ⟨fun x => ?_, functions.trans functions', ?_⟩
    · rw [tags, tags', Function.update_apply]
      by_cases later : x ∈ rest
      · simp [later]
      · by_cases here : x = address <;> simp [later, here]
    · rw [starts, starts', List.flatMap_cons, List.append_assoc]

end Descents

section Blocks
variable (bin : Binary) (blockStarts : List Int)

theorem growBlock_frame (thisBlock fuel : Nat) (s t : Static) (address : Int)
    (addresses grown : List Int)
    (ran : growBlock bin blockStarts thisBlock fuel s address addresses = some (t, grown)) :
    t = { s with block := t.block } := by
  induction fuel generalizing s address addresses with
  | zero => cases ran
  | succ fuel ih =>
    simp only [growBlock] at ran
    split_ifs at ran
    · cases ran
      rfl
    · have later := ih _ _ _ ran
      rw [later]
    · cases ran
      rfl

theorem starts_modify (functions : List Function) (k : Nat) (blocks : Function → List Nat) :
    (functions.modify k (fun f => { f with blocks := blocks f })).map Function.start =
      functions.map Function.start := by
  apply List.ext_getElem?
  intro i
  rw [List.getElem?_map, List.getElem?_map, List.getElem?_modify]
  cases functions[i]? with
  | none => rfl
  | some f => by_cases here : k = i <;> simp [here]

theorem findBlock_frame (thisFunction fuel : Nat) (s t : Static) (b : Int)
    (ran : findBlock bin blockStarts thisFunction fuel s b = some t) :
    t.function = s.function ∧ t.starts = s.starts := by
  obtain ⟨⟨u, grown⟩, grew, rfl⟩ := Option.map_eq_some_iff.mp ran
  have frame := growBlock_frame bin blockStarts _ fuel s u b [b] grown grew
  constructor
  · change u.function = s.function
    rw [frame]
  · exact starts_modify s.functions thisFunction (fun f => f.blocks ++ [s.blocks.length])

end Blocks

/-- Recovery is a search for what control leads to from the address, and one block for each start found
there. -/
theorem recover_cases {bin : Binary} {order : SetOrder} {fuel : Nat} {s t : Static} {address : Int}
    {calls : List Int} (ran : recover bin order fuel s address = some (t, calls)) :
    ∃ (visited : List Int) (p : Descent), (∀ x, x ∈ visited ↔ Flows bin address x) ∧
      visited.foldl (Descent.disassemble bin s.functions.length)
        ⟨{ s with functions := s.functions ++ [⟨address, []⟩] }, [address], []⟩ = p ∧
      run (findBlock bin p.blockStarts s.functions.length fuel) p.static (order.iter p.blockStarts) =
        some t ∧ p.functionStarts = calls := by
  obtain ⟨p, descended, found⟩ := Option.bind_eq_some_iff.mp ran
  obtain ⟨u, blocks, same⟩ := Option.map_eq_some_iff.mp found
  obtain ⟨rfl, rfl⟩ := Prod.mk.inj same
  rw [descend_eq] at descended
  obtain ⟨visited, searched, folded⟩ := Option.map_eq_some_iff.mp descended
  exact ⟨visited, p, mem_visits_iff searched, folded, blocks, rfl⟩

/-- A function is made for the address, all that control leads to from there is tagged, and the calls
found there are handed to the function pass. -/
theorem recover_spec (bin : Binary) (order : SetOrder) (fuel : Nat) (s t : Static) (address : Int)
    (calls : List Int) (ran : recover bin order fuel s address = some (t, calls)) :
    t.starts = s.starts ++ [address] ∧
      (∀ x, (t.function x).isSome ↔ (s.function x).isSome ∨ Flows bin address x) ∧
      ∀ c, c ∈ calls ↔ ∃ u, Flows bin address u ∧ c ∈ (bin.instruction u).calls := by
  obtain ⟨visited, p, reached, folded, blocks, rfl⟩ := recover_cases ran
  obtain ⟨tags, functions, starts⟩ := foldl_disassemble bin s.functions.length visited
    ⟨{ s with functions := s.functions ++ [⟨address, []⟩] }, [address], []⟩
  rw [folded] at tags functions starts
  obtain ⟨kept, keptStarts⟩ : t.function = p.static.function ∧ t.starts = p.static.starts :=
    run_invariant (fun w => w.function = p.static.function ∧ w.starts = p.static.starts)
      (fun w b w' before taken => by
        have frame := findBlock_frame bin _ _ fuel w w' b taken
        exact ⟨frame.1.trans before.1, frame.2.trans before.2⟩)
      ⟨rfl, rfl⟩ blocks
  refine ⟨?_, fun x => ?_, fun c => ?_⟩
  · rw [keptStarts, Static.starts, functions]
    simp [Static.starts]
  · rw [kept, tags]
    rw [← reached]
    by_cases there : x ∈ visited <;> simp [there]
  · rw [starts, List.nil_append, List.mem_flatMap]
    simp only [reached]

/-- Fuel for the loops of `make_function_at` on any image state. -/
noncomputable def loopFuel (bin : Binary) : Nat := bin.targets.card + bin.readable.card + 1

/-- How many addresses of a finite set have no function yet. -/
def untagged (among : Finset Int) (s : Static) : Nat := (among.filter (fun x => s.function x = none)).card

/-- One turn of the function pass. -/
def findMore (bin : Binary) (order : SetOrder) (fuel : Nat) (s : Static) (f : Int) : Option Static :=
  if s.function f = none then makeFunctionAt bin order fuel true s f else some s

section Recursion
variable {bin : Binary} {order : SetOrder} {fuel : Nat} {s t : Static} {address : Int}

theorem makeFunctionAt_known (recurse : Bool) (known : s.function address ≠ none) :
    makeFunctionAt bin order (fuel + 1) recurse s address = some s := by
  rw [makeFunctionAt, if_pos known]

theorem makeFunctionAt_new (new : s.function address = none) :
    makeFunctionAt bin order (fuel + 1) true s address =
      (recover bin order fuel s address).bind
        (fun recovered => run (findMore bin order fuel) recovered.1 (order.iter recovered.2)) := by
  rw [makeFunctionAt, if_neg (not_not.mpr new)]
  rfl

/-- Without recursion, the function pass has nothing to go through. -/
theorem makeFunctionAt_cases {recurse : Bool} (new : s.function address = none)
    (made : makeFunctionAt bin order (fuel + 1) recurse s address = some t) :
    ∃ u calls, recover bin order fuel s address = some (u, calls) ∧
      run (findMore bin order fuel) u (if recurse then order.iter calls else []) = some t := by
  cases recurse with
  | true =>
    rw [makeFunctionAt_new new] at made
    obtain ⟨⟨u, calls⟩, recovered, later⟩ := Option.bind_eq_some_iff.mp made
    exact ⟨u, calls, recovered, later⟩
  | false =>
    rw [makeFunctionAt, if_neg (not_not.mpr new)] at made
    obtain ⟨⟨u, calls⟩, recovered, same⟩ := Option.bind_eq_some_iff.mp made
    exact ⟨u, calls, recovered, same⟩

/-- A relation that recovery establishes and that goes on holding from one function to the next holds of
the whole recursion. -/
theorem makeFunctionAt_relation (rel : Static → Static → Prop) (refl : ∀ s, rel s s)
    (trans : ∀ s t u, rel s t → rel t u → rel s u)
    (recovers : ∀ fuel s t address calls, s.function address = none →
      recover bin order fuel s address = some (t, calls) → rel s t)
    {recurse : Bool} (made : makeFunctionAt bin order fuel recurse s address = some t) : rel s t := by
  induction fuel generalizing recurse s t address with
  | zero => cases made
  | succ fuel ih =>
    by_cases new : s.function address = none
    · obtain ⟨u, calls, recovered, later⟩ := makeFunctionAt_cases new made
      refine run_invariant (rel s) ?_ (recovers fuel s u address calls new recovered) later
      intro w f w' before taken
      unfold findMore at taken
      split_ifs at taken with unknown
      · exact trans s w w' before (ih taken)
      · exact Option.some.inj taken ▸ before
    · rw [makeFunctionAt_known recurse new] at made
      exact Option.some.inj made ▸ refl s

/-- Once tagged, an address stays tagged. -/
theorem makeFunctionAt_tagged {recurse : Bool}
    (made : makeFunctionAt bin order fuel recurse s address = some t) (x : Int)
    (tagged : (s.function x).isSome) : (t.function x).isSome := by
  refine makeFunctionAt_relation (fun s t => (s.function x).isSome → (t.function x).isSome)
    (fun _ => id) (fun _ _ _ first second => second ∘ first) ?_ made tagged
  intro fuel s t address calls _ recovered early
  exact ((recover_spec bin order fuel s t address calls recovered).2.1 x).mpr (Or.inl early)

end Recursion

section Termination
variable (bin : Binary)

theorem growBlock_returns (blockStarts : List Int) (thisBlock fuel : Nat) (s : Static) (address : Int)
    (addresses : List Int) (enough : (bin.readable.filter (fun a => address ≤ a)).card < fuel) :
    ∃ grown, growBlock bin blockStarts thisBlock fuel s address addresses = some grown := by
  induction fuel generalizing s address addresses with
  | zero => exact absurd enough (Nat.not_lt_zero _)
  | succ fuel ih =>
    simp only [growBlock]
    split_ifs with goesOn atStart
    · exact ⟨_, rfl⟩
    · have sized : (bin.instruction address).size ≠ 0 := by
        simp only [Bool.and_eq_true, decide_eq_true_eq] at goesOn
        exact goesOn.2
      apply ih
      have here : address ∈ bin.readable.filter (fun a => address ≤ a) :=
        Finset.mem_filter.mpr ⟨readable_of_size bin address sized, le_rfl⟩
      have later : bin.readable.filter (fun a => address + (bin.instruction address).size ≤ a) ⊆
          bin.readable.filter (fun a => address ≤ a) := by
        intro a member
        obtain ⟨readable, above⟩ := Finset.mem_filter.mp member
        have forward : address ≤ address + (bin.instruction address).size :=
          Int.le_add_of_nonneg_right (Int.natCast_nonneg _)
        exact Finset.mem_filter.mpr ⟨readable, forward.trans above⟩
      have fewer : bin.readable.filter (fun a => address + (bin.instruction address).size ≤ a) ⊂
          bin.readable.filter (fun a => address ≤ a) := by
        refine (Finset.ssubset_iff_of_subset later).mpr ⟨address, here, ?_⟩
        intro member
        have above := (Finset.mem_filter.mp member).2
        omega
      have less := Finset.card_lt_card fewer
      omega
    · exact ⟨_, rfl⟩

theorem findBlock_returns (blockStarts : List Int) (thisFunction fuel : Nat)
    (enough : loopFuel bin ≤ fuel) (s : Static) (b : Int) :
    ∃ t, findBlock bin blockStarts thisFunction fuel s b = some t := by
  have few := Finset.card_filter_le bin.readable (fun a => b ≤ a)
  unfold loopFuel at enough
  obtain ⟨grown, grew⟩ := growBlock_returns bin blockStarts s.blocks.length fuel s b [b] (by omega)
  rw [findBlock, grew]
  exact ⟨_, rfl⟩

theorem recover_returns (order : SetOrder) (fuel : Nat) (enough : loopFuel bin < fuel) (s : Static)
    (address : Int) : ∃ recovered, recover bin order fuel s address = some recovered := by
  have searched : (visits (fun a => (bin.instruction a).follows) fuel [address] []).isSome := by
    apply visits_returns bin.targets (mem_targets_of_follows bin)
    unfold loopFuel at enough
    rw [List.toFinset_nil, Finset.sdiff_empty, List.length_singleton]
    omega
  obtain ⟨visited, visits⟩ := Option.isSome_iff_exists.mp searched
  rw [recover, descend_eq, visits, Option.map_some, Option.bind_some]
  obtain ⟨t, blocks, -⟩ := run_returns (fun _ => True)
    (fun w b _ _ => (findBlock_returns bin _ s.functions.length fuel enough.le w b).imp
      (fun _ found => ⟨found, trivial⟩)) trivial
  exact ⟨_, Option.map_eq_some_iff.mpr ⟨t, blocks, rfl⟩⟩

theorem untagged_le {among : Finset Int} {s t : Static}
    (more : ∀ x, (s.function x).isSome → (t.function x).isSome) : untagged among t ≤ untagged among s := by
  apply Finset.card_le_card
  intro x free
  obtain ⟨isIn, unmarked⟩ := Finset.mem_filter.mp free
  refine Finset.mem_filter.mpr ⟨isIn, ?_⟩
  by_contra tagged
  have after := more x (Option.ne_none_iff_isSome.mp tagged)
  rw [unmarked] at after
  cases after

theorem untagged_lt {among : Finset Int} {s t : Static} {address : Int}
    (more : ∀ x, (s.function x).isSome → (t.function x).isSome) (member : address ∈ among)
    (new : s.function address = none) (tagged : (t.function address).isSome) :
    untagged among t < untagged among s := by
  have smaller : untagged among t ≤ untagged (among.erase address) s := by
    have fewer : untagged among t ≤ untagged (among.erase address) t := by
      apply Finset.card_le_card
      intro x free
      obtain ⟨isIn, unmarked⟩ := Finset.mem_filter.mp free
      refine Finset.mem_filter.mpr ⟨Finset.mem_erase.mpr ⟨?_, isIn⟩, unmarked⟩
      rintro rfl
      rw [unmarked] at tagged
      cases tagged
    exact fewer.trans (untagged_le more)
  have here : address ∈ among.filter (fun x => s.function x = none) := Finset.mem_filter.mpr ⟨member, new⟩
  have erased := Finset.card_erase_lt_of_mem here
  rw [← Finset.filter_erase] at erased
  exact smaller.trans_lt erased

/-- With fuel for the loops and for each address that can still get a function, the recursion ends. -/
theorem makeFunctionAt_returns (order : SetOrder) (among : Finset Int) (inside : bin.targets ⊆ among)
    (fuel : Nat) (recurse : Bool) (s : Static) (address : Int) (member : address ∈ among)
    (enough : loopFuel bin + untagged among s < fuel) :
    ∃ t, makeFunctionAt bin order fuel recurse s address = some t := by
  induction fuel generalizing recurse s address with
  | zero => exact absurd enough (Nat.not_lt_zero _)
  | succ fuel ih =>
    by_cases new : s.function address = none
    · have here : address ∈ among.filter (fun x => s.function x = none) :=
        Finset.mem_filter.mpr ⟨member, new⟩
      have positive : 0 < untagged among s := Finset.card_pos.mpr ⟨address, here⟩
      obtain ⟨⟨u, calls⟩, recovered⟩ := recover_returns bin order fuel (by omega) s address
      obtain ⟨-, tags, targets⟩ := recover_spec bin order fuel s u address calls recovered
      have fewer : untagged among u < untagged among s := by
        apply untagged_lt (fun x tagged => (tags x).mpr (Or.inl tagged)) member new
        exact (tags address).mpr (Or.inr Relation.ReflTransGen.refl)
      have turns : ∀ w : Static, ∀ f ∈ order.iter calls,
          (∀ x, (u.function x).isSome → (w.function x).isSome) →
          ∃ w', findMore bin order fuel w f = some w' ∧
            ∀ x, (u.function x).isSome → (w'.function x).isSome := by
        intro w f inCalls more
        unfold findMore
        split_ifs with unknown
        · obtain ⟨v, _, called⟩ := (targets f).mp ((order.mem_iter calls f).mp inCalls)
          have less : untagged among w ≤ untagged among u := untagged_le more
          obtain ⟨w', made⟩ := ih true w f (inside (mem_targets_of_calls bin v f called)) (by omega)
          exact ⟨w', made, fun x tagged => makeFunctionAt_tagged made x (more x tagged)⟩
        · exact ⟨w, rfl, more⟩
      cases recurse with
      | true =>
        rw [makeFunctionAt_new new, recovered, Option.bind_some]
        obtain ⟨t, ran, -⟩ := run_returns _ turns (fun _ tagged => tagged)
        exact ⟨t, ran⟩
      | false =>
        rw [makeFunctionAt, if_neg (not_not.mpr new), recovered]
        exact ⟨u, rfl⟩
    · exact ⟨s, makeFunctionAt_known recurse new⟩

/-- One call of `make_function_at`. -/
structure Call where
  address : Int
  recurse : Bool

def makeFunction (order : SetOrder) (fuel : Nat) (s : Static) (call : Call) : Option Static :=
  makeFunctionAt bin order fuel call.recurse s call.address

/-- So with enough fuel any sequence of calls returns. -/
theorem makeFunctions_return (order : SetOrder) (s : Static) (calls : List Call) :
    ∃ enough, ∀ fuel ≥ enough, ∃ t, run (makeFunction bin order fuel) s calls = some t := by
  let among := bin.targets ∪ (calls.map Call.address).toFinset
  refine ⟨loopFuel bin + among.card + 1, fun fuel enough => ?_⟩
  have taken : ∀ w, ∀ call ∈ calls, True → ∃ w', makeFunction bin order fuel w call = some w' ∧ True := by
    intro w call member _
    have few : untagged among w ≤ among.card := Finset.card_filter_le _ _
    have inside : call.address ∈ among :=
      Finset.mem_union_right _ (List.mem_toFinset.mpr (List.mem_map_of_mem member))
    obtain ⟨w', made⟩ := makeFunctionAt_returns bin order among Finset.subset_union_left fuel
      call.recurse w call.address inside (by omega)
    exact ⟨w', made, trivial⟩
  obtain ⟨t, ran, -⟩ := run_returns (fun _ => True) taken trivial
  exact ⟨t, ran⟩

theorem makeFunction_returns (order : SetOrder) (s : Static) (call : Call) :
    ∃ enough, ∀ fuel ≥ enough, ∃ t, makeFunction bin order fuel s call = some t := by
  obtain ⟨enough, returns⟩ := makeFunctions_return bin order s [call]
  refine ⟨enough, fun fuel more => ?_⟩
  obtain ⟨t, ran⟩ := returns fuel more
  obtain ⟨mid, made, -⟩ := (run_cons_eq_some_iff _ s t _ []).mp ran
  exact ⟨mid, made⟩

/-- `make_function_at` terminates, whatever the code at the address looks like: the worklist, the block
loops and the recursion over call targets all come to an end. -/
theorem makeFunctionAt_terminates (order : SetOrder) (s : Static) (address : Int) (recurse : Bool) :
    ∃ enough, ∀ fuel ≥ enough, ∃ t, makeFunctionAt bin order fuel recurse s address = some t :=
  makeFunction_returns bin order s ⟨address, recurse⟩

end Termination

end Qira.Analyzer
