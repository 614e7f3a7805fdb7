import Qira.CallClosure

/-!
Cross references: `disassemble` adds an address to the `xrefs` of its call targets and to the `crefs` of
where it jumps, and nothing else adds any.
-/

namespace Qira.CrossReferences
open Instructions Analyzer Library.Machines

/-- `disassemble` took the instruction: it gives its address a function, and nothing takes that away. -/
def Disassembled (s : Static) (u : Int) : Prop := (s.function u).isSome

/-- The references of a state are those of the instructions that were disassembled. -/
structure Exact (bin : Binary) (s : Static) : Prop where
  xrefs : ∀ c u, u ∈ s.xrefs c ↔ Disassembled s u ∧ c ∈ (bin.instruction u).calls
  crefs : ∀ c u, u ∈ s.crefs c ↔ Disassembled s u ∧ c ∈ (bin.instruction u).follows ∧
    c ≠ u + (bin.instruction u).size

/-- No functions and no references. -/
structure Unreferenced (s : Static) : Prop where
  untagged : ∀ u, s.function u = none
  xrefs : ∀ c, s.xrefs c = ∅
  crefs : ∀ c, s.crefs c = ∅

section Descents
variable (d : Instruction) (address : Int)

/-- One dest adds one reference to what it leads to, or none if that is just the next instruction. -/
theorem dest_refs (p : Descent) (dest : Int × DestType) (x u : Int) :
    (u ∈ (p.dest d address dest).static.xrefs x ↔
      u ∈ p.static.xrefs x ∨ (u = address ∧ x = dest.1 ∧ dest.2 = .call)) ∧
    (u ∈ (p.dest d address dest).static.crefs x ↔ u ∈ p.static.crefs x ∨
      (u = address ∧ x = dest.1 ∧ dest.2 ≠ .call ∧ x ≠ address + d.size)) := by
  obtain ⟨c, flag⟩ := dest
  have added : ∀ refs : Int → Finset Int,
      u ∈ Function.update refs c (insert address (refs c)) x ↔ u ∈ refs x ∨ (u = address ∧ x = c) := by
    intro refs
    by_cases same : x = c
    · rw [same, Function.update_self, Finset.mem_insert, or_comm, and_iff_left rfl]
    · rw [Function.update_of_ne same, or_iff_left fun both => same both.2]
  by_cases isCall : flag = .call
  · simp only [Descent.dest, if_pos isCall, added]
    simp [isCall]
  · by_cases next : c = address + d.size
    · have kept : (p.dest d address (c, flag)).static.xrefs = p.static.xrefs ∧
          (p.dest d address (c, flag)).static.crefs = p.static.crefs := by
        simp only [Descent.dest, if_neg isCall, if_neg (not_not.mpr next)]
        split_ifs <;> exact ⟨rfl, rfl⟩
      rw [kept.1, kept.2]
      refine ⟨(or_iff_left fun both => isCall both.2.2).symm, (or_iff_left ?_).symm⟩
      rintro ⟨-, rfl, -, leaps⟩
      exact leaps next
    · simp only [Descent.dest, if_neg isCall, if_pos next, added]
      refine ⟨(or_iff_left fun both => isCall both.2.2).symm, or_congr_right (and_congr_right fun _ => ?_)⟩
      exact ⟨fun same => ⟨same, isCall, same ▸ next⟩, And.left⟩

theorem foldl_dest_refs (dests : List (Int × DestType)) (p : Descent) (x u : Int) :
    (u ∈ (dests.foldl (Descent.dest d address) p).static.xrefs x ↔ u ∈ p.static.xrefs x ∨
      (u = address ∧ ∃ dest ∈ dests, x = dest.1 ∧ dest.2 = .call)) ∧
    (u ∈ (dests.foldl (Descent.dest d address) p).static.crefs x ↔ u ∈ p.static.crefs x ∨
      (u = address ∧ ∃ dest ∈ dests, x = dest.1 ∧ dest.2 ≠ .call ∧ x ≠ address + d.size)) := by
  induction dests generalizing p with
  | nil => simp
  | cons dest rest ih =>
    obtain ⟨xrefs, crefs⟩ := ih (p.dest d address dest)
    obtain ⟨xrefs', crefs'⟩ := dest_refs d address p dest x u
    rw [List.foldl_cons, xrefs, crefs, xrefs', crefs', or_assoc, or_assoc, ← and_or_left,
      ← and_or_left, List.exists_mem_cons_iff, List.exists_mem_cons_iff]
    exact ⟨Iff.rfl, Iff.rfl⟩

theorem mem_map_filter_iff (p : DestType → Bool) (dests : List (Int × DestType)) (c : Int) :
    c ∈ (dests.filter (fun dest => p dest.2)).map Prod.fst ↔
      ∃ dest ∈ dests, c = dest.1 ∧ p dest.2 = true := by
  rw [List.mem_map]
  constructor
  · rintro ⟨dest, member, rfl⟩
    obtain ⟨there, passes⟩ := List.mem_filter.mp member
    exact ⟨dest, there, rfl, passes⟩
  · rintro ⟨dest, there, rfl, passes⟩
    exact ⟨dest, List.mem_filter.mpr ⟨there, passes⟩, rfl⟩

theorem mem_calls_iff (c : Int) : c ∈ d.calls ↔ ∃ dest ∈ d.dests, c = dest.1 ∧ dest.2 = .call := by
  refine (mem_map_filter_iff (fun flag => flag = .call) d.dests c).trans ?_
  simp only [decide_eq_true_eq]

theorem mem_follows_iff (c : Int) :
    c ∈ d.follows ↔ ∃ dest ∈ d.dests, c = dest.1 ∧ dest.2 ≠ .call := by
  refine (mem_map_filter_iff (fun flag => flag ≠ .call) d.dests c).trans ?_
  simp only [decide_eq_true_eq]

/-- One disassembly adds the references of its instruction. -/
theorem disassemble_refs (bin : Binary) (thisFunction : Nat) (p : Descent) (x u : Int) :
    (u ∈ (p.disassemble bin thisFunction address).static.xrefs x ↔
      u ∈ p.static.xrefs x ∨ (u = address ∧ x ∈ (bin.instruction u).calls)) ∧
    (u ∈ (p.disassemble bin thisFunction address).static.crefs x ↔ u ∈ p.static.crefs x ∨
      (u = address ∧ x ∈ (bin.instruction u).follows ∧ x ≠ u + (bin.instruction u).size)) := by
  obtain ⟨xrefs, crefs⟩ := foldl_dest_refs (bin.instruction address) address
    (bin.instruction address).dests { p with static := { p.static with
      function := Function.update p.static.function address (some thisFunction) } } x u
  refine ⟨xrefs.trans (or_congr_right (and_congr_right ?_)),
    crefs.trans (or_congr_right (and_congr_right ?_))⟩
  · rintro rfl
    exact (mem_calls_iff _ x).symm
  · rintro rfl
    rw [mem_follows_iff]
    constructor
    · rintro ⟨dest, member, same, noCall, leaps⟩
      exact ⟨⟨dest, member, same, noCall⟩, leaps⟩
    · rintro ⟨⟨dest, member, same, noCall⟩, leaps⟩
      exact ⟨dest, member, same, noCall, leaps⟩

end Descents

section Runs
variable {bin : Binary} {order : SetOrder} {fuel : Nat} {s t : Static} {address : Int}

theorem foldl_disassemble_refs (thisFunction : Nat) (visited : List Int) (p : Descent) (x u : Int) :
    (u ∈ (visited.foldl (Descent.disassemble bin thisFunction) p).static.xrefs x ↔
      u ∈ p.static.xrefs x ∨ (u ∈ visited ∧ x ∈ (bin.instruction u).calls)) ∧
    (u ∈ (visited.foldl (Descent.disassemble bin thisFunction) p).static.crefs x ↔
      u ∈ p.static.crefs x ∨ (u ∈ visited ∧ x ∈ (bin.instruction u).follows ∧
        x ≠ u + (bin.instruction u).size)) := by
  induction visited generalizing p with
  | nil => simp
  | cons v rest ih =>
    obtain ⟨xrefs, crefs⟩ := ih (p.disassemble bin thisFunction v)
    obtain ⟨xrefs', crefs'⟩ := disassemble_refs v bin thisFunction p x u
    rw [List.foldl_cons, xrefs, crefs, xrefs', crefs', List.mem_cons, or_and_right, or_and_right,
      or_assoc, or_assoc]
    exact ⟨Iff.rfl, Iff.rfl⟩

theorem findBlock_refs (blockStarts : List Int) (thisFunction : Nat) (b : Int)
    (ran : findBlock bin blockStarts thisFunction fuel s b = some t) :
    t.xrefs = s.xrefs ∧ t.crefs = s.crefs := by
  obtain ⟨⟨u, grown⟩, grew, rfl⟩ := Option.map_eq_some_iff.mp ran
  have frame := growBlock_frame bin blockStarts _ fuel s u b [b] grown grew
  change u.xrefs = s.xrefs ∧ u.crefs = s.crefs
  rw [frame]
  exact ⟨rfl, rfl⟩

theorem recover_exact {calls : List Int} (exact' : Exact bin s)
    (ran : recover bin order fuel s address = some (t, calls)) : Exact bin t := by
  obtain ⟨visited, p, reached, folded, found, -⟩ := recover_cases ran
  obtain ⟨-, tags, -⟩ := recover_spec bin order fuel s t address calls ran
  have refs := @foldl_disassemble_refs bin s.functions.length visited
    ⟨{ s with functions := s.functions ++ [⟨address, []⟩] }, [address], []⟩
  rw [folded] at refs
  obtain ⟨xrefs, crefs⟩ : t.xrefs = p.static.xrefs ∧ t.crefs = p.static.crefs :=
    run_invariant (fun w => w.xrefs = p.static.xrefs ∧ w.crefs = p.static.crefs)
      (fun w b w' before taken => by
        have frame := findBlock_refs p.blockStarts s.functions.length b taken
        exact ⟨frame.1.trans before.1, frame.2.trans before.2⟩) ⟨rfl, rfl⟩ found
  constructor
  · intro c u
    rw [xrefs, (refs c u).1, exact'.xrefs, reached, Disassembled, Disassembled, tags, or_and_right]
  · intro c u
    rw [crefs, (refs c u).2, exact'.crefs, reached, Disassembled, Disassembled, tags, or_and_right]

theorem makeFunctionAt_exact {recurse : Bool}
    (made : makeFunctionAt bin order fuel recurse s address = some t) (exact' : Exact bin s) :
    Exact bin t :=
  makeFunctionAt_relation (fun s t => Exact bin s → Exact bin t) (fun _ => id)
    (fun _ _ _ first second => second ∘ first) (fun _ _ _ _ _ _ ran before => recover_exact before ran)
    made exact'

/-- What control leads to from disassembled code is disassembled too. -/
def FlowsOn (bin : Binary) (s : Static) : Prop := ∀ u, Disassembled s u → ∀ d, Flows bin u d → Disassembled s d

theorem recover_flowsOn {calls : List Int} (before : FlowsOn bin s)
    (ran : recover bin order fuel s address = some (t, calls)) : FlowsOn bin t := by
  have tags := (recover_spec bin order fuel s t address calls ran).2.1
  intro u taken d flows
  rcases (tags u).mp taken with old | reached
  · exact (tags d).mpr (Or.inl (before u old d flows))
  · exact (tags d).mpr (Or.inr (reached.trans flows))

/-- A call that returns leaves its start disassembled. -/
theorem makeFunctionAt_disassembled {recurse : Bool}
    (made : makeFunctionAt bin order fuel recurse s address = some t) : Disassembled t address := by
  by_cases new : s.function address = none
  · cases fuel with
    | zero => cases made
    | succ fuel =>
      obtain ⟨w, calls, ran, later⟩ := makeFunctionAt_cases new made
      have tags := (recover_spec bin order fuel s w address calls ran).2.1
      refine run_invariant (fun w => Disassembled w address) ?_
        ((tags address).mpr (Or.inr Relation.ReflTransGen.refl)) later
      intro w f w' before taken
      unfold findMore at taken
      split_ifs at taken
      · exact makeFunctionAt_tagged taken address before
      · exact Option.some.inj taken ▸ before
  · exact makeFunctionAt_tagged made address (Option.ne_none_iff_isSome.mp new)

/-- After a sequence of calls, all is disassembled that control leads to from the addresses called for. -/
theorem run_disassembled (calls : List Call) (before : FlowsOn bin s)
    (ran : run (makeFunction bin order fuel) s calls = some t) :
    ∀ call ∈ calls, ∀ u, Flows bin call.address u → Disassembled t u := by
  induction calls generalizing s with
  | nil => exact nofun
  | cons first rest ih =>
    obtain ⟨w, made, later⟩ := (run_cons_eq_some_iff _ s t first rest).mp ran
    have flowsOn : FlowsOn bin w :=
      makeFunctionAt_relation (fun s t => FlowsOn bin s → FlowsOn bin t) (fun _ => id)
        (fun _ _ _ first second => second ∘ first) (fun _ _ _ _ _ _ ran before => recover_flowsOn before ran)
        made before
    intro call member u flows
    rcases List.mem_cons.mp member with rfl | inRest
    · have there := flowsOn _ (makeFunctionAt_disassembled made) u flows
      exact run_invariant (fun w => Disassembled w u) (fun _ _ _ before taken => makeFunctionAt_tagged taken u before)
        there later
    · exact ih flowsOn later call inRest u flows

theorem Unreferenced.nothing (unreferenced : Unreferenced s) (u : Int) : ¬ Disassembled s u := by
  intro taken
  rw [Disassembled, unreferenced.untagged u] at taken
  cases taken

theorem Unreferenced.exact (unreferenced : Unreferenced s) : Exact bin s := by
  constructor
  · intro c u
    rw [unreferenced.xrefs]
    exact iff_of_false (Finset.notMem_empty u) fun both => unreferenced.nothing u both.1
  · intro c u
    rw [unreferenced.crefs]
    exact iff_of_false (Finset.notMem_empty u) fun both => unreferenced.nothing u both.1

theorem Unreferenced.flowsOn (unreferenced : Unreferenced s) : FlowsOn bin s :=
  fun u taken => absurd taken (unreferenced.nothing u)

end Runs

/-- After any sequence of calls, the references are exactly those of the disassembled instructions, and what control
leads to from the addresses called for is disassembled. -/
theorem makeFunctions_exact (bin : Binary) (order : SetOrder) (s : Static)
    (unreferenced : Unreferenced s) (calls : List Call) :
    ∃ enough, ∀ fuel ≥ enough, ∃ t, run (makeFunction bin order fuel) s calls = some t ∧
      Exact bin t ∧ ∀ call ∈ calls, ∀ u, Flows bin call.address u → Disassembled t u := by
  obtain ⟨enough, returns⟩ := makeFunctions_return bin order s calls
  refine ⟨enough, fun fuel more => ?_⟩
  obtain ⟨t, ran⟩ := returns fuel more
  have exact' : Exact bin t :=
    run_invariant (Exact bin) (fun _ _ _ before made => makeFunctionAt_exact made before) unreferenced.exact ran
  exact ⟨t, ran, exact', run_disassembled calls unreferenced.flowsOn ran⟩

theorem makeFunctions_exact_callThenJump :
    ∃ enough, ∀ fuel ≥ enough, ∃ t,
      run (makeFunction CallClosure.callThenJump CallClosure.fillOrder fuel) CallClosure.blank
        [⟨0, true⟩, ⟨10, false⟩] = some t ∧ Exact CallClosure.callThenJump t ∧
      ∀ call ∈ [(⟨0, true⟩ : Call), ⟨10, false⟩], ∀ u, Flows CallClosure.callThenJump call.address u →
        Disassembled t u :=
  makeFunctions_exact CallClosure.callThenJump CallClosure.fillOrder CallClosure.blank
    ⟨fun _ => rfl, fun _ => rfl, fun _ => rfl⟩ [⟨0, true⟩, ⟨10, false⟩]

end Qira.CrossReferences
