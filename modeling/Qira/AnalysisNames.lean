import Qira.CallClosure

/-!
What the analysis does to names. It writes them through `_auto_update_name` only, so an address that has a
name keeps it, and what it names anew gets a name of its own.
-/

namespace Qira.AnalysisNames
open Instructions Analyzer StaticNames Library.Machines

/-- Names that are there stay, and the index stays right for them. -/
structure Kept (s t : Names) : Prop where
  tags : ∀ a name, s.tag a = some name → name ≠ "" → t.tag a = some name
  registered : Registered s → Registered t

theorem Kept.refl (s : Names) : Kept s s := ⟨fun _ _ held _ => held, id⟩

theorem Kept.trans {s t u : Names} (first : Kept s t) (second : Kept t u) : Kept s u :=
  ⟨fun a name held full => second.tags a name (first.tags a name held full) full,
    second.registered ∘ first.registered⟩

theorem kept_autoUpdateName (s : Names) (address : Int) (name : String) :
    Kept s (s.autoUpdateName address name) := by
  constructor
  · intro a held tagged full
    unfold Names.autoUpdateName
    split_ifs with unnamed
    · have other : a ≠ address := by
        rintro rfl
        rw [tagged] at unnamed
        rcases unnamed with none | empty
        · cases none
        · exact full (Option.some.inj empty)
      exact (Function.update_of_ne other _ _).trans tagged
    · exact tagged
  · intro registered
    have written : s.step (.auto address name) = some (s.autoUpdateName address name) := rfl
    exact StaticNames.step_registered registered written

section Analysis
variable {bin : Binary} {order : SetOrder} {fuel : Nat} {s t : Static} {address : Int}

theorem kept_dest (d : Instruction) (p : Descent) (dest : Int × DestType) :
    Kept p.static.names (p.dest d address dest).static.names := by
  obtain ⟨c, flag⟩ := dest
  by_cases isCall : flag = .call
  · simp only [Descent.dest, if_pos isCall]
    exact kept_autoUpdateName _ _ _
  by_cases leaps : c ≠ address + d.size
  · simp only [Descent.dest, if_neg isCall, if_pos leaps]
    exact kept_autoUpdateName _ _ _
  simp only [Descent.dest, if_neg isCall, if_neg leaps]
  split_ifs
  · exact kept_autoUpdateName _ _ _
  · exact Kept.refl _

theorem kept_disassemble (thisFunction : Nat) (p : Descent) (u : Int) :
    Kept p.static.names (p.disassemble bin thisFunction u).static.names := by
  have all : ∀ (dests : List (Int × DestType)) (q : Descent),
      Kept q.static.names (dests.foldl (Descent.dest (bin.instruction u) u) q).static.names := by
    intro dests
    induction dests with
    | nil => exact fun q => Kept.refl _
    | cons dest rest ih => exact fun q => (kept_dest _ q dest).trans (ih _)
  exact all (bin.instruction u).dests { p with static := { p.static with
    function := Function.update p.static.function u (some thisFunction) } }

theorem kept_visited (thisFunction : Nat) (visited : List Int) (p : Descent) :
    Kept p.static.names
      (visited.foldl (Descent.disassemble bin thisFunction) p).static.names := by
  induction visited generalizing p with
  | nil => exact Kept.refl _
  | cons u rest ih => exact (kept_disassemble thisFunction p u).trans (ih _)

theorem findBlock_names (blockStarts : List Int) (thisFunction : Nat) (b : Int)
    (ran : findBlock bin blockStarts thisFunction fuel s b = some t) : t.names = s.names := by
  obtain ⟨⟨u, grown⟩, grew, rfl⟩ := Option.map_eq_some_iff.mp ran
  have frame := growBlock_frame bin blockStarts _ fuel s u b [b] grown grew
  change u.names = s.names
  rw [frame]

theorem kept_recover {calls : List Int} (ran : recover bin order fuel s address = some (t, calls)) :
    Kept s.names t.names := by
  obtain ⟨visited, p, -, folded, found, -⟩ := recover_cases ran
  have kept := @kept_visited bin s.functions.length visited
    ⟨{ s with functions := s.functions ++ [⟨address, []⟩] }, [address], []⟩
  rw [folded] at kept
  have same : t.names = p.static.names :=
    run_invariant (fun w => w.names = p.static.names)
      (fun w b w' before taken =>
        (findBlock_names p.blockStarts s.functions.length b taken).trans before) rfl found
  rw [same]
  exact kept

theorem kept_makeFunctionAt {recurse : Bool}
    (made : makeFunctionAt bin order fuel recurse s address = some t) : Kept s.names t.names :=
  makeFunctionAt_relation (fun s t => Kept s.names t.names) (fun _ => Kept.refl _)
    (fun _ _ _ => Kept.trans) (fun _ _ _ _ _ _ ran => kept_recover ran) made

end Analysis

/-- What happens to a `Static`: a write or deletion of a name, or a run of the analysis on the image as it
is at that time. -/
inductive Action
  | names (action : StaticNames.Action)
  | analyze (bin : Binary) (order : SetOrder) (fuel : Nat) (call : Call)

def step (s : Static) : Action → Option Static
  | .names action => (s.names.step action).map (fun names => { s with names })
  | .analyze bin order fuel call => makeFunction bin order fuel s call

theorem step_registered {s t : Static} (action : Action) (registered : Registered s.names)
    (taken : step s action = some t) : Registered t.names := by
  cases action with
  | names action =>
    obtain ⟨names, written, rfl⟩ := Option.map_eq_some_iff.mp taken
    exact StaticNames.step_registered registered written
  | analyze bin order fuel call => exact (kept_makeFunctionAt taken).registered registered

/-- Names of before are still there and still lead to their addresses, and a new name is on no other
address. -/
structure Preserved (s t : Names) : Prop where
  held : ∀ a name, s.tag a = some name → name ≠ "" →
    t.tag a = some name ∧ t.getAddressByName name = some a
  new : ∀ a name, t.tag a = some name → s.tag a ≠ some name → ∀ b ≠ a, t.tag b ≠ some name

theorem Kept.preserved {s t : Names} (kept : Kept s t) (registered : Registered s) : Preserved s t := by
  constructor
  · intro a name held full
    have still := kept.tags a name held full
    exact ⟨still, kept.registered registered a name still⟩
  · intro a name tagged _ b other tagged'
    have leadsToA := kept.registered registered a name tagged
    have leadsToB := kept.registered registered b name tagged'
    exact other (Option.some.inj (leadsToB.symm.trans leadsToA))

/-- From every state that name writes and analysis runs lead to, any sequence of calls preserves the
names. -/
theorem makeFunctions_preserve (start s : Static) (unnamed : start.names = Names.empty)
    (history : List Action) (ran : run step start history = some s) (bin : Binary) (order : SetOrder)
    (calls : List Call) :
    ∃ enough, ∀ fuel ≥ enough, ∃ t, run (makeFunction bin order fuel) s calls = some t ∧
      Preserved s.names t.names := by
  have registered : Registered s.names :=
    run_invariant (fun w => Registered w.names)
      (fun _ action _ before taken => step_registered action before taken)
      (unnamed ▸ empty_registered) ran
  obtain ⟨enough, returns⟩ := makeFunctions_return bin order s calls
  refine ⟨enough, fun fuel more => ?_⟩
  obtain ⟨t, analyzed⟩ := returns fuel more
  have kept : Kept s.names t.names :=
    run_invariant (fun w => Kept s.names w.names)
      (fun _ _ _ before made => before.trans (kept_makeFunctionAt made)) (Kept.refl s.names) analyzed
  exact ⟨t, analyzed, kept.preserved registered⟩

theorem makeFunctions_preserve_callThenJump :
    ∃ s, run step CallClosure.blank
        [.names (.set 10 "main"), .analyze CallClosure.callThenJump CallClosure.fillOrder 6 ⟨10, true⟩] =
          some s ∧
      ∃ enough, ∀ fuel ≥ enough, ∃ t,
        run (makeFunction CallClosure.callThenJump CallClosure.fillOrder fuel) s [⟨0, true⟩] = some t ∧
          Preserved s.names t.names :=
  ⟨_, rfl, makeFunctions_preserve CallClosure.blank _ rfl
    [.names (.set 10 "main"), .analyze CallClosure.callThenJump CallClosure.fillOrder 6 ⟨10, true⟩] rfl
    CallClosure.callThenJump CallClosure.fillOrder [⟨0, true⟩]⟩

end Qira.AnalysisNames
