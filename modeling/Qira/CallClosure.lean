import Qira.Analyzer

/-!
Whether discovery is closed under calls. A call target whose code another function takes in first, by a
jump or by running into it, is tagged when its turn comes, and never becomes a function.
-/

namespace Qira.CallClosure
open Instructions Analyzer Library.Machines

section Calls
variable (bin : Binary) (addresses : List Int)

/-- Control gets there from one of the addresses, through calls or without. -/
def Reached (x : Int) : Prop :=
  ∃ a ∈ addresses, Relation.ReflTransGen
    (fun u d => d ∈ (bin.instruction u).follows ∨ d ∈ (bin.instruction u).calls) a x

/-- A direct call from code that is reached goes there. -/
def CallTarget (c : Int) : Prop := ∃ u, Reached bin addresses u ∧ c ∈ (bin.instruction u).calls

/-- Each direct call target of each instruction that was disassembled is the start of exactly one
function. -/
def Closed (s : Static) : Prop :=
  ∀ u, (s.function u).isSome → ∀ c ∈ (bin.instruction u).calls, s.starts.count c = 1

/-- The function made at the address takes in no call target that has no function yet, its own start
apart. -/
def Spares (s : Static) (address : Int) : Prop :=
  ∀ c, CallTarget bin addresses c → Flows bin address c → c ≠ address → (s.function c).isSome

variable (order : SetOrder)

/-- Every function made in a call of `make_function_at` is made in a state that allows it. -/
def MadeAlong (allows : Static → Int → Prop) : Nat → Static → Int → Prop
  | 0, _, _ => True
  | fuel + 1, s, address =>
      s.function address = none → allows s address ∧
        ∀ t calls, recover bin order fuel s address = some (t, calls) →
          Along (findMore bin order fuel) (MadeAlong allows fuel) t (order.iter calls)

end Calls

/-- Without functions, as `Static` is before the analysis. -/
structure Unanalyzed (s : Static) : Prop where
  functions : s.functions = []
  untagged : ∀ x, s.function x = none

/-- Tagged code is reached and closed under flow; starts are tagged and different. -/
structure Sound (bin : Binary) (addresses : List Int) (s : Static) : Prop where
  reached : ∀ x, (s.function x).isSome → Reached bin addresses x
  flows : ∀ u, (s.function u).isSome → ∀ d ∈ (bin.instruction u).follows, (s.function d).isSome
  started : ∀ c ∈ s.starts, (s.function c).isSome
  nodup : s.starts.Nodup

/-- Tagged, but no function of its own. -/
def Stray (s : Static) (c : Int) : Prop := (s.function c).isSome ∧ c ∉ s.starts

/-- What the analysis from one state to another adds: tags stay, calls of new code are tagged, and a
stray address stays stray. -/
structure Extends (bin : Binary) (s t : Static) : Prop where
  tagged : ∀ x, (s.function x).isSome → (t.function x).isSome
  calls : ∀ u, (t.function u).isSome → s.function u = none → ∀ c ∈ (bin.instruction u).calls,
    (t.function c).isSome
  stray : ∀ c, Stray s c → Stray t c

/-- No call target goes stray. -/
def Keeps (bin : Binary) (addresses : List Int) (s t : Static) : Prop :=
  ∀ c, CallTarget bin addresses c → Stray t c → Stray s c

/-- What is known when the analysis has gone through some addresses; `along` says what it takes for no
call target to go stray. -/
structure Covers (bin : Binary) (addresses : List Int) (s t : Static) (through : List Int)
    (along : Prop) : Prop where
  sound : Sound bin addresses t
  adds : Extends bin s t
  tagged : ∀ a ∈ through, (t.function a).isSome
  kept : Keeps bin addresses s t ↔ along

section Discovery
variable {bin : Binary} {addresses : List Int} {order : SetOrder} {s t u : Static}

theorem Extends.trans (first : Extends bin s t) (second : Extends bin t u) : Extends bin s u := by
  refine ⟨fun x => second.tagged x ∘ first.tagged x, ?_, fun c => second.stray c ∘ first.stray c⟩
  intro x tagged new c called
  cases mid : t.function x with
  | none => exact second.calls x tagged mid c called
  | some k => exact second.tagged c (first.calls x (by rw [mid]; rfl) new c called)

/-- A stray address stays stray, so none goes stray if and only if none does on either part of the way. -/
theorem keeps_iff (first : ∀ c, Stray s c → Stray t c) (second : ∀ c, Stray t c → Stray u c) :
    Keeps bin addresses s u ↔ Keeps bin addresses s t ∧ Keeps bin addresses t u := by
  constructor
  · intro keeps
    exact ⟨fun c target stray => keeps c target (second c stray),
      fun c target stray => first c (keeps c target stray)⟩
  · intro both c target stray
    exact both.1 c target (both.2 c target stray)

theorem Reached.flows {a x : Int} (reached : Reached bin addresses a) (flows : Flows bin a x) :
    Reached bin addresses x := by
  obtain ⟨root, member, way⟩ := reached
  refine ⟨root, member, ?_⟩
  induction flows with
  | refl => exact way
  | tail _ step ih => exact ih.tail (Or.inl step)

theorem Reached.call {a c : Int} (reached : Reached bin addresses a)
    (called : c ∈ (bin.instruction a).calls) : Reached bin addresses c := by
  obtain ⟨root, member, way⟩ := reached
  exact ⟨root, member, way.tail (Or.inr called)⟩

theorem Sound.unstarted (sound : Sound bin addresses s) {c : Int} (unmarked : s.function c = none) : c ∉ s.starts := by
  intro member
  have tagged := sound.started c member
  rw [unmarked] at tagged
  cases tagged

section Recovery
variable {address : Int} (starts : t.starts = s.starts ++ [address])
  (tags : ∀ x, (t.function x).isSome ↔ (s.function x).isSome ∨ Flows bin address x)
include starts tags

theorem Sound.recovered (sound : Sound bin addresses s) (reached : Reached bin addresses address)
    (new : s.function address = none) : Sound bin addresses t := by
  refine ⟨?_, ?_, ?_, ?_⟩
  · intro x tagged
    rcases (tags x).mp tagged with old | flows
    · exact sound.reached x old
    · exact reached.flows flows
  · intro x tagged d follows
    rcases (tags x).mp tagged with old | flows
    · exact (tags d).mpr (Or.inl (sound.flows x old d follows))
    · exact (tags d).mpr (Or.inr (flows.tail follows))
  · intro c member
    rw [starts] at member
    rcases List.mem_append.mp member with old | last
    · exact (tags c).mpr (Or.inl (sound.started c old))
    · obtain rfl := List.mem_singleton.mp last
      exact (tags c).mpr (Or.inr Relation.ReflTransGen.refl)
  · rw [starts, List.nodup_append]
    refine ⟨sound.nodup, List.nodup_singleton _, ?_⟩
    intro c member d last same
    rw [same, List.mem_singleton.mp last] at member
    exact sound.unstarted new member

theorem Stray.recovered {c : Int} (stray : Stray s c) (new : s.function address = none) : Stray t c := by
  refine ⟨(tags c).mpr (Or.inl stray.1), ?_⟩
  rw [starts, List.mem_append, List.mem_singleton, not_or]
  refine ⟨stray.2, ?_⟩
  rintro rfl
  have tagged := stray.1
  rw [new] at tagged
  cases tagged

/-- A call target goes stray where the new function runs into it. -/
theorem Sound.keeps_iff_spares (sound : Sound bin addresses s) :
    Keeps bin addresses s t ↔ Spares bin addresses s address := by
  constructor
  · intro keeps c target flows other
    by_contra untagged
    have unmarked := Option.not_isSome_iff_eq_none.mp untagged
    refine untagged (keeps c target ⟨(tags c).mpr (Or.inr flows), ?_⟩).1
    rw [starts, List.mem_append, List.mem_singleton, not_or]
    exact ⟨sound.unstarted unmarked, other⟩
  · intro spares c target stray
    obtain ⟨tagged, unstarted⟩ := stray
    rw [starts, List.mem_append, List.mem_singleton, not_or] at unstarted
    refine ⟨?_, unstarted.1⟩
    rcases (tags c).mp tagged with old | flows
    · exact old
    · exact spares c target flows unstarted.2

end Recovery

/-- Making one function, before its calls are followed. -/
theorem recover_sound {fuel : Nat} {address : Int} {calls : List Int} (sound : Sound bin addresses s)
    (reached : Reached bin addresses address) (new : s.function address = none)
    (recovered : recover bin order fuel s address = some (t, calls)) :
    Sound bin addresses t ∧ (∀ c, Stray s c → Stray t c) ∧
      (Keeps bin addresses s t ↔ Spares bin addresses s address) := by
  obtain ⟨starts, tags, -⟩ := recover_spec bin order fuel s t address calls recovered
  exact ⟨sound.recovered starts tags reached new, fun _ stray => stray.recovered starts tags new,
    sound.keeps_iff_spares starts tags⟩

theorem extends_refl (s : Static) : Extends bin s s := by
  refine ⟨fun _ => id, ?_, fun _ => id⟩
  intro u tagged new
  rw [new] at tagged
  cases tagged

/-- What holds of each turn of a loop over addresses holds of the loop. -/
theorem covers_run {step : Static → Int → Option Static} {allows : Static → Int → Prop}
    (each : ∀ s t f, Sound bin addresses s → Reached bin addresses f → step s f = some t →
      Covers bin addresses s t [f] (allows s f))
    (sound : Sound bin addresses s) (through : List Int)
    (reached : ∀ f ∈ through, Reached bin addresses f) (ran : run step s through = some t) :
    Covers bin addresses s t through (Along step allows s through) := by
  induction through generalizing s with
  | nil =>
    obtain rfl := Option.some.inj ran
    exact ⟨sound, extends_refl s, nofun, iff_of_true (fun _ _ => id) trivial⟩
  | cons f rest ih =>
    obtain ⟨mid, first, later⟩ := (run_cons_eq_some_iff step s t f rest).mp ran
    have one := each s mid f sound (reached f List.mem_cons_self) first
    have more := ih one.sound (fun g member => reached g (List.mem_cons_of_mem f member)) later
    refine ⟨more.sound, one.adds.trans more.adds, ?_, ?_⟩
    · intro a member
      rcases List.mem_cons.mp member with rfl | inRest
      · exact more.adds.tagged a (one.tagged a List.mem_cons_self)
      · exact more.tagged a inRest
    · rw [keeps_iff one.adds.stray more.adds.stray, one.kept, more.kept, Along, forall_taken_iff first]

/-- An address that has a function is passed over. -/
theorem covers_known (fuel : Nat) {address : Int} (sound : Sound bin addresses s)
    (known : s.function address ≠ none) :
    Covers bin addresses s s [address] (MadeAlong bin order (Spares bin addresses) fuel s address) := by
  refine ⟨sound, extends_refl s, ?_, iff_of_true (fun _ _ => id) ?_⟩
  · intro a only
    obtain rfl := List.mem_singleton.mp only
    exact Option.ne_none_iff_isSome.mp known
  · cases fuel with
    | zero => trivial
    | succ fuel => exact fun new => absurd new known

/-- A turn of the loop over the targets found. -/
theorem findMore_covers (fuel : Nat)
    (ih : ∀ s t address, Sound bin addresses s → Reached bin addresses address →
      makeFunctionAt bin order fuel true s address = some t →
      Covers bin addresses s t [address] (MadeAlong bin order (Spares bin addresses) fuel s address))
    (s t : Static) (f : Int) (sound : Sound bin addresses s) (reached : Reached bin addresses f)
    (taken : findMore bin order fuel s f = some t) :
    Covers bin addresses s t [f] (MadeAlong bin order (Spares bin addresses) fuel s f) := by
  unfold findMore at taken
  split_ifs at taken with unknown
  · exact ih s t f sound reached taken
  · obtain rfl := Option.some.inj taken
    exact covers_known fuel sound unknown

/-- What extends the state with one more function extends the state before, if the calls of that function are covered. -/
theorem Extends.recovered {address : Int} (adds : Extends bin u t)
    (tags : ∀ x, (u.function x).isSome ↔ (s.function x).isSome ∨ Flows bin address x)
    (strays : ∀ c, Stray s c → Stray u c)
    (covered : ∀ x, Flows bin address x → ∀ c ∈ (bin.instruction x).calls, (t.function c).isSome) :
    Extends bin s t := by
  refine ⟨fun x tagged => adds.tagged x ((tags x).mpr (Or.inl tagged)), ?_, fun c stray => adds.stray c (strays c stray)⟩
  intro x tagged untagged c called
  cases before : u.function x with
  | none => exact adds.calls x tagged before c called
  | some k =>
    have inside : (u.function x).isSome := by rw [before]; rfl
    rcases (tags x).mp inside with old | flows
    · rw [untagged] at old
      cases old
    · exact covered x flows c called

/-- The recursion over calls: what it covers, and that it keeps call targets from going stray exactly
when every function is made in a state that spares them. -/
theorem makeFunctionAt_covers (fuel : Nat) (s t : Static) (address : Int) (sound : Sound bin addresses s)
    (reached : Reached bin addresses address)
    (made : makeFunctionAt bin order fuel true s address = some t) :
    Covers bin addresses s t [address]
      (MadeAlong bin order (Spares bin addresses) fuel s address) := by
  induction fuel generalizing s t address with
  | zero => cases made
  | succ fuel ih =>
    by_cases new : s.function address = none
    · rw [makeFunctionAt_new new] at made
      obtain ⟨⟨u, calls⟩, recovered, later⟩ := Option.bind_eq_some_iff.mp made
      obtain ⟨starts, tags, targets⟩ := recover_spec bin order fuel s u address calls recovered
      obtain ⟨soundU, strays, kept⟩ := recover_sound sound reached new recovered
      have calledFrom : ∀ f ∈ order.iter calls, Reached bin addresses f := by
        intro f inCalls
        obtain ⟨v, flows, called⟩ := (targets f).mp ((order.mem_iter calls f).mp inCalls)
        exact (reached.flows flows).call called
      have rest := covers_run (findMore_covers fuel ih) soundU (order.iter calls) calledFrom later
      have adds := rest.adds.recovered tags strays fun x flows c called =>
        rest.tagged c ((order.mem_iter calls c).mpr ((targets c).mpr ⟨x, flows, called⟩))
      refine ⟨rest.sound, adds, ?_, ?_⟩
      · intro a only
        obtain rfl := List.mem_singleton.mp only
        exact rest.adds.tagged a ((tags a).mpr (Or.inr Relation.ReflTransGen.refl))
      · rw [keeps_iff strays rest.adds.stray, kept, rest.kept]
        constructor
        · intro both _
          refine ⟨both.1, fun t' calls' same => ?_⟩
          obtain ⟨rfl, rfl⟩ := Prod.mk.inj (Option.some.inj (recovered.symm.trans same))
          exact both.2
        · intro along
          obtain ⟨spares, following⟩ := along new
          exact ⟨spares, following u calls recovered⟩
    · rw [makeFunctionAt_known true new] at made
      obtain rfl := Option.some.inj made
      exact covers_known (fuel + 1) sound new

/-- All that is reached is tagged at the end, and the analysis is closed if and only if no call target
has gone stray. -/
theorem closed_iff_keeps {along : Prop} (unanalyzed : Unanalyzed s)
    (covers : Covers bin addresses s t addresses along) :
    Closed bin t ↔ Keeps bin addresses s t := by
  have all : ∀ x, Reached bin addresses x → (t.function x).isSome := by
    rintro x ⟨root, member, way⟩
    induction way with
    | refl => exact covers.tagged root member
    | tail _ step ih =>
      rcases step with follows | called
      · exact covers.sound.flows _ ih _ follows
      · exact covers.adds.calls _ ih (unanalyzed.untagged _) _ called
  constructor
  · rintro closed c ⟨u, reached, called⟩ stray
    have once := closed u (all u reached) c called
    exact absurd (List.count_pos_iff.mp (once ▸ Nat.one_pos)) stray.2
  · intro keeps u tagged c called
    have target : CallTarget bin addresses c := ⟨u, covers.sound.reached u tagged, called⟩
    have taggedC := covers.adds.calls u tagged (unanalyzed.untagged u) c called
    apply List.count_eq_one_of_mem covers.sound.nodup
    by_contra unstarted
    have before := (keeps c target ⟨taggedC, unstarted⟩).1
    rw [unanalyzed.untagged c] at before
    cases before

end Discovery

theorem Unanalyzed.sound {bin : Binary} {addresses : List Int} {s : Static} (unanalyzed : Unanalyzed s) :
    Sound bin addresses s := by
  have nothing : ∀ x, ¬ (s.function x).isSome := by
    intro x tagged
    rw [unanalyzed.untagged x] at tagged
    cases tagged
  have starts : s.starts = [] := by
    rw [Static.starts, unanalyzed.functions]
    rfl
  refine ⟨fun x tagged => absurd tagged (nothing x), fun x tagged => absurd tagged (nothing x), ?_, ?_⟩
  · rw [starts]
    exact fun c member => absurd member List.not_mem_nil
  · rw [starts]
    exact List.nodup_nil

/-- Every sequence of calls returns, and the result is closed under calls if and only if every function
was made in a state that spares the call targets. -/
theorem closed_iff_spares (bin : Binary) (order : SetOrder) (s : Static) (unanalyzed : Unanalyzed s)
    (addresses : List Int) :
    ∃ enough, ∀ fuel ≥ enough, ∃ t, run (makeFunctionAt bin order fuel true) s addresses = some t ∧
      (Closed bin t ↔ Along (makeFunctionAt bin order fuel true)
        (MadeAlong bin order (Spares bin addresses) fuel) s addresses) := by
  let among := bin.targets ∪ addresses.toFinset
  refine ⟨loopFuel bin + among.card + 1, fun fuel enough => ?_⟩
  obtain ⟨t, ran, -⟩ := run_returns (fun _ => True)
    (fun w a member _ => by
      have few : untagged among w ≤ among.card := Finset.card_filter_le _ _
      have inside : a ∈ among := Finset.mem_union_right _ (List.mem_toFinset.mpr member)
      obtain ⟨w', made⟩ := makeFunctionAt_returns bin order among Finset.subset_union_left fuel true w a
        inside (by omega)
      exact ⟨w', made, trivial⟩) trivial
  have covers := covers_run (makeFunctionAt_covers fuel) unanalyzed.sound addresses
    (fun f member => ⟨f, member, Relation.ReflTransGen.refl⟩) ran
  exact ⟨t, ran, (closed_iff_keeps unanalyzed covers).trans covers.kept⟩

/-- `call 10` at 0, `jmp 10` at 5 and `ret` at 10. -/
def callThenJump : Binary where
  base := AList.singleton (0, 11) [0xE8, 5, 0, 0, 0, 0xEB, 3, 0x90, 0x90, 0x90, 0xC3]
  decoder := Capstone.decoder
    { disasm := fun raw address =>
        if raw = [] then none
        else if address = 0 then some ⟨5, "call", false, some 10⟩
        else if address = 5 then some ⟨2, "jmp", true, some 10⟩
        else if address = 10 then some ⟨1, "ret", false, none⟩
        else none
      empty := fun _ => rfl }

/-- Sets walked in the order in which they were filled. -/
def fillOrder : SetOrder := ⟨List.dedup, List.nodup_dedup, fun _ _ => List.mem_dedup⟩

def blank : Static :=
  ⟨StaticNames.Names.empty, fun _ => none, fun _ => none, fun _ => ∅, fun _ => ∅, [], []⟩

theorem closed_iff_spares_callThenJump :
    ∃ enough, ∀ fuel ≥ enough, ∃ t,
      run (makeFunctionAt callThenJump fillOrder fuel true) blank [10, 0] = some t ∧
        (Closed callThenJump t ↔ Along (makeFunctionAt callThenJump fillOrder fuel true)
          (MadeAlong callThenJump fillOrder (Spares callThenJump [10, 0]) fuel) blank [10, 0]) :=
  closed_iff_spares callThenJump fillOrder blank ⟨rfl, fun _ => rfl⟩ [10, 0]

/-- The jump at 5 puts address 10 into the function at 0 before the function pass looks at it, so the
target of the call is no function. -/
theorem tail_called_missed :
    ∃ t, run (makeFunctionAt callThenJump fillOrder 6 true) blank [0] = some t ∧ t.starts = [0] ∧
      (t.function 0).isSome ∧ 10 ∈ (callThenJump.instruction 0).calls ∧ ¬ Closed callThenJump t := by
  refine ⟨_, rfl, rfl, rfl, ?_, ?_⟩
  · decide
  · intro closed
    have once := closed 0 rfl 10 (by decide)
    revert once
    decide

end Qira.CallClosure
