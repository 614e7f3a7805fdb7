import Qira.DepthMap
import Qira.Library.Differences

/-!
The depth of the functions found in a flow: at one changelist, by counting the functions around it, and at all of
them, by a sweep over the changelists where functions start and end.
-/

namespace Qira.FunctionDepths
open DepthMap Library.Differences

/-- A function that has run in a flow, by the first and the last changelist in it. -/
structure Fxn where
  clstart : Int
  clend : Int
  deriving DecidableEq

/-- A call that has not returned: its entries of `fxn_stack`, `cancel_stack` and `cl_stack`. -/
structure Call where
  returnAddress : Int
  callAddress : Int
  clnum : Nat

/-- The variables of `do_function_analysis`; `next_instruction` and `last_instruction` come from the element before. -/
structure Analysis where
  before : Option FlowElement
  calls : List Call
  fxn : List Fxn

/-- Running the call instruction again is no return, and leaves the call and those made since. -/
def cancel (calls : List Call) (address : Int) : List Call :=
  calls.takeWhile (fun c => c.callAddress ≠ address)

/-- The loop body of `do_function_analysis`. -/
def Analysis.element (a : Analysis) (e : FlowElement) : Analysis :=
  let calls := cancel a.calls e.address
  match calls.find? (fun c => c.returnAddress = e.address) with
  | some c =>
      { before := some e
        calls := calls.takeWhile (fun c => c.returnAddress ≠ e.address)
        fxn := a.fxn ++ [⟨c.clnum, e.clnum - 1⟩] }
  | none =>
      match a.before with
      | some last =>
          if last.address + last.length ≠ e.address then
            { a with before := some e, calls := calls ++ [⟨last.address + last.length, last.address, e.clnum⟩] }
          else { a with before := some e, calls }
      | none => { a with before := some e, calls }

def doFunctionAnalysis (flow : List FlowElement) : List Fxn := (flow.foldl Analysis.element ⟨none, [], []⟩).fxn

def getDepth (fxns : List Fxn) (clnum : Int) : Int :=
  fxns.foldl (fun d f => if clnum ≥ f.clstart ∧ clnum ≤ f.clend then d + 1 else d) 0

/-- `l[i] += d`; a negative index counts from the end, and `none` is an `IndexError`. -/
def addAt (l : List Int) (i d : Int) : Option (List Int) :=
  if 0 ≤ i ∧ i < l.length then some (l.modify i.toNat (· + d))
  else if i < 0 ∧ -l.length ≤ i then some (l.modify (i + l.length).toNat (· + d))
  else none

def markFxn (dderiv : List Int) (f : Fxn) : Option (List Int) :=
  (addAt dderiv f.clstart 1).bind (fun dderiv => addAt dderiv f.clend (-1))

def getDepthMap (fxns : List Fxn) (maxclnum : Nat) : Option (List Int) :=
  (fxns.foldlM markFxn (List.replicate maxclnum 0)).map (sumsFrom 0)

/-- The function lies in a trace of so many changelists. -/
structure Within (maxclnum : Nat) (f : Fxn) : Prop where
  start : 0 ≤ f.clstart
  order : f.clstart ≤ f.clend
  last : f.clend < maxclnum

/-- The marks of the sweep. -/
def marks (fxns : List Fxn) : List (Nat × Int) :=
  fxns.flatMap (fun f => [(f.clstart.toNat, 1), (f.clend.toNat, -1)])

section Sweep
variable {fxns : List Fxn} {maxclnum : Nat}

theorem markFxn_within {dderiv : List Int} {f : Fxn} (within : Within dderiv.length f) :
    markFxn dderiv f = some (mark dderiv [(f.clstart.toNat, 1), (f.clend.toNat, -1)]) := by
  obtain ⟨start, order, last⟩ := within
  have first : addAt dderiv f.clstart 1 = some (dderiv.modify f.clstart.toNat (· + 1)) := by
    rw [addAt, if_pos ⟨start, order.trans_lt last⟩]
  rw [markFxn, first, Option.bind_some, addAt, List.length_modify, if_pos ⟨start.trans order, last⟩]
  rfl

theorem foldlM_markFxn (dderiv : List Int) (within : ∀ f ∈ fxns, Within dderiv.length f) :
    fxns.foldlM markFxn dderiv = some (mark dderiv (marks fxns)) := by
  induction fxns generalizing dderiv with
  | nil => rfl
  | cons f rest ih =>
    have first := markFxn_within (within f List.mem_cons_self)
    have later := ih (mark dderiv [(f.clstart.toNat, 1), (f.clend.toNat, -1)]) fun g member => by
      rw [length_mark]
      exact within g (List.mem_cons_of_mem f member)
    rw [List.foldlM_cons, first]
    exact later

/-- The sweep counts the functions that have started and not ended yet. -/
theorem sum_marks (within : ∀ f ∈ fxns, Within maxclnum f) (c : Nat) :
    ((marks fxns).map (fun m => if m.1 ≤ c then m.2 else 0)).sum =
      (fxns.countP (fun f => f.clstart ≤ (c : Int) ∧ (c : Int) < f.clend) : Int) := by
  induction fxns with
  | nil => rfl
  | cons f rest ih =>
    obtain ⟨start, order, -⟩ := within f List.mem_cons_self
    have later := ih fun g member => within g (List.mem_cons_of_mem f member)
    have here : ((if f.clstart.toNat ≤ c then 1 else 0) + ((if f.clend.toNat ≤ c then -1 else 0) + 0) : Int) =
        if f.clstart ≤ c ∧ c < f.clend then 1 else 0 := by
      split_ifs <;> omega
    rw [marks, List.flatMap_cons, List.map_append, List.sum_append, List.countP_cons, ← marks, later, add_comm]
    simp only [List.map_cons, List.map_nil, List.sum_cons, List.sum_nil, here, decide_eq_true_eq]
    push_cast
    rfl

theorem getDepth_eq (fxns : List Fxn) (clnum : Int) :
    getDepth fxns clnum = fxns.countP (fun f => f.clstart ≤ clnum ∧ clnum ≤ f.clend) := by
  have counted : ∀ d : Int, fxns.foldl (fun d f => if clnum ≥ f.clstart ∧ clnum ≤ f.clend then d + 1 else d) d =
      d + fxns.countP (fun f => f.clstart ≤ clnum ∧ clnum ≤ f.clend) := by
    induction fxns with
    | nil => exact fun d => (add_zero d).symm
    | cons f rest ih =>
      intro d
      rw [List.foldl_cons, ih, List.countP_cons]
      simp only [ge_iff_le, decide_eq_true_eq]
      split <;> push_cast <;> ring
  exact (counted 0).trans (zero_add _)

theorem getDepthMap_eq (within : ∀ f ∈ fxns, Within maxclnum f) :
    getDepthMap fxns maxclnum = some (sumsFrom 0 (mark (List.replicate maxclnum 0) (marks fxns))) := by
  rw [getDepthMap, foldlM_markFxn _ (by rwa [List.length_replicate])]
  rfl

/-- A function counts at all changelists from its first to its last, but in the sweep not at the last. -/
theorem getElem?_getDepthMap (within : ∀ f ∈ fxns, Within maxclnum f) (c : Nat) (inside : c < maxclnum) :
    ∃ dmap, getDepthMap fxns maxclnum = some dmap ∧
      dmap[c]? = some (fxns.countP (fun f => f.clstart ≤ (c : Int) ∧ (c : Int) < f.clend) : Int) := by
  refine ⟨_, getDepthMap_eq within, ?_⟩
  have places : ∀ m ∈ marks fxns, m.1 < (List.replicate maxclnum (0 : Int)).length := by
    intro m member
    obtain ⟨f, found, here⟩ := List.mem_flatMap.mp member
    obtain ⟨start, order, last⟩ := within f found
    rw [List.length_replicate]
    rcases List.mem_cons.mp here with rfl | here
    · exact (Int.toNat_lt start).mpr (order.trans_lt last)
    · rw [List.mem_singleton.mp here]
      exact (Int.toNat_lt (start.trans order)).mpr last
  rw [getElem?_sumsFrom _ _ _ (by rwa [length_mark, List.length_replicate]), sum_take_mark _ _ _ places,
    sum_marks within, List.take_replicate, List.sum_replicate, smul_zero, zero_add, zero_add]

/-- Counting less strictly counts the functions that end there. -/
theorem countP_eq_iff (within : ∀ f ∈ fxns, Within maxclnum f) {c : Nat} :
    fxns.countP (fun f => f.clstart ≤ (c : Int) ∧ (c : Int) < f.clend) =
      fxns.countP (fun f => f.clstart ≤ (c : Int) ∧ (c : Int) ≤ f.clend) ↔ ∀ f ∈ fxns, f.clend ≠ c := by
  induction fxns with
  | nil => simp
  | cons f rest ih =>
    obtain ⟨start, order, -⟩ := within f List.mem_cons_self
    have later := ih fun g member => within g (List.mem_cons_of_mem f member)
    have fewer : rest.countP (fun f => f.clstart ≤ (c : Int) ∧ (c : Int) < f.clend) ≤
        rest.countP (fun f => f.clstart ≤ (c : Int) ∧ (c : Int) ≤ f.clend) :=
      List.countP_mono_left fun g _ counted => by
        rw [decide_eq_true_eq] at counted ⊢
        exact ⟨counted.1, counted.2.le⟩
    rw [List.forall_mem_cons, ← later, List.countP_cons, List.countP_cons]
    simp only [decide_eq_true_eq]
    split_ifs <;> omega

/-- The two depths agree wherever no function ends. -/
theorem getDepthMap_iff (within : ∀ f ∈ fxns, Within maxclnum f) (c : Nat) (inside : c < maxclnum) :
    (∃ dmap, getDepthMap fxns maxclnum = some dmap ∧ dmap[c]? = some (getDepth fxns c)) ↔ ∀ f ∈ fxns, f.clend ≠ c := by
  obtain ⟨dmap, computed, entry⟩ := getElem?_getDepthMap within c inside
  have agree : (∃ dmap, getDepthMap fxns maxclnum = some dmap ∧ dmap[c]? = some (getDepth fxns c)) ↔
      fxns.countP (fun f => f.clstart ≤ (c : Int) ∧ (c : Int) < f.clend) =
        fxns.countP (fun f => f.clstart ≤ (c : Int) ∧ (c : Int) ≤ f.clend) := by
    rw [getDepth_eq]
    constructor
    · rintro ⟨dmap', computed', entry'⟩
      obtain rfl := Option.some.inj (computed.symm.trans computed')
      exact_mod_cast Option.some.inj (entry.symm.trans entry')
    · exact fun same => ⟨dmap, computed, entry.trans (by rw [same])⟩
  rw [agree]
  exact countP_eq_iff within

end Sweep

section Analysis

/-- All calls that have not returned come before the clnum, and the functions found end before it. -/
structure Analysis.Before (a : Analysis) (clnum : Nat) : Prop where
  calls : ∀ c ∈ a.calls, c.clnum < clnum
  fxn : ∀ f ∈ a.fxn, 0 ≤ f.clstart ∧ f.clstart ≤ f.clend ∧ f.clend < clnum

theorem Analysis.Before.element {a : Analysis} {e : FlowElement} (before : a.Before e.clnum) :
    (a.element e).Before (e.clnum + 1) := by
  have kept : ∀ c ∈ cancel a.calls e.address, c.clnum < e.clnum := fun c member =>
    before.calls c (List.takeWhile_sublist _ |>.subset member)
  have older : ∀ f ∈ a.fxn, 0 ≤ f.clstart ∧ f.clstart ≤ f.clend ∧ f.clend < ((e.clnum + 1 : Nat) : Int) := by
    intro f member
    obtain ⟨start, order, last⟩ := before.fxn f member
    exact ⟨start, order, by omega⟩
  unfold Analysis.element
  simp only
  split
  next c returned =>
    have called := kept c (List.mem_of_find?_eq_some returned)
    refine ⟨fun d member => Nat.lt_succ_of_lt (kept d (List.takeWhile_sublist _ |>.subset member)), ?_⟩
    intro f member
    rcases List.mem_append.mp member with old | new
    · exact older f old
    · rw [List.mem_singleton.mp new]
      exact ⟨Int.natCast_nonneg _, by simp only; omega, by simp only; omega⟩
  next =>
    split
    next last _ =>
      split
      · refine ⟨fun d member => ?_, older⟩
        rcases List.mem_append.mp member with old | new
        · exact Nat.lt_succ_of_lt (kept d old)
        · rw [List.mem_singleton.mp new]
          exact Nat.lt_succ_self _
      · exact ⟨fun d member => Nat.lt_succ_of_lt (kept d member), older⟩
    next => exact ⟨fun d member => Nat.lt_succ_of_lt (kept d member), older⟩

theorem Analysis.Before.mono {a : Analysis} {clnum later : Nat} (before : a.Before clnum) (order : clnum ≤ later) :
    a.Before later where
  calls := fun c member => (before.calls c member).trans_le order
  fxn := fun f member => by
    obtain ⟨start, order', last⟩ := before.fxn f member
    exact ⟨start, order', by omega⟩

/-- The functions found in a flow lie in its trace. -/
theorem doFunctionAnalysis_within (flow : List FlowElement) (maxclnum : Nat)
    (ordered : flow.Pairwise (fun e e' => e.clnum < e'.clnum)) (inside : ∀ e ∈ flow, e.clnum < maxclnum) :
    ∀ f ∈ doFunctionAnalysis flow, Within maxclnum f := by
  have walked : ∀ a : Analysis, (∀ e ∈ flow, a.Before e.clnum) → a.Before maxclnum →
      (flow.foldl Analysis.element a).Before maxclnum := by
    induction flow with
    | nil => exact fun a _ whole => whole
    | cons e rest ih =>
      intro a before _
      obtain ⟨later, restOrdered⟩ := List.pairwise_cons.mp ordered
      have here := (before e List.mem_cons_self).element
      exact ih restOrdered (fun d member => inside d (List.mem_cons_of_mem e member)) (a.element e)
        (fun d member => here.mono (later d member)) (here.mono (inside e List.mem_cons_self))
  have start : ∀ clnum, (⟨none, [], []⟩ : Analysis).Before clnum := fun _ => ⟨nofun, nofun⟩
  intro f found
  obtain ⟨start, order, last⟩ := (walked _ (fun e _ => start e.clnum) (start maxclnum)).fxn f found
  exact ⟨start, order, last⟩

end Analysis

/-- A call that runs two instructions and returns: the function is in 1 and 2. -/
def called : List FlowElement := [⟨16, 5, 0⟩, ⟨64, 1, 1⟩, ⟨65, 1, 2⟩, ⟨21, 1, 3⟩]

example : doFunctionAnalysis called = [⟨1, 2⟩] := by decide

theorem getDepthMap_iff_called :
    (∃ dmap, getDepthMap (doFunctionAnalysis called) 4 = some dmap ∧
      dmap[1]? = some (getDepth (doFunctionAnalysis called) 1)) ↔
        ∀ f ∈ doFunctionAnalysis called, f.clend ≠ (1 : Nat) :=
  getDepthMap_iff (doFunctionAnalysis_within called 4 (by decide) (by decide)) 1 (by decide)

/-- The sweep leaves the function one changelist early. -/
theorem last_uncounted : ¬ ∃ dmap, getDepthMap (doFunctionAnalysis called) 4 = some dmap ∧
    dmap[2]? = some (getDepth (doFunctionAnalysis called) 2) := by
  rintro ⟨dmap, computed, entry⟩
  have swept : getDepthMap (doFunctionAnalysis called) 4 = some [0, 1, 0, 0] := by decide
  obtain rfl := Option.some.inj (swept.symm.trans computed)
  exact absurd entry (by decide)

end Qira.FunctionDepths
