import Qira.DepthMap
import Qira.Library.CallStacks

/-!
The depth map of an execution whose calls nest. The stack of return addresses is then that of the open calls, also
where a return address is open more than once.
-/

namespace Qira.NestedCalls
open Instructions DepthMap Library.CallStacks

/-- An element of the flow, as far as its calls go. -/
def event (program : Int → Instruction) (e : FlowElement) : Event Int :=
  ⟨e.address, if (program e.address).isCall then some (e.address + e.length) else none⟩

theorem rindex_concat (stack : List Int) (a : Int) : rindex (stack ++ [a]) a = stack.length := by
  simp [rindex]

theorem unwinds_returnTo : Unwinds returnTo where
  absent _ _ none := if_neg none
  last stack a := by
    rw [returnTo, if_pos List.mem_concat_self, rindex_concat, List.take_left]

section Walking
variable {program : Int → Instruction}

theorem after_event (stack : List Int) (e : FlowElement) :
    after returnTo stack (event program e) =
      if (program e.address).isCall then returnTo stack e.address ++ [e.address + e.length]
      else returnTo stack e.address := by
  simp only [after, event]
  split
  next => rfl
  next => exact List.append_nil _

/-- Without missing changelists the walk only adds the heights of the stack. -/
theorem walk_consecutive (flow : List FlowElement) (w : Walk)
    (first : ∀ last ∈ w.lastClnum, ∀ e ∈ flow.head?, e.clnum = last + 1)
    (consecutive : flow.IsChain (fun e next => next.clnum = e.clnum + 1)) :
    (flow.foldl (Walk.element program) w).ret =
        w.ret ++ (heights returnTo w.returnStack (flow.map (event program))).map (fun n => (n : Int)) ∧
      (flow.foldl (Walk.element program) w).returnStack =
        (flow.map (event program)).foldl (after returnTo) w.returnStack := by
  induction flow generalizing w with
  | nil => exact ⟨(List.append_nil _).symm, rfl⟩
  | cons e rest ih =>
    obtain ⟨next, chained⟩ := List.isChain_cons.mp consecutive
    have none : missing w.lastClnum e.clnum = [] := by
      cases same : w.lastClnum with
      | none => rfl
      | some last => exact if_neg (not_not.mpr (first last same e rfl))
    have stack : (w.element program e).returnStack = after returnTo w.returnStack (event program e) :=
      (after_event w.returnStack e).symm
    have ret : (w.element program e).ret = w.ret ++ [((returnTo w.returnStack e.address).length : Int)] := by
      simp only [Walk.element, none, List.append_nil]
    obtain ⟨rets, held⟩ := ih (w.element program e)
      (fun last same e' head => by
        obtain rfl := Option.some.inj same
        exact next e' head) chained
    refine ⟨?_, ?_⟩
    · rw [List.foldl_cons, rets, ret, stack, List.append_assoc]
      rfl
    · rw [List.foldl_cons, held, stack]
      rfl

/-- On an execution whose calls nest, the depth map has the number of calls around each element, and at the end the
number of those still open. -/
theorem depthMap_of_nested (flow : List FlowElement) {depths : List Nat} {pending : List Int}
    (nested : Nested [] none (flow.map (event program)) depths pending)
    (consecutive : flow.IsChain (fun e next => next.clnum = e.clnum + 1)) :
    getHackedDepthMap program flow = 0 :: depths.map (fun n => (n : Int)) ++ [(pending.length : Int)] := by
  obtain ⟨rets, held⟩ := @walk_consecutive program flow ⟨[], [0], none⟩ (fun last none => absurd none (Option.not_mem_none last)) consecutive
  obtain ⟨depth, last⟩ := nested.walked unwinds_returnTo
  change heights returnTo [] _ = _ at depth
  change List.foldl _ [] _ = _ at last
  rw [getHackedDepthMap, walk, rets, held, depth, last]
  rfl

end Walking

/-- A function that calls itself once, from 16, and returns twice. -/
def recursion : List FlowElement := [⟨16, 5, 0⟩, ⟨16, 5, 1⟩, ⟨21, 1, 2⟩, ⟨21, 1, 3⟩]

theorem nested_recursion : Nested [] none (recursion.map (event callAt16)) [0, 1, 1, 0] [] := by
  have returned (pending : List Int) : Nested pending (some 21) [⟨21, none⟩] [pending.length] pending :=
    .plain rfl rfl .done
  have enters : Enters ([21] : List Int) none 16 := by
    unfold Enters
    decide
  have inner : Nested ([21] : List Int) none (⟨16, some 21⟩ :: [] ++ [⟨21, none⟩]) (1 :: [] ++ [1]) [21] :=
    .call enters rfl .done (returned [21])
  have outer : Nested ([] : List Int) none (⟨16, some 21⟩ :: [⟨16, some 21⟩, ⟨21, none⟩] ++ [⟨21, none⟩])
      (0 :: [1, 1] ++ [0]) [] :=
    .call List.not_mem_nil rfl inner (returned [])
  exact outer

theorem depthMap_of_nested_recursion :
    getHackedDepthMap callAt16 recursion = 0 :: [0, 1, 1, 0].map (fun n : Nat => (n : Int)) ++ [0] :=
  depthMap_of_nested recursion nested_recursion (by decide)

end Qira.NestedCalls
