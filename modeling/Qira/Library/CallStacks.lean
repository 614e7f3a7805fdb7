import Mathlib

/-!
Calls and returns of a running program, seen only through the addresses that it runs at. A stack holds the addresses
that open calls return to; running at one of them unwinds the stack.
-/

namespace Qira.Library.CallStacks

/-- A step of a program: where it runs, and the address to return to if it is a call. -/
structure Event (α : Type*) where
  address : α
  opens : Option α

/-- An address that comes next: the one to return to, or any to which no open call returns. -/
def Enters {α : Type*} (pending : List α) : Option α → α → Prop
  | none, a => a ∉ pending
  | some r, a => a = r

/-- Events that nest inside open calls which return to the addresses in `pending`, each with the number of calls
around it, and the addresses that calls are open to at the end. Where a call has just ended, the first event is at
the address that is awaited. -/
inductive Nested {α : Type*} : List α → Option α → List (Event α) → List Nat → List α → Prop
  | done {pending : List α} : Nested pending none [] [] pending
  | plain {pending last : List α} {awaited : Option α} {e : Event α} {rest : List (Event α)} {depths : List Nat}
      (enters : Enters pending awaited e.address) (simple : e.opens = none)
      (later : Nested pending none rest depths last) :
      Nested pending awaited (e :: rest) (pending.length :: depths) last
  | call {pending last : List α} {awaited : Option α} {e : Event α} {r : α} {body rest : List (Event α)}
      {inside depths : List Nat} (enters : Enters pending awaited e.address) (opens : e.opens = some r)
      (callee : Nested (pending ++ [r]) none body inside (pending ++ [r]))
      (later : Nested pending (some r) rest depths last) :
      Nested pending awaited (e :: body ++ rest) (pending.length :: inside ++ depths) last
  | unreturned {pending last : List α} {awaited : Option α} {e : Event α} {r : α} {body : List (Event α)}
      {inside : List Nat} (enters : Enters pending awaited e.address) (opens : e.opens = some r)
      (callee : Nested (pending ++ [r]) none body inside last) :
      Nested pending awaited (e :: body) (pending.length :: inside) last

/-- How a stack is unwound: not at all by an address that is not in it, and by its last address only of that. -/
structure Unwinds {α : Type*} (unwind : List α → α → List α) : Prop where
  absent : ∀ stack a, a ∉ stack → unwind stack a = stack
  last : ∀ stack a, unwind (stack ++ [a]) a = stack

section Walks
variable {α : Type*} (unwind : List α → α → List α)

def after (stack : List α) (e : Event α) : List α := unwind stack e.address ++ e.opens.toList

/-- The height of the stack at each event. -/
def heights : List α → List (Event α) → List Nat
  | _, [] => []
  | stack, e :: rest => (unwind stack e.address).length :: heights (after unwind stack e) rest

theorem heights_append (stack : List α) (first second : List (Event α)) :
    heights unwind stack (first ++ second) =
      heights unwind stack first ++ heights unwind (first.foldl (after unwind) stack) second := by
  induction first generalizing stack with
  | nil => rfl
  | cons e rest ih => simp only [List.cons_append, heights, List.foldl_cons, ih]

variable {unwind}

theorem Unwinds.enters (unwinds : Unwinds unwind) {pending : List α} {awaited : Option α} {a : α}
    (enters : Enters pending awaited a) : unwind (pending ++ awaited.toList) a = pending := by
  cases awaited with
  | none => exact (congrArg (unwind · a) (List.append_nil pending)).trans (unwinds.absent pending a enters)
  | some r =>
    obtain rfl : a = r := enters
    exact unwinds.last pending a

/-- Where calls nest, the stack has the open calls and its heights are their numbers. -/
theorem Nested.walked (unwinds : Unwinds unwind) {pending last : List α} {awaited : Option α}
    {events : List (Event α)} {depths : List Nat} (nested : Nested pending awaited events depths last) :
    heights unwind (pending ++ awaited.toList) events = depths ∧
      events.foldl (after unwind) (pending ++ awaited.toList) = last := by
  induction nested with
  | done => exact ⟨rfl, List.append_nil _⟩
  | @plain pending _ awaited e _ _ enters simple _ ih =>
    have next : after unwind (pending ++ awaited.toList) e = pending ++ (none : Option α).toList := by
      rw [after, unwinds.enters enters, simple]
    rw [heights, List.foldl_cons, next, unwinds.enters enters, ih.1, ih.2]
    exact ⟨rfl, rfl⟩
  | @call pending _ awaited e r body rest _ _ enters opens _ _ ihCallee ihLater =>
    have next : after unwind (pending ++ awaited.toList) e = pending ++ [r] ++ (none : Option α).toList := by
      rw [after, unwinds.enters enters, opens, Option.toList_none, List.append_nil, Option.toList_some]
    have returned : body.foldl (after unwind) (pending ++ [r] ++ (none : Option α).toList) =
      pending ++ (some r).toList := ihCallee.2
    rw [List.cons_append, heights, List.foldl_cons, List.foldl_append, heights_append, next, returned, ihLater.2,
      ihLater.1, ihCallee.1, unwinds.enters enters]
    exact ⟨rfl, rfl⟩
  | @unreturned pending _ awaited e r _ _ enters opens _ ih =>
    have next : after unwind (pending ++ awaited.toList) e = pending ++ [r] ++ (none : Option α).toList := by
      rw [after, unwinds.enters enters, opens, Option.toList_none, List.append_nil, Option.toList_some]
    rw [heights, List.foldl_cons, next, unwinds.enters enters, ih.1, ih.2]
    exact ⟨rfl, rfl⟩

end Walks

end Qira.Library.CallStacks
