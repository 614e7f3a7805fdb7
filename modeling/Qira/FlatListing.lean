import Qira.InstructionTags
import Qira.Library.Tilings

/-!
The flat view of `getstaticview`: the bytes around an address, item by item. It goes forward by the `len` tags, and
backward by looking for an item that ends where the one before begins.
-/

namespace Qira.FlatListing
open InstructionTags StaticMemory Library.Words Library.Tilings

variable {β : Type}

/-- An item of the view. The address is a number here; `ghex` writes it, and `fhex` reads it back. -/
structure Item (β : Type) where
  address : Int
  bytes : List Byte
  type : Option String
  comment : Option (Value β)
  instruction : Option String

/-- The tag `len` of an address, where it is there. -/
def lengths (s : Static β) (a : Int) : Option Nat := (s.tags a).len

/-- "find backward": the items before `i`, the nearest first. -/
def findBackward (s : Static β) : Nat → Int → List (Int × List Byte)
  | 0, _ => []
  | n + 1, i =>
      -- search up to 256 back
      match (List.range' 1 255).find? (fun j : Nat => lengths s (i - j) = some j) with
      | some j => (i - j, memory s.memory.base (i - j) j) :: findBackward s n (i - j)
      | none => (i - 1, memory s.memory.base (i - 1) 1) :: findBackward s n (i - 1)

/-- "find forward" -/
def findForward (s : Static β) : Nat → Int → List (Int × List Byte)
  | 0, _ => []
  | n + 1, i =>
      let l := match lengths s i with
        | some l => if l = 0 then 1 else l
        | none => 1
      (i, memory s.memory.base i l) :: findForward s n (i + l)

/-- `copy_fields`; `str` is the text of an instruction. -/
def copyFields (str : Instruction β → String) (s : Static β) (bbb : Int × List Byte) : Item β where
  address := bbb.1
  bytes := bbb.2
  type := (s.tags bbb.1).type
  comment := ((s.tags bbb.1).other.lookup "comment").or (s.globalTags.lookup "comment")
  instruction := (s.tags bbb.1).instruction.map str

/-- What `getstaticview` emits as `flat`; with a negative number of items the second loop does not end. -/
def flatView (str : Instruction β → String) (s : Static β) (addr : Int) (flatrange : Int × Int) :
    Option (List (Item β)) :=
  if flatrange.2 < 0 then none
  else
    some (((findBackward s flatrange.1.natAbs addr).reverse ++ findForward s flatrange.2.toNat addr).map
      (copyFields str s))

/-- The item of the tile that begins at an address. -/
def item (s : Static β) (a : Int) : Int × List Byte := (a, memory s.memory.base a (size (lengths s) a))

section Walking
variable {s : Static β} {a : Int}

/-- Forward, the items are those of the tiles. -/
theorem findForward_eq (tiled : Tiled 255 (lengths s)) (n : Nat) (a : Int) :
    findForward s n a = (List.range n).map (fun k => item s ((next (lengths s))^[k] a)) := by
  induction n generalizing a with
  | zero => rfl
  | succ n ih =>
    have step : (match lengths s a with
        | some l => if l = 0 then 1 else l
        | none => 1) = size (lengths s) a := by
      unfold size
      cases tag : lengths s a with
      | none => rfl
      | some l => exact if_neg (Nat.one_le_iff_ne_zero.mp (tiled.sized a l tag).1)
    rw [findForward, step, List.range_succ_eq_map, List.map_cons, List.map_map]
    exact congrArg _ (ih (next (lengths s) a))

theorem findBackward_succ (tiled : Tiled 255 (lengths s)) (boundary : Boundary (lengths s) a) (n : Nat) :
    findBackward s (n + 1) a =
      item s (previous 255 (lengths s) a) :: findBackward s n (previous 255 (lengths s) a) := by
  have step := distance_eq tiled boundary
  rw [findBackward, item, ← step, previous]
  unfold distance
  split
  next j found => rw [found, Option.getD_some]
  next none => rw [none, Option.getD_none]; rfl

/-- Backward, they are those of the tiles before, in reverse. -/
theorem findBackward_eq (tiled : Tiled 255 (lengths s)) (boundary : Boundary (lengths s) a) (n : Nat) :
    (findBackward s n a).reverse = (List.range n).map
      (fun k => item s ((next (lengths s))^[k] ((previous 255 (lengths s))^[n] a))) := by
  induction n generalizing a with
  | zero => rfl
  | succ n ih =>
    have before := (previous_spec tiled boundary).1
    rw [findBackward_succ tiled boundary, List.reverse_cons, ih before, List.range_succ, List.map_append,
      Function.iterate_succ_apply, List.map_singleton, iterate_next_previous tiled before]

theorem flatView_eq (str : Instruction β → String) (s : Static β) (addr : Int) (n m : Nat) :
    flatView str s addr (-n, m) =
      some (((findBackward s n addr).reverse ++ findForward s m addr).map (copyFields str s)) := by
  rw [flatView, if_neg (Int.natCast_nonneg m).not_gt, Int.natAbs_neg, Int.natAbs_natCast, Int.toNat_natCast]

/-- The view lists the `n` tiles before an address and the `m` from it on, beginning with `first`. -/
structure Lists (str : Instruction β → String) (s : Static β) (addr : Int) (n m : Nat) (first : Int)
    (view : List (Item β)) : Prop where
  items : view = (List.range (n + m)).map (fun k => copyFields str s (item s ((next (lengths s))^[k] first)))
  boundaries : ∀ e ∈ view, Boundary (lengths s) e.address
  increasing : view.Pairwise (fun e f : Item β => e.address < f.address)
  contiguous : view.IsChain (fun e f : Item β => e.address + size (lengths s) e.address = f.address)
  begins : Boundary (lengths s) first
  arrives : (next (lengths s))^[n] first = addr
  /-- The tiles before the address are all there are from the first one on. -/
  predecessors : ∀ b, Boundary (lengths s) b → first ≤ b → b < addr → ∃ k < n, (next (lengths s))^[k] first = b

theorem lists_items (str : Instruction β → String) (tiled : Tiled 255 (lengths s)) {addr first : Int} {n : Nat} (m : Nat)
    (begins : Boundary (lengths s) first) (arrives : (next (lengths s))^[n] first = addr) :
    Lists str s addr n m first
      ((List.range (n + m)).map (fun k => copyFields str s (item s ((next (lengths s))^[k] first)))) where
  items := rfl
  boundaries := by
    intro e member
    obtain ⟨k, -, rfl⟩ := List.mem_map.mp member
    exact boundary_iterate_next tiled begins k
  increasing := List.pairwise_map.mpr (List.pairwise_lt_range.imp fun less => iterate_next_strictMono tiled first less)
  contiguous := by
    rw [List.isChain_map, List.isChain_range]
    intro k _
    exact (Function.iterate_succ_apply' (next (lengths s)) k first).symm
  begins := begins
  arrives := arrives
  predecessors := fun b boundary from' upTo => exists_iterate_next boundary n from' (upTo.trans_eq arrives.symm)

/-- Around a boundary the view lists the tiles, and going forward from the first of them lists the same. -/
theorem flatView_consistent (str : Instruction β → String) (s : Static β) (placed : ∀ a, Place 255 (lengths s) a)
    (addr : Int) (boundary : Boundary (lengths s) addr) (n m : Nat) :
    ∃ first view, Lists str s addr n m first view ∧
      flatView str s addr (-n, m) = some view ∧ flatView str s first (0, (n + m : Nat)) = some view := by
  have tiled : Tiled 255 (lengths s) := tiled_iff.mpr placed
  have back := iterate_next_previous tiled boundary n
  have items : (findBackward s n addr).reverse ++ findForward s m addr =
      findForward s (n + m) ((previous 255 (lengths s))^[n] addr) := by
    rw [findBackward_eq tiled boundary, findForward_eq tiled, findForward_eq tiled, List.range_add, List.map_append,
      List.map_map]
    congr 2
    funext k
    rw [Function.comp_apply, Nat.add_comm, Function.iterate_add_apply, back]
  have forth := flatView_eq str s ((previous 255 (lengths s))^[n] addr) 0 (n + m)
  have listed := findForward_eq tiled (n + m) ((previous 255 (lengths s))^[n] addr)
  refine ⟨_, _, lists_items str tiled m (boundary_iterate_previous tiled boundary n) back, ?_, ?_⟩
  · rw [flatView_eq, items, listed, List.map_map]
    rfl
  · refine forth.trans ?_
    rw [findBackward, List.reverse_nil, List.nil_append, listed, List.map_map]
    rfl

/-- An instruction of four bytes, and data of two behind it. -/
def taggedAt (a : Int) : Tags Unit :=
  if a = 0x400000 then { Tags.empty with len := some 4, type := some "instruction" }
  else if a = 0x400004 then { Tags.empty with len := some 2, type := some "data" }
  else Tags.empty

def tagged : Static Unit := { Static.new none ∅ with tags := taggedAt }

theorem lengths_tagged (a : Int) :
    lengths tagged a = if a = 0x400000 then some 4 else if a = 0x400004 then some 2 else none := by
  change (taggedAt a).len = _
  unfold taggedAt
  split_ifs <;> rfl

theorem tagged_tiled : Tiled 255 (lengths tagged) := by
  constructor
  · intro a l tag
    rw [lengths_tagged] at tag
    split_ifs at tag <;> (cases tag; omega)
  · intro s l tag a before behind
    rw [lengths_tagged] at tag ⊢
    split_ifs at tag <;> (cases tag; rw [if_neg (by omega), if_neg (by omega)])

theorem flatView_consistent_tagged :
    ∃ first view, Lists (fun _ => "") tagged 0x400006 2 1 first view ∧
      flatView (fun _ => "") tagged 0x400006 (-(2 : Nat), (1 : Nat)) = some view ∧
      flatView (fun _ => "") tagged first (0, (2 + 1 : Nat)) = some view := by
  apply flatView_consistent (fun _ => "") tagged (tiled_iff.mp tagged_tiled)
  intro s l tag before
  rw [lengths_tagged] at tag
  split_ifs at tag <;> (cases tag; omega)

end Walking

end Qira.FlatListing
