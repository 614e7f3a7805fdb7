import Qira.DepthMap
import Qira.Library.Cuts
import Qira.Library.Dictionaries
import Qira.Library.PartialMaps

/-!
The basic blocks of a trace. A first pass over the flow finds the addresses that control comes to from two addresses,
or goes to from an address that gives it to two; a second one cuts the flow there.
-/

namespace Qira.DynamicBlocks
open DepthMap Library.Cuts Library.Dictionaries Library.PartialMaps

/-- An element of a flow with its disassembly. -/
structure FlowInstruction extends FlowElement where
  ins : String
  deriving DecidableEq

/-- The variables of the first pass. -/
structure Links where
  dins : Dict Int String
  prevMap : Dict Int (Finset (Option Int))
  nextMap : Dict (Option Int) (Finset Int)
  prev : Option Int
  nextInstruction : Option Int
  basicBlockStarts : Finset Int

def Links.empty : Links := ⟨∅, ∅, ∅, none, none, ∅⟩

def Links.element (static : Bool) (l : Links) (e : FlowInstruction) : Links where
  dins := l.dins.insert e.address e.ins
  basicBlockStarts :=
    if l.nextInstruction ≠ none ∧ l.nextInstruction ≠ some e.address then
      if static then insert e.address l.basicBlockStarts else l.basicBlockStarts
    else l.basicBlockStarts
  prevMap := l.prevMap.insert e.address (insert l.prev ((l.prevMap.lookup e.address).getD ∅))
  nextMap := l.nextMap.insert l.prev (insert e.address ((l.nextMap.lookup l.prev).getD ∅))
  prev := some e.address
  nextInstruction := some (e.address + e.length)

def links (static : Bool) (flow : List FlowInstruction) : Links := flow.foldl (Links.element static) Links.empty

/-- `basic_block_starts` after the first pass. -/
def basicBlockStarts (static : Bool) (flow : List FlowInstruction) : Finset Int :=
  let l := links static flow
  let starts := l.prevMap.foldl (fun starts a prevs => if 1 < prevs.card then insert a starts else starts)
    l.basicBlockStarts
  l.nextMap.foldl (fun starts _ nexts => if 1 < nexts.card then starts ∪ nexts else starts) starts

structure Block where
  clstart : Nat
  clend : Nat
  start : Int
  stop : Int
  dis : String
  deriving DecidableEq

/-- `disasm`; `none` is the error of `range`, which makes lists of at most `room` items. -/
def disasm (room : Nat) (dins : Dict Int String) (b e : Int) : Option String :=
  if e + 1 - b ≤ room then
    some ("\n".intercalate ((List.range (e + 1 - b).toNat).filterMap (fun k => dins.lookup (b + k))))
  else none

/-- The variables of the second pass. -/
structure Cutting where
  blocks : List Block
  cchange : Option (Nat × Int)
  last : Option (Nat × Int)

/-- Appends the block that has begun; `none` is the error where it has no beginning or no end, or that of `disasm`. -/
def Cutting.close (room : Nat) (dins : Dict Int String) (c : Cutting) : Option (List Block) :=
  c.cchange.bind (fun cchange => c.last.bind (fun last =>
    (disasm room dins cchange.2 last.2).map (fun dis =>
      c.blocks ++ [⟨cchange.1, last.1, cchange.2, last.2, dis⟩])))

def Cutting.element (room : Nat) (dins : Dict Int String) (starts : Finset Int) (c : Cutting) (e : FlowInstruction) :
    Option Cutting :=
  let c := { c with cchange := c.cchange.or (some (e.clnum, e.address)) }
  if e.address ∈ starts then
    (c.close room dins).map (fun blocks => ⟨blocks, some (e.clnum, e.address), some (e.clnum, e.address)⟩)
  else some { c with last := some (e.clnum, e.address) }

def getBlocks (room : Nat) (static : Bool) (flow : List FlowInstruction) : Option (List Block) :=
  let dins := (links static flow).dins
  (flow.foldlM (Cutting.element room dins (basicBlockStarts static flow)) ⟨[], none, none⟩).bind
    (Cutting.close room dins)

/-- The block begins and ends with the run. -/
structure Spans (run : List FlowInstruction) (b : Block) : Prop where
  first : run.head?.map (fun e => (e.clnum, e.address)) = some (b.clstart, b.start)
  last : run.getLast?.map (fun e => (e.clnum, e.address)) = some (b.clend, b.stop)

/-- The blocks are of consecutive runs that make up the flow; runs begin at the starts, and have none further on. -/
def Partition (static : Bool) (flow : List FlowInstruction) (blocks : List Block) : Prop :=
  ∃ runs : List (List FlowInstruction), runs.flatten = flow ∧ List.Forall₂ Spans runs blocks ∧
    (∀ front e back, flow = front ++ e :: back → e.address ∈ basicBlockStarts static flow →
      ∃ before after, runs = before ++ after ∧ before.flatten = front) ∧
    ∀ run ∈ runs, run ≠ [] ∧ ∀ e ∈ run.tail, e.address ∉ basicBlockStarts static flow

/-- The elements, each with the one that control comes from. -/
def transfersFrom (before : Option FlowInstruction) : List FlowInstruction →
    List (Option FlowInstruction × FlowInstruction)
  | [] => []
  | e :: rest => (before, e) :: transfersFrom (some e) rest

def transfers (flow : List FlowInstruction) : List (Option FlowInstruction × FlowInstruction) := transfersFrom none flow

/-- Control goes from one address to the other, or begins there. -/
def Leads (flow : List FlowInstruction) (p : Option Int) (a : Int) : Prop :=
  ∃ t ∈ transfers flow, t.1.map (fun e => e.address) = p ∧ t.2.address = a

/-- Control goes on elsewhere than at the instruction behind. -/
def Jumps (flow : List FlowInstruction) (a : Int) : Prop :=
  ∃ e e', (some e, e') ∈ transfers flow ∧ e.address + e.length ≠ e'.address ∧ e'.address = a

/-- The address accepts control from two addresses, or one that gives it control gives it to two; or control jumps
there, if that counts. -/
def Starts (static : Bool) (flow : List FlowInstruction) (a : Int) : Prop :=
  (static = true ∧ Jumps flow a) ∨ (∃ p p', p ≠ p' ∧ Leads flow p a ∧ Leads flow p' a) ∨
    ∃ p b, b ≠ a ∧ Leads flow p a ∧ Leads flow p b

section Linking
variable {static : Bool} {flow : List FlowInstruction}

theorem transfersFrom_concat (before : Option FlowInstruction) (flow : List FlowInstruction) (e : FlowInstruction) :
    transfersFrom before (flow ++ [e]) = transfersFrom before flow ++ [(flow.getLast?.or before, e)] := by
  induction flow generalizing before with
  | nil => rfl
  | cons f rest ih =>
    rw [List.cons_append, transfersFrom, transfersFrom, ih, List.cons_append]
    cases rest with
    | nil => rfl
    | cons g rest =>
      rw [List.getLast?_cons_cons, List.getLast?_eq_some_getLast (List.cons_ne_nil g rest)]
      rfl

theorem transfers_concat (flow : List FlowInstruction) (e : FlowInstruction) :
    transfers (flow ++ [e]) = transfers flow ++ [(flow.getLast?, e)] := by
  rw [transfers, transfersFrom_concat, Option.or_none]
  rfl

theorem leads_concat (flow : List FlowInstruction) (e : FlowInstruction) (p : Option Int) (a : Int) :
    Leads (flow ++ [e]) p a ↔
      (flow.getLast?.map (fun e => e.address) = p ∧ e.address = a) ∨ Leads flow p a := by
  rw [Leads, transfers_concat]
  simp only [List.mem_append, List.mem_singleton, or_and_right, exists_or, exists_eq_left]
  exact or_comm

theorem jumps_concat (flow : List FlowInstruction) (e : FlowInstruction) (a : Int) :
    Jumps (flow ++ [e]) a ↔
      ((∃ last, flow.getLast? = some last ∧ last.address + last.length ≠ e.address) ∧ e.address = a) ∨ Jumps flow a := by
  rw [Jumps, transfers_concat]
  simp only [List.mem_append, List.mem_singleton, or_and_right, exists_or]
  rw [or_comm]
  refine or_congr ⟨?_, ?_⟩ Iff.rfl
  · rintro ⟨last, e', same, jump, here⟩
    obtain ⟨comes, rfl⟩ := Prod.mk.inj same
    exact ⟨⟨last, comes.symm, jump⟩, here⟩
  · rintro ⟨⟨last, comes, jump⟩, here⟩
    exact ⟨last, e, Prod.ext comes.symm rfl, jump, here⟩

/-- What the first pass knows of a flow. -/
structure Linked (static : Bool) (flow : List FlowInstruction) (l : Links) : Prop where
  prev : l.prev = flow.getLast?.map (fun e => e.address)
  next : l.nextInstruction = flow.getLast?.map (fun e => e.address + e.length)
  prevs : ∀ a p, p ∈ (l.prevMap.lookup a).getD ∅ ↔ Leads flow p a
  nexts : ∀ p a, a ∈ (l.nextMap.lookup p).getD ∅ ↔ Leads flow p a
  starts : ∀ a, a ∈ l.basicBlockStarts ↔ static = true ∧ Jumps flow a

theorem Linked.empty : Linked static [] Links.empty where
  prev := rfl
  next := rfl
  prevs := fun _ p => iff_of_false (Finset.notMem_empty p) nofun
  nexts := fun _ a => iff_of_false (Finset.notMem_empty a) nofun
  starts := fun a => iff_of_false (Finset.notMem_empty a) nofun

theorem mem_insert_lookup {κ α : Type} [DecidableEq κ] [DecidableEq α] (d : Dict κ (Finset α)) (k k' : κ) (x x' : α) :
    x' ∈ ((d.insert k (insert x ((d.lookup k).getD ∅))).lookup k').getD ∅ ↔
      (k = k' ∧ x = x') ∨ x' ∈ (d.lookup k').getD ∅ := by
  by_cases same : k' = k
  · subst same
    rw [AList.lookup_insert, Option.getD_some, Finset.mem_insert, eq_comm, and_iff_right rfl]
  · rw [AList.lookup_insert_ne same]
    exact (or_iff_right fun key => same key.1.symm).symm

theorem Linked.element {l : Links} (linked : Linked static flow l) (e : FlowInstruction) :
    Linked static (flow ++ [e]) (l.element static e) where
  prev := by
    rw [List.getLast?_concat]
    rfl
  next := by
    rw [List.getLast?_concat]
    rfl
  prevs := fun a p => by
    rw [leads_concat, ← linked.prevs, ← linked.prev, and_comm]
    exact mem_insert_lookup l.prevMap e.address a l.prev p
  nexts := fun p a => by
    rw [leads_concat, ← linked.nexts, ← linked.prev]
    exact mem_insert_lookup l.nextMap l.prev p e.address a
  starts := fun a => by
    have jumped : (l.nextInstruction ≠ none ∧ l.nextInstruction ≠ some e.address) ↔
        ∃ last, flow.getLast? = some last ∧ last.address + last.length ≠ e.address := by
      rw [linked.next]
      cases flow.getLast? with
      | none => simp
      | some last => simp
    rw [jumps_concat, ← jumped, and_or_left, ← linked.starts]
    change a ∈ ite _ _ _ ↔ _
    by_cases jump : l.nextInstruction ≠ none ∧ l.nextInstruction ≠ some e.address
    · cases static with
      | false => simp [jump]
      | true => simp [jump, eq_comm]
    · rw [if_neg jump]
      exact (or_iff_right fun first => jump first.2.1).symm

theorem linked_links (static : Bool) (flow : List FlowInstruction) : Linked static flow (links static flow) := by
  induction flow using List.reverseRecOn with
  | nil => exact Linked.empty
  | append_singleton flow e ih =>
    rw [links, List.foldl_concat]
    exact ih.element e

/-- A walk over a dictionary of sets, that adds something for each entry and nothing for an empty one. -/
theorem mem_foldl_union {κ β : Type} [DecidableEq κ] (d : Dict κ (Finset β)) (add : κ → Finset β → Finset Int)
    (nothing : ∀ k, add k ∅ = ∅) (starts : Finset Int) (a : Int) :
    a ∈ d.foldl (fun starts k v => starts ∪ add k v) starts ↔ a ∈ starts ∨ ∃ k, a ∈ add k ((d.lookup k).getD ∅) := by
  have walked : ∀ entries : List (Sigma fun _ : κ => Finset β), ∀ starts : Finset Int,
      a ∈ entries.foldl (fun starts entry => starts ∪ add entry.1 entry.2) starts ↔
        a ∈ starts ∨ ∃ entry ∈ entries, a ∈ add entry.1 entry.2 := by
    intro entries
    induction entries with
    | nil => simp
    | cons entry rest ih =>
      intro starts
      rw [List.foldl_cons, ih, Finset.mem_union]
      simp only [List.mem_cons, exists_eq_or_imp, or_assoc]
  refine (walked d.entries starts).trans (or_congr Iff.rfl ⟨?_, ?_⟩)
  · rintro ⟨⟨k, v⟩, entry, added⟩
    have found := AList.mem_lookup_iff.mpr entry
    exact ⟨k, by rwa [found]⟩
  · rintro ⟨k, added⟩
    cases found : d.lookup k with
    | none =>
      rw [found, Option.getD_none, nothing] at added
      exact absurd added (Finset.notMem_empty a)
    | some v =>
      rw [found] at added
      exact ⟨⟨k, v⟩, AList.mem_lookup_iff.mp found, added⟩

/-- A set is added or left out. -/
theorem ite_union_eq {p : Prop} [Decidable p] (starts more : Finset Int) :
    (if p then starts ∪ more else starts) = starts ∪ if p then more else ∅ := by
  split
  · rfl
  · rw [Finset.union_empty]

theorem joined_iff {flow : List FlowInstruction} {preds : Int → Finset (Option Int)}
    (reached : ∀ a p, p ∈ preds a ↔ Leads flow p a) (a : Int) :
    (∃ k, a ∈ if 1 < (preds k).card then ({k} : Finset Int) else ∅) ↔
      ∃ p p', p ≠ p' ∧ Leads flow p a ∧ Leads flow p' a := by
  constructor
  · rintro ⟨k, added⟩
    split at added
    next several =>
      obtain rfl := Finset.mem_singleton.mp added
      obtain ⟨p, inP, p', inP', differ⟩ := Finset.one_lt_card.mp several
      exact ⟨p, p', differ, (reached a p).mp inP, (reached a p').mp inP'⟩
    next => exact absurd added (Finset.notMem_empty a)
  · rintro ⟨p, p', differ, leads, leads'⟩
    refine ⟨a, ?_⟩
    rw [if_pos (Finset.one_lt_card.mpr ⟨p, (reached a p).mpr leads, p', (reached a p').mpr leads', differ⟩)]
    exact Finset.mem_singleton_self a

theorem forked_iff {flow : List FlowInstruction} {succs : Option Int → Finset Int}
    (reached : ∀ p a, a ∈ succs p ↔ Leads flow p a) (a : Int) :
    (∃ p, a ∈ if 1 < (succs p).card then succs p else ∅) ↔ ∃ p b, b ≠ a ∧ Leads flow p a ∧ Leads flow p b := by
  constructor
  · rintro ⟨p, added⟩
    split at added
    next several =>
      obtain ⟨b, inB, differ⟩ := Finset.exists_mem_ne several a
      exact ⟨p, b, differ, (reached p a).mp added, (reached p b).mp inB⟩
    next => exact absurd added (Finset.notMem_empty a)
  · rintro ⟨p, b, differ, leads, leads'⟩
    refine ⟨p, ?_⟩
    rw [if_pos (Finset.one_lt_card.mpr ⟨a, (reached p a).mpr leads, b, (reached p b).mpr leads', differ.symm⟩)]
    exact (reached p a).mpr leads

theorem mem_basicBlockStarts (static : Bool) (flow : List FlowInstruction) (a : Int) :
    a ∈ basicBlockStarts static flow ↔ Starts static flow a := by
  obtain ⟨-, -, prevs, nexts, starts⟩ := linked_links static flow
  rw [basicBlockStarts]
  simp only [Finset.insert_eq, Finset.union_comm {_}, ite_union_eq]
  rw [mem_foldl_union _ _ (fun _ => by simp), mem_foldl_union _ _ (fun _ => by simp), starts, or_assoc, Starts,
    joined_iff prevs, forked_iff nexts]

instance (static : Bool) (flow : List FlowInstruction) (a : Int) : Decidable (Starts static flow a) :=
  decidable_of_iff (a ∈ basicBlockStarts static flow) (mem_basicBlockStarts static flow a)

theorem transfersFrom_some {before e : FlowInstruction} {rest : List FlowInstruction} {p : Option FlowInstruction}
    (transfer : (p, e) ∈ transfersFrom (some before) rest) : p ≠ none ∧ e ∈ rest := by
  induction rest generalizing before with
  | nil => cases transfer
  | cons f rest ih =>
    rcases List.mem_cons.mp transfer with here | later
    · obtain ⟨rfl, rfl⟩ := Prod.mk.inj here
      exact ⟨Option.some_ne_none before, List.mem_cons_self⟩
    · exact ⟨(ih later).1, List.mem_cons_of_mem f (ih later).2⟩

theorem exists_transfersFrom {before e : FlowInstruction} {rest : List FlowInstruction} (inside : e ∈ rest) :
    ∃ p, (some p, e) ∈ transfersFrom (some before) rest := by
  induction rest generalizing before with
  | nil => cases inside
  | cons f rest ih =>
    rcases List.mem_cons.mp inside with rfl | later
    · exact ⟨before, List.mem_cons_self⟩
    · obtain ⟨p, transfer⟩ := @ih f later
      exact ⟨p, List.mem_cons_of_mem _ transfer⟩

/-- The first address is a start exactly if it is run again: then it is reached from nowhere and from somewhere. -/
theorem starts_first_iff (first : FlowInstruction) (rest : List FlowInstruction) :
    Starts static (first :: rest) first.address ↔ ∃ e ∈ rest, e.address = first.address := by
  constructor
  · intro start
    by_contra! once
    have nowhere : ∀ p, Leads (first :: rest) p first.address → p = none := by
      rintro p ⟨⟨q, e⟩, transfer, rfl, here⟩
      rcases List.mem_cons.mp transfer with only | later
      · rw [(Prod.mk.inj only).1]
        rfl
      · exact absurd here (once e (transfersFrom_some later).2)
    have only : ∀ b, Leads (first :: rest) none b → b = first.address := by
      rintro b ⟨⟨q, e⟩, transfer, none, rfl⟩
      rcases List.mem_cons.mp transfer with only | later
      · rw [(Prod.mk.inj only).2]
      · exact absurd (Option.map_eq_none_iff.mp none) (transfersFrom_some later).1
    rcases start with ⟨-, e, e', transfer, -, here⟩ | ⟨p, p', differ, leads, leads'⟩ | ⟨p, b, differ, leads, leads'⟩
    · rcases List.mem_cons.mp transfer with absurd' | later
      · cases (Prod.mk.inj absurd').1
      · exact once e' (transfersFrom_some later).2 here
    · exact differ ((nowhere p leads).trans (nowhere p' leads').symm)
    · rw [nowhere p leads] at leads'
      exact differ (only b leads')
  · rintro ⟨e, again, same⟩
    obtain ⟨p, transfer⟩ := @exists_transfersFrom first e rest again
    exact .inr (.inl ⟨none, some p.address, (Option.some_ne_none _).symm, ⟨_, List.mem_cons_self, rfl, rfl⟩,
      _, List.mem_cons_of_mem _ transfer, rfl, same⟩)

end Linking

section Cutting
variable {room : Nat} {dins : Dict Int String} {starts : Finset Int}

/-- The dictionary appended for a run. -/
def blockOf (room : Nat) (dins : Dict Int String) (run : List FlowInstruction) : Option Block :=
  run.head?.bind (fun first => run.getLast?.bind (fun last =>
    (disasm room dins first.address last.address).map (fun dis =>
      ⟨first.clnum, last.clnum, first.address, last.address, dis⟩)))

/-- The state of the second pass within a run. -/
def Cutting.within (blocks : List Block) (run : List FlowInstruction) : Cutting :=
  ⟨blocks, run.head?.map (fun e => (e.clnum, e.address)), run.getLast?.map (fun e => (e.clnum, e.address))⟩

theorem close_within (blocks : List Block) (run : List FlowInstruction) :
    (Cutting.within blocks run).close room dins = (blockOf room dins run).map (fun b => blocks ++ [b]) := by
  unfold Cutting.within Cutting.close blockOf
  cases run.head? with
  | none => rfl
  | some first =>
    cases run.getLast? with
    | none => rfl
    | some last =>
      simp only [Option.map_some, Option.bind_some, Option.map_map]
      rfl

/-- Within a run, an element that is a start closes it, and any other goes on with it. -/
theorem element_within (blocks : List Block) {run : List FlowInstruction} (nonempty : run ≠ []) (e : FlowInstruction) :
    (Cutting.within blocks run).element room dins starts e =
      if e.address ∈ starts then (blockOf room dins run).map (fun b => Cutting.within (blocks ++ [b]) [e])
      else some (Cutting.within blocks (run ++ [e])) := by
  obtain ⟨first, more, rfl⟩ := List.exists_cons_of_ne_nil nonempty
  have kept : ({ Cutting.within blocks (first :: more) with
      cchange := (Cutting.within blocks (first :: more)).cchange.or (some (e.clnum, e.address)) } : Cutting) =
        Cutting.within blocks (first :: more) := rfl
  rw [Cutting.element]
  simp only [kept]
  split
  · rw [close_within, Option.map_map]
    rfl
  · unfold Cutting.within
    rw [List.getLast?_concat]
    rfl

theorem foldlM_within (blocks : List Block) {run : List FlowInstruction} (nonempty : run ≠ [])
    (rest : List FlowInstruction) :
    (rest.foldlM (Cutting.element room dins starts) (Cutting.within blocks run)).bind (Cutting.close room dins) =
      ((cutFrom (fun e => e.address ∈ starts) run rest).mapM (blockOf room dins)).map (fun more => blocks ++ more) := by
  induction rest generalizing blocks run with
  | nil =>
    rw [cutFrom, List.mapM_cons, List.mapM_nil]
    refine (close_within blocks run).trans ?_
    cases blockOf room dins run <;> rfl
  | cons e rest ih =>
    rw [List.foldlM_cons, element_within blocks nonempty, cutFrom]
    split
    · rw [List.mapM_cons]
      cases blockOf room dins run with
      | none => rfl
      | some b =>
        refine (ih (blocks ++ [b]) (List.cons_ne_nil e [])).trans ?_
        cases (cutFrom (fun e => e.address ∈ starts) [e] rest).mapM (blockOf room dins) with
        | none => rfl
        | some more => exact congrArg some (List.append_assoc blocks [b] more)
    · exact ih blocks (List.append_ne_nil_of_left_ne_nil nonempty [e])

/-- There is an error if the first address is a start; otherwise each run gives its block. -/
theorem getBlocks_cons (room : Nat) (static : Bool) (first : FlowInstruction) (rest : List FlowInstruction) :
    getBlocks room static (first :: rest) =
      if ∃ e ∈ rest, e.address = first.address then none
      else (cut (fun e => Starts static (first :: rest) e.address) (first :: rest)).mapM
        (blockOf room (links static (first :: rest)).dins) := by
  rw [getBlocks, List.foldlM_cons, Cutting.element]
  simp only [mem_basicBlockStarts, starts_first_iff]
  split
  · rfl
  · have same := cut_congr (fun e : FlowInstruction => e.address ∈ basicBlockStarts static (first :: rest))
      (fun e => Starts static (first :: rest) e.address) (fun e => mem_basicBlockStarts _ _ _) (first :: rest)
    rw [← same]
    refine (foldlM_within [] (List.cons_ne_nil first []) rest).trans ?_
    exact congrFun Option.map_id _

/-- From the first to the last address of a run there are no more than a list has room for. -/
def Fits (room : Nat) (run : List FlowInstruction) : Prop :=
  ∀ first last, run.head? = some first → run.getLast? = some last → last.address + 1 - first.address ≤ room

theorem spans_of_blockOf {run : List FlowInstruction} {b : Block} (block : blockOf room dins run = some b) :
    Spans run b ∧ Fits room run := by
  obtain ⟨first, atFirst, block⟩ := Option.bind_eq_some_iff.mp block
  obtain ⟨last, atLast, block⟩ := Option.bind_eq_some_iff.mp block
  obtain ⟨dis, text, rfl⟩ := Option.map_eq_some_iff.mp block
  have small := (Option.ite_none_right_eq_some.mp text).1
  refine ⟨⟨by rw [atFirst]; rfl, by rw [atLast]; rfl⟩, fun first' last' atFirst' atLast' => ?_⟩
  rw [← Option.some.inj (atFirst.symm.trans atFirst'), ← Option.some.inj (atLast.symm.trans atLast')]
  exact small

theorem exists_blockOf {run : List FlowInstruction} (nonempty : run ≠ []) (fits : Fits room run) :
    ∃ b, blockOf room dins run = some b := by
  have atFirst := List.head?_eq_some_head nonempty
  have atLast := List.getLast?_eq_some_getLast nonempty
  rw [blockOf, atFirst, Option.bind_some, atLast, Option.bind_some, disasm, if_pos (fits _ _ atFirst atLast)]
  exact ⟨_, rfl⟩

end Cutting

/-- No address of the flow's beginning is run again. -/
def FirstOnce : List FlowInstruction → Prop
  | [] => True
  | first :: rest => ∀ e ∈ rest, e.address ≠ first.address

/-- The blocks partition the trace exactly if its first address is run only once, and the disassembly of each run of
the flow up to the next start fits a list. -/
theorem getBlocks_partition_iff (room : Nat) (static : Bool) {flow : List FlowInstruction} (nonempty : flow ≠ []) :
    (∃ blocks, getBlocks room static flow = some blocks ∧ Partition static flow blocks) ↔
      FirstOnce flow ∧ ∀ run ∈ cut (fun e => Starts static flow e.address) flow, Fits room run := by
  obtain ⟨first, rest, rfl⟩ := List.exists_cons_of_ne_nil nonempty
  have runs := cut_runs (fun e : FlowInstruction => Starts static (first :: rest) e.address) (first :: rest)
  rw [getBlocks_cons]
  constructor
  · rintro ⟨blocks, computed, -⟩
    obtain ⟨once, computed⟩ := Option.ite_none_left_eq_some.mp computed
    refine ⟨fun e inside same => once ⟨e, inside, same⟩, fun run member => ?_⟩
    obtain ⟨b, block⟩ := (exists_mapM_iff _ _).mp ⟨blocks, computed⟩ run member
    exact (spans_of_blockOf block).2
  · rintro ⟨once, fits⟩
    rw [if_neg fun ⟨e, inside, same⟩ => once e inside same]
    obtain ⟨blocks, computed⟩ := (exists_mapM_iff (blockOf room (links static (first :: rest)).dins) _).mpr
      fun run member => exists_blockOf (runs run member).1 (fits run member)
    have each := (mapM_eq_some_iff _ _ _).mp computed
    refine ⟨blocks, computed, _, flatten_cut _ _, each.imp fun _ _ block => (spans_of_blockOf block).1, ?_, ?_⟩
    · intro front e back split start
      rw [mem_basicBlockStarts] at start
      rw [split] at start ⊢
      exact ⟨_, _, cut_append _ front back e start, flatten_cut _ front⟩
    · intro run member
      simp only [mem_basicBlockStarts]
      exact runs run member

/-- An instruction, and a loop of two that runs twice. -/
def loop : List FlowInstruction :=
  [⟨⟨16, 1, 1⟩, "xor"⟩, ⟨⟨17, 1, 2⟩, "dec"⟩, ⟨⟨18, 2, 3⟩, "jnz"⟩, ⟨⟨17, 1, 4⟩, "dec"⟩, ⟨⟨18, 2, 5⟩, "jnz"⟩]

example : (getBlocks 64 true loop).map (List.map (fun b => (b.clstart, b.clend, b.start, b.stop))) =
    some [(1, 1, 16, 16), (2, 3, 17, 18), (4, 5, 17, 18)] := by decide

theorem getBlocks_partition_iff_loop :
    (∃ blocks, getBlocks 64 true loop = some blocks ∧ Partition true loop blocks) ↔
      FirstOnce loop ∧ ∀ run ∈ cut (fun e => Starts true loop e.address) loop, Fits 64 run :=
  getBlocks_partition_iff 64 true (by decide)

/-- A trace that begins in the loop begins at a start, before there is a block that could end. -/
theorem loop_unanswered : ¬ ∃ blocks, getBlocks 64 true loop.tail = some blocks ∧ Partition true loop.tail blocks := by
  rintro ⟨blocks, computed, -⟩
  have unanswered : getBlocks 64 true loop.tail = none := by decide
  cases unanswered.symm.trans computed

end Qira.DynamicBlocks
