import Qira.Instructions
import Qira.TraceChangelists

/-!
The depth map: the call depth of each instruction of a flow, to be looked up by changelist number. It is
built with an entry in front, an entry behind and -1 for the changelists between two elements; whether
a lookup finds its element then depends on where the flow starts and ends.
-/

namespace Qira.DepthMap
open ChangeRecord TraceIndex TraceProcess TraceChangelists Instructions

/-- An element of the flow, whose length is the `data` of the start record. -/
structure FlowElement where
  address : Int
  length : Int
  clnum : Nat
  deriving DecidableEq

/-- What a changelist adds to the flow: nothing, if it does not answer one record. -/
def appendElement (ret : List FlowElement) : List Change → List FlowElement
  | [r] => ret ++ [⟨r.address.toNat, r.data.toNat, r.clnum.toNat⟩]
  | _ => ret

/-- The loop body of `get_instruction_flow`. -/
def fetchElement {cfg : Config} (log : List Change) (conn : Connection cfg) (ret : List FlowElement) (i : Nat) :
    Option (List FlowElement) :=
  (conn.fetchChangesByClnum log (BitVec.ofNat 32 i) 1).map (appendElement ret)

def getInstructionFlow {cfg : Config} (log : List Change) (conn : Connection cfg) (minclnum maxclnum : Nat) :
    Option (List FlowElement) :=
  (List.range' minclnum (maxclnum - minclnum)).foldlM (fetchElement log conn) []

/-- The position of the last `a` in `l`. -/
def rindex (l : List Int) (a : Int) : Nat := l.length - l.reverse.idxOf a - 1

/-- Reaching an open return address closes its call and those made since. -/
def returnTo (returnStack : List Int) (address : Int) : List Int :=
  if address ∈ returnStack then returnStack.take (rindex returnStack address) else returnStack

/-- The variables of `get_hacked_depth_map`. -/
structure Walk where
  returnStack : List Int
  ret : List Int
  lastClnum : Option Nat
  deriving DecidableEq

/-- What is appended for missing changes. -/
def missing (lastClnum : Option Nat) (clnum : Nat) : List Int :=
  match lastClnum with
  | none => []
  | some last => if clnum ≠ last + 1 then List.replicate (clnum - last - 1) (-1) else []

/-- The loop body of `get_hacked_depth_map`; `program` is the instruction that `static` has for an address. -/
def Walk.element (program : Int → Instruction) (w : Walk) (e : FlowElement) : Walk :=
  let returnStack := returnTo w.returnStack e.address
  { returnStack :=
      if (program e.address).isCall then returnStack ++ [e.address + e.length] else returnStack
    ret := w.ret ++ missing w.lastClnum e.clnum ++ [(returnStack.length : Int)]
    lastClnum := some e.clnum }

def walk (program : Int → Instruction) (flow : List FlowElement) : Walk :=
  flow.foldl (Walk.element program) ⟨[], [0], none⟩

def getHackedDepthMap (program : Int → Instruction) (flow : List FlowElement) : List Int :=
  (walk program flow).ret ++ [((walk program flow).returnStack.length : Int)]

/-- What `analysis_thread` keeps of it. -/
def dmap (program : Int → Instruction) (flow : List FlowElement) (minclnum maxclnum : Nat) : List Int :=
  let dmap := getHackedDepthMap program flow
  let hpo : Int := dmap.length - (maxclnum - minclnum)
  if hpo = 2 then dmap.drop 1 else dmap

/-- The depth computed for an element that comes after others. -/
def depth (program : Int → Instruction) (before : List FlowElement) (e : FlowElement) : Int :=
  (returnTo (walk program before).returnStack e.address).length

/-- Entry `c - minclnum` is about changelist `c`, for all of them from the first element to the last. -/
structure Aligned (program : Int → Instruction) (flow : List FlowElement) (minclnum : Nat)
    (dmap : List Int) : Prop where
  elements : ∀ before e after, flow = before ++ e :: after →
    dmap[e.clnum - minclnum]? = some (depth program before e)
  absent : ∀ c, (∃ e ∈ flow, e.clnum < c) → (∃ e ∈ flow, c < e.clnum) → (∀ e ∈ flow, e.clnum ≠ c) →
    dmap[c - minclnum]? = some (-1)

/-- No changelist is missing inside, and each call returns at once. -/
def Flat (program : Int → Instruction) (flow : List FlowElement) : Prop :=
  ∀ (before : List FlowElement) (e next : FlowElement) (after : List FlowElement),
    flow = before ++ e :: next :: after → next.clnum = e.clnum + 1 ∧
      ((program e.address).isCall = true → next.address = e.address + e.length)

def Increasing (flow : List FlowElement) : Prop := flow.Pairwise (fun e e' => e.clnum < e'.clnum)

instance (flow : List FlowElement) : Decidable (Increasing flow) :=
  inferInstanceAs (Decidable (flow.Pairwise _))

theorem fetchLoop_clnum (read : EntryNumber → Option Change) (entriesDone en : EntryNumber) (clnum : Clnum)
    (limit i : BitVec 32) (answer : List Change)
    (fetched : fetchLoop read entriesDone en clnum limit i = some answer) :
    ∀ c ∈ answer, c.clnum = clnum := by
  induction i using fetchLoop.induct read entriesDone en clnum limit generalizing answer with
  | case1 i more done =>
    rw [fetchLoop, if_pos more, if_pos done] at fetched
    obtain rfl := Option.some.inj fetched
    exact fun _ inside => absurd inside List.not_mem_nil
  | case2 i more running fault =>
    rw [fetchLoop, if_pos more, if_neg running, fault] at fetched
    cases fetched
  | case3 i more running c found other =>
    rw [fetchLoop, if_pos more, if_neg running, found] at fetched
    obtain rfl := Option.some.inj ((if_pos other).symm.trans fetched)
    exact fun _ inside => absurd inside List.not_mem_nil
  | case4 i more running c found same ih =>
    rw [fetchLoop, if_pos more, if_neg running, found] at fetched
    obtain ⟨later, rest, rfl⟩ := Option.map_eq_some_iff.mp ((if_neg same).symm.trans fetched)
    intro x inside
    rcases List.mem_cons.mp inside with rfl | inRest
    · exact not_not.mp same
    · exact ih later rest x inRest
  | case5 i stop =>
    rw [fetchLoop, if_neg stop] at fetched
    obtain rfl := Option.some.inj fetched
    exact fun _ inside => absurd inside List.not_mem_nil

/-- Only records of the changelist asked for are answered. -/
theorem fetchChangesByClnum_clnum {cfg : Config} {log : List Change} {conn : Connection cfg} {clnum : Clnum}
    {limit : BitVec 32} {answer : List Change}
    (fetched : conn.fetchChangesByClnum log clnum limit = some answer) : ∀ c ∈ answer, c.clnum = clnum := by
  have answered : (∃ en, fetchLoop (mapped log conn.backing) conn.trace.entriesDone en clnum limit 0 =
      some answer) ∨ some [] = some answer := by
    simp only [Connection.fetchChangesByClnum] at fetched
    split_ifs at fetched
    · exact .inl ⟨_, fetched⟩
    · exact .inr fetched
    · exact .inl ⟨_, fetched⟩
    · exact .inr fetched
  rcases answered with ⟨en, looped⟩ | empty
  · exact fetchLoop_clnum _ _ en clnum limit 0 answer looped
  · obtain rfl := Option.some.inj empty
    exact fun _ inside => absurd inside List.not_mem_nil

/-- A flow through some of the changelists of a range, in order. -/
structure Between (low high : Nat) (flow : List FlowElement) : Prop where
  increasing : Increasing flow
  within : ∀ e ∈ flow, low ≤ e.clnum ∧ e.clnum < high

theorem Between.nil (low high : Nat) : Between low high [] :=
  ⟨List.Pairwise.nil, fun _ inside => absurd inside List.not_mem_nil⟩

theorem Between.appendElement {low s : Nat} {ret : List FlowElement} (between : Between low s ret)
    (lower : low ≤ s) (answer : List Change) (asked : ∀ c ∈ answer, c.clnum.toNat = s) :
    Between low (s + 1) (appendElement ret answer) := by
  have kept : ∀ e ∈ ret, low ≤ e.clnum ∧ e.clnum < s + 1 :=
    fun e inside => ⟨(between.within e inside).1, Nat.lt_succ_of_lt (between.within e inside).2⟩
  unfold DepthMap.appendElement
  split
  next r =>
    have number : r.clnum.toNat = s := asked r List.mem_cons_self
    constructor
    · refine List.pairwise_append.mpr ⟨between.increasing, List.pairwise_singleton _ _, fun x inside y last => ?_⟩
      obtain rfl := List.mem_singleton.mp last
      exact number ▸ (between.within x inside).2
    · intro e inside
      rcases List.mem_append.mp inside with old | last
      · exact kept e old
      · obtain rfl := List.mem_singleton.mp last
        exact ⟨number ▸ lower, number ▸ Nat.lt_succ_self _⟩
  next => exact ⟨between.increasing, kept⟩

theorem Between.foldlM_fetchElement {cfg : Config} {log : List Change} {conn : Connection cfg} {low s : Nat}
    {ret flow : List FlowElement} (n : Nat) (between : Between low s ret) (lower : low ≤ s) (room : s + n ≤ 2 ^ 32)
    (built : (List.range' s n).foldlM (fetchElement log conn) ret = some flow) : Between low (s + n) flow := by
  induction n generalizing s ret with
  | zero =>
    obtain rfl := Option.some.inj built
    exact between
  | succ n ih =>
    obtain ⟨next, appended, rest⟩ := Option.bind_eq_some_iff.mp built
    obtain ⟨answer, fetched, rfl⟩ := Option.map_eq_some_iff.mp appended
    have asked : ∀ c ∈ answer, c.clnum.toNat = s := by
      intro c inside
      rw [fetchChangesByClnum_clnum fetched c inside, BitVec.toNat_ofNat, Nat.mod_eq_of_lt (by omega)]
    have grown := ih (between.appendElement lower answer asked) (by omega) (by omega) rest
    rwa [Nat.add_right_comm] at grown

/-- The flow goes through the changelists in order. -/
theorem getInstructionFlow_between {cfg : Config} (log : List Change) (conn : Connection cfg)
    (minclnum maxclnum : Nat) (flow : List FlowElement) (bounded : maxclnum ≤ 2 ^ 32)
    (built : getInstructionFlow log conn minclnum maxclnum = some flow) : Between minclnum maxclnum flow := by
  by_cases range : minclnum ≤ maxclnum
  · have between := (Between.nil minclnum minclnum).foldlM_fetchElement (maxclnum - minclnum) le_rfl (by omega) built
    rwa [Nat.add_sub_cancel' range] at between
  · rw [getInstructionFlow, Nat.sub_eq_zero_of_le (by omega)] at built
    obtain rfl := Option.some.inj built
    exact Between.nil minclnum maxclnum

section Walking
variable {program : Int → Instruction} {flow before after : List FlowElement} {e : FlowElement}

theorem walk_concat (program : Int → Instruction) (before : List FlowElement) (e : FlowElement) :
    walk program (before ++ [e]) = (walk program before).element program e := by
  rw [walk, List.foldl_append]
  rfl

theorem returnTo_only (r : Int) : returnTo [r] r = [] := by
  simp [returnTo, rindex]

theorem returnTo_only_length (r a : Int) (closed : (returnTo [r] a).length = 0) : a = r := by
  by_contra other
  rw [returnTo, if_neg (fun inside => other (List.mem_singleton.mp inside))] at closed
  cases closed

/-- An element at depth zero leaves at most its own call open. -/
theorem returnStack_concat (flat : depth program before e = 0) :
    (walk program (before ++ [e])).returnStack =
      if (program e.address).isCall then [e.address + e.length] else [] := by
  have closed : returnTo (walk program before).returnStack e.address = [] :=
    List.length_eq_zero_iff.mp (Int.ofNat_eq_zero.mp flat)
  rw [walk_concat, Walk.element, closed]
  rfl

theorem Increasing.ordered (increasing : Increasing (before ++ e :: after)) :
    (∀ x ∈ before, x.clnum < e.clnum) ∧ ∀ x ∈ after, e.clnum < x.clnum := by
  obtain ⟨-, tail, cross⟩ := List.pairwise_append.mp increasing
  exact ⟨fun x inside => cross x inside e List.mem_cons_self, (List.pairwise_cons.mp tail).1⟩

/-- What the walk has appended after its first entry. -/
structure Laid (program : Int → Instruction) (flow : List FlowElement) (first last : FlowElement)
    (body : List Int) : Prop where
  head : flow.head? = some first
  final : flow.getLast? = some last
  ret : (walk program flow).ret = 0 :: body
  lastClnum : (walk program flow).lastClnum = some last.clnum
  length : body.length + first.clnum = last.clnum + 1
  aligned : Aligned program flow first.clnum body

theorem Laid.single (program : Int → Instruction) (e : FlowElement) :
    Laid program [e] e e [depth program [] e] where
  head := rfl
  final := rfl
  ret := rfl
  lastClnum := rfl
  length := by rw [List.length_singleton, Nat.add_comm]
  aligned := by
    constructor
    · intro before x after split
      rcases before with _ | ⟨y, more⟩
      · obtain ⟨rfl, -⟩ := List.cons.inj split
        rw [Nat.sub_self]
        rfl
      · obtain ⟨-, impossible⟩ := List.cons.inj split
        exact absurd impossible.symm (List.append_ne_nil_of_right_ne_nil _ (List.cons_ne_nil _ _))
    · rintro c ⟨x, inside, below⟩ ⟨y, inside', above⟩ -
      obtain rfl := List.mem_singleton.mp inside
      obtain rfl := List.mem_singleton.mp inside'
      omega

theorem missing_eq (last clnum : Nat) :
    missing (some last) clnum = List.replicate (clnum - last - 1) (-1) := by
  by_cases next : clnum = last + 1
  · have none : clnum - last - 1 = 0 := by omega
    simp only [missing, if_neg (not_not.mpr next), none, List.replicate_zero]
  · simp only [missing, if_pos next]

theorem Laid.bounds {first last : FlowElement} {body : List Int} (laid : Laid program flow first last body)
    (increasing : Increasing flow) : ∀ x ∈ flow, first.clnum ≤ x.clnum ∧ x.clnum ≤ last.clnum := by
  intro x inside
  constructor
  · obtain ⟨rest, rfl⟩ := List.head?_eq_some_iff.mp laid.head
    rcases List.mem_cons.mp inside with rfl | inRest
    · exact le_rfl
    · exact ((List.pairwise_cons.mp increasing).1 x inRest).le
  · obtain ⟨front, rfl⟩ := List.getLast?_eq_some_iff.mp laid.final
    rcases List.mem_append.mp inside with inFront | isLast
    · exact (increasing.ordered.1 x inFront).le
    · exact (congrArg FlowElement.clnum (List.mem_singleton.mp isLast)).le

/-- The entries of missing changelists and of one more element keep a list aligned. -/
theorem Laid.aligned_concat {first last : FlowElement} {body : List Int}
    (laid : Laid program flow first last body) (increasing : Increasing (flow ++ [e])) :
    Aligned program (flow ++ [e]) first.clnum
      (body ++ List.replicate (e.clnum - last.clnum - 1) (-1) ++ [depth program flow e]) := by
  have earlier := increasing.ordered.1
  have within := laid.bounds (List.pairwise_append.mp increasing).1
  have firstIn : first ∈ flow := List.mem_of_head? laid.head
  have lastIn : last ∈ flow := List.mem_of_getLast? laid.final
  have long := laid.length
  have later := earlier last lastIn
  constructor
  · intro before x after split
    rcases List.eq_nil_or_concat after with rfl | ⟨rest, z, rfl⟩
    · obtain ⟨rfl, same⟩ := List.append_inj' split rfl
      obtain rfl := List.singleton_inj.mp same
      have here : e.clnum - first.clnum =
          (body ++ List.replicate (e.clnum - last.clnum - 1) (-1)).length := by
        simp only [List.length_append, List.length_replicate]
        omega
      rw [here, List.getElem?_concat_length]
    · rw [List.concat_eq_append, ← List.cons_append, ← List.append_assoc] at split
      obtain ⟨rfl, -⟩ := List.append_inj' split rfl
      have between := within x (List.mem_append_right _ List.mem_cons_self)
      rw [List.append_assoc, List.getElem?_append_left (by omega)]
      exact laid.aligned.elements before x rest rfl
  · rintro c ⟨x, inside, below⟩ ⟨y, inside', above⟩ missed
    have lower : first.clnum < c := by
      rcases List.mem_append.mp inside with inFlow | isLast
      · exact (within x inFlow).1.trans_lt below
      · obtain rfl := List.mem_singleton.mp isLast
        exact (earlier first firstIn).trans below
    have upper : c < e.clnum := by
      rcases List.mem_append.mp inside' with inFlow | isLast
      · exact above.trans (earlier y inFlow)
      · obtain rfl := List.mem_singleton.mp isLast
        exact above
    have notLast : last.clnum ≠ c := missed last (List.mem_append_left _ lastIn)
    by_cases old : c < last.clnum
    · rw [List.append_assoc, List.getElem?_append_left (by omega)]
      exact laid.aligned.absent c ⟨first, firstIn, lower⟩ ⟨last, lastIn, old⟩
        (fun z inFlow => missed z (List.mem_append_left _ inFlow))
    · rw [List.getElem?_append_left (by simp only [List.length_append, List.length_replicate]; omega),
        List.getElem?_append_right (by omega), List.getElem?_replicate, if_pos (by omega)]

/-- An element lays down the missing changelists and itself. -/
theorem Laid.concat {first last : FlowElement} {body : List Int} (laid : Laid program flow first last body)
    (increasing : Increasing (flow ++ [e])) :
    Laid program (flow ++ [e]) first e
      (body ++ List.replicate (e.clnum - last.clnum - 1) (-1) ++ [depth program flow e]) where
  head := by
    rw [List.head?_append, laid.head]
    rfl
  final := List.getLast?_concat
  ret := by
    rw [walk_concat, Walk.element, laid.ret, laid.lastClnum, missing_eq]
    rfl
  lastClnum := by
    rw [walk_concat]
    rfl
  length := by
    have long := laid.length
    have later := increasing.ordered.1 last (List.mem_of_getLast? laid.final)
    simp only [List.length_append, List.length_replicate, List.length_singleton]
    omega
  aligned := laid.aligned_concat increasing

theorem exists_laid (program : Int → Instruction) (flow : List FlowElement) (increasing : Increasing flow)
    (nonempty : flow ≠ []) : ∃ first last body, Laid program flow first last body := by
  induction flow using List.reverseRecOn with
  | nil => exact absurd rfl nonempty
  | append_singleton before e ih =>
    by_cases single : before = []
    · subst single
      exact ⟨e, e, _, Laid.single program e⟩
    · obtain ⟨first, last, body, laid⟩ := ih (List.pairwise_append.mp increasing).1 single
      exact ⟨first, e, _, laid.concat increasing⟩

/-- A changelist from the first element to the last is that of an element, or absent between two. -/
theorem Laid.changelist {first last : FlowElement} {body : List Int} (laid : Laid program flow first last body)
    (c : Nat) (lower : first.clnum ≤ c) (upper : c ≤ last.clnum) :
    (∃ e ∈ flow, e.clnum = c) ∨ ((∃ e ∈ flow, e.clnum < c) ∧ (∃ e ∈ flow, c < e.clnum) ∧
      ∀ e ∈ flow, e.clnum ≠ c) := by
  by_cases found : ∃ e ∈ flow, e.clnum = c
  · exact .inl found
  · have missed : ∀ e ∈ flow, e.clnum ≠ c := fun e inside same => found ⟨e, inside, same⟩
    have firstIn : first ∈ flow := List.mem_of_head? laid.head
    have lastIn : last ∈ flow := List.mem_of_getLast? laid.final
    exact .inr ⟨⟨first, firstIn, lower.lt_of_ne (missed first firstIn)⟩,
      ⟨last, lastIn, upper.lt_of_ne (missed last lastIn).symm⟩, missed⟩

/-- A list is aligned if it has the entries laid down, at the distance of the first element. -/
theorem Laid.aligned_iff {first last : FlowElement} {body : List Int}
    (laid : Laid program flow first last body) (increasing : Increasing flow) {minclnum : Nat}
    (start : minclnum ≤ first.clnum) (entries : List Int) :
    Aligned program flow minclnum entries ↔
      ∀ j < body.length, entries[j + (first.clnum - minclnum)]? = body[j]? := by
  have long := laid.length
  constructor
  · intro aligned j inside
    have place : j + (first.clnum - minclnum) = first.clnum + j - minclnum := by omega
    have own : first.clnum + j - first.clnum = j := Nat.add_sub_cancel_left ..
    rcases laid.changelist (first.clnum + j) (by omega) (by omega) with
      ⟨e, member, same⟩ | ⟨below, above, missed⟩
    · obtain ⟨before, after, rfl⟩ := List.append_of_mem member
      have found := aligned.elements before e after rfl
      have laidThere := laid.aligned.elements before e after rfl
      rw [same] at found laidThere
      rw [own] at laidThere
      rw [place, found, laidThere]
    · have found := aligned.absent _ below above missed
      have laidThere := laid.aligned.absent _ below above missed
      rw [own] at laidThere
      rw [place, found, laidThere]
  · intro same
    have moved : ∀ c, first.clnum ≤ c → c ≤ last.clnum →
        entries[c - minclnum]? = body[c - first.clnum]? := by
      intro c lower upper
      have entry := same (c - first.clnum) (by omega)
      rwa [(by omega : c - first.clnum + (first.clnum - minclnum) = c - minclnum)] at entry
    have within := laid.bounds increasing
    constructor
    · intro before e after split
      have between := within e (split ▸ List.mem_append_right _ List.mem_cons_self)
      rw [moved e.clnum between.1 between.2]
      exact laid.aligned.elements before e after split
    · intro c below above missed
      obtain ⟨x, inside, lower⟩ := below
      obtain ⟨y, inside', upper⟩ := above
      rw [moved c ((within x inside).1.trans lower.le) (upper.le.trans (within y inside').2)]
      exact laid.aligned.absent c ⟨x, inside, lower⟩ ⟨y, inside', upper⟩ missed

/-- In a flat flow all depths are zero. -/
theorem Flat.depth_eq_zero (flat : Flat program flow) (split : flow = before ++ e :: after) :
    depth program before e = 0 := by
  induction before using List.reverseRecOn generalizing e after with
  | nil => rfl
  | append_singleton before p ih =>
    rw [List.append_assoc, List.singleton_append] at split
    have opened := returnStack_concat (ih split)
    have returns := (flat before p e after split).2
    rw [depth, opened]
    by_cases isCall : (program p.address).isCall = true
    · rw [if_pos isCall, returns isCall, returnTo_only]
      rfl
    · rw [if_neg isCall]
      rfl

/-- And no changelist is absent. -/
theorem Flat.present (flat : Flat program flow) (increasing : Increasing flow) {x y : FlowElement}
    (xIn : x ∈ flow) (yIn : y ∈ flow) (c : Nat) (lower : x.clnum ≤ c) (upper : c ≤ y.clnum) :
    ∃ e ∈ flow, e.clnum = c := by
  induction c, lower using Nat.le_induction with
  | base => exact ⟨x, xIn, rfl⟩
  | succ c lower ih =>
    obtain ⟨e, inside, rfl⟩ := ih (Nat.le_of_succ_le upper)
    obtain ⟨before, after, rfl⟩ := List.append_of_mem inside
    have sorted := increasing.ordered
    rcases after with _ | ⟨next, after⟩
    · rcases List.mem_append.mp yIn with early | isLast
      · exact absurd (sorted.1 y early) (by omega)
      · obtain rfl := List.mem_singleton.mp isLast
        omega
    · refine ⟨next, by simp, ?_⟩
      exact (flat before e next after rfl).1

theorem zero_of_getElem {body : List Int} (zero : ∀ j < body.length, body[j]? = some 0) {j : Nat} {d : Int}
    (found : body[j]? = some d) : d = 0 := by
  have inside : j < body.length := (List.getElem?_eq_some_iff.mp found).1
  exact Option.some.inj (found.symm.trans (zero j inside))

/-- Entries that are all zero leave no changelist absent. -/
theorem Laid.consecutive {first last next : FlowElement} {body : List Int}
    (laid : Laid program flow first last body) (increasing : Increasing flow)
    (zero : ∀ j < body.length, body[j]? = some 0) (split : flow = before ++ e :: next :: after) :
    next.clnum = e.clnum + 1 := by
  have split' : flow = (before ++ [e]) ++ next :: after := by
    rw [split, List.append_assoc, List.singleton_append]
  have ordered := (split ▸ increasing : Increasing (before ++ e :: next :: after)).ordered
  have ordered' := (split' ▸ increasing : Increasing ((before ++ [e]) ++ next :: after)).ordered
  have advance := ordered.2 next List.mem_cons_self
  by_contra gap
  have missed : ∀ x ∈ flow, x.clnum ≠ e.clnum + 1 := by
    intro x inside
    rw [split] at inside
    rcases List.mem_append.mp inside with early | late
    · have := ordered.1 x early
      omega
    rcases List.mem_cons.mp late with rfl | late
    · omega
    rcases List.mem_cons.mp late with rfl | late
    · exact gap
    · have := ordered'.2 x late
      omega
  have absent := laid.aligned.absent (e.clnum + 1) ⟨e, split ▸ by simp, Nat.lt_succ_self _⟩
    ⟨next, split ▸ by simp, by omega⟩ missed
  exact absurd (zero_of_getElem zero absent) (by decide)

theorem Laid.zero_iff_flat {first last : FlowElement} {body : List Int}
    (laid : Laid program flow first last body) (increasing : Increasing flow) :
    (∀ j < body.length, body[j]? = some 0) ↔ Flat program flow := by
  have long := laid.length
  constructor
  · intro zero before e next after split
    have depthZero : ∀ before e after, flow = before ++ e :: after → depth program before e = 0 :=
      fun before e after split => zero_of_getElem zero (laid.aligned.elements before e after split)
    have split' : flow = (before ++ [e]) ++ next :: after := by
      rw [split, List.append_assoc, List.singleton_append]
    have opened := returnStack_concat (depthZero before e (next :: after) split)
    have closed := depthZero (before ++ [e]) next after split'
    refine ⟨laid.consecutive increasing zero split, fun isCall => ?_⟩
    rw [depth, opened, if_pos isCall] at closed
    exact returnTo_only_length _ _ (Int.ofNat_eq_zero.mp closed)
  · intro flat j inside
    obtain ⟨e, member, same⟩ := flat.present increasing (List.mem_of_head? laid.head)
      (List.mem_of_getLast? laid.final) (first.clnum + j) (by omega) (by omega)
    obtain ⟨before, after, rfl⟩ := List.append_of_mem member
    have laidThere := laid.aligned.elements before e after rfl
    rw [same, Nat.add_sub_cancel_left, flat.depth_eq_zero rfl] at laidThere
    exact laidThere

/-- After a flat flow the calls open are those of its last element. -/
theorem Flat.closed_iff (flat : Flat program flow) {last : FlowElement} (final : flow.getLast? = some last) :
    (walk program flow).returnStack.length = 0 ↔ (program last.address).isCall = false := by
  obtain ⟨front, rfl⟩ := List.getLast?_eq_some_iff.mp final
  rw [returnStack_concat (flat.depth_eq_zero rfl)]
  cases (program last.address).isCall <;> simp

/-- The correction drops the entry in front if the flow is as long as the range. -/
theorem Laid.dmap_eq {first last : FlowElement} {body : List Int} (laid : Laid program flow first last body)
    (minclnum maxclnum : Nat) :
    dmap program flow minclnum maxclnum =
      if (body.length : Int) = maxclnum - minclnum
      then body ++ [((walk program flow).returnStack.length : Int)]
      else 0 :: (body ++ [((walk program flow).returnStack.length : Int)]) := by
  have entries : getHackedDepthMap program flow =
      0 :: (body ++ [((walk program flow).returnStack.length : Int)]) := by
    rw [getHackedDepthMap, laid.ret]
    rfl
  have hpo : ((getHackedDepthMap program flow).length : Int) - (maxclnum - minclnum) = 2 ↔
      (body.length : Int) = maxclnum - minclnum := by
    rw [entries]
    simp only [List.length_cons, List.length_append, List.length_nil]
    omega
  simp only [dmap, hpo]
  rw [entries]
  rfl

end Walking

section Shifts
variable {body : List Int} {final : Int}

theorem shifted_none : ∀ j < body.length, (0 :: (body ++ [final]))[j + 1]? = body[j]? := by
  intro j inside
  rw [List.getElem?_cons_succ, List.getElem?_append_left inside]

/-- Entries that equal those before them are all zero, as the one in front is. -/
theorem shifted_back :
    (∀ j < body.length, (0 :: (body ++ [final]))[j + 0]? = body[j]?) ↔ ∀ j < body.length, body[j]? = some 0 := by
  constructor
  · intro same j inside
    induction j with
    | zero => exact (same 0 inside).symm
    | succ j ih =>
      have before : j < body.length := Nat.lt_of_succ_lt inside
      rw [← same (j + 1) inside, Nat.add_zero, shifted_none j before]
      exact ih before
  · intro zero j inside
    rw [zero j inside]
    rcases j with _ | j
    · rfl
    · have before : j < body.length := Nat.lt_of_succ_lt inside
      rw [Nat.add_zero, shifted_none j before]
      exact zero j before

/-- Entries that equal those after them are all zero if one is, and so is the one behind. -/
theorem shifted_ahead (nonempty : 0 < body.length) (start : body[0]? = some 0) :
    (∀ j < body.length, (0 :: (body ++ [final]))[j + 2]? = body[j]?) ↔
      (∀ j < body.length, body[j]? = some 0) ∧ final = 0 := by
  constructor
  · intro same
    have zero : ∀ j < body.length, body[j]? = some 0 := by
      intro j inside
      induction j with
      | zero => exact start
      | succ j ih =>
        have before : j < body.length := Nat.lt_of_succ_lt inside
        have shifted : (0 :: (body ++ [final]))[j + 1 + 1]? = body[j + 1]? := shifted_none (j + 1) inside
        rw [← shifted, same j before]
        exact ih before
    have behind := same (body.length - 1) (by omega)
    rw [zero _ (by omega), (by omega : body.length - 1 + 2 = body.length + 1), List.getElem?_cons_succ,
      List.getElem?_concat_length] at behind
    exact ⟨zero, Option.some.inj behind⟩
  · rintro ⟨zero, rfl⟩ j inside
    rw [zero j inside, List.getElem?_cons_succ]
    rcases (Nat.succ_le_of_lt inside).lt_or_eq with before | last
    · rw [List.getElem?_append_left before]
      exact zero (j + 1) before
    · have here : j + 1 = body.length := last
      rw [here, List.getElem?_concat_length]

/-- From a distance of three on, the last element is looked up behind the end. -/
theorem not_shifted_far (nonempty : 0 < body.length) {distance : Nat} (far : 3 ≤ distance) :
    ¬ ∀ j < body.length, (0 :: (body ++ [final]))[j + distance]? = body[j]? := by
  intro same
  have entry := same (body.length - 1) (by omega)
  rw [List.getElem?_eq_none (by simp only [List.length_cons, List.length_append, List.length_nil]; omega),
    List.getElem?_eq_getElem (by omega)] at entry
  cases entry

end Shifts

/-- The flow starts one changelist late, or takes in all of them, or is flat and starts early or two
changelists late, where shifted entries cannot be told apart. -/
def InStep (program : Int → Instruction) (flow : List FlowElement) (minclnum maxclnum : Nat) : Prop :=
  ∀ first last, flow.head? = some first → flow.getLast? = some last →
    first.clnum = minclnum + 1 ∨
    (first.clnum = minclnum ∧ last.clnum + 1 = maxclnum) ∨
    (Flat program flow ∧ (first.clnum = minclnum ∨
      (first.clnum = minclnum + 2 ∧ (program last.address).isCall = false)))

theorem Laid.inStep_iff {program : Int → Instruction} {flow : List FlowElement} {first last : FlowElement}
    {body : List Int} (laid : Laid program flow first last body) (minclnum maxclnum : Nat) :
    InStep program flow minclnum maxclnum ↔
      first.clnum = minclnum + 1 ∨ (first.clnum = minclnum ∧ last.clnum + 1 = maxclnum) ∨
      (Flat program flow ∧ (first.clnum = minclnum ∨
        (first.clnum = minclnum + 2 ∧ (program last.address).isCall = false))) := by
  refine ⟨fun inStep => inStep first last laid.head laid.final, fun holds first' last' head final => ?_⟩
  obtain rfl := Option.some.inj (laid.head.symm.trans head)
  obtain rfl := Option.some.inj (laid.final.symm.trans final)
  exact holds

theorem Laid.start {program : Int → Instruction} {flow : List FlowElement} {first last : FlowElement}
    {body : List Int} (laid : Laid program flow first last body) : body[0]? = some 0 := by
  obtain ⟨rest, rfl⟩ := List.head?_eq_some_iff.mp laid.head
  have laidThere := laid.aligned.elements [] first rest rfl
  rwa [Nat.sub_self] at laidThere

/-- Exactly when lookups in the depth map find the changelists they ask for. -/
theorem dmap_aligned_iff (program : Int → Instruction) (flow : List FlowElement) (minclnum maxclnum : Nat)
    (increasing : Increasing flow)
    (within : ∀ e ∈ flow, minclnum ≤ e.clnum ∧ e.clnum < maxclnum) :
    Aligned program flow minclnum (dmap program flow minclnum maxclnum) ↔
      InStep program flow minclnum maxclnum := by
  by_cases empty : flow = []
  · subst empty
    exact ⟨fun _ => nofun, fun _ => ⟨fun before e after split =>
      absurd split.symm (List.append_ne_nil_of_right_ne_nil _ (List.cons_ne_nil _ _)), nofun⟩⟩
  obtain ⟨first, last, body, laid⟩ := exists_laid program flow increasing empty
  rw [laid.inStep_iff]
  have long := laid.length
  have lower := (within first (List.mem_of_head? laid.head)).1
  have upper := (within last (List.mem_of_getLast? laid.final)).2
  have span := (laid.bounds increasing last (List.mem_of_getLast? laid.final)).1
  have nonempty : 0 < body.length := by omega
  by_cases whole : first.clnum = minclnum ∧ last.clnum + 1 = maxclnum
  · refine iff_of_true ?_ (.inr (.inl whole))
    have corrected := laid.dmap_eq minclnum maxclnum
    rw [if_pos (by omega)] at corrected
    rw [laid.aligned_iff increasing lower, corrected, whole.1, Nat.sub_self]
    exact fun j inside => List.getElem?_append_left inside
  · have uncorrected := laid.dmap_eq minclnum maxclnum
    rw [if_neg (by omega)] at uncorrected
    rw [laid.aligned_iff increasing lower, uncorrected]
    obtain early | one | two | far : first.clnum = minclnum ∨ first.clnum = minclnum + 1 ∨
      first.clnum = minclnum + 2 ∨ minclnum + 3 ≤ first.clnum := by omega
    · have notLate : first.clnum ≠ minclnum + 1 := by omega
      rw [early, Nat.sub_self, shifted_back, laid.zero_iff_flat increasing]
      constructor
      · exact fun flat => .inr (.inr ⟨flat, .inl rfl⟩)
      · rintro (late | all | ⟨flat, -⟩)
        · omega
        · exact absurd ⟨early, all.2⟩ whole
        · exact flat
    · rw [one, Nat.add_sub_cancel_left]
      exact iff_of_true shifted_none (.inl rfl)
    · rw [two, Nat.add_sub_cancel_left, shifted_ahead nonempty laid.start, laid.zero_iff_flat increasing]
      constructor
      · rintro ⟨flat, closed⟩
        exact .inr (.inr ⟨flat, .inr ⟨rfl, (flat.closed_iff laid.final).mp (Int.ofNat_eq_zero.mp closed)⟩⟩)
      · rintro (late | all | ⟨flat, here | ⟨-, noCall⟩⟩)
        · omega
        · omega
        · omega
        · exact ⟨flat, Int.ofNat_eq_zero.mpr ((flat.closed_iff laid.final).mpr noCall)⟩
    · refine iff_of_false (not_shifted_far nonempty (by omega)) ?_
      rintro (late | all | ⟨-, here | ⟨two, -⟩⟩) <;> omega

/-- A call at 16 to 64, and instructions of one byte elsewhere. -/
def callAt16 (address : Int) : Instruction :=
  (⟨address, some (if address = 16 then ⟨5, "call", false, some 64⟩ else ⟨1, "nop", false, none⟩)⟩ :
    CsInsn).toInstruction

/-- A call and the first instruction behind it. -/
def enterCall : List FlowElement := [⟨16, 5, 0⟩, ⟨64, 1, 1⟩]

theorem dmap_aligned_iff_enterCall :
    Aligned callAt16 enterCall 0 (dmap callAt16 enterCall 0 2) ↔ InStep callAt16 enterCall 0 2 :=
  dmap_aligned_iff callAt16 enterCall 0 2 (by decide) (by decide)

/-- Out of step when another thread has the last changelist of the range. -/
theorem enterCall_unaligned :
    (0 < 3 ∧ Increasing enterCall ∧ ∀ e ∈ enterCall, 0 ≤ e.clnum ∧ e.clnum < 3) ∧
      ¬ Aligned callAt16 enterCall 0 (dmap callAt16 enterCall 0 3) := by
  refine ⟨by decide, fun aligned => ?_⟩
  have second := aligned.elements [⟨16, 5, 0⟩] ⟨64, 1, 1⟩ [] rfl
  exact absurd second (by decide)

end Qira.DepthMap
