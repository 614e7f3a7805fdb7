import Qira.NestedCalls

/-!
Where a call ends. The depth map is searched for the depth of the call itself, so that the search goes on past the
end of the call where several calls are left at once and the flow gets as deep again.
-/

namespace Qira.CallExtents
open Instructions DepthMap NestedCalls Library.CallStacks

/-- The loop of `get_last_instr` over the entries from `clnum` on; it stops at one that is `myd-1`. -/
def lastInstrLoop (myd : Int) : List Int → Nat → Nat → Option Nat
  | [], _, _ => none
  | d :: rest, clnum, ret => if d = myd - 1 then some ret else lastInstrLoop myd rest (clnum + 1) clnum

/-- `get_last_instr`; there is nothing at all where the index of the call is out of range. -/
def getLastInstr (dmap : List Int) (clnum : Nat) : Option (Option Nat) :=
  dmap[clnum]?.map (fun d => lastInstrLoop (d + 1) (dmap.drop (clnum + 1)) (clnum + 1) (clnum + 1))

/-- From the call at `c` up to `r` all that is present is deeper than the call, and what is present next is not. -/
structure Extent (dmap : List Int) (c : Nat) (d : Int) (r : Nat) : Prop where
  behind : c < r
  deeper : ∀ k, c < k → k ≤ r → ∀ x, dmap[k]? = some x → d < x ∨ x = -1
  next : ∀ k x, r < k → dmap[k]? = some x → x ≠ -1 → (∀ j, r < j → j < k → dmap[j]? = some (-1)) → x ≤ d

section Search
variable {dmap : List Int} {c : Nat} {d : Int}

/-- The loop stops before the first entry that is `myd-1`. -/
theorem lastInstrLoop_iff (myd : Int) (entries : List Int) (clnum ret r : Nat) :
    lastInstrLoop myd entries clnum ret = some r ↔
      ∃ n, entries[n]? = some (myd - 1) ∧ (∀ m < n, entries[m]? ≠ some (myd - 1)) ∧
        r = if n = 0 then ret else clnum + n - 1 := by
  induction entries generalizing clnum ret with
  | nil => simp [lastInstrLoop]
  | cons entry rest ih =>
    by_cases here : entry = myd - 1
    · rw [lastInstrLoop, if_pos here, here]
      constructor
      · intro found
        obtain rfl := Option.some.inj found
        exact ⟨0, rfl, fun m none => absurd none (Nat.not_lt_zero m), rfl⟩
      · rintro ⟨n, -, first, rfl⟩
        have zero : n = 0 := Nat.eq_zero_of_not_pos fun positive => first 0 positive rfl
        rw [if_pos zero]
    · rw [lastInstrLoop, if_neg here, ih]
      have shift (n : Nat) : (if n = 0 then clnum else clnum + 1 + n - 1) = clnum + (n + 1) - 1 := by
        split <;> omega
      constructor
      · rintro ⟨n, found, first, rfl⟩
        refine ⟨n + 1, found, fun m small => ?_, shift n⟩
        rcases m with _ | m
        · exact fun same => here (Option.some.inj same)
        · exact first m (Nat.lt_of_succ_lt_succ small)
      · rintro ⟨n, found, first, rfl⟩
        rcases n with _ | n
        · exact absurd (Option.some.inj found) here
        · exact ⟨n, found, fun m small => first (m + 1) (Nat.succ_lt_succ small), (shift n).symm⟩

/-- A call ends before the first entry of its own depth. -/
theorem getLastInstr_iff (atCall : dmap[c]? = some d) (enters : dmap[c + 1]? = some (d + 1)) (r : Nat) :
    getLastInstr dmap c = some (some r) ↔
      c < r ∧ dmap[r + 1]? = some d ∧ ∀ k, c < k → k ≤ r → dmap[k]? ≠ some d := by
  have depth : d + 1 - 1 = d := by omega
  rw [getLastInstr, atCall, Option.map_some, Option.some.injEq, lastInstrLoop_iff, depth]
  simp only [List.getElem?_drop]
  constructor
  · rintro ⟨n, found, first, rfl⟩
    have positive : n ≠ 0 := by
      rintro rfl
      have same := Option.some.inj (enters.symm.trans found)
      omega
    rw [if_neg positive]
    refine ⟨by omega, ?_, fun k after upTo => ?_⟩
    · rw [show c + 1 + n - 1 + 1 = c + 1 + n by omega]
      exact found
    · rw [show k = c + 1 + (k - c - 1) by omega]
      exact first (k - c - 1) (by omega)
  · rintro ⟨behind, found, first⟩
    refine ⟨r - c, ?_, fun m small => first (c + 1 + m) (by omega) (by omega), ?_⟩
    · rw [show c + 1 + (r - c) = r + 1 by omega]
      exact found
    · rw [if_neg (by omega)]
      omega

/-- The search stays inside the call exactly if it finds nothing, or what is present is deeper than the call up to
where the depth is the call's again. -/
theorem extent_iff (present : 0 ≤ d) (atCall : dmap[c]? = some d) (enters : dmap[c + 1]? = some (d + 1)) :
    (∀ r, getLastInstr dmap c = some (some r) → Extent dmap c d r) ↔
      (∀ k, c < k → dmap[k]? ≠ some d) ∨
      ∃ k, c < k ∧ dmap[k]? = some d ∧ ∀ j, c < j → j < k → ∀ x, dmap[j]? = some x → d < x ∨ x = -1 := by
  constructor
  · intro inside
    by_cases again : ∃ k, c < k ∧ dmap[k]? = some d
    · obtain ⟨after, found⟩ := Nat.find_spec again
      have first := fun k (early : k < Nat.find again) => Nat.find_min again early
      generalize Nat.find again = k at after found first
      have later : k ≠ c + 1 := by
        rintro rfl
        have same := Option.some.inj (enters.symm.trans found)
        omega
      obtain ⟨r, rfl⟩ : ∃ r, k = r + 1 := ⟨k - 1, by omega⟩
      have ended := (getLastInstr_iff atCall enters r).mpr
        ⟨by omega, found, fun k after upTo same => first k (Nat.lt_succ_of_le upTo) ⟨after, same⟩⟩
      exact .inr ⟨r + 1, after, found, fun j behind early => (inside r ended).deeper j behind (Nat.le_of_lt_succ early)⟩
    · exact .inl fun k after same => again ⟨k, after, same⟩
  · rintro (never | ⟨k, after, found, deeper⟩) r ended
    · obtain ⟨behind, found, -⟩ := (getLastInstr_iff atCall enters r).mp ended
      exact absurd found (never (r + 1) (Nat.lt_succ_of_lt behind))
    · obtain ⟨behind, last, first⟩ := (getLastInstr_iff atCall enters r).mp ended
      have same : k = r + 1 := by
        by_contra other
        have beyond : r < k := not_le.mp fun upTo => first k after upTo found
        rcases deeper (r + 1) (by omega) (by omega) d last with below | missing
        · exact lt_irrefl d below
        · omega
      subst same
      refine ⟨behind, fun j start upTo => deeper j start (Nat.lt_succ_of_le upTo), fun j x past held there gap => ?_⟩
      by_cases here : j = r + 1
      · rw [here, last] at held
        exact (Option.some.inj held).ge
      · have same := Option.some.inj (last.symm.trans (gap (r + 1) (Nat.lt_succ_self r) (by omega)))
        omega

/-- The first entry that is not deeper is the depth itself, or the depth does not come at all. -/
def Resumes (d : Int) (entries : List Int) : Prop :=
  d ∉ entries ∨ ∃ front back, entries = front ++ d :: back ∧ ∀ x ∈ front, d < x ∨ x = -1

theorem resumes_self (back : List Int) : Resumes d (d :: back) := .inr ⟨[], back, rfl, nofun⟩

theorem resumes_append (present : 0 ≤ d) {deep entries : List Int} (deeper : ∀ x ∈ deep, d < x ∨ x = -1) :
    Resumes d (deep ++ entries) ↔ Resumes d entries := by
  induction deep with
  | nil => rfl
  | cons x deep ih =>
    obtain ⟨first, later⟩ := List.forall_mem_cons.mp deeper
    have other : d ≠ x := by omega
    rw [← ih later, List.cons_append]
    unfold Resumes
    rw [List.mem_cons, or_iff_right other]
    apply or_congr_right
    constructor
    · intro split
      obtain ⟨front, back, same, deep⟩ := split
      rcases front with _ | ⟨y, front⟩
      · exact absurd (List.cons.inj same).1.symm other
      · exact ⟨front, back, (List.cons.inj same).2, fun z inside => deep z (List.mem_cons_of_mem y inside)⟩
    · intro split
      obtain ⟨front, back, same, deep⟩ := split
      exact ⟨x :: front, back, congrArg (x :: ·) same, List.forall_mem_cons.mpr ⟨first, deep⟩⟩

theorem resumes_of_below {x : Int} (nonneg : 0 ≤ x) (below : x < d) (entries : List Int) :
    Resumes d (x :: entries) ↔ d ∉ entries := by
  have other : d ≠ x := by omega
  unfold Resumes
  rw [List.mem_cons, or_iff_right other, or_iff_left]
  intro split
  obtain ⟨front, back, same, deep⟩ := split
  rcases front with _ | ⟨y, front⟩
  · exact other (List.cons.inj same).1.symm
  · have first := deep y List.mem_cons_self
    rw [← (List.cons.inj same).1] at first
    omega

theorem resumes_drop_iff :
    Resumes d (dmap.drop (c + 1)) ↔ (∀ k, c < k → dmap[k]? ≠ some d) ∨
      ∃ k, c < k ∧ dmap[k]? = some d ∧ ∀ j, c < j → j < k → ∀ x, dmap[j]? = some x → d < x ∨ x = -1 := by
  have at_ : ∀ k, c < k → dmap[k]? = (dmap.drop (c + 1))[k - (c + 1)]? := by
    intro k behind
    rw [List.getElem?_drop, Nat.add_sub_cancel' behind]
  apply or_congr
  · constructor
    · intro absent k behind found
      rw [at_ k behind] at found
      exact absent (List.mem_of_getElem? found)
    · intro never inside
      obtain ⟨n, found⟩ := List.mem_iff_getElem?.mp inside
      rw [List.getElem?_drop] at found
      exact never (c + 1 + n) (by omega) found
  · constructor
    · intro split
      obtain ⟨front, back, same, deep⟩ := split
      refine ⟨c + 1 + front.length, by omega, ?_, fun j behind early x held => ?_⟩
      · rw [at_ _ (by omega), same, Nat.add_sub_cancel_left, List.getElem?_append_right le_rfl, Nat.sub_self]
        rfl
      · rw [at_ j behind, same, List.getElem?_append_left (by omega)] at held
        exact deep x (List.mem_of_getElem? held)
    · intro found
      obtain ⟨k, behind, last, deep⟩ := found
      rw [at_ k behind] at last
      obtain ⟨short, value⟩ := List.getElem?_eq_some_iff.mp last
      refine ⟨(dmap.drop (c + 1)).take (k - (c + 1)), (dmap.drop (c + 1)).drop (k - (c + 1) + 1), ?_, ?_⟩
      · rw [← value, List.getElem_cons_drop, List.take_append_drop]
      · intro x inside
        obtain ⟨n, found⟩ := List.mem_iff_getElem?.mp inside
        rw [List.getElem?_take] at found
        split_ifs at found with early
        rw [List.getElem?_drop] at found
        exact deep (c + 1 + n) (by omega) (by omega) x found

end Search

section Calls
variable {program : Int → Instruction}

/-- The addresses that the calls open after a flow return to, from those open before it. -/
def openCalls (program : Int → Instruction) (pending : List Int) (flow : List FlowElement) : List Int :=
  (flow.map (event program)).foldl (after returnTo) pending

/-- The calls around an element that comes after others. -/
def callsAround (program : Int → Instruction) (before : List FlowElement) (e : FlowElement) : List Int :=
  returnTo (openCalls program [] before) e.address

/-- An element behind a call leaves it: a call that was open then returns to its address, and none that the body
of the call has made since. -/
def Leaves (program : Int → Instruction) (pending : List Int) (body : List FlowElement) (x : FlowElement) : Prop :=
  x.address ∈ pending ∧ x.address ∉ openCalls program [] body

/-- No element of the body leaves the call. -/
def Stays (program : Int → Instruction) (pending : List Int) (body : List FlowElement) : Prop :=
  ∀ front x back, body = front ++ x :: back → ¬ Leaves program pending front x

theorem openCalls_append (pending : List Int) (first second : List FlowElement) :
    openCalls program pending (first ++ second) = openCalls program (openCalls program pending first) second := by
  rw [openCalls, List.map_append, List.foldl_append]
  rfl

theorem openCalls_cons (pending : List Int) (e : FlowElement) (rest : List FlowElement) :
    openCalls program pending (e :: rest) = openCalls program (after returnTo pending (event program e)) rest := rfl

/-- The stack of the walk is that of the open calls. -/
theorem foldl_returnStack (w : Walk) (flow : List FlowElement) :
    (flow.foldl (Walk.element program) w).returnStack = openCalls program w.returnStack flow := by
  induction flow generalizing w with
  | nil => rfl
  | cons e rest ih =>
    rw [List.foldl_cons, ih, openCalls_cons, after_event]
    rfl

theorem rindex_append_right (pending inner : List Int) {a : Int} (inside : a ∈ inner) :
    rindex (pending ++ inner) a = pending.length + rindex inner a := by
  have found : inner.reverse.idxOf a < inner.length := by
    rw [← List.length_reverse]
    exact List.idxOf_lt_length_of_mem (List.mem_reverse.mpr inside)
  rw [rindex, rindex, List.reverse_append, List.idxOf_append_of_mem (List.mem_reverse.mpr inside),
    List.length_append]
  omega

theorem rindex_append_left (pending inner : List Int) {a : Int} (absent : a ∉ inner) :
    rindex (pending ++ inner) a = rindex pending a := by
  rw [rindex, rindex, List.reverse_append, List.idxOf_append_of_notMem (fun inside => absent (List.mem_reverse.mp inside)),
    List.length_append, List.length_reverse]
  omega

/-- Below the calls made since, the stack is left alone by an address that one of them returns to, or none at all. -/
theorem returnTo_above {pending inner : List Int} {a : Int} (stays : ¬ (a ∈ pending ∧ a ∉ inner)) :
    returnTo (pending ++ inner) a = pending ++ returnTo inner a := by
  by_cases inside : a ∈ inner
  · rw [returnTo, if_pos (List.mem_append_right pending inside), rindex_append_right pending inner inside, returnTo,
      if_pos inside, List.take_length_add_append]
  · have absent : a ∉ pending := fun below => stays ⟨below, inside⟩
    rw [returnTo, if_neg (fun either => (List.mem_append.mp either).elim absent inside), returnTo, if_neg inside]

theorem rindex_lt_length {stack : List Int} {a : Int} (inside : a ∈ stack) : rindex stack a < stack.length := by
  have positive : 0 < stack.length := List.length_pos_of_mem inside
  unfold rindex
  omega

/-- An address that closes a call closes all that were made since. -/
theorem returnTo_below {pending inner : List Int} {a : Int} (inside : a ∈ pending) (absent : a ∉ inner) :
    returnTo (pending ++ inner) a = returnTo pending a := by
  rw [returnTo, if_pos (List.mem_append_left inner inside), rindex_append_left pending inner absent, returnTo,
    if_pos inside, List.take_append_of_le_length (rindex_lt_length inside).le]

theorem openCalls_concat (pending : List Int) (flow : List FlowElement) (e : FlowElement) :
    openCalls program pending (flow ++ [e]) = after returnTo (openCalls program pending flow) (event program e) :=
  openCalls_append pending flow [e]

theorem Stays.left {pending : List Int} {body more : List FlowElement} (stays : Stays program pending (body ++ more)) :
    Stays program pending body := by
  intro front x back split
  apply stays front x (back ++ more)
  rw [split, List.append_assoc, List.cons_append]

/-- As long as the flow stays in a call, the stack is that of the calls made since on top of the others. -/
theorem openCalls_of_stays {pending : List Int} {body : List FlowElement} (stays : Stays program pending body) :
    openCalls program pending body = pending ++ openCalls program [] body := by
  induction body using List.reverseRecOn with
  | nil => exact (List.append_nil _).symm
  | append_singleton front x ih =>
    have unwound : returnTo (pending ++ openCalls program [] front) (event program x).address =
        pending ++ returnTo (openCalls program [] front) (event program x).address :=
      returnTo_above (stays front x [] rfl)
    rw [openCalls_concat, openCalls_concat, ih stays.left, after, after, unwound, List.append_assoc]

theorem stays_concat {pending : List Int} {body : List FlowElement} {x : FlowElement}
    (stays : Stays program pending body) (inside : ¬ Leaves program pending body x) :
    Stays program pending (body ++ [x]) := by
  intro front y back split
  rcases List.eq_nil_or_concat back with rfl | ⟨rest, z, rfl⟩
  · obtain ⟨rfl, same⟩ := List.append_inj' split rfl
    obtain rfl := List.singleton_inj.mp same
    exact inside
  · rw [List.concat_eq_append, ← List.cons_append, ← List.append_assoc] at split
    obtain ⟨rfl, -⟩ := List.append_inj' split rfl
    exact stays front y rest rfl

/-- A flow stays in a call or has a first element that leaves it. -/
theorem stays_or_leaves (program : Int → Instruction) (pending : List Int) (flow : List FlowElement) :
    Stays program pending flow ∨ ∃ body x rest, flow = body ++ x :: rest ∧ Stays program pending body ∧
      Leaves program pending body x := by
  induction flow using List.reverseRecOn with
  | nil => exact .inl (fun front x back split => absurd split.symm (List.append_ne_nil_of_right_ne_nil _ (List.cons_ne_nil _ _)))
  | append_singleton front x ih =>
    rcases ih with stays | ⟨body, y, rest, rfl, stays, leaves⟩
    · by_cases leaves : Leaves program pending front x
      · exact .inr ⟨front, x, [], rfl, stays, leaves⟩
      · exact .inl (stays_concat stays leaves)
    · refine .inr ⟨body, y, rest ++ [x], ?_, stays, leaves⟩
      rw [List.append_assoc, List.cons_append]

/-- What the walk appends for the elements of a flow. -/
def entries (program : Int → Instruction) (w : Walk) : List FlowElement → List Int
  | [] => []
  | e :: rest =>
      missing w.lastClnum e.clnum ++ ((returnTo w.returnStack e.address).length : Int) ::
        entries program (w.element program e) rest

theorem foldl_ret (w : Walk) (flow : List FlowElement) :
    (flow.foldl (Walk.element program) w).ret = w.ret ++ entries program w flow := by
  induction flow generalizing w with
  | nil => exact (List.append_nil _).symm
  | cons e rest ih =>
    rw [List.foldl_cons, ih, entries, Walk.element]
    simp only [List.append_assoc, List.singleton_append]

theorem entries_append (w : Walk) (first second : List FlowElement) :
    entries program w (first ++ second) =
      entries program w first ++ entries program (first.foldl (Walk.element program) w) second := by
  induction first generalizing w with
  | nil => rfl
  | cons e rest ih => simp only [List.cons_append, entries, ih, List.foldl_cons, List.append_assoc]

theorem mem_missing {last : Option Nat} {clnum : Nat} {x : Int} (inside : x ∈ missing last clnum) : x = -1 := by
  cases last with
  | none => exact absurd inside List.not_mem_nil
  | some last =>
    rw [missing_eq] at inside
    exact List.eq_of_mem_replicate inside

/-- A depth is entered for the elements that have it. -/
theorem mem_entries_iff (w : Walk) (flow : List FlowElement) (n : Nat) :
    (n : Int) ∈ entries program w flow ↔ ∃ front x back, flow = front ++ x :: back ∧
      (returnTo (openCalls program w.returnStack front) x.address).length = n := by
  constructor
  · intro inside
    induction flow generalizing w with
    | nil => exact absurd inside List.not_mem_nil
    | cons e rest ih =>
      rcases List.mem_append.mp inside with gap | tail
      · have negative := mem_missing gap
        omega
      · rcases List.mem_cons.mp tail with here | later
        · exact ⟨[], e, rest, rfl, (Int.ofNat.inj here).symm⟩
        · obtain ⟨front, x, back, same, depth⟩ := ih (w.element program e) later
          have stack : (w.element program e).returnStack = after returnTo w.returnStack (event program e) :=
            (after_event w.returnStack e).symm
          refine ⟨e :: front, x, back, congrArg (e :: ·) same, ?_⟩
          rw [openCalls_cons, ← stack]
          exact depth
  · intro split
    obtain ⟨front, x, back, rfl, depth⟩ := split
    rw [entries_append, entries, foldl_returnStack, depth]
    exact List.mem_append_right _ (List.mem_append_right _ List.mem_cons_self)

/-- What is entered while the flow stays in a call is deeper than the call. -/
theorem deeper_of_stays {pending : List Int} {w : Walk} (stack : w.returnStack = pending) {body : List FlowElement}
    (stays : Stays program pending body) {d : Int} (below : d < pending.length) :
    ∀ x ∈ entries program w body, d < x ∨ x = -1 := by
  induction body using List.reverseRecOn with
  | nil => exact nofun
  | append_singleton front e ih =>
    intro x inside
    rw [entries_append] at inside
    rcases List.mem_append.mp inside with early | last
    · exact ih stays.left x early
    · rcases List.mem_append.mp last with gap | here
      · exact .inr (mem_missing gap)
      · rw [foldl_returnStack, stack, openCalls_of_stays stays.left, returnTo_above (stays front e [] rfl)] at here
        obtain rfl := List.mem_singleton.mp here
        rw [List.length_append]
        exact .inl (by omega)

/-- Neither an element that comes after `before`, nor the end of the flow, is inside exactly `n` calls. -/
def Avoids (program : Int → Instruction) (n : Nat) (before rest : List FlowElement) : Prop :=
  (∀ front y back, rest = front ++ y :: back → (callsAround program (before ++ front) y).length ≠ n) ∧
    (openCalls program [] (before ++ rest)).length ≠ n

theorem avoids_iff (n : Nat) (w : Walk) {before : List FlowElement} (stack : w.returnStack = openCalls program [] before)
    (rest : List FlowElement) :
    Avoids program n before rest ↔
      (n : Int) ∉ entries program w rest ++ [((openCalls program [] (before ++ rest)).length : Int)] := by
  rw [List.mem_append, not_or, mem_entries_iff, List.mem_singleton, Int.natCast_inj, stack]
  apply and_congr
  · constructor
    · intro avoids split
      obtain ⟨front, y, back, same, depth⟩ := split
      apply avoids front y back same
      rw [callsAround, openCalls_append]
      exact depth
    · intro none front y back same depth
      rw [callsAround, openCalls_append] at depth
      exact none ⟨front, y, back, same, depth⟩
  · exact not_congr eq_comm

/-- Where the first element that leaves a call runs decides the search, and what comes after it. -/
theorem resumes_iff_of_leaves {outer : List Int} {ret : Int} {w : Walk} {before body rest : List FlowElement}
    {x : FlowElement} (walked : w.returnStack = openCalls program [] before)
    (stack : openCalls program [] before = outer ++ [ret]) (stays : Stays program (outer ++ [ret]) body)
    (leaves : Leaves program (outer ++ [ret]) body x) :
    Resumes (outer.length : Int) (entries program w (body ++ x :: rest) ++
        [((openCalls program [] (before ++ (body ++ x :: rest))).length : Int)]) ↔
      x.address = ret ∨ Avoids program outer.length (before ++ (body ++ [x])) rest := by
  have present : (0 : Int) ≤ outer.length := Int.natCast_nonneg _
  have below : (outer.length : Int) < (outer ++ [ret]).length := by
    rw [List.length_append, List.length_singleton]
    omega
  have gap : ∀ y ∈ missing (body.foldl (Walk.element program) w).lastClnum x.clnum,
      (outer.length : Int) < y ∨ y = -1 := fun y inside => .inr (mem_missing inside)
  have unwound : returnTo (body.foldl (Walk.element program) w).returnStack x.address =
      returnTo (outer ++ [ret]) x.address := by
    rw [foldl_returnStack, walked, stack, openCalls_of_stays stays]
    exact returnTo_below leaves.1 leaves.2
  rw [entries_append, List.append_assoc, resumes_append present (deeper_of_stays (walked.trans stack) stays below), entries,
    List.append_assoc, resumes_append present gap, List.cons_append, unwound]
  by_cases returns : x.address = ret
  · rw [returns, unwinds_returnTo.last]
    exact iff_of_true (resumes_self _) (.inl rfl)
  · have inOuter : x.address ∈ outer := by
      rcases List.mem_append.mp leaves.1 with inside | last
      · exact inside
      · exact absurd (List.mem_singleton.mp last) returns
    have shorter : (returnTo (outer ++ [ret]) x.address).length < outer.length := by
      rw [returnTo_below inOuter (fun last => returns (List.mem_singleton.mp last)), returnTo, if_pos inOuter,
        List.length_take]
      exact (min_le_left _ _).trans_lt (rindex_lt_length inOuter)
    have last : ((body ++ [x]).foldl (Walk.element program) w).returnStack =
        openCalls program [] (before ++ (body ++ [x])) := by
      rw [foldl_returnStack, walked, ← openCalls_append]
    rw [resumes_of_below (Int.natCast_nonneg _) (Int.ofNat_lt.mpr shorter), or_iff_right returns,
      avoids_iff outer.length _ last, List.foldl_append]
    simp only [List.append_assoc, List.singleton_append]
    rfl

end Calls

/-- For a call of a flow, with what ran before and after it: `get_last_instr` stays inside the call if and only if the
first element that leaves it, if there is one, runs at the call's own return address, or leaves more calls than this
one and neither a later element nor the end of the flow is inside as many calls as the call was. -/
theorem callExtent_iff (program : Int → Instruction) (before later : List FlowElement) (e : FlowElement)
    (isCall : (program e.address).isCall = true) {c : Nat} (entry : (walk program (before ++ [e])).ret.length = c + 1)
    (enters : (getHackedDepthMap program (before ++ e :: later))[c + 1]? = some (depth program before e + 1)) :
    (∀ r, getLastInstr (getHackedDepthMap program (before ++ e :: later)) c = some (some r) →
      Extent (getHackedDepthMap program (before ++ e :: later)) c (depth program before e) r) ↔
      ∀ body x rest, later = body ++ x :: rest →
        Stays program (callsAround program before e ++ [e.address + e.length]) body →
        Leaves program (callsAround program before e ++ [e.address + e.length]) body x →
        x.address = e.address + e.length ∨
          Avoids program (callsAround program before e).length (before ++ e :: (body ++ [x])) rest := by
  have flow : before ++ e :: later = (before ++ [e]) ++ later := by rw [List.append_assoc, List.singleton_append]
  have walked : (walk program (before ++ [e])).returnStack = openCalls program [] (before ++ [e]) :=
    foldl_returnStack ⟨[], [0], none⟩ (before ++ [e])
  have stack : openCalls program [] (before ++ [e]) = callsAround program before e ++ [e.address + e.length] := by
    rw [openCalls_concat, after_event, if_pos isCall]
    rfl
  have depth_eq : depth program before e = ((callsAround program before e).length : Int) := by
    rw [depth, callsAround, walk, foldl_returnStack]
  have map : getHackedDepthMap program (before ++ e :: later) =
      (walk program (before ++ [e])).ret ++ (entries program (walk program (before ++ [e])) later ++
        [((openCalls program [] (before ++ [e] ++ later)).length : Int)]) := by
    rw [getHackedDepthMap, flow, walk, List.foldl_append, foldl_ret, foldl_returnStack, List.append_assoc, openCalls_append,
      ← walked]
    rfl
  have atCall : (getHackedDepthMap program (before ++ e :: later))[c]? = some (depth program before e) := by
    rw [map, List.getElem?_append_left (by omega)]
    rw [walk_concat, Walk.element, List.length_append, List.length_singleton] at entry
    rw [walk_concat, Walk.element, show c = ((walk program before).ret ++
      missing (walk program before).lastClnum e.clnum).length by omega]
    exact List.getElem?_concat_length
  have present : 0 ≤ depth program before e := Int.natCast_nonneg _
  rw [extent_iff present atCall enters, ← resumes_drop_iff, map, ← entry, List.drop_left, depth_eq]
  constructor
  · intro resumes body x rest split stays leaves
    rw [split] at resumes
    have decided := (resumes_iff_of_leaves walked stack stays leaves).mp resumes
    rwa [List.append_assoc, List.singleton_append] at decided
  · intro each
    rcases stays_or_leaves program (callsAround program before e ++ [e.address + e.length]) later with
      stays | ⟨body, x, rest, split, stays, leaves⟩
    · have below : ((callsAround program before e).length : Int) <
          (callsAround program before e ++ [e.address + e.length]).length := by
        rw [List.length_append, List.length_singleton]
        omega
      rw [resumes_append (Int.natCast_nonneg _) (deeper_of_stays (walked.trans stack) stays below), openCalls_append, stack,
        openCalls_of_stays stays]
      refine .inl (fun last => ?_)
      have same := List.mem_singleton.mp last
      rw [List.length_append] at same
      omega
    · have decided := each body x rest split stays leaves
      rw [split]
      apply (resumes_iff_of_leaves walked stack stays leaves).mpr
      rwa [List.append_assoc, List.singleton_append]

/-- Calls of one byte at 0, 1 and 10. -/
def calls (address : Int) : Instruction :=
  (⟨address, some (if address = 0 ∨ address = 1 ∨ address = 10 then ⟨1, "call", false, some 50⟩
    else ⟨1, "nop", false, none⟩)⟩ : CsInsn).toInstruction

/-- The call at 10 is left together with the one before it, and the next call from there is as deep as it was. -/
def longjmp : List FlowElement := [⟨0, 1, 0⟩, ⟨10, 1, 1⟩, ⟨20, 1, 2⟩, ⟨1, 1, 3⟩, ⟨50, 1, 4⟩]

/-- A function that calls itself once and returns twice. -/
theorem callExtent_iff_recursion :
    (∀ r, getLastInstr (getHackedDepthMap callAt16 ([] ++ ⟨16, 5, 0⟩ :: [⟨16, 5, 1⟩, ⟨21, 1, 2⟩, ⟨21, 1, 3⟩])) 1 =
        some (some r) →
      Extent (getHackedDepthMap callAt16 ([] ++ ⟨16, 5, 0⟩ :: [⟨16, 5, 1⟩, ⟨21, 1, 2⟩, ⟨21, 1, 3⟩])) 1
        (depth callAt16 [] ⟨16, 5, 0⟩) r) ↔
      ∀ body x rest, [⟨16, 5, 1⟩, ⟨21, 1, 2⟩, ⟨21, 1, 3⟩] = body ++ x :: rest →
        Stays callAt16 (callsAround callAt16 [] ⟨16, 5, 0⟩ ++ [16 + 5]) body →
        Leaves callAt16 (callsAround callAt16 [] ⟨16, 5, 0⟩ ++ [16 + 5]) body x →
        x.address = 16 + 5 ∨
          Avoids callAt16 (callsAround callAt16 [] ⟨16, 5, 0⟩).length ([] ++ ⟨16, 5, 0⟩ :: (body ++ [x])) rest :=
  callExtent_iff callAt16 [] [⟨16, 5, 1⟩, ⟨21, 1, 2⟩, ⟨21, 1, 3⟩] ⟨16, 5, 0⟩ (by decide) (by decide) (by decide)

theorem longjmp_leaves :
    ((calls 10).isCall = true ∧ (getHackedDepthMap calls longjmp)[2]? = some 1 ∧
      (getHackedDepthMap calls longjmp)[3]? = some (1 + 1)) ∧
    ¬ ∀ r, getLastInstr (getHackedDepthMap calls longjmp) 2 = some (some r) →
      Extent (getHackedDepthMap calls longjmp) 2 1 r := by
  refine ⟨by decide, fun inside => ?_⟩
  have extent := inside 4 (by decide)
  exact absurd (extent.deeper 4 (by decide) le_rfl 0 (by decide)) (by decide)

end Qira.CallExtents
