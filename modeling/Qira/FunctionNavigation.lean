import Qira.DepthMap

/-!
Navigation to the start or the end of a function. The search goes through the depth map from one changelist on, as
if its first entry were that of changelist 0, while the instructions are shown with the first entry as that of the
first changelist.
-/

namespace Qira.FunctionNavigation

/-- Indexing of a list, from its end where the index is negative; `none` is an `IndexError`. -/
def index (l : List Int) (i : Int) : Option Int :=
  if 0 ≤ i then l[i.toNat]? else if 0 ≤ i + l.length then l[(i + l.length).toNat]? else none

theorem index_range {l : List Int} {i d : Int} (found : index l i = some d) : 0 ≤ i + l.length ∧ i < l.length := by
  unfold index at found
  split_ifs at found with positive negative
  · obtain ⟨inside, -⟩ := List.getElem?_eq_some_iff.mp found
    omega
  · omega

/-- The depth that is shown for a changelist. -/
def depth (dmap : List Int) (minclnum clnum : Int) : Int := (index dmap (clnum - minclnum)).getD 0

/-- `clnum -= 1` or `clnum += 1`. -/
def step (start : Bool) (clnum : Int) : Int := if start then clnum - 1 else clnum + 1

/-- The loop of `navigatefunction`. -/
def navigateLoop (dmap : List Int) (minclnum maxclnum myd : Int) (start : Bool) (clnum ret : Int) : Option Int :=
  match found : index dmap clnum with
  | none => none
  | some d =>
      have _range := index_range found
      if d = myd - 1 then some ret
      else
        let next := step start clnum
        if next = minclnum ∨ next = maxclnum then some next
        else navigateLoop dmap minclnum maxclnum myd start next clnum
termination_by (if start then clnum + dmap.length + 1 else dmap.length - clnum).toNat
decreasing_by
  cases start
  · simp only [step, Bool.false_eq_true, if_false]
    omega
  · simp only [step, if_true]
    omega

def navigatefunction (dmap : List Int) (minclnum maxclnum clnum : Int) (start : Bool) : Option Int :=
  (index dmap clnum).bind (fun myd => navigateLoop dmap minclnum maxclnum myd start clnum clnum)

/-- The result is in the trace, and all on the way to it are at least as deep. -/
def StaysInside (dmap : List Int) (minclnum maxclnum clnum : Int) (result : Option Int) : Prop :=
  ∃ r, result = some r ∧ minclnum ≤ r ∧ r ≤ maxclnum ∧
    ∀ c, (clnum ≤ c ∧ c ≤ r ∨ r ≤ c ∧ c ≤ clnum) → c ≠ maxclnum → depth dmap minclnum clnum ≤ depth dmap minclnum c

/-- Some changelists on in the direction of the search. -/
def ahead (start : Bool) (clnum : Int) (n : Nat) : Int := if start then clnum - n else clnum + n

theorem ahead_zero (start : Bool) (clnum : Int) : ahead start clnum 0 = clnum := by
  cases start <;> simp [ahead]

theorem ahead_step (start : Bool) (clnum : Int) (n : Nat) :
    ahead start (step start clnum) n = ahead start clnum (n + 1) := by
  cases start <;> simp [ahead, step] <;> ring

theorem ahead_one (start : Bool) (clnum : Int) : ahead start clnum 1 = step start clnum :=
  (ahead_step start clnum 0).symm.trans (ahead_zero start _)

/-- What holds here and of all further ahead holds from here on. -/
theorem ahead_from_here {P : Int → Prop} {start : Bool} {clnum : Int} {n : Nat} (here : P clnum)
    (onward : ∀ k, 0 < k → k < n → P (ahead start clnum k)) : ∀ k < n, P (ahead start clnum k) := by
  intro k small
  rcases Nat.eq_zero_or_pos k with rfl | positive
  · rw [ahead_zero]
    exact here
  · exact onward k positive small

/-- What holds from the next changelist on holds of all further ahead. -/
theorem ahead_from_next {P : Int → Prop} {start : Bool} {clnum : Int} {n : Nat}
    (next : ∀ k < n, P (ahead start (step start clnum) k)) : ∀ k, 0 < k → k < n + 1 → P (ahead start clnum k) := by
  intro k positive small
  obtain ⟨k, rfl⟩ := Nat.exists_eq_succ_of_ne_zero positive.ne'
  rw [Nat.succ_eq_add_one, ← ahead_step]
  exact next k (Nat.lt_of_succ_lt_succ small)

/-- The entries of the search itself, not those shown, lead from `clnum` to one that is `myd-1`, or the range ends,
and all that is passed is in the trace and at least as deep. -/
structure Clear (dmap : List Int) (minclnum maxclnum clnum myd : Int) (start : Bool) (n : Nat) : Prop where
  positive : 0 < n
  passed : ∀ k, 0 < k → k < n → minclnum ≤ ahead start clnum k ∧ ahead start clnum k < maxclnum ∧
    index dmap (ahead start clnum k) ≠ none ∧ depth dmap minclnum clnum ≤ depth dmap minclnum (ahead start clnum k)
  stops : ahead start clnum n = maxclnum ∨
    (ahead start clnum n = minclnum ∧ depth dmap minclnum clnum ≤ depth dmap minclnum minclnum) ∨
    (ahead start clnum n ≠ minclnum ∧ index dmap (ahead start clnum n) = some (myd - 1))

section Loop
variable {dmap : List Int} {minclnum maxclnum myd : Int} {start : Bool}

theorem navigateLoop_some {clnum d : Int} (found : index dmap clnum = some d) (ret : Int) :
    navigateLoop dmap minclnum maxclnum myd start clnum ret =
      if d = myd - 1 then some ret
      else if step start clnum = minclnum ∨ step start clnum = maxclnum then some (step start clnum)
      else navigateLoop dmap minclnum maxclnum myd start (step start clnum) clnum := by
  rw [navigateLoop]
  split
  next none => cases found.symm.trans none
  next entry found' =>
    obtain rfl := Option.some.inj (found.symm.trans found')
    rfl

/-- Where the entries lead to a stop, the loop returns at the latest there. -/
theorem navigateLoop_returns (n : Nat) {clnum ret : Int}
    (entries : ∀ k < n, index dmap (ahead start clnum k) ≠ none)
    (stops : (0 < n ∧ (ahead start clnum n = minclnum ∨ ahead start clnum n = maxclnum)) ∨
      index dmap (ahead start clnum n) = some (myd - 1)) :
    ∃ r, navigateLoop dmap minclnum maxclnum myd start clnum ret = some r ∧
      (r = ret ∨ ∃ k ≤ n, r = ahead start clnum k ∧
        (k = n → ahead start clnum n = minclnum ∨ ahead start clnum n = maxclnum)) := by
  induction n generalizing clnum ret with
  | zero =>
    have last := stops.resolve_left fun ends => lt_irrefl 0 ends.1
    rw [ahead_zero] at last
    exact ⟨ret, (navigateLoop_some last ret).trans (if_pos rfl), .inl rfl⟩
  | succ n ih =>
    have first := entries 0 (Nat.succ_pos n)
    rw [ahead_zero] at first
    obtain ⟨d, found⟩ := Option.ne_none_iff_exists'.mp first
    rw [navigateLoop_some found]
    by_cases above : d = myd - 1
    · exact ⟨ret, if_pos above, .inl rfl⟩
    rw [if_neg above]
    by_cases ends : step start clnum = minclnum ∨ step start clnum = maxclnum
    · refine ⟨_, if_pos ends, .inr ⟨1, Nat.succ_le_succ (Nat.zero_le n), (ahead_one start clnum).symm, fun same => ?_⟩⟩
      rw [← same, ahead_one]
      exact ends
    rw [if_neg ends]
    obtain ⟨r, returned, place⟩ := @ih (step start clnum) clnum
      (fun k small => ahead_step start clnum k ▸ entries (k + 1) (Nat.succ_lt_succ small)) (by
        rw [ahead_step]
        rcases Nat.eq_zero_or_pos n with rfl | positive
        · exact .inr (stops.resolve_left fun last => ends (ahead_one start clnum ▸ last.2))
        · exact stops.imp_left fun last => ⟨positive, last.2⟩)
    refine ⟨r, returned, .inr ?_⟩
    rcases place with rfl | ⟨k, upTo, same, last⟩
    · exact ⟨0, Nat.zero_le _, (ahead_zero start r).symm, fun none => absurd none (Nat.succ_ne_zero n).symm⟩
    · rw [ahead_step] at same last
      exact ⟨k + 1, Nat.succ_le_succ upTo, same, fun whole => last (Nat.succ_inj.mp whole)⟩

/-- Where the loop has returned, its entries have led to a stop. -/
theorem navigateLoop_stopped {clnum ret r : Int}
    (returned : navigateLoop dmap minclnum maxclnum myd start clnum ret = some r) :
    ∃ n, (∀ k < n, index dmap (ahead start clnum k) ≠ none) ∧
      (∀ k, 0 < k → k < n → ahead start clnum k ≠ minclnum ∧ ahead start clnum k ≠ maxclnum) ∧
      ((0 < n ∧ (ahead start clnum n = minclnum ∨ ahead start clnum n = maxclnum) ∧ r = ahead start clnum n) ∨
        (0 < n → ahead start clnum n ≠ minclnum ∧ ahead start clnum n ≠ maxclnum) ∧
        index dmap (ahead start clnum n) = some (myd - 1) ∧ r = if n = 0 then ret else ahead start clnum (n - 1)) := by
  induction clnum, ret using navigateLoop.induct dmap minclnum maxclnum myd start with
  | case1 clnum ret none =>
    rw [navigateLoop] at returned
    split at returned
    next => cases returned
    next d found => cases found.symm.trans none
  | case2 clnum ret found range =>
    rw [navigateLoop_some found, if_pos rfl] at returned
    rw [← ahead_zero start clnum] at found
    exact ⟨0, fun k none => absurd none (Nat.not_lt_zero k), fun k _ none => absurd none (Nat.not_lt_zero k),
      .inr ⟨fun none => absurd none (lt_irrefl 0), found, (Option.some.inj returned).symm⟩⟩
  | case3 clnum ret d found range below next ends =>
    rw [navigateLoop_some found, if_neg below, if_pos ends] at returned
    refine ⟨1, fun k small => ?_, fun k positive small => absurd small (Nat.not_lt.mpr positive), .inl
      ⟨Nat.one_pos, (ahead_one start clnum).symm ▸ ends, (Option.some.inj returned).symm.trans
        (ahead_one start clnum).symm⟩⟩
    obtain rfl : k = 0 := Nat.lt_one_iff.mp small
    rw [ahead_zero, found]
    exact Option.some_ne_none d
  | case4 clnum ret d found range below next on ih =>
    rw [navigateLoop_some found, if_neg below, if_neg on] at returned
    obtain ⟨n, entries, inside, place⟩ := ih returned
    rw [ahead_step] at place
    have on' := not_or.mp on
    refine ⟨n + 1, ?_, ?_, ?_⟩
    · have here : index dmap clnum ≠ none := by
        rw [found]
        exact Option.some_ne_none d
      exact @ahead_from_here (index dmap · ≠ none) start clnum (n + 1) here
        (@ahead_from_next (index dmap · ≠ none) start clnum n entries)
    · exact @ahead_from_next (fun c => c ≠ minclnum ∧ c ≠ maxclnum) start clnum n
        (@ahead_from_here (fun c => c ≠ minclnum ∧ c ≠ maxclnum) start (step start clnum) n on' inside)
    · rcases place with ⟨-, ends, same⟩ | ⟨inner, last, same⟩
      · exact .inl ⟨Nat.succ_pos n, ends, same⟩
      · refine .inr ⟨fun _ => ?_, last, ?_⟩
        · rcases Nat.eq_zero_or_pos n with rfl | positive
          · rw [Nat.zero_add, ahead_one]
            exact on'
          · exact inner positive
        · rw [same, if_neg (Nat.succ_ne_zero n), Nat.add_sub_cancel]
          rcases n with _ | n
          · exact (ahead_zero start clnum).symm
          · exact ahead_step start clnum n

end Loop

section Answers
variable {dmap : List Int} {minclnum maxclnum clnum myd : Int} {start : Bool}

/-- What lies between a changelist and one ahead of it is ahead of it, too. -/
theorem ahead_of_between {c : Int} {n : Nat} (between : clnum ≤ c ∧ c ≤ ahead start clnum n ∨
    ahead start clnum n ≤ c ∧ c ≤ clnum) : ∃ k ≤ n, c = ahead start clnum k := by
  refine ⟨(c - clnum).natAbs, ?_, ?_⟩
  · cases start <;> simp only [ahead, Bool.false_eq_true, if_false, if_true] at between <;> omega
  · cases start <;> simp only [ahead, Bool.false_eq_true, if_false, if_true] at between ⊢ <;> omega

theorem between_of_ahead {k n : Nat} (upTo : k ≤ n) :
    clnum ≤ ahead start clnum k ∧ ahead start clnum k ≤ ahead start clnum n ∨
      ahead start clnum n ≤ ahead start clnum k ∧ ahead start clnum k ≤ clnum := by
  cases start <;> simp only [ahead, Bool.false_eq_true, if_false, if_true] <;> omega

theorem staysInside_of_clear {n : Nat} (lower : minclnum ≤ clnum) (upper : clnum < maxclnum)
    (found : index dmap clnum = some myd) (clear : Clear dmap minclnum maxclnum clnum myd start n) :
    StaysInside dmap minclnum maxclnum clnum (navigatefunction dmap minclnum maxclnum clnum start) := by
  have entries : ∀ k < n, index dmap (ahead start clnum k) ≠ none := by
    have here : index dmap clnum ≠ none := by
      rw [found]
      exact Option.some_ne_none myd
    exact @ahead_from_here (index dmap · ≠ none) start clnum n here fun k positive small =>
      (clear.passed k positive small).2.2.1
  obtain ⟨r, returned, place⟩ := @navigateLoop_returns dmap minclnum maxclnum myd start n clnum clnum entries (by
    rcases clear.stops with last | ⟨first, -⟩ | ⟨-, above⟩
    · exact .inl ⟨clear.positive, .inr last⟩
    · exact .inl ⟨clear.positive, .inl first⟩
    · exact .inr above)
  obtain ⟨k, upTo, rfl, ends⟩ : ∃ k ≤ n, r = ahead start clnum k ∧
      (k = n → ahead start clnum n = minclnum ∨ ahead start clnum n = maxclnum) := by
    rcases place with rfl | place
    · exact ⟨0, Nat.zero_le n, (ahead_zero start r).symm, fun none => absurd none clear.positive.ne⟩
    · exact place
  have answer : navigatefunction dmap minclnum maxclnum clnum start = some (ahead start clnum k) := by
    rw [navigatefunction, found]
    exact returned
  have inTrace : minclnum ≤ ahead start clnum k ∧ ahead start clnum k ≤ maxclnum := by
    rcases Nat.eq_zero_or_pos k with rfl | positive
    · rw [ahead_zero]
      exact ⟨lower, upper.le⟩
    · rcases upTo.lt_or_eq with small | rfl
      · exact ⟨(clear.passed k positive small).1, (clear.passed k positive small).2.1.le⟩
      · rcases ends rfl with first | last
        · exact ⟨first.ge, first.le.trans (lower.trans upper.le)⟩
        · exact ⟨(lower.trans upper.le).trans last.ge, last.le⟩
  refine ⟨_, answer, inTrace.1, inTrace.2, fun c between notLast => ?_⟩
  obtain ⟨j, inside, rfl⟩ := ahead_of_between between
  rcases Nat.eq_zero_or_pos j with rfl | positive
  · rw [ahead_zero]
  · rcases (inside.trans upTo).lt_or_eq with small | rfl
    · exact (clear.passed j positive small).2.2.2
    · rcases clear.stops with last | ⟨first, deep⟩ | ⟨notFirst, -⟩
      · exact absurd last notLast
      · rw [first]
        exact deep
      · rcases ends (le_antisymm upTo inside) with first | last
        · exact absurd first notFirst
        · exact absurd last notLast

theorem clear_of_staysInside (lower : minclnum ≤ clnum) (upper : clnum < maxclnum)
    (found : index dmap clnum = some myd)
    (stays : StaysInside dmap minclnum maxclnum clnum (navigatefunction dmap minclnum maxclnum clnum start)) :
    ∃ n, Clear dmap minclnum maxclnum clnum myd start n := by
  obtain ⟨r, answer, low, high, deep⟩ := stays
  have returned : navigateLoop dmap minclnum maxclnum myd start clnum clnum = some r := by
    rw [navigatefunction, found] at answer
    exact answer
  obtain ⟨n, entries, inside, place⟩ := navigateLoop_stopped returned
  have positive : 0 < n := by
    rcases place with ⟨positive, -⟩ | ⟨-, above, -⟩
    · exact positive
    · by_contra none
      rw [Nat.eq_zero_of_not_pos none, ahead_zero, found] at above
      have same := Option.some.inj above
      omega
  obtain ⟨k, whole, rfl⟩ : ∃ k, n ≤ k + 1 ∧ r = ahead start clnum k := by
    rcases place with ⟨-, -, same⟩ | ⟨-, -, same⟩
    · exact ⟨n, Nat.le_succ n, same⟩
    · exact ⟨n - 1, by omega, same.trans (if_neg positive.ne')⟩
  refine ⟨n, positive, fun j some early => ?_, ?_⟩
  · have between := @between_of_ahead clnum start j k (by omega)
    have apart := inside j some early
    have deeper := deep (ahead start clnum j) between apart.2
    exact ⟨by omega, by omega, entries j early, deeper⟩
  · rcases place with ⟨-, first | last, same⟩ | ⟨apart, above, -⟩
    · refine .inr (.inl ⟨first, ?_⟩)
      have between := @between_of_ahead clnum start k k le_rfl
      rw [same, first] at between
      exact deep minclnum (by rw [same, first]; exact between) (lower.trans_lt upper).ne
    · exact .inl last
    · exact .inr (.inr ⟨(apart positive).1, above⟩)

theorem staysInside_iff_clear (start : Bool) (lower : minclnum ≤ clnum) (upper : clnum < maxclnum) :
    StaysInside dmap minclnum maxclnum clnum (navigatefunction dmap minclnum maxclnum clnum start) ↔
      ∃ myd, index dmap clnum = some myd ∧ ∃ n, Clear dmap minclnum maxclnum clnum myd start n := by
  constructor
  · intro stays
    cases found : index dmap clnum with
    | none =>
      obtain ⟨r, answer, -⟩ := stays
      rw [navigatefunction, found] at answer
      cases answer
    | some myd => exact ⟨myd, rfl, clear_of_staysInside lower upper found stays⟩
  · rintro ⟨myd, found, n, clear⟩
    exact staysInside_of_clear lower upper found clear

end Answers

section Conditions
variable {dmap : List Int} {m M clnum : Nat} {myd : Int}

theorem index_ofNat (dmap : List Int) (i : Nat) : index dmap i = dmap[i]? := by
  rw [index, if_pos (Int.natCast_nonneg i), Int.toNat_natCast]

/-- Each later changelist that is less deep is at, or behind, one at which the list itself has `myd-1`; where the list
has it nowhere, it covers the trace. -/
def EndFound (dmap : List Int) (minclnum maxclnum clnum : Nat) (myd : Int) : Prop :=
  (∀ x : Nat, clnum < x → x < maxclnum → depth dmap minclnum x < depth dmap minclnum clnum →
    ∃ p, clnum < p ∧ p ≤ x ∧ dmap[p]? = some (myd - 1)) ∧
  (maxclnum ≤ dmap.length ∨ ∃ p, clnum < p ∧ p < maxclnum ∧ dmap[p]? = some (myd - 1))

/-- Each earlier changelist that is less deep is at, or before, one other than the first at which the list itself has
`myd-1`; from the first changelist the search goes on to the entry before. -/
def StartFound (dmap : List Int) (minclnum clnum : Nat) (myd : Int) : Prop :=
  if clnum = minclnum then index dmap ((minclnum : Int) - 1) = some (myd - 1)
  else ∀ x : Nat, minclnum ≤ x → x < clnum → depth dmap minclnum x < depth dmap minclnum clnum →
    ∃ p, x ≤ p ∧ minclnum < p ∧ p < clnum ∧ dmap[p]? = some (myd - 1)

theorem ahead_false (clnum n : Nat) : ahead false (clnum : Int) n = ((clnum + n : Nat) : Int) := by
  rw [Nat.cast_add]
  rfl

theorem ahead_true {clnum n : Nat} (within : n ≤ clnum) : ahead true (clnum : Int) n = ((clnum - n : Nat) : Int) := by
  rw [Nat.cast_sub within]
  rfl

theorem entry_ne_none {i : Nat} (inside : i < dmap.length) : dmap[i]? ≠ none :=
  mt List.getElem?_eq_none_iff.mp (Nat.not_le.mpr inside)

/-- A search towards the end is clear where the list has an entry for all that is passed, deep enough. -/
theorem clear_towards_end {n : Nat} (lower : m ≤ clnum) (positive : 0 < n) (inTrace : clnum + n ≤ M)
    (inList : clnum + n ≤ dmap.length)
    (deep : ∀ x : Nat, clnum < x → x < clnum + n → depth dmap m clnum ≤ depth dmap m x)
    (stop : clnum + n = M ∨ dmap[clnum + n]? = some (myd - 1)) : Clear dmap m M clnum myd false n := by
  refine ⟨positive, fun k some_ early => ?_, ?_⟩
  · rw [ahead_false, index_ofNat]
    exact ⟨by omega, by omega, entry_ne_none (by omega), deep (clnum + k) (by omega) (by omega)⟩
  · rw [ahead_false, index_ofNat]
    rcases stop with last | above
    · exact .inl (congrArg Nat.cast last)
    · exact .inr (.inr ⟨by omega, above⟩)

/-- And one towards the start, where nothing is beyond the list. -/
theorem clear_towards_start {n : Nat} (upper : clnum < M) (inList : clnum < dmap.length) (positive : 0 < n)
    (inTrace : m + n ≤ clnum)
    (deep : ∀ x : Nat, clnum - n < x → x < clnum → depth dmap m clnum ≤ depth dmap m x)
    (stop : m + n = clnum ∧ depth dmap m clnum ≤ depth dmap m m ∨
      m + n < clnum ∧ dmap[clnum - n]? = some (myd - 1)) : Clear dmap m M clnum myd true n := by
  refine ⟨positive, fun k some_ early => ?_, ?_⟩
  · rw [ahead_true (by omega), index_ofNat]
    exact ⟨by omega, by omega, entry_ne_none (by omega), deep (clnum - k) (by omega) (by omega)⟩
  · rw [ahead_true (by omega), index_ofNat]
    rcases stop with ⟨whole, first⟩ | ⟨room, above⟩
    · exact .inr (.inl ⟨by omega, first⟩)
    · exact .inr (.inr ⟨by omega, above⟩)

theorem endFound_of_clear {n : Nat} (lower : m ≤ clnum) (upper : clnum < M) (found : dmap[clnum]? = some myd)
    (clear : Clear dmap m M clnum myd false n) : EndFound dmap m M clnum myd := by
  have positive := clear.positive
  have passed := clear.passed
  have stops := clear.stops
  simp only [ahead_false, index_ofNat, Nat.cast_le, Nat.cast_lt, Nat.cast_inj] at passed stops
  have stop : clnum + n = M ∨ dmap[clnum + n]? = some (myd - 1) := by
    rcases stops with last | ⟨first, -⟩ | ⟨-, above⟩
    · exact .inl last
    · omega
    · exact .inr above
  constructor
  · intro x behind inside shallow
    have far : clnum + n ≤ x := by
      by_contra near
      have deep := (passed (x - clnum) (by omega) (by omega)).2.2.2
      rw [Nat.add_sub_cancel' behind.le] at deep
      omega
    have above := stop.resolve_left (by omega)
    exact ⟨clnum + n, by omega, far, above⟩
  · by_cases beyond : M ≤ clnum + n
    · left
      have before : dmap[M - 1]? ≠ none := by
        by_cases next : M - 1 = clnum
        · rw [next, found]
          exact Option.some_ne_none myd
        · have inside := passed (M - 1 - clnum) (by omega) (by
            by_contra outside
            have early := (passed (n - 1) (by omega) (by omega)).2.1
            omega)
          rw [Nat.add_sub_cancel' (by omega)] at inside
          exact inside.2.2.1
      have short := mt List.getElem?_eq_none before
      omega
    · have above := stop.resolve_left (by omega)
      exact .inr ⟨clnum + n, by omega, by omega, above⟩

/-- The search ends at the first changelist ahead at which the list has `myd-1`, or with the trace. -/
theorem clear_of_endFound (lower : m ≤ clnum) (upper : clnum < M) (ends : EndFound dmap m M clnum myd) :
    ∃ n, Clear dmap m M clnum myd false n := by
  obtain ⟨each, covered⟩ := ends
  by_cases some_ : ∃ p, clnum < p ∧ p < M ∧ dmap[p]? = some (myd - 1)
  · obtain ⟨behind, inside, above⟩ := Nat.find_spec some_
    have first := fun q (early : q < Nat.find some_) => Nat.find_min some_ early
    generalize Nat.find some_ = p at behind inside above first
    have there := (List.getElem?_eq_some_iff.mp above).1
    have at_ : clnum + (p - clnum) = p := Nat.add_sub_cancel' behind.le
    refine ⟨p - clnum, clear_towards_end lower (by omega) (by omega) (by omega) ?_ (.inr (at_.symm ▸ above))⟩
    intro x after early
    by_contra shallow
    obtain ⟨q, later, upTo, other⟩ := each x after (by omega) (not_le.mp shallow)
    exact first q (by omega) ⟨later, by omega, other⟩
  · have long := covered.resolve_right some_
    refine ⟨M - clnum, clear_towards_end lower (by omega) (by omega) (by omega) ?_ (.inl (by omega))⟩
    intro x after early
    by_contra shallow
    obtain ⟨q, later, upTo, other⟩ := each x after (by omega) (not_le.mp shallow)
    exact some_ ⟨q, later, by omega, other⟩

theorem clear_iff_endFound (lower : m ≤ clnum) (upper : clnum < M) (found : dmap[clnum]? = some myd) :
    (∃ n, Clear dmap m M clnum myd false n) ↔ EndFound dmap m M clnum myd := by
  constructor
  · intro some_
    obtain ⟨n, clear⟩ := some_
    exact endFound_of_clear lower upper found clear
  · exact clear_of_endFound lower upper

/-- From the first changelist, a search towards the start only looks at the entry before. -/
theorem clear_from_first (upper : m < M) :
    (∃ n, Clear dmap m M m myd true n) ↔ index dmap ((m : Int) - 1) = some (myd - 1) := by
  constructor
  · intro some_
    obtain ⟨n, clear⟩ := some_
    have one : n = 1 := by
      have positive := clear.positive
      by_contra more
      have low := (clear.passed 1 Nat.one_pos (by omega)).1
      rw [ahead_one, step, if_pos rfl] at low
      omega
    have stops := clear.stops
    rw [one, ahead_one, step, if_pos rfl] at stops
    rcases stops with last | ⟨first, -⟩ | ⟨-, above⟩
    · omega
    · omega
    · exact above
  · intro above
    refine ⟨1, Nat.one_pos, fun k positive small => absurd small (by omega), ?_⟩
    rw [ahead_one, step, if_pos rfl]
    exact .inr (.inr ⟨by omega, above⟩)

theorem startFound_of_clear {n x : Nat} (upper : clnum < M) (clear : Clear dmap m M clnum myd true n) (low : m ≤ x)
    (early : x < clnum) (shallow : depth dmap m x < depth dmap m clnum) :
    ∃ p, x ≤ p ∧ m < p ∧ p < clnum ∧ dmap[p]? = some (myd - 1) := by
  have positive := clear.positive
  have far : x + n ≤ clnum := by
    by_contra near
    have deep := (clear.passed (clnum - x) (by omega) (by omega)).2.2.2
    rw [ahead_true (by omega), Nat.sub_sub_self early.le] at deep
    omega
  have stops := clear.stops
  rw [ahead_true (by omega), index_ofNat] at stops
  rcases stops with last | ⟨first, deep⟩ | ⟨notFirst, above⟩
  · omega
  · have same : x = m := by omega
    rw [same] at shallow
    omega
  · exact ⟨clnum - n, by omega, by omega, by omega, above⟩

/-- The search ends at the nearest changelist but the first at which the list has `myd-1`, or with the trace. -/
theorem clear_of_startFound (lower : m < clnum) (upper : clnum < M) (inList : clnum < dmap.length)
    (each : ∀ x : Nat, m ≤ x → x < clnum → depth dmap m x < depth dmap m clnum →
      ∃ p, x ≤ p ∧ m < p ∧ p < clnum ∧ dmap[p]? = some (myd - 1)) :
    ∃ n, Clear dmap m M clnum myd true n := by
  by_cases some_ : ∃ n, 0 < n ∧ m + n < clnum ∧ dmap[clnum - n]? = some (myd - 1)
  · obtain ⟨positive, room, above⟩ := Nat.find_spec some_
    have first := fun q (early : q < Nat.find some_) => Nat.find_min some_ early
    generalize Nat.find some_ = n at positive room above first
    refine ⟨n, clear_towards_start upper inList positive room.le ?_ (.inr ⟨room, above⟩)⟩
    intro x near early
    by_contra shallow
    obtain ⟨q, from_, notFirst, before, other⟩ := each x (by omega) early (not_le.mp shallow)
    exact first (clnum - q) (by omega) ⟨by omega, by omega, by rw [Nat.sub_sub_self before.le]; exact other⟩
  · have deep : ∀ x, m ≤ x → x < clnum → depth dmap m clnum ≤ depth dmap m x := by
      intro x low early
      by_contra shallow
      obtain ⟨q, from_, notFirst, before, other⟩ := each x low early (not_le.mp shallow)
      exact some_ ⟨clnum - q, by omega, by omega, by rw [Nat.sub_sub_self before.le]; exact other⟩
    exact ⟨clnum - m, clear_towards_start upper inList (by omega) (by omega)
      (fun x near early => deep x (by omega) early) (.inl ⟨by omega, deep m le_rfl lower⟩)⟩

theorem clear_iff_startFound (lower : m ≤ clnum) (upper : clnum < M) (found : dmap[clnum]? = some myd) :
    (∃ n, Clear dmap m M clnum myd true n) ↔ StartFound dmap m clnum myd := by
  rcases lower.eq_or_lt with rfl | behind
  · rw [StartFound, if_pos rfl]
    exact clear_from_first upper
  · rw [StartFound, if_neg behind.ne']
    constructor
    · intro some_ x low early shallow
      obtain ⟨n, clear⟩ := some_
      exact startFound_of_clear upper clear low early shallow
    · exact clear_of_startFound behind upper (List.getElem?_eq_some_iff.mp found).1

end Conditions

/-- Navigation stays in the trace and in the function exactly if the list has an entry at the changelist itself and
an entry one less in time: towards the end, no later than the first changelist that is less deep; towards the
start, no earlier than the last one, and not at the first of the trace, where the search does not look. -/
theorem staysInside_iff {dmap : List Int} {minclnum maxclnum clnum : Nat} (start : Bool) (lower : minclnum ≤ clnum)
    (upper : clnum < maxclnum) :
    StaysInside dmap minclnum maxclnum clnum (navigatefunction dmap minclnum maxclnum clnum start) ↔
      ∃ myd, dmap[clnum]? = some myd ∧
        if start then StartFound dmap minclnum clnum myd else EndFound dmap minclnum maxclnum clnum myd := by
  rw [staysInside_iff_clear start (Int.ofNat_le.mpr lower) (Int.ofNat_lt.mpr upper), index_ofNat]
  apply exists_congr
  intro myd
  apply and_congr_right
  intro found
  cases start with
  | false => exact clear_iff_endFound lower upper found
  | true => exact clear_iff_startFound lower upper found

/-- A function called by the first instruction of the trace. -/
def called : List Int := DepthMap.dmap DepthMap.callAt16 [⟨16, 5, 0⟩, ⟨64, 1, 1⟩, ⟨65, 1, 2⟩] 0 3

theorem staysInside_iff_called :
    StaysInside called 0 3 1 (navigatefunction called 0 3 1 true) ↔
      ∃ myd, called[1]? = some myd ∧ if true then StartFound called 0 1 myd else EndFound called 0 3 1 myd :=
  @staysInside_iff called 0 3 1 true (by decide) (by decide)

/-- The search for the start of the function goes on to the call. -/
theorem called_left : ¬ StaysInside called 0 3 1 (navigatefunction called 0 3 1 true) := by
  have found : index called 1 = some 1 := by decide
  have answer : navigatefunction called 0 3 1 true = some 0 := by
    rw [navigatefunction, found, Option.bind_some, navigateLoop_some found]
    decide
  rintro ⟨r, same, -, -, deep⟩
  obtain rfl := Option.some.inj (answer.symm.trans same)
  exact absurd (deep 0 (by decide) (by decide)) (by decide)

end Qira.FunctionNavigation
