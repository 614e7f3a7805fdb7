import Qira.TraceProcess

/-!
What `FetchChangesByClnum` answers. The vector from changelist numbers to entries is filled by
`resize` and `push_back`, which makes it an index only when every start record opens a changelist
above all records before it.
-/

namespace Qira.TraceChangelists
open ChangeRecord TraceIndex TraceProcess Library.Words Library.Timelines

/-- The index with the number of records its mapping of the log file covers. -/
structure Connection (cfg : Config) where
  trace : Trace cfg
  backing : EntryNumber

/-- `ConnectToFileAndStart` maps the header record. -/
def Connection.new (cfg : Config) : Connection cfg := ⟨Trace.new cfg, 1⟩

/-- One call of `process`: the mapping grows to the sampled count, which is not clamped. -/
def Connection.process {cfg : Config} (log : List Change) (conn : Connection cfg)
    (entryCount : EntryNumber) : Option (Connection cfg) :=
  (TraceProcess.process log conn.trace entryCount).map
    (fun trace => ⟨trace, if entryCount ≤ conn.trace.entriesDone then conn.backing else entryCount⟩)

/-- The loop of `FetchChangesByClnum`; `none` is a read outside the mapping. -/
def fetchLoop (read : EntryNumber → Option Change) (entriesDone en : EntryNumber) (clnum : Clnum)
    (limit i : BitVec 32) : Option (List Change) :=
  if limit = 0 ∨ i < limit then
    if entriesDone ≤ en + i then some []
    else
      match read (en + i) with
      | none => none
      | some c =>
          if c.clnum ≠ clnum then some []
          else (fetchLoop read entriesDone en clnum limit (i + 1)).map (fun more => c :: more)
  else some []
termination_by (entriesDone - (en + i)).toNat
decreasing_by bv_omega

def Connection.fetchChangesByClnum {cfg : Config} (log : List Change) (conn : Connection cfg)
    (clnum : Clnum) (limit : BitVec 32) : Option (List Change) :=
  let entries := conn.trace.clnumToEntryNumber
  let en := if clnum.toNat < entries.length then entries.getD clnum.toNat 0 else 0
  if en ≠ 0 then fetchLoop (mapped log conn.backing) conn.trace.entriesDone en clnum limit 0
  else some []

/-- The connection after polls that took in every record of the log. -/
def Connected (cfg : Config) (log : List Change) (conn : Connection cfg) : Prop :=
  ∃ counts : List EntryNumber, counts.foldlM (Connection.process log) (Connection.new cfg) = some conn ∧
    conn.trace.entriesDone.toNat = log.length + 1

section Polling
variable {cfg : Config} {log : List Change}

theorem processLoop_le {t t' : Trace cfg} (entryCount target : EntryNumber)
    (below : t.entriesDone ≤ entryCount)
    (ran : processLoop (mapped log entryCount) target t = some t') : t'.entriesDone ≤ entryCount := by
  induction t using processLoop.induct (mapped log entryCount) target with
  | case1 t arrived =>
    rw [processLoop, if_pos arrived, Option.some.injEq] at ran
    exact ran ▸ below
  | case2 t running fault =>
    rw [processLoop, if_neg running, fault] at ran
    cases ran
  | case3 t running c read ih =>
    rw [processLoop, if_neg running, read] at ran
    obtain ⟨-, inside, -⟩ := mapped_some read
    apply ih _ ran
    change t.entriesDone + 1 ≤ entryCount
    bv_omega

/-- Polling a connection is polling its index, and never outruns the mapping. -/
theorem foldlM_process {conn conn' : Connection cfg} (counts : List EntryNumber)
    (mapping : conn.trace.entriesDone ≤ conn.backing)
    (ran : counts.foldlM (Connection.process log) conn = some conn') :
    polls log conn.trace counts = some conn'.trace ∧
      conn'.trace.entriesDone ≤ conn'.backing := by
  induction counts generalizing conn with
  | nil =>
    obtain rfl : conn = conn' := Option.some.inj ran
    exact ⟨rfl, mapping⟩
  | cons n rest ih =>
    obtain ⟨mid, first, later⟩ := Option.bind_eq_some_iff.mp ran
    obtain ⟨trace, one, rfl⟩ := Option.map_eq_some_iff.mp first
    have midMapping : trace.entriesDone ≤
        (if n ≤ conn.trace.entriesDone then conn.backing else n) := by
      unfold TraceProcess.process at one
      by_cases stale : n ≤ conn.trace.entriesDone
      · rw [if_pos stale] at one
        rw [if_pos stale, ← Option.some.inj one]
        exact mapping
      · rw [if_neg stale] at one
        rw [if_neg stale]
        exact processLoop_le n _ (not_le.mp stale).le one
    obtain ⟨more, last⟩ := ih midMapping later
    refine ⟨?_, last⟩
    rw [polls, List.foldlM_cons, one]
    exact more

theorem Connected.facts {conn : Connection cfg} (connected : Connected cfg log conn) :
    conn.trace = ingestAll cfg log ∧ conn.trace.entriesDone.toNat = log.length + 1 ∧
      log.length + 1 ≤ conn.backing.toNat := by
  obtain ⟨counts, ran, finished⟩ := connected
  obtain ⟨polled, mapping⟩ := foldlM_process counts le_rfl ran
  have ingested : Ingested cfg log conn.trace := ⟨counts, polled, finished⟩
  exact ⟨ingested.eq_ingestAll, finished, finished ▸ mapping⟩

theorem exists_connected (cfg : Config) (log : List Change)
    (few : log.length + 1 + BATCH.toNat ≤ 2 ^ 32) : ∃ conn, Connected cfg log conn := by
  obtain ⟨t, counts, ran, finished⟩ := exists_ingested cfg log few
  have lift : ∀ (counts : List EntryNumber) (conn : Connection cfg),
      polls log conn.trace counts = some t →
      ∃ conn', counts.foldlM (Connection.process log) conn = some conn' ∧ conn'.trace = t := by
    intro counts
    induction counts with
    | nil => exact fun conn ran => ⟨conn, rfl, Option.some.inj ran⟩
    | cons n rest ih =>
      intro conn ran
      obtain ⟨mid, first, later⟩ := Option.bind_eq_some_iff.mp ran
      obtain ⟨conn', more, trace⟩ :=
        ih ⟨mid, if n ≤ conn.trace.entriesDone then conn.backing else n⟩ later
      refine ⟨conn', ?_, trace⟩
      rw [List.foldlM_cons, Connection.process, first]
      exact more
  obtain ⟨conn, ran', trace⟩ := lift counts (Connection.new cfg) ran
  exact ⟨conn, counts, ran', trace ▸ finished⟩

end Polling

/-- Changelist numbers never decrease, and a start record is above every record before it. -/
def InChangelists (log : List Change) : Prop :=
  log.Pairwise (fun b c => b.clnum ≤ c.clnum ∧ (c.type = 'I' → b.clnum < c.clnum))

section Entries
variable (cfg : Config)

theorem pushEntry_getD (entries : List EntryNumber) (clnum : Clnum) (entry : EntryNumber) (k : Nat)
    (short : entries.length ≤ clnum.toNat) :
    (pushEntry entries clnum entry).getD k 0 =
      if k = clnum.toNat then entry else entries.getD k 0 := by
  have length : (entries ++ List.replicate (clnum.toNat - entries.length) 0).length =
      clnum.toNat := by
    rw [List.length_append, List.length_replicate]
    omega
  unfold pushEntry
  by_cases here : k = clnum.toNat
  · rw [if_pos here, here, List.getD_append_right _ _ _ _ length.le, length, Nat.sub_self]
    rfl
  · rw [if_neg here]
    by_cases inside : k < entries.length
    · rw [List.append_assoc, List.getD_append _ _ _ _ inside]
    · rw [List.getD_eq_default _ _ (not_lt.mp inside)]
      by_cases hole : k < clnum.toNat
      · rw [List.getD_append _ _ _ _ (by omega), List.getD_append_right _ _ _ _ (not_lt.mp inside)]
        exact List.getD_replicate _ (by omega)
      · rw [List.getD_eq_default _ _ (by rw [List.length_append, length, List.length_singleton]; omega)]

/-- The vector is no longer than the next start record's number. -/
theorem clnumToEntry_short (log : List Change) (inOrder : InChangelists log) (clnum : Clnum)
    (above : ∀ b ∈ log, b.clnum < clnum) :
    (ingestAll cfg log).clnumToEntryNumber.length ≤ clnum.toNat := by
  induction log using List.reverseRecOn generalizing clnum with
  | nil => exact Nat.zero_le _
  | append_singleton front d ih =>
    obtain ⟨frontOrder, -, across⟩ := List.pairwise_append.mp inOrder
    have below : d.clnum < clnum := above d (by simp)
    rw [ingestAll_concat]
    change (if d.type = 'I' then pushEntry _ d.clnum _ else _ : List EntryNumber).length ≤ _
    by_cases start : d.type = 'I'
    · have short := ih frontOrder d.clnum
        (fun b member => (across b member d (by simp)).2 start)
      rw [if_pos start, pushEntry, List.length_append, List.length_append, List.length_replicate,
        List.length_singleton]
      have : d.clnum.toNat < clnum.toNat := below
      omega
    · rw [if_neg start]
      exact ih frontOrder clnum (fun b member => above b (List.mem_append_left _ member))

/-- One more record changes the entry of its own number only, and only if it is a start. -/
theorem clnumToEntry_concat (front : List Change) (d : Change)
    (inOrder : InChangelists (front ++ [d])) (k : Nat) :
    (ingestAll cfg (front ++ [d])).clnumToEntryNumber.getD k 0 =
      if d.type = 'I' ∧ k = d.clnum.toNat then (ingestAll cfg front).entriesDone
      else (ingestAll cfg front).clnumToEntryNumber.getD k 0 := by
  obtain ⟨frontOrder, -, across⟩ := List.pairwise_append.mp inOrder
  rw [ingestAll_concat]
  change (if d.type = 'I' then pushEntry _ d.clnum _ else _ : List EntryNumber).getD k 0 = _
  by_cases start : d.type = 'I'
  · have short := clnumToEntry_short cfg front frontOrder d.clnum
      (fun b member => (across b member d (by simp)).2 start)
    rw [if_pos start, pushEntry_getD _ _ _ _ short]
    simp [start]
  · rw [if_neg start, if_neg (fun both => start both.1)]

/-- A number without a start record has entry 0, the mark of absence. -/
theorem clnumToEntry_absent (log : List Change) (inOrder : InChangelists log) (clnum : Clnum)
    (absent : ∀ c ∈ log, c.type = 'I' → c.clnum ≠ clnum) :
    (ingestAll cfg log).clnumToEntryNumber.getD clnum.toNat 0 = 0 := by
  induction log using List.reverseRecOn with
  | nil => rfl
  | append_singleton front d ih =>
    have other : ¬ (d.type = 'I' ∧ clnum.toNat = d.clnum.toNat) := by
      intro both
      exact absent d (by simp) both.1 (BitVec.eq_of_toNat_eq both.2.symm)
    rw [clnumToEntry_concat cfg front d inOrder, if_neg other]
    exact ih (List.pairwise_append.mp inOrder).1
      (fun c member => absent c (List.mem_append_left _ member))

/-- The entry of a start record's number is the record's own place in the file. -/
theorem clnumToEntry_start (front rest : List Change) (start : Change) (isStart : start.type = 'I')
    (inOrder : InChangelists (front ++ start :: rest))
    (few : (front ++ start :: rest).length + 1 < 2 ^ 32) :
    ((ingestAll cfg (front ++ start :: rest)).clnumToEntryNumber.getD start.clnum.toNat 0).toNat =
      front.length + 1 := by
  induction rest using List.reverseRecOn with
  | nil =>
    rw [clnumToEntry_concat cfg front start inOrder, if_pos ⟨isStart, rfl⟩,
      entriesDone_ingestAll cfg front (by simp at few; omega)]
  | append_singleton rest d ih =>
    have grown : front ++ start :: (rest ++ [d]) = (front ++ start :: rest) ++ [d] := by simp
    rw [grown] at inOrder few ⊢
    obtain ⟨frontOrder, -, across⟩ := List.pairwise_append.mp inOrder
    have later : ¬ (d.type = 'I' ∧ start.clnum.toNat = d.clnum.toNat) := by
      intro both
      have above := (across start (by simp) d (by simp)).2 both.1
      exact above.ne (BitVec.eq_of_toNat_eq both.2)
    rw [clnumToEntry_concat cfg _ d inOrder, if_neg later]
    exact ih frontOrder (by rw [List.length_append] at few; omega)

end Entries

/-- The first `limit` items, or all of them when the limit is 0. -/
def truncated (limit : BitVec 32) (items : List Change) : List Change :=
  if limit = 0 then items else items.take limit.toNat

/-- Entries are counted from 1 on. -/
theorem mapped_entry {log : List Change} {backing entry : EntryNumber} {j : Nat} {c : Change}
    (place : entry.toNat = j + 1) (inside : entry.toNat < backing.toNat) (there : log[j]? = some c) :
    mapped log backing entry = some c := by
  have bounds : 0 < entry ∧ entry < backing := by
    change (0 : BitVec 32).toNat < entry.toNat ∧ entry.toNat < backing.toNat
    simp only [BitVec.ofNat_eq_ofNat, BitVec.toNat_ofNat, Nat.zero_mod]
    omega
  rw [mapped, if_pos bounds, place, Nat.add_sub_cancel, there]

/-- The loop collects the run of records with the number asked for. -/
theorem fetchLoop_eq (log : List Change) (backing entriesDone en : EntryNumber) (clnum : Clnum)
    (limit i : BitVec 32) (rest : List Change) (k : Nat) (place : en.toNat = k + 1)
    (done : entriesDone.toNat = log.length + 1) (mapping : entriesDone.toNat ≤ backing.toNat)
    (here : log.drop (k + i.toNat) = rest) (inLog : k + i.toNat ≤ log.length) :
    fetchLoop (mapped log backing) entriesDone en clnum limit i =
      some (if limit = 0 then rest.takeWhile (fun c => c.clnum = clnum)
        else (rest.takeWhile (fun c => c.clnum = clnum)).take (limit.toNat - i.toNat)) := by
  have room := entriesDone.isLt
  have sum : (en + i).toNat = k + 1 + i.toNat := by
    rw [BitVec.toNat_add, place, Nat.mod_eq_of_lt (by omega)]
  induction rest generalizing i with
  | nil =>
    have finished : entriesDone ≤ en + i := by
      change entriesDone.toNat ≤ (en + i).toNat
      have := List.drop_eq_nil_iff.mp here
      omega
    rw [fetchLoop, if_pos finished]
    simp
  | cons c rest ih =>
    have more : k + i.toNat < log.length := by
      by_contra past
      rw [List.drop_eq_nil_of_le (not_lt.mp past)] at here
      cases here
    have next : (i + 1).toNat = i.toNat + 1 := toNat_succ i (by omega)
    have running : ¬ entriesDone ≤ en + i := by
      change ¬ entriesDone.toNat ≤ (en + i).toNat
      omega
    have first : log[k + i.toNat]? = some c := by
      have head := congrArg List.head? here
      rwa [List.head?_drop, List.head?_cons] at head
    have read : mapped log backing (en + i) = some c :=
      mapped_entry (by omega) (by omega) first
    have tail : log.drop (k + (i + 1).toNat) = rest := by
      rw [next, ← Nat.add_assoc, ← List.drop_drop, here]
      rfl
    have later := ih (i + 1) tail (by omega)
      (by rw [BitVec.toNat_add, place, next, Nat.mod_eq_of_lt (by omega)])
    rw [fetchLoop, if_neg running, read]
    by_cases wanted : limit = 0 ∨ i < limit
    · rw [if_pos wanted]
      by_cases same : c.clnum = clnum
      · simp only [same, ne_eq, not_true, if_false, later, Option.map_some, List.takeWhile_cons,
          decide_true, if_true]
        by_cases whole : limit = 0
        · simp [whole]
        · have below : i.toNat < limit.toNat := wanted.resolve_left whole
          have left : limit.toNat - i.toNat = (limit.toNat - (i + 1).toNat) + 1 := by omega
          rw [if_neg whole, if_neg whole, left, List.take_succ_cons]
      · simp [same]
    · have whole : limit ≠ 0 := fun zero => wanted (Or.inl zero)
      have past : limit.toNat ≤ i.toNat := not_lt.mp (fun below => wanted (Or.inr below))
      rw [if_neg wanted, if_neg whole, Nat.sub_eq_zero_of_le past, List.take_zero]

/-- From its start record on, a changelist is a run of the log, and all of its records are there. -/
theorem takeWhile_changelist (front rest : List Change) (start : Change)
    (isStart : start.type = 'I') (inOrder : InChangelists (front ++ start :: rest)) :
    (start :: rest).takeWhile (fun c => c.clnum = start.clnum) =
      (front ++ start :: rest).filter (fun c => c.clnum = start.clnum) := by
  obtain ⟨-, backOrder, across⟩ := List.pairwise_append.mp inOrder
  have before : front.filter (fun c => c.clnum = start.clnum) = [] := by
    apply List.filter_eq_nil_iff.mpr
    intro c member
    have below := (across c member start List.mem_cons_self).2 isStart
    simpa using below.ne
  have above : ∀ c ∈ start :: rest, start.clnum ≤ c.clnum := by
    intro c member
    rcases List.mem_cons.mp member with rfl | inRest
    · exact le_rfl
    · exact ((List.pairwise_cons.mp backOrder).1 c inRest).1
  rw [List.filter_append, before, List.nil_append]
  apply takeWhile_eq_filter _ _ (backOrder.imp_of_mem _)
  intro a b inBack _ next same
  have near : a.clnum ≤ start.clnum := of_decide_eq_true same ▸ next.1
  exact decide_eq_true (le_antisymm near (above a inBack))

/-- `FetchChangesByClnum` on a log in changelists: the records of the number asked for, if it has a
start record. -/
theorem fetchChangesByClnum_eq (cfg : Config) (log : List Change) (conn : Connection cfg)
    (connected : Connected cfg log conn) (inOrder : InChangelists log) (clnum : Clnum)
    (limit : BitVec 32) :
    conn.fetchChangesByClnum log clnum limit =
      some (if ∃ c ∈ log, c.type = 'I' ∧ c.clnum = clnum
        then truncated limit (log.filter (fun c => c.clnum = clnum)) else []) := by
  obtain ⟨state, done, mapping⟩ := connected.facts
  have few : log.length + 1 < 2 ^ 32 := done ▸ conn.trace.entriesDone.isLt
  have entry : (if clnum.toNat < conn.trace.clnumToEntryNumber.length
      then conn.trace.clnumToEntryNumber.getD clnum.toNat 0 else 0) =
      conn.trace.clnumToEntryNumber.getD clnum.toNat 0 := by
    by_cases inside : clnum.toNat < conn.trace.clnumToEntryNumber.length
    · rw [if_pos inside]
    · rw [if_neg inside, List.getD_eq_default _ _ (not_lt.mp inside)]
  unfold Connection.fetchChangesByClnum
  simp only [entry]
  by_cases found : ∃ c ∈ log, c.type = 'I' ∧ c.clnum = clnum
  · rw [if_pos found]
    obtain ⟨start, member, isStart, rfl⟩ := found
    obtain ⟨front, rest, rfl⟩ := List.append_of_mem member
    have place := clnumToEntry_start cfg front rest start isStart inOrder few
    rw [← state] at place
    have present : conn.trace.clnumToEntryNumber.getD start.clnum.toNat 0 ≠ 0 := by
      intro zero
      rw [zero] at place
      simp at place
    rw [if_pos present, fetchLoop_eq (front ++ start :: rest) conn.backing conn.trace.entriesDone _
      start.clnum limit 0 (start :: rest) front.length place done (done ▸ mapping) (by simp) (by simp),
      takeWhile_changelist front rest start isStart inOrder]
    rfl
  · have absent : ∀ c ∈ log, c.type = 'I' → c.clnum ≠ clnum :=
      fun c member isStart same => found ⟨c, member, isStart, same⟩
    have zero := clnumToEntry_absent cfg log inOrder clnum absent
    rw [← state] at zero
    rw [if_neg found, zero, if_neg (fun nonzero => nonzero rfl)]

end Qira.TraceChangelists
