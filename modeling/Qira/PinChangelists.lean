import Qira.Library.Machines
import Qira.PinTracer
import Qira.TraceChangelists

/-!
Changelist numbers of a process under PIN: one counter for all threads, from which each takes a number
when it starts and at every instruction, and stamps its own file with its own copy.
-/

namespace Qira.PinChangelists
open ChangeRecord TraceIndex TraceProcess TraceChangelists PinTracer Library.Machines

/-- How far a thread is in `thread_start` or in `RecordStart`; in both it first claims a number. -/
inductive Thread
  | starting
  | claimed (chglist : Clnum)
  | running (state : ThreadState)
  | claimedStart (state : ThreadState) (chglist : Clnum) (ip : Address) (size : BitVec 32)
  | stamped (state : ThreadState) (ip : Address) (size : BitVec 32)

inductive ThreadAction
  | claim
  | construct
  | recordStart (ip : Address) (size : BitVec 32)
  | stamp
  | addStart
  | addChange (addr : Address) (data : BitVec 64) (flags : BitVec 32)

def ThreadAction.claims : ThreadAction → Bool
  | .claim => true
  | .recordStart _ _ => true
  | _ => false

/-- Only `RecordStart` passes IS_START. The number is what `claim_changelist_number` returns in a step
that calls it. -/
def Thread.step (number : Clnum) : Thread → ThreadAction → Option Thread
  | .starting, .claim => some (.claimed number)
  | .claimed chglist, .construct => some (.running ⟨chglist, []⟩)
  | .running state, .recordStart ip size => some (.claimedStart state number ip size)
  | .claimedStart state chglist ip size, .stamp =>
      some (.stamped { state with changelistNumber := chglist } ip size)
  | .stamped state ip size, .addStart =>
      some (.running (state.addChange ip (size.setWidth 64) IS_START))
  | .running state, .addChange addr data flags =>
      if has flags IS_START then none else some (.running (state.addChange addr data flags))
  | _, _ => none

/-- `Process_State`'s counter and the threads. -/
structure Process where
  changelistNumber : Clnum
  threads : List Thread

inductive Action
  | threadStart
  | thread (tid : Nat) (action : ThreadAction)

def Action.claims : Action → Bool
  | .threadStart => false
  | .thread _ action => action.claims

def Process.step (p : Process) : Action → Option Process
  | .threadStart => some { p with threads := p.threads ++ [.starting] }
  | .thread tid action =>
      match p.threads[tid]? with
      | none => none
      | some t =>
          (t.step p.changelistNumber action).map (fun t' =>
            { changelistNumber :=
                if action.claims then p.changelistNumber + 1 else p.changelistNumber
              threads := p.threads.set tid t' })

/-- The counter is 1 at first; a forked child goes on from its parent's. -/
def Process.start (chglist : Clnum) : Process := ⟨chglist, []⟩

def Thread.log : Thread → List Change
  | .starting => []
  | .claimed _ => []
  | .running state => state.log
  | .claimedStart state _ _ _ => state.log
  | .stamped state _ _ => state.log

def startNumbers (log : List Change) : List Clnum := (log.filter (fun c => c.type = 'I')).map Change.clnum

/-- Start numbers are unique in the whole process; each log is in changelists, and the database fetches
from each start record exactly the records up to the next one, and nothing for any other number. -/
structure Numbered (p : Process) : Prop where
  unique : (p.threads.flatMap (fun t => startNumbers t.log)).Nodup
  ordered : ∀ t ∈ p.threads, InChangelists t.log
  fetched : ∀ t ∈ p.threads, ∀ (cfg : Config) (conn : Connection cfg), Connected cfg t.log conn →
    ∀ (limit : BitVec 32) (front rest : List Change) (start : Change),
      t.log = front ++ start :: rest → start.type = 'I' →
        conn.fetchChangesByClnum t.log start.clnum limit =
          some (truncated limit (start :: rest.takeWhile (fun c => c.type ≠ 'I')))
  foreign : ∀ t ∈ p.threads, ∀ (cfg : Config) (conn : Connection cfg), Connected cfg t.log conn →
    ∀ (limit : BitVec 32) (clnum : Clnum), clnum ∉ startNumbers t.log →
      conn.fetchChangesByClnum t.log clnum limit = some []

/-- In changelists, and a record that starts none has the number of the record before it. -/
structure Stamped (log : List Change) : Prop where
  ordered : InChangelists log
  carried : log.IsChain (fun b c => c.type ≠ 'I' → c.clnum = b.clnum)

/-- What holds of a thread when numbers below `bound` have been claimed. -/
def Thread.Sound (bound : Nat) : Thread → Prop
  | .starting => True
  | .claimed chglist => chglist.toNat < bound
  | .running state => Stamped state.log ∧ (∀ b ∈ state.log, b.clnum ≤ state.changelistNumber) ∧
      (∀ b ∈ state.log.getLast?, b.clnum = state.changelistNumber) ∧
      state.changelistNumber.toNat < bound
  | .claimedStart state chglist _ _ =>
      Stamped state.log ∧ (∀ b ∈ state.log, b.clnum < chglist) ∧ chglist.toNat < bound
  | .stamped state _ _ => Stamped state.log ∧ (∀ b ∈ state.log, b.clnum < state.changelistNumber) ∧
      state.changelistNumber.toNat < bound

/-- The start numbers in a thread's log and the one it has claimed for its next start record. -/
def Thread.numbers : Thread → List Clnum
  | .starting => []
  | .claimed _ => []
  | .running state => startNumbers state.log
  | .claimedStart state chglist _ _ => startNumbers state.log ++ [chglist]
  | .stamped state _ _ => startNumbers state.log ++ [state.changelistNumber]

section Threads
variable {bound : Nat} {number : Clnum} {t t' : Thread}

theorem addChange_type (state : ThreadState) (addr : Address) (data : BitVec 64) (flags : BitVec 32) :
    Change.type ⟨addr, data, state.changelistNumber, flags ||| IS_VALID⟩ = 'I' ↔
      has flags IS_START = true := by
  rw [type_eq_start_iff, BitVec.or_comm, has_start_or, and_iff_right (has_valid_or flags)]

theorem startNumbers_concat (log : List Change) (c : Change) :
    startNumbers (log ++ [c]) = startNumbers log ++ if c.type = 'I' then [c.clnum] else [] := by
  unfold startNumbers
  rw [List.filter_append, List.map_append]
  by_cases start : c.type = 'I' <;> simp [start]

theorem Stamped.concat {log : List Change} (stamped : Stamped log) (c : Change)
    (above : ∀ b ∈ log, b.clnum ≤ c.clnum ∧ (c.type = 'I' → b.clnum < c.clnum))
    (carries : ∀ b ∈ log.getLast?, c.type ≠ 'I' → c.clnum = b.clnum) : Stamped (log ++ [c]) := by
  constructor
  · refine List.pairwise_append.mpr ⟨stamped.ordered, List.pairwise_singleton _ _, ?_⟩
    intro b member d last
    obtain rfl := List.mem_singleton.mp last
    exact above b member
  · refine List.isChain_append.mpr ⟨stamped.carried, List.isChain_singleton _, ?_⟩
    intro b last d first
    obtain rfl := Option.some.inj first
    exact carries b last

theorem Thread.Sound.mono {more : Nat} (grows : bound ≤ more) (sound : t.Sound bound) :
    t.Sound more := by
  cases t with
  | starting => trivial
  | claimed chglist => exact sound.trans_le grows
  | running state => exact ⟨sound.1, sound.2.1, sound.2.2.1, sound.2.2.2.trans_le grows⟩
  | claimedStart state chglist ip size => exact ⟨sound.1, sound.2.1, sound.2.2.trans_le grows⟩
  | stamped state ip size => exact ⟨sound.1, sound.2.1, sound.2.2.trans_le grows⟩

theorem mem_startNumbers {log : List Change} {n : Clnum} (member : n ∈ startNumbers log) :
    ∃ c ∈ log, c.clnum = n := by
  obtain ⟨c, inLog, same⟩ := List.mem_map.mp member
  exact ⟨c, List.mem_of_mem_filter inLog, same⟩

/-- All numbers of a thread have been claimed. -/
theorem Thread.Sound.numbers_lt (sound : t.Sound bound) (n : Clnum) (member : n ∈ t.numbers) :
    n.toNat < bound := by
  cases t with
  | starting => cases member
  | claimed chglist => cases member
  | running state =>
    obtain ⟨c, inLog, rfl⟩ := mem_startNumbers member
    have below : c.clnum.toNat ≤ state.changelistNumber.toNat := sound.2.1 c inLog
    exact below.trans_lt sound.2.2.2
  | claimedStart state chglist ip size =>
    rcases List.mem_append.mp member with old | new
    · obtain ⟨c, inLog, rfl⟩ := mem_startNumbers old
      have below : c.clnum.toNat < chglist.toNat := sound.2.1 c inLog
      exact below.trans sound.2.2
    · obtain rfl := List.mem_singleton.mp new
      exact sound.2.2
  | stamped state ip size =>
    rcases List.mem_append.mp member with old | new
    · obtain ⟨c, inLog, rfl⟩ := mem_startNumbers old
      have below : c.clnum.toNat < state.changelistNumber.toNat := sound.2.1 c inLog
      exact below.trans sound.2.2
    · obtain rfl := List.mem_singleton.mp new
      exact sound.2.2

theorem Thread.Sound.stamped_log (sound : t.Sound bound) : Stamped t.log := by
  cases t with
  | starting => exact ⟨List.Pairwise.nil, List.isChain_nil⟩
  | claimed chglist => exact ⟨List.Pairwise.nil, List.isChain_nil⟩
  | running state => exact sound.1
  | claimedStart state chglist ip size => exact sound.1
  | stamped state ip size => exact sound.1

/-- A record gets the thread's number, and so do those in front of it at most. -/
theorem addChange_numbered {state : ThreadState} (below : ∀ b ∈ state.log, b.clnum ≤ state.changelistNumber)
    (addr : Address) (data : BitVec 64) (flags : BitVec 32) :
    (∀ b ∈ (state.addChange addr data flags).log, b.clnum ≤ state.changelistNumber) ∧
      ∀ b ∈ (state.addChange addr data flags).log.getLast?, b.clnum = state.changelistNumber := by
  constructor
  · intro b member
    rcases List.mem_append.mp member with old | new
    · exact below b old
    · obtain rfl := List.mem_singleton.mp new
      exact le_rfl
  · intro b latest
    rw [ThreadState.addChange, List.getLast?_concat] at latest
    obtain rfl := Option.some.inj latest
    rfl

/-- A step keeps a thread sound, and adds the counter's number to the thread's at most. -/
theorem Thread.step_sound {action : ThreadAction} (sound : t.Sound number.toNat)
    (taken : t.step number action = some t') :
    t'.Sound (number.toNat + if action.claims then 1 else 0) ∧
      (t'.numbers = t.numbers ∨ action.claims = true ∧ t'.numbers = t.numbers ++ [number]) := by
  unfold Thread.step at taken
  split at taken
  · obtain rfl := Option.some.inj taken
    exact ⟨Nat.lt_succ_self _, Or.inl rfl⟩
  · obtain rfl := Option.some.inj taken
    exact ⟨⟨⟨List.Pairwise.nil, List.isChain_nil⟩, nofun, nofun, sound⟩, Or.inl rfl⟩
  next state ip size =>
    obtain rfl := Option.some.inj taken
    obtain ⟨stamped, below, -, claimed⟩ := sound
    refine ⟨⟨stamped, ?_, Nat.lt_succ_self _⟩, Or.inr ⟨rfl, rfl⟩⟩
    intro b member
    have near : b.clnum.toNat ≤ state.changelistNumber.toNat := below b member
    exact near.trans_lt claimed
  next state chglist ip size =>
    obtain rfl := Option.some.inj taken
    exact ⟨sound, Or.inl rfl⟩
  next state ip size =>
    obtain rfl := Option.some.inj taken
    obtain ⟨stamped, below, claimed⟩ := sound
    have start := (addChange_type state ip (size.setWidth 64) IS_START).mpr (by decide)
    obtain ⟨numbered, latest⟩ := addChange_numbered (fun b member => (below b member).le) ip (size.setWidth 64) IS_START
    refine ⟨⟨?_, numbered, latest, claimed⟩, Or.inl ?_⟩
    · exact stamped.concat _ (fun b member => ⟨(below b member).le, fun _ => below b member⟩)
        (fun b _ notStart => absurd start notStart)
    · change startNumbers (state.log ++ [_]) = _
      rw [startNumbers_concat, if_pos start]
      rfl
  next state addr data flags =>
    split_ifs at taken with starts
    obtain rfl := Option.some.inj taken
    obtain ⟨stamped, below, last, claimed⟩ := sound
    have notStart := mt (addChange_type state addr data flags).mp starts
    obtain ⟨numbered, latest⟩ := addChange_numbered below addr data flags
    refine ⟨⟨?_, numbered, latest, claimed⟩, Or.inl ?_⟩
    · exact stamped.concat _ (fun b member => ⟨below b member, fun start => absurd start notStart⟩)
        (fun b latest _ => (last b latest).symm)
    · change startNumbers (state.log ++ [_]) = _
      rw [startNumbers_concat, if_neg notStart, List.append_nil]
      rfl
  · cases taken

end Threads

/-- A running thread gets to the state by calls of `add_change` that start no changelist. -/
def Records (p : Process) (tid : Nat) (state : ThreadState) : Prop :=
  ∃ actions, actions.countP Action.claims = 0 ∧
    run Process.step p actions = some { p with threads := p.threads.set tid (.running state) }

section Routines
variable {p : Process} {tid : Nat} {state : ThreadState}

theorem step_addChange (found : p.threads[tid]? = some (.running state)) (addr : Address)
    (data : BitVec 64) (flags : BitVec 32) (plain : has flags IS_START = false) :
    p.step (.thread tid (.addChange addr data flags)) =
      some { p with threads := p.threads.set tid (.running (state.addChange addr data flags)) } := by
  simp [Process.step, found, Thread.step, plain, ThreadAction.claims]

theorem records_addChange (found : p.threads[tid]? = some (.running state)) (addr : Address)
    (data : BitVec 64) (flags : BitVec 32) (plain : has flags IS_START = false) :
    Records p tid (state.addChange addr data flags) := by
  refine ⟨[.thread tid (.addChange addr data flags)], rfl, ?_⟩
  rw [run_cons, step_addChange found addr data flags plain]
  rfl

theorem records_addBigChange (found : p.threads[tid]? = some (.running state)) (addr : Address)
    (data : Nat → Library.Words.Byte) (flags : BitVec 32) (size : Nat)
    (plain : has flags IS_START = false) :
    Records p tid (state.addBigChange addr data flags size) := by
  have inside : tid < p.threads.length := (List.getElem?_eq_some_iff.mp found).1
  induction state, addr, data, size using ThreadState.addBigChange.induct flags generalizing p with
  | case1 state addr data size large ih =>
    have word : has (flags ||| 64) IS_START = false := by
      rw [has_or, plain]
      decide
    have first := step_addChange found addr (wordAt data) (flags ||| 64) word
    obtain ⟨actions, claimless, ran⟩ :=
      @ih ⟨p.changelistNumber, p.threads.set tid (.running (state.addChange addr _ _))⟩
        (List.getElem?_set_self inside) (inside.trans_eq List.length_set.symm)
    refine ⟨.thread tid (.addChange addr (wordAt data) (flags ||| 64)) :: actions, ?_, ?_⟩
    · rw [List.countP_cons_of_neg (by simp [Action.claims, ThreadAction.claims])]
      exact claimless
    · rw [run_cons, first, ThreadState.addBigChange, if_pos large]
      simpa using ran
  | case2 state addr data size small tailed =>
    have tails : ∀ size < 8, has (BitVec.ofNat 32 (size * 8)) IS_START = false := by decide
    have tail : has (flags ||| BitVec.ofNat 32 (size * 8)) IS_START = false := by
      rw [has_or, plain, tails size (not_le.mp small)]
      rfl
    rw [ThreadState.addBigChange, if_neg small, if_pos tailed]
    exact records_addChange found addr _ _ tail
  | case3 state addr data size small empty =>
    refine ⟨[], rfl, ?_⟩
    obtain ⟨_, there⟩ := List.getElem?_eq_some_iff.mp found
    rw [ThreadState.addBigChange, if_neg small, if_neg empty, ← there, List.set_getElem_self]
    rfl

/-- The analysis routines other than `RecordStart` start no changelist. -/
theorem records_routines (found : p.threads[tid]? = some (.running state)) (addr : Address)
    (value : Nat → Library.Words.Byte) (size : Nat) :
    Records p tid (state.recordRegRead addr value size) ∧
      Records p tid (state.recordRegWrite addr value size) ∧
      Records p tid (state.recordMemRead addr value size) ∧
      Records p tid (state.recordMemWrite2 addr value size) ∧
      Records p tid (state.recordSyscall addr) :=
  ⟨records_addBigChange found addr value _ size (by decide),
    records_addBigChange found addr value _ size (by decide),
    records_addBigChange found addr value _ size (by decide),
    records_addBigChange found addr value _ size (by decide),
    records_addChange found addr _ _ (by decide)⟩

end Routines

/-- One thread's numbers may grow by a number that no thread holds. -/
theorem nodup_flatMap_set {threads : List Thread} {tid : Nat} {t t' : Thread} (n : Clnum)
    (found : threads[tid]? = some t) (unique : (threads.flatMap Thread.numbers).Nodup)
    (fresh : n ∉ threads.flatMap Thread.numbers)
    (numbers : t'.numbers = t.numbers ∨ t'.numbers = t.numbers ++ [n]) :
    ((threads.set tid t').flatMap Thread.numbers).Nodup := by
  obtain ⟨inside, there⟩ := List.getElem?_eq_some_iff.mp found
  have replaced : ∀ u, (threads.set tid u).flatMap Thread.numbers =
      (threads.take tid).flatMap Thread.numbers ++ (u.numbers ++
        (threads.drop (tid + 1)).flatMap Thread.numbers) := by
    intro u
    rw [List.set_eq_take_append_cons_drop, if_pos inside, List.flatMap_append, List.flatMap_cons]
  have before := replaced t
  rw [← there, List.set_getElem_self, there] at before
  rw [replaced]
  generalize (threads.take tid).flatMap Thread.numbers = front at before ⊢
  generalize (threads.drop (tid + 1)).flatMap Thread.numbers = back at before ⊢
  rw [before] at unique fresh
  rcases numbers with same | more
  · rw [same]
    exact unique
  · have grown : front ++ (t'.numbers ++ back) = (front ++ t.numbers) ++ n :: back := by simp [more]
    rw [grown, List.nodup_middle, List.append_assoc]
    exact List.nodup_cons.mpr ⟨fresh, unique⟩

/-- All threads are sound below the counter, and no number is held twice. -/
structure Sound (p : Process) : Prop where
  threads : ∀ t ∈ p.threads, t.Sound p.changelistNumber.toNat
  unique : (p.threads.flatMap Thread.numbers).Nodup

theorem step_sound {p q : Process} {action : Action} (sound : Sound p)
    (room : p.changelistNumber.toNat + 1 < 2 ^ 32 ∨ action.claims = false)
    (taken : p.step action = some q) :
    Sound q ∧ q.changelistNumber.toNat =
      p.changelistNumber.toNat + if action.claims then 1 else 0 := by
  cases action with
  | threadStart =>
    obtain rfl := Option.some.inj taken
    refine ⟨⟨?_, ?_⟩, rfl⟩
    · intro t member
      rcases List.mem_append.mp member with old | new
      · exact sound.threads t old
      · obtain rfl := List.mem_singleton.mp new
        trivial
    · rw [List.flatMap_append]
      simpa [Thread.numbers] using sound.unique
  | thread tid action =>
    simp only [Process.step] at taken
    split at taken
    · cases taken
    next t found =>
      obtain ⟨t', moved, rfl⟩ := Option.map_eq_some_iff.mp taken
      have inside : tid < p.threads.length := (List.getElem?_eq_some_iff.mp found).1
      obtain ⟨threadSound, numbers⟩ :=
        Thread.step_sound (sound.threads t (List.mem_of_getElem? found)) moved
      have counted : (if action.claims then p.changelistNumber + 1 else p.changelistNumber).toNat =
          p.changelistNumber.toNat + if action.claims then 1 else 0 := by
        by_cases claims : action.claims
        · rw [if_pos claims, if_pos claims]
          exact Library.Words.toNat_succ _ (room.resolve_right (by simp [Action.claims, claims]))
        · rw [if_neg claims, if_neg claims, Nat.add_zero]
      refine ⟨⟨?_, ?_⟩, counted⟩
      · intro u member
        change u.Sound (if action.claims then _ else _ : Clnum).toNat
        rw [counted]
        rcases List.mem_or_eq_of_mem_set member with old | rfl
        · exact (sound.threads u old).mono (Nat.le_add_right _ _)
        · exact threadSound
      · have fresh : p.changelistNumber ∉ p.threads.flatMap Thread.numbers := by
          intro member
          obtain ⟨u, holder, held⟩ := List.mem_flatMap.mp member
          exact lt_irrefl _ ((sound.threads u holder).numbers_lt _ held)
        exact nodup_flatMap_set p.changelistNumber found sound.unique fresh (numbers.imp_right And.right)

/-- As long as the counter does not wrap, every run is sound. -/
theorem run_sound {p q : Process} (actions : List Action) (sound : Sound p)
    (room : p.changelistNumber.toNat + actions.countP Action.claims < 2 ^ 32)
    (ran : run Process.step p actions = some q) : Sound q := by
  induction actions generalizing p with
  | nil =>
    obtain rfl := Option.some.inj ran
    exact sound
  | cons action rest ih =>
    obtain ⟨mid, taken, later⟩ := (run_cons_eq_some_iff Process.step p q action rest).mp ran
    rw [List.countP_cons] at room
    have next : p.changelistNumber.toNat + 1 < 2 ^ 32 ∨ action.claims = false := by
      by_cases claims : action.claims
      · rw [if_pos claims] at room
        exact Or.inl (by omega)
      · exact Or.inr (Bool.not_eq_true _ ▸ claims)
    obtain ⟨midSound, counted⟩ := step_sound sound next taken
    exact ih midSound (by omega) later

theorem start_sound (chglist : Clnum) : Sound (Process.start chglist) := ⟨nofun, List.nodup_nil⟩

/-- After a start record, the records with its number are those before the next start record. -/
theorem takeWhile_clnum (start : Change) (rest : List Change)
    (ordered : InChangelists (start :: rest))
    (carried : (start :: rest).IsChain (fun b c => c.type ≠ 'I' → c.clnum = b.clnum)) :
    rest.takeWhile (fun c => c.clnum = start.clnum) = rest.takeWhile (fun c => c.type ≠ 'I') := by
  have above : ∀ c ∈ rest, c.type = 'I' → c.clnum ≠ start.clnum :=
    fun c member isStart => (((List.pairwise_cons.mp ordered).1 c member).2 isStart).ne'
  have walk : ∀ (last : Change) (rest : List Change), last.clnum = start.clnum →
      (last :: rest).IsChain (fun b c => c.type ≠ 'I' → c.clnum = b.clnum) →
      (∀ c ∈ rest, c.type = 'I' → c.clnum ≠ start.clnum) →
      rest.takeWhile (fun c => c.clnum = start.clnum) = rest.takeWhile (fun c => c.type ≠ 'I') := by
    intro last rest same chain above
    induction rest generalizing last with
    | nil => rfl
    | cons c rest ih =>
      obtain ⟨first, later⟩ := List.isChain_cons_cons.mp chain
      by_cases isStart : c.type = 'I'
      · have other := above c List.mem_cons_self isStart
        simp [isStart, other]
      · have equal : c.clnum = start.clnum := (first isStart).trans same
        have more := ih c equal later (fun d member => above d (List.mem_cons_of_mem c member))
        simpa [isStart, equal] using more
  exact walk start rest rfl carried above

theorem Sound.numbered {p : Process} (sound : Sound p) : Numbered p := by
  refine ⟨?_, fun t member => (sound.threads t member).stamped_log.ordered, ?_, ?_⟩
  · have fewer : ∀ t ∈ p.threads, (startNumbers t.log).Sublist t.numbers := by
      intro t _
      cases t with
      | starting => exact List.Sublist.refl _
      | claimed chglist => exact List.Sublist.refl _
      | running state => exact List.Sublist.refl _
      | claimedStart state chglist ip size => exact List.sublist_append_left _ _
      | stamped state ip size => exact List.sublist_append_left _ _
    exact sound.unique.sublist (List.Sublist.flatMap_right p.threads fewer)
  · intro t member cfg conn connected limit front rest start log isStart
    obtain ⟨ordered, carried⟩ := (sound.threads t member).stamped_log
    have found : ∃ c ∈ t.log, c.type = 'I' ∧ c.clnum = start.clnum :=
      ⟨start, by simp [log], isStart, rfl⟩
    rw [fetchChangesByClnum_eq cfg t.log conn connected ordered, if_pos found]
    rw [log] at ordered carried ⊢
    have back := (List.pairwise_append.mp ordered).2.1
    have whole := takeWhile_changelist front rest start isStart ordered
    rw [List.takeWhile_cons, if_pos (decide_eq_true rfl),
      takeWhile_clnum start rest back (List.isChain_append.mp carried).2.1] at whole
    rw [← whole]
  · intro t member cfg conn connected limit clnum absent
    have ordered := (sound.threads t member).stamped_log.ordered
    rw [fetchChangesByClnum_eq cfg t.log conn connected ordered, if_neg]
    rintro ⟨c, inLog, isStart, rfl⟩
    exact absent (List.mem_map_of_mem (List.mem_filter.mpr ⟨inLog, decide_eq_true isStart⟩))

/-- For every interleaving of any number of threads, without a wrap of the counter: start numbers are
unique, each log is in changelists, and the database fetches each changelist whole. -/
theorem run_numbered (chglist : Clnum) (actions : List Action) (p : Process)
    (room : chglist.toNat + actions.countP Action.claims < 2 ^ 32)
    (ran : run Process.step (Process.start chglist) actions = some p) : Numbered p :=
  (run_sound actions (start_sound chglist) room ran).numbered

/-- Two threads, the second starting while the first is in `RecordStart`. -/
def twoThreads : List Action :=
  [.threadStart, .thread 0 .claim, .thread 0 .construct, .thread 0 (.recordStart 0x400000 4),
    .threadStart, .thread 1 .claim, .thread 0 .stamp, .thread 1 .construct,
    .thread 1 (.recordStart 0x400100 2), .thread 0 .addStart, .thread 1 .stamp, .thread 1 .addStart,
    .thread 0 (.addChange 8 5 (IS_WRITE ||| 64))]

theorem run_numbered_two :
    ∃ p, run Process.step (Process.start 1) twoThreads = some p ∧
      p.threads.map (fun t => t.log.map Change.clnum) = [[2, 2], [4]] ∧ Numbered p :=
  ⟨_, rfl, rfl, run_numbered 1 twoThreads _ (by decide) rfl⟩

end Qira.PinChangelists
