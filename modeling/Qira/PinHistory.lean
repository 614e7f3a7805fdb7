import Qira.Library.Machines
import Qira.Library.Sightings
import Qira.PinRoutines

/-!
What a database built from a thread's log shows of the guest: the log agrees with the account that the thread could
give, of the memory its instructions accessed and of the registers they wrote.
-/

namespace Qira.PinHistory
open ChangeRecord PinTracer PinSyscalls PinGuest PinRoutines TraceIndex TraceProcess TraceMemory TraceRegisters
open Library.Words Library.Overwrites Library.Sightings Library.Machines

/-- A thread's clock: its changelist number. -/
def now (tid : Nat) (p : Process) : Option Clnum := p.threads[tid]?.map (fun thread => thread.state.changelistNumber)

def logOf (tid : Nat) (p : Process) : List Change := p.threads[tid]?.elim [] (fun thread => thread.state.log)

/-- What a thread can tell of memory when an event is over: the bytes at the addresses it accessed. -/
def memorySeen (filter : Filter) (tid : Nat) (event : Event) (p : Process) : Address → Option Byte :=
  let accessed (a : Address) : Bool :=
    match event with
    | .threadStart _ => false
    | .instruction n i => n = tid && i.sees filter a
    | .readReturns n arg syscallReturn _ _ => n = tid && (a - readBuffer arg).toNat < (syscallReturn.setWidth 32).toNat
    | .kernelWrites _ => false
  fun a => if accessed a then some (p.memory a) else none

/-- What it can tell of its registers: the parts that it has written, and that are logged. -/
def registersSeen (filter : Filter) (tid : Nat) (event : Event) (p : Process) : Nat → Option (BitVec 64) :=
  match event with
  | .instruction n i =>
      if n = tid ∧ (i.active && i.reachesWrites) = true ∧ filter.filtered i.ip = false then
        p.threads[tid]?.elim (fun _ => none) (fun thread => lastValue thread.regs (i.regWrites.map Prod.fst))
      else fun _ => none
  | _ => fun _ => none

/-- The records of a thread are in order, and their numbers have all been claimed. -/
structure Numbered (bound : Nat) (thread : Thread) : Prop where
  ordered : thread.state.log.Pairwise (fun b c => b.clnum ≤ c.clnum)
  below : ∀ c ∈ thread.state.log, c.clnum ≤ thread.state.changelistNumber
  claimed : thread.state.changelistNumber.toNat < bound

section Steps
variable {filter : Filter} {bound : Nat}

theorem step_instruction {p q : Process} {tid : Nat} {i : Instruction}
    (taken : p.step filter (.instruction tid i) = some q) :
    ∃ thread thread', p.threads[tid]? = some thread ∧
      i.execute filter p.changelistNumber p.memory thread = some thread' ∧
      q = ⟨if (Event.instruction tid i).claims filter then p.changelistNumber + 1 else p.changelistNumber,
        i.memoryAfter p.memory, p.threads.set tid thread'⟩ := by
  obtain ⟨thread, found, taken⟩ := Option.bind_eq_some_iff.mp taken
  obtain ⟨thread', ran, taken⟩ := Option.bind_eq_some_iff.mp taken
  exact ⟨thread, thread', found, ran, (Option.some.inj taken).symm⟩

theorem step_readReturns {p q : Process} {tid : Nat} {arg : Vector Address 6} {syscallReturn : BitVec 64}
    {bytes : Nat → Byte} {value : Vector Byte sizeofValue}
    (taken : p.step filter (.readReturns tid arg syscallReturn bytes value) = some q) :
    ∃ thread state, p.threads[tid]? = some thread ∧ syscallReturn.toInt ≤ MAX_RW_COUNT ∧
      syscallExit (overwrite p.memory (laid (readBuffer arg) bytes syscallReturn.toInt.toNat)) value thread.state
        ⟨SYS_READ, arg⟩ syscallReturn = some state ∧
      q = ⟨p.changelistNumber, overwrite p.memory (laid (readBuffer arg) bytes syscallReturn.toInt.toNat),
        p.threads.set tid { thread with state }⟩ := by
  obtain ⟨atMost, taken⟩ := Option.ite_none_right_eq_some.mp taken
  obtain ⟨thread, found, taken⟩ := Option.bind_eq_some_iff.mp taken
  obtain ⟨state, exits, taken⟩ := Option.bind_eq_some_iff.mp taken
  exact ⟨thread, state, found, atMost, exits, (Option.some.inj taken).symm⟩

/-- A thread goes on, at its own number or a newly claimed one. -/
theorem Numbered.tells {thread thread' : Thread} {start : ThreadState} {bytes : Address → Option Byte}
    {registers : Nat → Option (BitVec 64)} {later : Nat} (wellNumbered : Numbered bound thread)
    (same : start.log = thread.state.log) (after : thread.state.changelistNumber ≤ start.changelistNumber)
    (claimed : start.changelistNumber.toNat < later) (tells : Tells start thread'.state bytes registers) :
    Numbered later thread' := by
  obtain ⟨number, made, grown, stamps, -, -⟩ := tells
  rw [same] at grown
  refine ⟨?_, ?_, number ▸ claimed⟩
  · rw [grown]
    refine List.pairwise_append.mpr ⟨wellNumbered.ordered, ?_, ?_⟩
    · refine List.pairwise_of_forall_mem_list fun b member c member' => ?_
      rw [stamps b member, stamps c member']
    · intro b member c member'
      rw [stamps c member']
      exact (wellNumbered.below b member).trans after
  · rw [grown, number]
    intro c member
    rcases List.mem_append.mp member with old | new
    · exact (wellNumbered.below c old).trans after
    · exact (stamps c new).le

/-- What an event does to the threads: it starts one, moves one on, or leaves them. -/
inductive Moves (filter : Filter) (p q : Process) (event : Event) : Prop
  | starts (regs : Registers) (isStart : event = .threadStart regs)
      (threads : q.threads = p.threads ++ [⟨⟨p.changelistNumber, []⟩, regs, WRITEEA_SENTINEL⟩])
  | moves (n : Nat) (thread thread' : Thread) (start : ThreadState) (bytes : Address → Option Byte)
      (found : p.threads[n]? = some thread)
      (threads : q.threads = p.threads.set n thread') (same : start.log = thread.state.log)
      (number : start.changelistNumber = thread.state.changelistNumber ∨
        start.changelistNumber = p.changelistNumber ∧ event.claims filter = true)
      (tells : Tells start thread'.state bytes (registersSeen filter n event q))
      (accessed : event.WritesLogged → bytes = memorySeen filter n event q)
      (others : ∀ tid, tid ≠ n → memorySeen filter tid event q = (fun _ => none) ∧
        registersSeen filter tid event q = fun _ => none)
  | leaves (threads : q.threads = p.threads)
      (unseen : ∀ tid, memorySeen filter tid event q = (fun _ => none) ∧
        registersSeen filter tid event q = fun _ => none)

theorem step_moves {p q : Process} {event : Event} (taken : p.step filter event = some q) :
    q.changelistNumber = (if event.claims filter then p.changelistNumber + 1 else p.changelistNumber) ∧
      Moves filter p q event := by
  cases event with
  | threadStart regs =>
    obtain rfl := Option.some.inj taken
    exact ⟨rfl, .starts regs rfl rfl⟩
  | instruction n i =>
    obtain ⟨thread, thread', found, ran, rfl⟩ := step_instruction taken
    obtain ⟨-, bytes, tells, accessed⟩ := tells_execute ran
    refine ⟨rfl, .moves n thread thread' (numbered filter p.changelistNumber i thread.state) bytes found rfl
      ?_ ?_ ?_ ?_ ?_⟩
    · unfold numbered
      split <;> rfl
    · unfold numbered
      split
      next unfiltered => exact Or.inr ⟨rfl, by simpa [Event.claims] using unfiltered⟩
      next => exact Or.inl rfl
    · apply tells.congr (fun _ => rfl)
      intro m
      simp only [registersSeen, true_and, List.getElem?_set_self (List.getElem?_eq_some_iff.mp found).1,
        Option.elim_some]
      split <;> rfl
    · intro logged
      funext a
      simpa [memorySeen] using accessed logged a
    · intro tid other
      simp [memorySeen, registersSeen, Ne.symm other]
  | readReturns n arg syscallReturn bytes value =>
    obtain ⟨thread, state, found, -, exits, rfl⟩ := step_readReturns taken
    rw [syscallExit, if_pos rfl] at exits
    refine ⟨rfl, .moves n thread _ thread.state _ found rfl rfl (Or.inl rfl) (tells_recordMemWrite2 exits) ?_ ?_⟩
    · intro _
      simp [memorySeen, readBuffer]
    · intro tid other
      simp [memorySeen, registersSeen, Ne.symm other]
  | kernelWrites write =>
    obtain rfl := Option.some.inj taken
    exact ⟨rfl, .leaves rfl fun _ => ⟨by simp [memorySeen], rfl⟩⟩

/-- All numbers that threads have are claimed. -/
def Sound (p : Process) : Prop := ∀ thread ∈ p.threads, Numbered p.changelistNumber.toNat thread

theorem Numbered.mono {thread : Thread} {later : Nat} (wellNumbered : Numbered bound thread) (grows : bound ≤ later) :
    Numbered later thread :=
  ⟨wellNumbered.ordered, wellNumbered.below, wellNumbered.claimed.trans_le grows⟩

theorem step_number {p q : Process} {event : Event}
    (room : p.changelistNumber.toNat + 1 < 2 ^ 32 ∨ event.claims filter = false)
    (taken : p.step filter event = some q) :
    q.changelistNumber.toNat = p.changelistNumber.toNat + if event.claims filter then 1 else 0 := by
  rw [(step_moves taken).1]
  by_cases claims : event.claims filter = true
  · rw [if_pos claims, if_pos claims]
    exact toNat_succ _ (room.resolve_right (by simp [claims]))
  · rw [if_neg claims, if_neg claims, Nat.add_zero]

theorem step_sound {p q : Process} {event : Event} (sound : Sound p)
    (room : p.changelistNumber.toNat + 1 < 2 ^ 32 ∨ event.claims filter = false)
    (taken : p.step filter event = some q) : Sound q := by
  have number := step_number room taken
  have grows : p.changelistNumber.toNat ≤ q.changelistNumber.toNat := by omega
  intro thread member
  rcases (step_moves taken).2 with ⟨regs, rfl, threads⟩ | ⟨n, old, new, start, bytes, found, threads, same, at', tells, -, -⟩ |
    ⟨threads, -⟩
  · rw [threads] at member
    rcases List.mem_append.mp member with before | started
    · exact (sound thread before).mono grows
    · obtain rfl := List.mem_singleton.mp started
      have claims : (Event.threadStart regs).claims filter = true := rfl
      rw [claims, if_pos rfl] at number
      exact ⟨List.Pairwise.nil, nofun, by change p.changelistNumber.toNat < _; omega⟩
  · rw [threads] at member
    rcases List.mem_or_eq_of_mem_set member with before | rfl
    · exact (sound thread before).mono grows
    · have wellNumbered := sound old (List.mem_of_getElem? found)
      have claimed := wellNumbered.claimed
      rcases at' with carried | ⟨fresh, claims⟩
      · exact wellNumbered.tells same (carried ▸ le_rfl) (carried ▸ claimed.trans_le grows) tells
      · rw [if_pos claims] at number
        refine wellNumbered.tells same ?_ (by rw [fresh]; omega) tells
        rw [fresh]
        exact BitVec.le_def.mpr claimed.le
  · exact (sound thread (threads ▸ member)).mono grows

/-- Nothing is logged, and there is nothing to tell. -/
theorem logged_still {α β : Type} {write : Change → α → Option β} {seen : Event → Process → α → Option β}
    {p q : Process} {event : Event} {tid : Nat} (same : logOf tid q = logOf tid p)
    (nothing : seen event q = fun _ => none) : Logged (now tid) Change.clnum write (logOf tid) seen p q event :=
  ⟨fun _ _ => ⟨[], by rw [same, List.append_nil], nofun, fun _ => by rw [nothing]; rfl⟩, fun _ => same⟩

/-- The log of a thread goes on with what the thread can tell when an event is over. -/
theorem step_logged {p q : Process} {event : Event} (tid : Nat) (taken : p.step filter event = some q) :
    (event.WritesLogged →
        Logged (now tid) Change.clnum (accessWrite false) (logOf tid) (memorySeen filter tid) p q event) ∧
      Logged (now tid) Change.clnum (registerWrite x64) (logOf tid) (registersSeen filter tid) p q event := by
  rcases (step_moves taken).2 with ⟨regs, rfl, threads⟩ |
    ⟨n, old, new, start, bytes, found, threads, same, -, tells, accessed, others⟩ | ⟨threads, unseen⟩
  · have log : logOf tid q = logOf tid p := by
      unfold logOf
      rw [threads]
      by_cases present : tid < p.threads.length
      · rw [List.getElem?_append_left present]
      · rw [List.getElem?_append_right (by omega), List.getElem?_eq_none (Nat.not_lt.mp present)]
        by_cases started : tid = p.threads.length
        · simp [started]
        · rw [List.getElem?_eq_none (by rw [List.length_singleton]; omega)]
    exact ⟨fun _ => logged_still log (by simp [memorySeen]), logged_still log rfl⟩
  · by_cases own : tid = n
    · subst own
      obtain ⟨number, made, grown, stamps, told, registers⟩ := tells
      have before : logOf tid p = old.state.log := by rw [logOf, found, Option.elim_some]
      have present : q.threads[tid]? = some new := by
        rw [threads, List.getElem?_set_self (List.getElem?_eq_some_iff.mp found).1]
      have after : logOf tid q = logOf tid p ++ made := by
        rw [logOf, present, Option.elim_some, grown, before, same]
      have clock : now tid q = some start.changelistNumber := by rw [now, present, Option.map_some, number]
      have goesOn : ∀ {α β : Type} {write : Change → α → Option β} {seen : Event → Process → α → Option β},
          (∀ place, lastWrite (made.map write) place = seen event q place) →
          Logged (now tid) Change.clnum write (logOf tid) seen p q event := by
        intro α β write seen all
        refine ⟨fun time is => ⟨made, after, ?_, all⟩, fun gone => absurd (clock.symm.trans gone) nofun⟩
        exact Option.some.inj (clock.symm.trans is) ▸ stamps
      exact ⟨fun logged => goesOn fun a => (told a).trans (congrFun (accessed logged) a), goesOn registers⟩
    · have log : logOf tid q = logOf tid p := by rw [logOf, logOf, threads, List.getElem?_set_ne (Ne.symm own)]
      exact ⟨fun _ => logged_still log (others tid own).1, logged_still log (others tid own).2⟩
  · have log : logOf tid q = logOf tid p := by rw [logOf, logOf, threads]
    exact ⟨fun _ => logged_still log (unseen tid).1, logged_still log (unseen tid).2⟩

/-- Room for the numbers still to be claimed, besides soundness. -/
def Running (filter : Filter) (p : Process) (events : List Event) : Prop :=
  Sound p ∧ p.changelistNumber.toNat + events.countP (Event.claims filter) < 2 ^ 32

theorem Running.step {p q : Process} {event : Event} {rest : List Event} (running : Running filter p (event :: rest))
    (taken : p.step filter event = some q) : Running filter q rest := by
  obtain ⟨sound, room⟩ := running
  rw [List.countP_cons] at room
  have next : p.changelistNumber.toNat + 1 < 2 ^ 32 ∨ event.claims filter = false := by
    by_cases claims : event.claims filter = true
    · rw [if_pos claims] at room
      exact Or.inl (by omega)
    · exact Or.inr (by simpa using claims)
  have number := step_number next taken
  exact ⟨step_sound sound next taken, by omega⟩

/-- No thread goes away, and none goes back in its numbers. -/
theorem step_forward {p q : Process} {event : Event} (tid : Nat) (sound : Sound p)
    (taken : p.step filter event = some q) : Forward (now tid) p q := by
  intro time is
  obtain ⟨thread, before, rfl⟩ := Option.map_eq_some_iff.mp is
  rcases (step_moves taken).2 with ⟨regs, -, threads⟩ | ⟨n, old, new, start, bytes, found, threads, -, at', tells, -, -⟩ |
    ⟨threads, -⟩
  · refine ⟨_, ?_, le_rfl⟩
    rw [now, threads, List.getElem?_append_left (List.getElem?_eq_some_iff.mp before).1]
    exact is
  · by_cases own : tid = n
    · subst own
      obtain rfl := Option.some.inj (found.symm.trans before)
      refine ⟨new.state.changelistNumber, ?_, ?_⟩
      · rw [now, threads, List.getElem?_set_self (List.getElem?_eq_some_iff.mp before).1, Option.map_some]
      · have claimed := (sound old (List.mem_of_getElem? before)).claimed
        rw [tells.number]
        rcases at' with carried | ⟨fresh, -⟩
        · exact carried ▸ le_rfl
        · rw [fresh]
          exact BitVec.le_def.mpr claimed.le
    · refine ⟨_, ?_, le_rfl⟩
      rw [now, threads, List.getElem?_set_ne (Ne.symm own)]
      exact is
  · refine ⟨_, ?_, le_rfl⟩
    rw [now, threads]
    exact is

end Steps

/-- A thread's registers by number, with nothing beyond the general ones. -/
def registerValue (tid : Nat) (p : Process) (n : Nat) : BitVec 64 :=
  p.threads[tid]?.elim 0 (fun thread => if general : n < 16 then thread.regs ⟨n, general⟩ else 0)

/-- No one but the thread itself writes to memory. -/
def LeavesMemory (tid : Nat) : Event → Prop
  | .threadStart _ => True
  | .instruction n i => n = tid ∨ i.active = false ∨ i.memWrite = none
  | .readReturns n _ syscallReturn _ _ => n = tid ∨ syscallReturn.toInt ≤ 0
  | .kernelWrites _ => False

/-- The thread's instructions that write registers are unfiltered, their writes are logged, and they are to lower
words and whole registers. -/
def WritesWide (filter : Filter) (tid : Nat) : Event → Prop
  | .instruction n i => n = tid → i.active = true → i.regWrites ≠ [] →
      filter.filtered i.ip = false ∧ i.reachesWrites = true ∧
        ∀ write ∈ i.regWrites, write.1.part = .word ∨ write.1.part = .whole
  | _ => True

section Faithfulness
variable {filter : Filter} {tid : Nat} {event : Event}

/-- The low half of what a `read` returns counts all the bytes that it has put in its buffer. -/
theorem toInt_toNat_le (syscallReturn : BitVec 64) (atMost : syscallReturn.toInt ≤ MAX_RW_COUNT) :
    syscallReturn.toInt.toNat ≤ (syscallReturn.setWidth 32).toNat := by
  unfold MAX_RW_COUNT at atMost
  rw [BitVec.toNat_setWidth]
  rw [BitVec.toInt_eq_toNat_cond] at atMost ⊢
  split at atMost <;> split <;> omega

/-- Memory that the thread has not accessed is as it was, if only the thread writes to it. -/
theorem memorySeen_faithful {p q : Process} (logged : event.WritesLogged) (leaves : LeavesMemory tid event)
    (taken : p.step filter event = some q) :
    Faithful (now tid) (memorySeen filter tid) (fun p a => p.memory a) p q event := by
  intro a
  constructor
  · intro said told
    simp only [memorySeen, Option.ite_none_right_eq_some] at told
    exact (Option.some.inj told.2).symm
  · intro untold _
    cases event with
    | threadStart regs =>
      obtain rfl := Option.some.inj taken
      rfl
    | instruction n i =>
      obtain ⟨_, _, -, -, rfl⟩ := step_instruction taken
      simp only [memorySeen, ite_eq_right_iff, reduceCtorEq, imp_false, Bool.and_eq_true, decide_eq_true_eq,
        not_and, Bool.not_eq_true] at untold
      change i.memoryAfter p.memory a = p.memory a
      by_cases active : i.active = true
      swap
      · rw [Instruction.memoryAfter, if_neg active]
      apply memoryAfter_unwritten
      rcases leaves with own | inactive | unwritten
      · have unseen := untold own
        cases isWrite : i.memWrite with
        | none => rfl
        | some write =>
          have reaches : i.reachesWrites = true := logged active (by rw [isWrite]; rfl)
          rw [Instruction.sees, active, reaches, Bool.true_and, Bool.true_and, Bool.or_eq_false_iff] at unseen
          exact isWrite ▸ unseen.2
      · exact absurd active (by simp [inactive])
      · simp [unwritten]
    | readReturns n arg syscallReturn bytes value =>
      obtain ⟨_, _, -, atMost, -, rfl⟩ := step_readReturns taken
      simp only [memorySeen, ite_eq_right_iff, reduceCtorEq, imp_false, Bool.and_eq_true, decide_eq_true_eq,
        not_and] at untold
      have outside : ¬ (a - readBuffer arg).toNat < syscallReturn.toInt.toNat := by
        rcases leaves with own | failed
        · have beyond := untold own
          have delivered := toInt_toNat_le syscallReturn atMost
          omega
        · omega
      change overwrite p.memory (laid (readBuffer arg) bytes syscallReturn.toInt.toNat) a = p.memory a
      rw [overwrite, laid, if_neg outside]
      rfl
    | kernelWrites write => cases leaves

theorem value_whole (contents : BitVec 64) : Part.whole.value contents = contents := by
  refine (eq_value .whole contents contents fun k => ?_).symm
  by_cases inside : k < 8
  · exact (if_pos inside).symm ▸ by simp [Part.bytes, Part.place]
  · rw [byteOf_above _ k (by omega)]
    exact (if_neg inside).symm

/-- A register whose upper word has been cleared is what its lower word says. -/
theorem value_word (value : BitVec 64) : Part.word.value (value &&& 0xFFFFFFFF) = value &&& 0xFFFFFFFF := by
  refine (eq_value .word _ _ fun k => ?_).symm
  by_cases inside : k < 4
  · exact (if_pos inside).symm ▸ by simp [Part.bytes, Part.place]
  · refine Eq.trans ?_ (if_neg inside).symm
    apply BitVec.eq_of_toNat_eq
    have small : (value &&& 0xFFFFFFFF).toNat < 256 ^ 4 := by
      rw [BitVec.toNat_and]
      exact lt_of_le_of_lt Nat.and_le_right (by decide)
    rw [byteOf_toNat, Nat.div_eq_of_lt (small.trans_le (Nat.pow_le_pow_right (by decide) (by omega)))]
    rfl

theorem value_merge (part : Part) (wide : part = .word ∨ part = .whole) (contents value : BitVec 64) :
    part.value (part.merge contents value) = part.merge contents value := by
  rcases wide with rfl | rfl
  · exact value_word value
  · exact value_whole value

/-- After wide writes, the last one to a register tells what is in it, and a register without one is as before. -/
theorem lastValue_wide (writes : List (RegOperand × BitVec 64)) (regs : Registers)
    (wide : ∀ write ∈ writes, write.1.part = .word ∨ write.1.part = .whole) (r : Register) :
    lastValue (writeRegisters regs writes) (writes.map Prod.fst) r.val =
        some (writeRegisters regs writes r) ∨
      lastValue (writeRegisters regs writes) (writes.map Prod.fst) r.val = none ∧
        writeRegisters regs writes r = regs r := by
  induction writes using List.reverseRecOn with
  | nil => exact Or.inr ⟨rfl, rfl⟩
  | append_singleton front write ih =>
    have before := ih fun w member => wide w (List.mem_append_left _ member)
    have written : writeRegisters regs (front ++ [write]) = Function.update (writeRegisters regs front)
        write.1.register (write.1.part.merge (writeRegisters regs front write.1.register) write.2) := by
      simp [writeRegisters, List.foldl_append]
    unfold lastValue at before ⊢
    rw [written, List.map_append, List.map_singleton, List.reverse_append, List.reverse_singleton,
      List.singleton_append, List.find?_cons]
    by_cases named : write.1.register = r
    · subst named
      have part := wide write (by simp)
      simp [value_merge _ part]
    · have other : ¬ write.1.register.val = r.val := fun same => named (Fin.ext same)
      rw [Function.update_of_ne (Ne.symm named)]
      simp only [other, decide_false]
      have same : ∀ op, List.find? (fun op => decide (op.register.val = r.val)) (front.map Prod.fst).reverse = some op →
          Function.update (writeRegisters regs front) write.1.register
            (write.1.part.merge (writeRegisters regs front write.1.register) write.2) op.register =
          writeRegisters regs front op.register := by
        intro op found
        have isR := List.find?_some found
        rw [decide_eq_true_eq] at isR
        exact Function.update_of_ne (fun (equal : op.register = write.1.register) => other (equal ▸ isR)) _ _
      cases found : List.find? (fun op => decide (op.register.val = r.val)) (front.map Prod.fst).reverse with
      | none =>
        rw [found] at before
        simpa using before
      | some op =>
        rw [found] at before
        simpa [same op found] using before

theorem lastValue_beyond (regs : Registers) (writes : List RegOperand) (n : Nat) (beyond : 16 ≤ n) :
    lastValue regs writes n = none := by
  unfold lastValue
  rw [Option.map_eq_none_iff, List.find?_eq_none]
  intro op _
  have number := op.register.isLt
  simp only [decide_eq_true_eq]
  omega

theorem regs_of_instruction {p q : Process} {thread : Thread} (i : Instruction)
    (taken : p.step filter (.instruction tid i) = some q) (before : p.threads[tid]? = some thread) :
    ∃ thread', q.threads[tid]? = some thread' ∧ thread'.regs = i.regsAfter thread.regs := by
  obtain ⟨old, new, found, ran, rfl⟩ := step_instruction taken
  obtain rfl := Option.some.inj (found.symm.trans before)
  exact ⟨new, List.getElem?_set_self (List.getElem?_eq_some_iff.mp before).1, (tells_execute ran).1⟩

theorem regs_of_other {p q : Process} {thread : Thread} (taken : p.step filter event = some q)
    (before : p.threads[tid]? = some thread) (other : ∀ i, event ≠ .instruction tid i) :
    ∃ thread', q.threads[tid]? = some thread' ∧ thread'.regs = thread.regs := by
  have inside := (List.getElem?_eq_some_iff.mp before).1
  cases event with
  | threadStart regs =>
    obtain rfl := Option.some.inj taken
    exact ⟨thread, (List.getElem?_append_left inside).trans before, rfl⟩
  | instruction n i =>
    have elsewhere : n ≠ tid := fun same => other i (same ▸ rfl)
    obtain ⟨old, new, found, -, rfl⟩ := step_instruction taken
    exact ⟨thread, (List.getElem?_set_ne elsewhere).trans before, rfl⟩
  | readReturns n arg syscallReturn bytes value =>
    obtain ⟨old, state, found, -, -, rfl⟩ := step_readReturns taken
    by_cases own : n = tid
    · subst own
      obtain rfl := Option.some.inj (found.symm.trans before)
      exact ⟨_, List.getElem?_set_self inside, rfl⟩
    · exact ⟨thread, (List.getElem?_set_ne own).trans before, rfl⟩
  | kernelWrites write =>
    obtain rfl := Option.some.inj taken
    exact ⟨thread, before, rfl⟩

/-- Registers whose parts are written wide are told whole. -/
theorem registersSeen_faithful {p q : Process} (wide : WritesWide filter tid event)
    (taken : p.step filter event = some q) :
    Faithful (now tid) (registersSeen filter tid) (registerValue tid) p q event := by
  intro n
  by_cases own : ∃ i, event = .instruction tid i
  · obtain ⟨i, rfl⟩ := own
    obtain ⟨thread, -, found, -, -⟩ := step_instruction taken
    obtain ⟨thread', present, moved⟩ := regs_of_instruction i taken found
    simp only [registerValue, found, present, Option.elim_some, moved]
    by_cases active : i.active = true
    swap
    · exact ⟨fun said told => by simp [registersSeen, active] at told,
        fun _ _ => by rw [Instruction.regsAfter, if_neg active]⟩
    by_cases empty : i.regWrites = []
    · have nothing : registersSeen filter tid (.instruction tid i) q n = none := by
        simp only [registersSeen, empty, present, Option.elim_some]
        split <;> rfl
      refine ⟨fun said told => absurd (nothing.symm.trans told) nofun, fun _ _ => ?_⟩
      rw [Instruction.regsAfter, if_pos active, empty]
      rfl
    obtain ⟨unfiltered, reaches, parts⟩ := wide rfl active empty
    have seen : registersSeen filter tid (.instruction tid i) q n =
        lastValue thread'.regs (i.regWrites.map Prod.fst) n := by
      simp [registersSeen, active, unfiltered, reaches, present]
    rw [seen, moved, Instruction.regsAfter, if_pos active]
    by_cases general : n < 16
    · simp only [dif_pos general]
      rcases lastValue_wide i.regWrites thread.regs parts ⟨n, general⟩ with written | ⟨unwritten, same⟩
      · exact ⟨fun said told => Option.some.inj (told.symm.trans written),
          fun untold _ => absurd (untold.symm.trans written) nofun⟩
      · exact ⟨fun said told => absurd (told.symm.trans unwritten) nofun, fun _ _ => same⟩
    · rw [lastValue_beyond _ _ n (by omega)]
      exact ⟨nofun, fun _ _ => by rw [dif_neg general, dif_neg general]⟩
  · have others : ∀ i, event ≠ .instruction tid i := fun i same => own ⟨i, same⟩
    have nothing : registersSeen filter tid event q n = none := by
      unfold registersSeen
      split
      next m i =>
        have elsewhere : m ≠ tid := fun same => others i (same ▸ rfl)
        rw [if_neg (fun all => elsewhere all.1)]
      next => rfl
    refine ⟨fun said told => absurd (nothing.symm.trans told) nofun, fun _ is => ?_⟩
    obtain ⟨time, isTime⟩ := Option.isSome_iff_exists.mp is
    obtain ⟨thread, before, -⟩ := Option.map_eq_some_iff.mp isTime
    obtain ⟨thread', present, same⟩ := regs_of_other taken before others
    simp only [registerValue, before, present, Option.elim_some, same]

end Faithfulness

section Results
variable (filter : Filter) (chglist : Clnum) (memory : Address → Byte) (events : List Event) (p : Process)
  (tid : Nat) (thread : Thread)

/-- The account of a thread in a run. -/
def accountOf {α β : Type} (seen : Event → Process → α → Option β) : Account Clnum α β :=
  account (Process.step filter) (now tid) seen (Process.start chglist memory) events

/-- Memory, and a thread's registers, as they were when the thread was through with a changelist. -/
def memoryAsOf : Clnum → Address → Option Byte :=
  (accountOf filter chglist memory events tid (everything (fun p a => p.memory a))).lastBy

def registerAsOf : Clnum → Nat → Option (BitVec 64) :=
  (accountOf filter chglist memory events tid (everything (registerValue tid))).lastBy

/-- The byte at an address after the last event up to a changelist in which the thread accessed the address. -/
def memoryLastSeen : Clnum → Address → Option Byte :=
  (accountOf filter chglist memory events tid (memorySeen filter tid)).lastBy

/-- The part of a register that the thread wrote last, up to a changelist. -/
def registerLastSeen : Clnum → Nat → Option (BitVec 64) :=
  (accountOf filter chglist memory events tid (registersSeen filter tid)).lastBy

variable {filter chglist memory events p tid thread}

theorem start_running (room : chglist.toNat + events.countP (Event.claims filter) < 2 ^ 32) :
    Running filter (Process.start chglist memory) events :=
  ⟨(nofun : ∀ thread ∈ [], _), room⟩

/-- At the end of a run a thread's log is in order. -/
theorem log_ordered (room : chglist.toNat + events.countP (Event.claims filter) < 2 ^ 32)
    (ran : run (Process.step filter) (Process.start chglist memory) events = some p)
    (present : p.threads[tid]? = some thread) : thread.state.log.Pairwise (fun b c => b.clnum ≤ c.clnum) := by
  have sound : Running filter p [] :=
    run_remaining (fun _ _ _ _ running taken => running.step taken) (start_running room) ran
  exact (sound.1 thread (List.mem_of_getElem? present)).ordered

theorem logOf_present (present : p.threads[tid]? = some thread) : logOf tid p = thread.state.log := by
  rw [logOf, present, Option.elim_some]

/-- It agrees with the account of the registers. -/
theorem log_registers (room : chglist.toNat + events.countP (Event.claims filter) < 2 ^ 32)
    (ran : run (Process.step filter) (Process.start chglist memory) events = some p)
    (present : p.threads[tid]? = some thread) :
    Agree Change.clnum (registerWrite x64) thread.state.log
      (accountOf filter chglist memory events tid (registersSeen filter tid)) := by
  rw [← logOf_present present]
  exact run_agree (Running filter) (fun _ _ _ _ running taken => running.step taken)
    (fun _ _ _ _ _ taken => (step_logged tid taken).2) (start_running room) (Agree.nil _ _) ran

/-- And with that of memory, if all writes of memory are logged. -/
theorem log_memory (room : chglist.toNat + events.countP (Event.claims filter) < 2 ^ 32)
    (logged : ∀ event ∈ events, event.WritesLogged)
    (ran : run (Process.step filter) (Process.start chglist memory) events = some p)
    (present : p.threads[tid]? = some thread) :
    Agree Change.clnum (accessWrite false) thread.state.log
      (accountOf filter chglist memory events tid (memorySeen filter tid)) := by
  rw [← logOf_present present]
  exact run_agree (fun p events => Running filter p events ∧ ∀ event ∈ events, event.WritesLogged)
    (fun _ _ _ _ running taken =>
      ⟨running.1.step taken, fun later member => running.2 later (List.mem_cons_of_mem _ member)⟩)
    (fun _ event _ _ running taken => (step_logged tid taken).1 (running.2 event List.mem_cons_self))
    ⟨start_running room, logged⟩ (Agree.nil _ _) ran

/-- What a faithful account says is how things were. -/
theorem account_current {α β : Type} {seen : Event → Process → α → Option β} {value : Process → α → β}
    (faithful : ∀ event ∈ events, ∀ p q, p.step filter event = some q → Faithful (now tid) seen value p q event)
    (room : chglist.toNat + events.countP (Event.claims filter) < 2 ^ 32)
    (ran : run (Process.step filter) (Process.start chglist memory) events = some p) (clnum : Clnum) (place : α) :
    (accountOf filter chglist memory events tid seen).lastBy clnum place = none ∨
      (accountOf filter chglist memory events tid seen).lastBy clnum place =
        (accountOf filter chglist memory events tid (everything value)).lastBy clnum place := by
  have start : Current (now tid) value (Process.start chglist memory) [] [] :=
    ⟨fun _ _ => Or.inl rfl, fun _ _ _ is => absurd is nofun, fun _ => rfl⟩
  exact (run_current (Running filter) (fun _ _ _ _ running taken => running.step taken)
    (fun _ _ _ _ running taken => step_forward tid running.1 taken) faithful (start_running room) start ran).said
    clnum place

/-- For every interleaving of the threads of a process and of untold changes to its memory: the database built
from a thread's log shows, at each changelist and address, the byte that was in memory after the last event up to
that changelist in which the thread is logged to access the address, and none if there was no such event. Where only
the thread itself writes to memory, that is the byte as of the changelist. -/
theorem getByte_history (room : chglist.toNat + events.countP (Event.claims filter) < 2 ^ 32)
    (logged : ∀ event ∈ events, event.WritesLogged)
    (ran : run (Process.step filter) (Process.start chglist memory) events = some p)
    (present : p.threads[tid]? = some thread) (t : Trace x64) (ingested : Ingested x64 thread.state.log t)
    (clnum : Clnum) (a : Address) :
    t.getByte clnum a =
        (memoryLastSeen filter chglist memory events tid clnum a).elim 0 (fun d => MEMORY_VALID ||| d.setWidth 16) ∧
      ((∀ event ∈ events, LeavesMemory tid event) →
        memoryLastSeen filter chglist memory events tid clnum a = none ∨
        memoryLastSeen filter chglist memory events tid clnum a =
          memoryAsOf filter chglist memory events tid clnum a) := by
  constructor
  · rw [ingested.eq_ingestAll, getByte_ingestAll x64 _ clnum a (log_ordered room ran present)]
    congr 1
    exact log_memory room logged ran present clnum a
  · intro alone
    exact account_current
      (fun event member _ _ => memorySeen_faithful (logged event member) (alone event member)) room ran clnum a

end Results

/-- An instruction that loads four bytes, stores two and sets the lower word of a register. -/
def storeAndSet : Instruction where
  ip := 0x400000
  size := 3
  active := true
  hasFallThrough := true
  isBranchOrCall := false
  taken := false
  regReads := []
  regWrites := [(⟨0, .word⟩, 0x1122334455667788)]
  memReads := [⟨0x601050, 4, Vector.replicate sizeofValue 0⟩]
  memWrite := some (⟨0x601040, 2, Vector.replicate sizeofValue 0⟩, fun k => BitVec.ofNat 8 (k + 1))
  syscall := none

/-- A jump back to it. -/
def jumpBack : Instruction where
  ip := 0x400003
  size := 2
  active := true
  hasFallThrough := false
  isBranchOrCall := true
  taken := true
  regReads := []
  regWrites := []
  memReads := []
  memWrite := none
  syscall := none

def wholeImage : Filter := ⟨0x400000, 0x500000⟩

/-- Two threads start with zeros, the one stores and reads into the same buffer, the other jumps between. -/
def storeThenRead : List Event :=
  [.threadStart (fun _ => 0), .threadStart (fun _ => 0), .instruction 0 storeAndSet, .instruction 1 jumpBack,
    .readReturns 0 #v[0, 0x601041, 512, 0, 0, 0] 1 (fun _ => 7) (Vector.replicate sizeofValue 0)]

private theorem length_addBigChange (t : ThreadState) (addr : Address) (data : Nat → Byte) (flags : BitVec 32)
    (size : Nat) : (t.addBigChange addr data flags size).log.length ≤ t.log.length + size := by
  induction size using Nat.strong_induction_on generalizing t addr data with
  | _ size ih =>
    rw [ThreadState.addBigChange]
    split
    next whole =>
      have rest := ih (size - 8) (by omega) (t.addChange addr (wordAt data) (flags ||| 64)) (addr + 8)
        (fun k => data (k + 8))
      have grown : (t.addChange addr (wordAt data) (flags ||| 64)).log.length = t.log.length + 1 := by
        simp [ThreadState.addChange]
      omega
    next =>
      split
      next some =>
        simp only [ThreadState.addChange, List.length_append, List.length_singleton]
        omega
      next => omega

private theorem storeAndSet_executes (memory : Address → Byte) (thread : Thread)
    (sentinel : thread.writeeaScratchReg = WRITEEA_SENTINEL) :
    ∃ thread', storeAndSet.execute wholeImage 3 memory thread = some thread' ∧
      thread'.state.log.length ≤ thread.state.log.length + 11 := by
  let started : ThreadState := recordStart thread.state 3 0x400000 3
  obtain ⟨read, reads, few⟩ : ∃ t, recordMemRead memory started ⟨0x601050, 4, Vector.replicate sizeofValue 0⟩ =
      some t ∧ t.log.length ≤ started.log.length + 4 :=
    ⟨_, (recordMemRead_eq _ _ _).trans (if_pos (by decide)), length_addBigChange _ _ _ _ 4⟩
  let regs := storeAndSet.regsAfter thread.regs
  let set : ThreadState := read.addBigChange 0 (Part.word.bytes (regs 0)) IS_WRITE 4
  obtain ⟨written, writes, few'⟩ : ∃ t, recordMemWrite2 (storeAndSet.memoryAfter memory)
      (Vector.replicate sizeofValue 0) set 0x601040 2 = some t ∧ t.log.length ≤ set.log.length + 2 :=
    ⟨_, (recordMemWrite2_eq _ _ _ _ _).trans (if_pos (by decide)), length_addBigChange _ _ _ _ 2⟩
  have put : recordMemWrite1 0x601040 thread.writeeaScratchReg = some 0x601040 := if_pos sentinel
  have before : storeAndSet.recordBefore wholeImage 3 thread.regs memory thread.state thread.writeeaScratchReg =
      some (read, 0x601040) := by
    have only : recordMemReads started memory storeAndSet.memReads = some read := by
      change (recordMemRead memory started _).bind some = some read
      rw [reads, Option.bind_some]
    change ((recordMemReads started memory storeAndSet.memReads).bind fun t =>
      (recordMemWrite1 0x601040 thread.writeeaScratchReg).bind fun scratch => some (t, scratch)) = _
    rw [only, put]
    rfl
  have after : storeAndSet.recordAfter wholeImage regs (storeAndSet.memoryAfter memory) read 0x601040 =
      some (written, WRITEEA_SENTINEL) := by
    change (recordMemWrite2 (storeAndSet.memoryAfter memory) (Vector.replicate sizeofValue 0) set 0x601040 2).map
      (fun t => (t, WRITEEA_SENTINEL)) = _
    rw [writes, Option.map_some]
  refine ⟨⟨written, regs, WRITEEA_SENTINEL⟩, ?_, ?_⟩
  · unfold Instruction.execute
    rw [before]
    change (storeAndSet.recordAfter wholeImage regs (storeAndSet.memoryAfter memory) read 0x601040).bind _ = _
    rw [after]
    rfl
  · have begun : started.log.length = thread.state.log.length + 1 := by
      simp [started, recordStart, ThreadState.addChange]
    have grown : set.log.length ≤ read.log.length + 4 :=
      length_addBigChange read 0 (Part.word.bytes (regs 0)) IS_WRITE 4
    change written.log.length ≤ _
    omega

private theorem storeThenRead_ran : ∃ p thread t,
    run (Process.step wholeImage) (Process.start 1 (fun _ => 0)) storeThenRead = some p ∧
      p.threads[0]? = some thread ∧ Ingested x64 thread.state.log t := by
  let first : Thread := ⟨⟨1, []⟩, fun _ => 0, WRITEEA_SENTINEL⟩
  let second : Thread := ⟨⟨2, []⟩, fun _ => 0, WRITEEA_SENTINEL⟩
  obtain ⟨stored, executes, few⟩ := storeAndSet_executes (fun _ => 0) first rfl
  let memory := overwrite (storeAndSet.memoryAfter (fun _ => 0)) (laid 0x601041 (fun _ => 7) 1)
  let jumped : Thread := ⟨recordStart second.state 4 jumpBack.ip jumpBack.size, fun _ => 0, WRITEEA_SENTINEL⟩
  obtain ⟨state, exits, few'⟩ : ∃ state, recordMemWrite2 memory (Vector.replicate sizeofValue 0) stored.state
      0x601041 1 = some state ∧ state.log.length ≤ stored.state.log.length + 1 :=
    ⟨_, (recordMemWrite2_eq _ _ _ _ _).trans (if_pos (by decide)), length_addBigChange _ _ _ _ 1⟩
  have room : state.log.length + 1 + BATCH.toNat ≤ 2 ^ 32 := by
    change state.log.length + 1 + 1000000 ≤ 4294967296
    change stored.state.log.length ≤ 0 + 11 at few
    omega
  obtain ⟨t, ingested⟩ := exists_ingested x64 state.log room
  have stores : Process.step wholeImage ⟨3, fun _ => 0, [first, second]⟩ (.instruction 0 storeAndSet) =
      some ⟨4, storeAndSet.memoryAfter (fun _ => 0), [stored, second]⟩ := by
    change (storeAndSet.execute wholeImage 3 (fun _ => 0) first).bind _ = _
    rw [executes]
    rfl
  have jumps : Process.step wholeImage ⟨4, storeAndSet.memoryAfter (fun _ => 0), [stored, second]⟩
      (.instruction 1 jumpBack) = some ⟨5, storeAndSet.memoryAfter (fun _ => 0), [stored, jumped]⟩ := rfl
  have returns : Process.step wholeImage ⟨5, storeAndSet.memoryAfter (fun _ => 0), [stored, jumped]⟩
      (.readReturns 0 #v[0, 0x601041, 512, 0, 0, 0] 1 (fun _ => 7) (Vector.replicate sizeofValue 0)) =
      some ⟨5, memory, [{ stored with state }, jumped]⟩ := by
    change (recordMemWrite2 memory (Vector.replicate sizeofValue 0) stored.state 0x601041 1).bind _ = _
    rw [exits]
    rfl
  have ran : run (Process.step wholeImage) ⟨3, fun _ => 0, [first, second]⟩ (storeThenRead.drop 2) =
      some ⟨5, memory, [{ stored with state }, jumped]⟩ := by
    change run _ _ [_, _, _] = _
    rw [run_cons, stores, Option.bind_some, run_cons, jumps, Option.bind_some, run_cons, returns]
    rfl
  exact ⟨⟨5, memory, [{ stored with state }, jumped]⟩, _, t, ran, rfl, ingested⟩

theorem getByte_history_store : ∃ p thread t,
    run (Process.step wholeImage) (Process.start 1 (fun _ => 0)) storeThenRead = some p ∧
      p.threads[0]? = some thread ∧ Ingested x64 thread.state.log t ∧
      (t.getByte 3 0x601041 =
          (memoryLastSeen wholeImage 1 (fun _ => 0) storeThenRead 0 3 0x601041).elim 0
            (fun d => MEMORY_VALID ||| d.setWidth 16) ∧
        ((∀ event ∈ storeThenRead, LeavesMemory 0 event) →
          memoryLastSeen wholeImage 1 (fun _ => 0) storeThenRead 0 3 0x601041 = none ∨
          memoryLastSeen wholeImage 1 (fun _ => 0) storeThenRead 0 3 0x601041 =
            memoryAsOf wholeImage 1 (fun _ => 0) storeThenRead 0 3 0x601041)) ∧
      ∀ event ∈ storeThenRead, LeavesMemory 0 event := by
  obtain ⟨p, thread, t, ran, present, ingested⟩ := storeThenRead_ran
  have logged : ∀ event ∈ storeThenRead, event.WritesLogged := by
    simp [storeThenRead, Event.WritesLogged, Instruction.WritesLogged, Instruction.reachesWrites, storeAndSet, jumpBack]
  exact ⟨p, thread, t, ran, present, ingested,
    getByte_history (by decide) logged ran present t ingested 3 0x601041,
    by simp [storeThenRead, LeavesMemory, jumpBack]⟩

end Qira.PinHistory
