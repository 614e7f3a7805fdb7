import Qira.Library.Dictionaries
import Qira.Library.Neighbours
import Qira.Library.Repetitions

/-!
The flags of the timeline. The server sends the changelists that an address is accessed at, of many only some and the
ones around the current changelist; the client keeps them as flags, and moves from flag to flag.
-/

namespace Qira.TimelineFlags
open Library.Dictionaries Library.Neighbours Library.Repetitions

/-- The variables of the loop of `getchanges`. -/
structure Thinning where
  send : List Int
  bisect : Nat
  last : Option Int
  cnt : Nat

/-- `send.add` -/
def add (send : List Int) (cl : Int) : List Int := if cl ∈ send then send else send ++ [cl]

def Thinning.element (cscale : ℚ) (clnum : Int) (t : Thinning) (cl : Int) : Thinning :=
  let t := { t with bisect := if cl ≤ clnum then t.cnt else t.bisect, cnt := t.cnt + 1 }
  if t.last.any (fun last => ((cl - last : Int) : ℚ) < cscale) then t
  else { t with send := add t.send cl, last := some cl }

def thin (cscale : ℚ) (clnum : Int) (db : List Int) : Thinning :=
  db.foldl (Thinning.element cscale clnum) ⟨[], 0, none, 0⟩

/-- The clnum and the bunch closest on each side. -/
def closest (bisect : Nat) (db : List Int) : List Int := slice db (bisect - 4) (min db.length (bisect + 5))

/-- What `getchanges` sends of the hits of a fork; a set is listed in any order. -/
def sendClnums (order : Order) (cscale : ℚ) (clnum : Int) (db : List Int) : List Int :=
  if 50 < db.length then
    let t := thin cscale clnum db
    order.walk ((closest t.bisect db).foldl add t.send)
  else db

inductive FlagType
  | bounds
  | change
  | ciaddr
  | daddrr
  | daddrw
  | slice
  | zoom
  deriving DecidableEq

/-- The flags by fork and changelist. -/
abbrev Flags := Dict (Int × Int) (List FlagType)

def addFlag (type : FlagType) (forknum clnum : Int) (flags : Flags) : Flags :=
  flags.insert (forknum, clnum) ((flags.lookup (forknum, clnum)).getD [] ++ [type])

/-- The loop body of `remove_flags`. -/
def removeFlag (type : FlagType) (forknum : Option Int) (flags : Flags) (arr : Int × Int) (types : List FlagType) :
    Flags :=
  if forknum ≠ none ∧ forknum ≠ some arr.1 then flags
  else if types.filter (· ≠ type) = [] then flags.erase arr
  else flags.insert arr (types.filter (· ≠ type))

def removeFlags (type : FlagType) (forknum : Option Int) (flags : Flags) : Flags :=
  flags.foldl (removeFlag type forknum) flags

/-- The types of accesses that the client asks for. -/
inductive AccessType
  | I
  | L
  | S
  deriving DecidableEq

def AccessType.char : AccessType → Char
  | .I => 'I'
  | .L => 'L'
  | .S => 'S'

def AccessType.flag : AccessType → FlagType
  | .I => .ciaddr
  | .L => .daddrr
  | .S => .daddrw

/-- What the client has of the session for its timeline. -/
structure Client where
  flags : Flags
  forknum : Int
  clnum : Int
  dirtyiaddr : Bool

/-- The first of the clnums that are nearest to one. -/
def nearest (clnum : Int) (clnums : List Int) : Option Int :=
  (clnums.foldl (fun (best : Option Int × Int) c =>
    if best.1 = none ∨ best.2 > |c - clnum| then (some c, |c - clnum|) else best) (none, 0)).1

/-- Moves to the nearest change if these are instructions and the current one is not in the list. -/
def Client.follow (c : Client) (type : AccessType) (clnums : Dict Int (List Int)) : Client :=
  match clnums.lookup c.forknum with
  | none => c
  | some hits =>
      if type = .I ∧ c.clnum ∉ hits ∧ c.dirtyiaddr then
        { c with clnum := (nearest c.clnum hits).getD c.clnum, dirtyiaddr := false }
      else c

/-- `on_changes` -/
def Client.onChanges (order : Order) (c : Client) (type : AccessType) (clnums : Dict Int (List Int)) : Client :=
  { c.follow type clnums with
    flags := (order.walk clnums.entries).foldl (fun flags fork =>
      fork.2.foldl (fun flags clnum => addFlag type.flag fork.1 clnum flags) flags) (removeFlags type.flag none c.flags) }

/-- The types that navigation looks for. -/
def sought (data : Bool) (types : List FlagType) : Bool :=
  if data then .daddrr ∈ types ∨ .daddrw ∈ types else .ciaddr ∈ types

/-- The loop body of `go_to_flag`, for the flag of a key. -/
def flagged (gclnum gforknum : Int) (data : Bool) (flag : Sigma fun _ : Int × Int => List FlagType) : Option Int :=
  if flag.1.2 = gclnum then none
  else if sought data flag.2 ∧ flag.1.1 = gforknum then some flag.1.2 else none

/-- Where `go_to_flag` moves to; keys are listed in any order. -/
def goToFlag (order : Order) (flags : Flags) (gclnum gforknum : Int) (next data : Bool) : Option Int :=
  let cls := gclnum :: (order.walk flags.entries).filterMap (flagged gclnum gforknum data)
  let cls := cls.mergeSort (· ≤ ·)
  let idx := cls.idxOf gclnum
  if next then cls[idx + 1]? else if idx = 0 then none else cls[idx - 1]?

/-- The changelists of the fork with flags that navigation looks for are exactly the hits. -/
def Holds (flags : Flags) (forknum : Int) (data : Bool) (hits : List Int) : Prop :=
  ∀ c, (∃ types, flags.lookup (forknum, c) = some types ∧ sought data types = true) ↔ c ∈ hits

section Navigation
variable {order : Order} {flags : Flags} {gclnum gforknum : Int} {data : Bool} {hits : List Int}

/-- Navigation moves to the neighbour among the hits that the client holds. -/
theorem goToFlag_iff (holds : Holds flags gforknum data hits) (next : Bool) (r : Int) :
    goToFlag order flags gclnum gforknum next data = some r ↔ Neighbour {c | c ∈ hits} gclnum next r := by
  let others := (order.walk flags.entries).filterMap (flagged gclnum gforknum data)
  have member : ∀ c, c ∈ others ↔ c ≠ gclnum ∧ c ∈ hits := by
    intro c
    rw [← holds c, List.mem_filterMap]
    constructor
    · rintro ⟨⟨⟨forknum, clnum⟩, types⟩, entry, found⟩
      have lookup := (mem_walk order flags _ _).mp entry
      obtain ⟨apart, found⟩ := Option.ite_none_left_eq_some.mp found
      obtain ⟨⟨match', rfl⟩, same⟩ := Option.ite_none_right_eq_some.mp found
      obtain rfl := Option.some.inj same
      exact ⟨apart, types, lookup, match'⟩
    · rintro ⟨apart, types, lookup, match'⟩
      refine ⟨⟨(gforknum, c), types⟩, (mem_walk order flags _ _).mpr lookup, ?_⟩
      rw [flagged, if_neg apart, if_pos ⟨match', rfl⟩]
  have apart : gclnum ∉ others := fun inside => ((member gclnum).mp inside).1 rfl
  have ordered := @List.pairwise_mergeSort Int (fun a b => decide (a ≤ b))
    (fun a b c first second => by simp only [decide_eq_true_eq] at *; omega)
    (fun a b => by simp only [Bool.or_eq_true, decide_eq_true_eq]; omega) (gclnum :: others)
  have beside := beside_iff (List.mergeSort_perm (gclnum :: others) _) (by simpa using ordered) apart next r
  refine beside.trans (neighbour_ext (fun c apart => ?_) next r)
  exact (member c).trans (and_iff_right apart)

end Navigation

section Thinning
variable {cscale : ℚ} {clnum : Int} {db : List Int}

theorem mem_add (send : List Int) (cl c : Int) : c ∈ add send cl ↔ c ∈ send ∨ c = cl := by
  unfold add
  split
  next inside => exact (or_iff_left_of_imp fun same => same ▸ inside).symm
  next => rw [List.mem_append, List.mem_singleton]

theorem mem_foldl_add (send more : List Int) (c : Int) : c ∈ more.foldl add send ↔ c ∈ send ∨ c ∈ more := by
  induction more generalizing send with
  | nil => simp
  | cons cl rest ih => rw [List.foldl_cons, ih, mem_add, List.mem_cons, or_assoc]

/-- What the loop knows of the hits it has passed. -/
structure Thinned (cscale : ℚ) (clnum : Int) (front : List Int) (t : Thinning) : Prop where
  count : t.cnt = front.length
  subset : ∀ c ∈ t.send, c ∈ front
  last : ∀ l, t.last = some l → l ∈ t.send
  dense : ∀ c ∈ front, c ∈ t.send ∨ ∃ s ∈ t.send, s ≤ c ∧ ((c - s : Int) : ℚ) ≤ cscale
  below : ∀ k x, front[k]? = some x → x ≤ clnum → k ≤ t.bisect
  place : t.bisect = 0 ∨ ∃ x, front[t.bisect]? = some x ∧ x ≤ clnum

/-- The place of the cursor after one more hit. -/
theorem Thinned.bisected {front : List Int} {t : Thinning} (thinned : Thinned cscale clnum front t) (cl : Int) :
    (∀ k x, (front ++ [cl])[k]? = some x → x ≤ clnum → k ≤ if cl ≤ clnum then t.cnt else t.bisect) ∧
      ((if cl ≤ clnum then t.cnt else t.bisect) = 0 ∨
        ∃ x, (front ++ [cl])[if cl ≤ clnum then t.cnt else t.bisect]? = some x ∧ x ≤ clnum) := by
  have count := thinned.count
  constructor
  · intro k x found small
    rcases Nat.lt_or_ge k front.length with inside | behind
    · rw [List.getElem?_append_left inside] at found
      have early := thinned.below k x found small
      split <;> omega
    · rw [List.getElem?_append_right behind] at found
      obtain ⟨here, -⟩ := List.getElem?_eq_some_iff.mp found
      have zero : k - front.length = 0 := Nat.lt_one_iff.mp here
      rw [zero] at found
      obtain rfl := Option.some.inj found
      rw [if_pos small]
      omega
  · split
    next small => exact .inr ⟨cl, by rw [count, List.getElem?_concat_length], small⟩
    next =>
      refine thinned.place.imp_right fun ⟨x, found, small⟩ => ⟨x, ?_, small⟩
      rw [List.getElem?_append_left (List.getElem?_eq_some_iff.mp found).1, found]

theorem Thinned.element {front : List Int} {t : Thinning} (thinned : Thinned cscale clnum front t) {cl : Int}
    (above : ∀ c ∈ front, c < cl) : Thinned cscale clnum (front ++ [cl]) (t.element cscale clnum cl) := by
  obtain ⟨below', place'⟩ := thinned.bisected cl
  obtain ⟨count, subset, last, dense, -, -⟩ := thinned
  have older : ∀ c, c ∈ front → c ∈ front ++ [cl] := fun c inside => List.mem_append_left [cl] inside
  unfold Thinning.element
  dsimp only
  split
  next near =>
    obtain ⟨l, isLast, close⟩ := (Option.any_eq_true _ _).mp near
    have close := of_decide_eq_true close
    refine ⟨by rw [count, List.length_append]; rfl, fun c inside => older c (subset c inside), last, ?_, below', place'⟩
    intro c inside
    rcases List.mem_append.mp inside with old | new
    · exact dense c old
    · obtain rfl := List.mem_singleton.mp new
      exact .inr ⟨l, last l isLast, (above l (subset l (last l isLast))).le, close.le⟩
  next =>
    refine ⟨by rw [count, List.length_append]; rfl, fun c inside => ?_, fun l isLast => ?_, ?_, below', place'⟩
    · rcases (mem_add _ _ _).mp inside with old | rfl
      · exact older c (subset c old)
      · exact List.mem_append_right front (List.mem_singleton_self c)
    · exact (mem_add _ _ _).mpr (.inr (Option.some.inj isLast).symm)
    · intro c inside
      rcases List.mem_append.mp inside with old | new
      · exact (dense c old).imp (fun sent => (mem_add _ _ _).mpr (.inl sent))
          fun ⟨s, sent, near⟩ => ⟨s, (mem_add _ _ _).mpr (.inl sent), near⟩
      · exact .inl ((mem_add _ _ _).mpr (.inr (List.mem_singleton.mp new)))

theorem thinned_thin (increasing : db.Pairwise (· < ·)) : Thinned cscale clnum db (thin cscale clnum db) := by
  induction db using List.reverseRecOn with
  | nil => exact ⟨rfl, nofun, nofun, nofun, nofun, .inl rfl⟩
  | append_singleton db cl ih =>
    obtain ⟨before, -, above⟩ := List.pairwise_append.mp increasing
    rw [thin, List.foldl_concat]
    exact (ih before).element fun c inside => above c inside cl (List.mem_singleton_self cl)

theorem mem_closest {bisect k : Nat} {x : Int} (found : db[k]? = some x) (early : bisect ≤ k + 1) (late : k ≤ bisect + 1) :
    x ∈ closest bisect db := by
  obtain ⟨inside, -⟩ := List.getElem?_eq_some_iff.mp found
  apply @List.mem_of_getElem? _ _ (k - (bisect - 4))
  rw [closest, slice, List.getElem?_take_of_lt (by omega), List.getElem?_drop, Nat.add_sub_cancel' (by omega), found]

/-- The neighbours of the current changelist are in the bunch around it. -/
theorem neighbour_closest {t : Thinning} (increasing : db.Pairwise (· < ·)) (thinned : Thinned cscale clnum db t)
    {next : Bool} {x : Int} (neighbour : Neighbour {c | c ∈ db} clnum next x) : x ∈ closest t.bisect db := by
  obtain ⟨k, found⟩ := List.mem_iff_getElem?.mp neighbour.mem
  obtain ⟨inside, here⟩ := List.getElem?_eq_some_iff.mp found
  have order := List.pairwise_iff_getElem.mp increasing
  cases next with
  | true =>
    obtain ⟨⟨-, greater⟩, least⟩ := neighbour
    refine mem_closest found ?_ ?_
    · rcases thinned.place with zero | ⟨y, found', small⟩
      · omega
      · by_contra late
        obtain ⟨inside', here'⟩ := List.getElem?_eq_some_iff.mp found'
        have later := order k t.bisect inside inside' (by omega)
        rw [here, here'] at later
        exact absurd (greater.trans later) small.not_gt
    · by_contra late
      have inside' : k - 1 < db.length := by omega
      have earlier := order (k - 1) k inside' inside (by omega)
      have small : db[k - 1] ≤ clnum := by
        by_contra large
        have first := least ⟨List.getElem_mem inside', not_le.mp large⟩
        rw [here] at earlier
        exact absurd earlier first.not_gt
      have upTo := thinned.below (k - 1) _ (List.getElem?_eq_getElem inside') small
      omega
  | false =>
    obtain ⟨⟨-, less⟩, greatest⟩ := neighbour
    refine mem_closest found ?_ ((thinned.below k x found less.le).trans (Nat.le_succ _))
    rcases thinned.place with zero | ⟨y, found', small⟩
    · omega
    · by_contra late
      obtain ⟨inside', here'⟩ := List.getElem?_eq_some_iff.mp found'
      have between : k + 1 < db.length := by omega
      have later := order k (k + 1) inside between (by omega)
      have small' := order (k + 1) t.bisect between inside' (by omega)
      rw [here'] at small'
      have last := greatest ⟨List.getElem_mem between, small'.trans_le small⟩
      rw [here] at later
      exact absurd later last.not_gt

theorem sendClnums_spec (order : Order) (increasing : db.Pairwise (· < ·)) :
    (∀ c ∈ sendClnums order cscale clnum db, c ∈ db) ∧
      (∀ c ∈ db, c ∈ sendClnums order cscale clnum db ∨
        ∃ s ∈ sendClnums order cscale clnum db, s ≤ c ∧ ((c - s : Int) : ℚ) ≤ cscale) ∧
      ∀ next x, Neighbour {c | c ∈ db} clnum next x → x ∈ sendClnums order cscale clnum db := by
  unfold sendClnums
  split
  next =>
    have thinned : Thinned cscale clnum db (thin cscale clnum db) := thinned_thin increasing
    have member : ∀ c, c ∈ order.walk ((closest (thin cscale clnum db).bisect db).foldl add (thin cscale clnum db).send) ↔
        c ∈ (thin cscale clnum db).send ∨ c ∈ closest (thin cscale clnum db).bisect db := fun c =>
      (order.perm _).mem_iff.trans (mem_foldl_add _ _ c)
    simp only [member]
    refine ⟨fun c sent => ?_, fun c inside => ?_, fun next x neighbour => .inr (neighbour_closest increasing thinned neighbour)⟩
    · rcases sent with kept | near
      · exact thinned.subset c kept
      · exact List.mem_of_mem_drop (List.mem_of_mem_take near)
    · exact (thinned.dense c inside).imp .inl fun ⟨s, sent, near⟩ => ⟨s, .inl sent, near⟩
  next => exact ⟨fun c inside => inside, fun c inside => .inl inside, fun next x neighbour => neighbour.mem⟩

end Thinning

/-- What is sent of the hits is enough to move to the next and the previous one, from wherever the client is. -/
theorem sendClnums_navigation (order : Order) {db : List Int} (increasing : db.Pairwise (· < ·)) (cscale : ℚ)
    (clnum : Int) :
    (∀ c ∈ sendClnums order cscale clnum db, c ∈ db) ∧
      (∀ c ∈ db, c ∈ sendClnums order cscale clnum db ∨
        ∃ s ∈ sendClnums order cscale clnum db, s ≤ c ∧ ((c - s : Int) : ℚ) ≤ cscale) ∧
      ∀ flags forknum data next, Holds flags forknum data (sendClnums order cscale clnum db) →
        (∀ r, goToFlag order flags clnum forknum next data = some r ↔ Neighbour {c | c ∈ db} clnum next r) ∧
          ∀ full, Holds full forknum data db →
            goToFlag order flags clnum forknum next data = goToFlag order full clnum forknum next data := by
  obtain ⟨subset, dense, kept⟩ := @sendClnums_spec cscale clnum db order increasing
  refine ⟨subset, dense, fun flags forknum data next holds => ?_⟩
  have moves : ∀ r, goToFlag order flags clnum forknum next data = some r ↔ Neighbour {c | c ∈ db} clnum next r := by
    intro r
    rw [goToFlag_iff holds]
    exact neighbour_congr subset db.finite_toSet (kept next) r
  refine ⟨moves, fun full holds' => ?_⟩
  apply Option.ext
  intro r
  exact (moves r).trans (goToFlag_iff holds' next r).symm

section Messages
variable {flags : Flags} {type other : FlagType}

/-- A changelist of a fork has a flag. -/
def Carries (flags : Flags) (type : FlagType) (forknum clnum : Int) : Prop :=
  ∃ types, flags.lookup (forknum, clnum) = some types ∧ type ∈ types

theorem carries_addFlag (forknum clnum f c : Int) :
    Carries (addFlag type forknum clnum flags) other f c ↔
      Carries flags other f c ∨ (type = other ∧ forknum = f ∧ clnum = c) := by
  unfold Carries addFlag
  by_cases same : (f, c) = (forknum, clnum)
  · obtain ⟨rfl, rfl⟩ := Prod.mk.inj same
    rw [AList.lookup_insert]
    cases flags.lookup (f, c) with
    | none => simp [eq_comm]
    | some types => simp [eq_comm]
  · rw [AList.lookup_insert_ne same]
    exact (or_iff_left fun key => same (Prod.ext key.2.1.symm key.2.2.symm)).symm

theorem lookup_removeFlags (flags : Flags) (arr : Int × Int) :
    (removeFlags type none flags).lookup arr =
      (flags.lookup arr).bind (fun types =>
        if types.filter (· ≠ type) = [] then none else some (types.filter (· ≠ type))) := by
  have walked := foldl_walk flags (removeFlag type none) (fun d k => d.lookup k)
    (fun _ types => if types.filter (· ≠ type) = [] then none else some (types.filter (· ≠ type))) (fun d a types k => by
      rw [removeFlag, if_neg fun key => key.1 rfl]
      by_cases same : k = a
      · subst same
        rw [if_pos rfl]
        split
        · exact AList.lookup_erase k d
        · exact AList.lookup_insert d
      · rw [if_neg same]
        split
        · exact AList.lookup_erase_ne same
        · exact AList.lookup_insert_ne same) flags arr
  refine walked.trans ?_
  cases flags.lookup arr with
  | none => rfl
  | some types => rfl

theorem carries_removeFlags (f c : Int) :
    Carries (removeFlags type none flags) other f c ↔ other ≠ type ∧ Carries flags other f c := by
  unfold Carries
  rw [lookup_removeFlags]
  cases flags.lookup (f, c) with
  | none => simp
  | some types =>
    rw [Option.bind_some]
    constructor
    · rintro ⟨left, kept, inside⟩
      obtain ⟨-, same⟩ := Option.ite_none_left_eq_some.mp kept
      obtain rfl := Option.some.inj same
      obtain ⟨inside, differ⟩ := List.mem_filter.mp inside
      exact ⟨of_decide_eq_true differ, types, rfl, inside⟩
    · rintro ⟨differ, types', same, inside⟩
      obtain rfl := Option.some.inj same
      have kept : other ∈ types.filter (· ≠ type) := List.mem_filter.mpr ⟨inside, decide_eq_true differ⟩
      exact ⟨_, if_neg (List.ne_nil_of_mem kept), kept⟩

theorem carries_foldl_addFlag (flags : Flags) (forknum : Int) (hits : List Int) (f c : Int) :
    Carries (hits.foldl (fun flags clnum => addFlag type forknum clnum flags) flags) other f c ↔
      Carries flags other f c ∨ (type = other ∧ forknum = f ∧ c ∈ hits) := by
  induction hits generalizing flags with
  | nil => simp
  | cons hit rest ih =>
    rw [List.foldl_cons, ih, carries_addFlag, or_assoc, List.mem_cons, eq_comm (a := c)]
    tauto

/-- After a message the flags of its type are exactly its clnums, and the others are as before. -/
theorem carries_onChanges (order : Order) (client : Client) (type : AccessType) (clnums : Dict Int (List Int))
    (other : FlagType) (f c : Int) :
    Carries (client.onChanges order type clnums).flags other f c ↔
      if other = type.flag then ∃ hits, clnums.lookup f = some hits ∧ c ∈ hits else Carries client.flags other f c := by
  have walked : ∀ (entries : List (Sigma fun _ : Int => List Int)) (flags : Flags),
      Carries (entries.foldl (fun flags fork =>
        fork.2.foldl (fun flags clnum => addFlag type.flag fork.1 clnum flags) flags) flags) other f c ↔
          Carries flags other f c ∨ (type.flag = other ∧ ∃ hits, ⟨f, hits⟩ ∈ entries ∧ c ∈ hits) := by
    intro entries
    induction entries with
    | nil => simp
    | cons fork rest ih =>
      intro flags
      obtain ⟨forknum, hits⟩ := fork
      rw [List.foldl_cons, ih, carries_foldl_addFlag, or_assoc]
      refine or_congr Iff.rfl ?_
      rw [← and_or_left]
      refine and_congr_right fun _ => ⟨?_, ?_⟩
      · rintro (⟨rfl, inside⟩ | ⟨hits', entry, inside⟩)
        · exact ⟨hits, List.mem_cons_self, inside⟩
        · exact ⟨hits', List.mem_cons_of_mem _ entry, inside⟩
      · rintro ⟨hits', entry, inside⟩
        rcases List.mem_cons.mp entry with here | later
        · cases here
          exact .inl ⟨rfl, inside⟩
        · exact .inr ⟨hits', later, inside⟩
  refine (walked _ _).trans ?_
  simp only [mem_walk, carries_removeFlags]
  split
  next same => simp [same]
  next differ =>
    rw [and_iff_right differ]
    exact or_iff_left fun key => differ key.1.symm

/-- So after a message about instructions the client holds its clnums. -/
theorem holds_onChanges (order : Order) (client : Client) {clnums : Dict Int (List Int)} {forknum : Int}
    {hits : List Int} (sent : clnums.lookup forknum = some hits) :
    Holds (client.onChanges order .I clnums).flags forknum false hits := by
  intro c
  have carried := carries_onChanges order client .I clnums .ciaddr forknum c
  rw [if_pos (show FlagType.ciaddr = AccessType.I.flag from rfl), sent] at carried
  unfold sought
  simp only [Bool.false_eq_true, if_false, decide_eq_true_eq]
  exact carried.trans ⟨fun ⟨_, same, inside⟩ => Option.some.inj same ▸ inside, fun inside => ⟨hits, rfl, inside⟩⟩

end Messages

/-- Sixty hits, two changelists apart. -/
def sixty : List Int := (List.range 60).map (fun k : Nat => 2 * (k : Int))

/-- Sets are listed as they were filled. -/
def filled : Order := ⟨id, fun _ => List.Perm.refl _⟩

/-- The client after the message about them, with the timeline zoomed out. -/
def zoomed : Client :=
  (⟨∅, 0, 31, false⟩ : Client).onChanges filled .I (ofPairs [(0, sendClnums filled 10 31 sixty)])

theorem sixty_increasing : sixty.Pairwise (· < ·) := by
  exact List.pairwise_map.mpr (List.pairwise_lt_range.imp fun less => by omega)

theorem sendClnums_navigation_sixty : goToFlag filled zoomed.flags 31 0 true false = some 32 := by
  have holds : Holds zoomed.flags 0 false (sendClnums filled 10 31 sixty) := by
    unfold zoomed
    exact holds_onChanges filled _ (lookup_ofPairs _ 0 _ (List.nodup_singleton 0) List.mem_cons_self)
  have moves := (sendClnums_navigation filled sixty_increasing 10 31).2.2 zoomed.flags 0 false true holds
  have next : ∀ y ∈ sixty, 31 < y → 32 ≤ y := by
    intro y inside above
    omega
  exact (moves.1 32).mpr ⟨⟨List.mem_map.mpr ⟨16, by decide, rfl⟩, by decide⟩, fun y inside => next y inside.1 inside.2⟩

end Qira.TimelineFlags
