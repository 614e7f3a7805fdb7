import Qira.Library.Dictionaries
import Qira.Library.Machines

/-!
The names of `Static`: the `name` tag of each address, and the reverse index from names to addresses.
`set_name` puts underscores behind a name that another address holds; nothing ever leaves the index.
-/

namespace Qira.StaticNames
open Library.Dictionaries Library.Machines

structure Names where
  tag : Int → Option String
  rnames : Dict String Int

def Names.empty : Names := ⟨fun _ => none, ∅⟩

/-- The name and the index that `set_name` leaves. -/
def setName (rnames : Dict String Int) (address : Int) (name : String) : String × Dict String Int :=
  match _found : rnames.lookup name with
  | none => (name, rnames.insert name address)
  | some holder =>
      if address ≠ holder then setName rnames address (name ++ "_") else (name, rnames)
termination_by (rnames.keys.filter (fun key => name.length ≤ key.length)).length
decreasing_by
  have member : name ∈ rnames.keys :=
    AList.mem_keys.mp (AList.lookup_isSome.mp (Option.isSome_iff_exists.mpr ⟨holder, _found⟩))
  have longer : (name ++ "_").length = name.length + 1 := by
    rw [String.length_append]
    rfl
  have narrower : rnames.keys.filter (fun key => (name ++ "_").length ≤ key.length) =
      (rnames.keys.filter (fun key => name.length ≤ key.length)).filter
        (fun key => name.length + 1 ≤ key.length) := by
    rw [List.filter_filter, longer]
    apply List.filter_congr
    intro key _
    rw [← Bool.decide_and]
    exact decide_eq_decide.mpr ⟨fun above => ⟨above, by omega⟩, And.left⟩
  rw [narrower]
  apply List.length_filter_lt_length_iff_exists.mpr
  exact ⟨name, List.mem_filter.mpr ⟨member, by simp⟩, by simp⟩

/-- `Tags.__setitem__` for the tag `name`. -/
def Names.setItem (s : Names) (address : Int) (val : String) : Names :=
  let set := setName s.rnames address val
  ⟨Function.update s.tag address (some set.1), set.2⟩

/-- `Tags.__delitem__` for the tag `name`. -/
def Names.delItem (s : Names) (address : Int) : Names :=
  { s with tag := Function.update s.tag address none }

/-- A missing name and an empty one are both false. -/
def Names.autoUpdateName (s : Names) (address : Int) (name : String) : Names :=
  if s.tag address = none ∨ s.tag address = some "" then s.setItem address name else s

def Names.getAddressByName (s : Names) (name : String) : Option Int := s.rnames.lookup name

/-- A name followed by underscores. -/
def underscored (name : String) (count : Nat) : String :=
  name ++ String.ofList (List.replicate count '_')

/-- The name is not in the index, or belongs to the address. -/
def Available (rnames : Dict String Int) (address : Int) (name : String) : Prop :=
  rnames.lookup name = none ∨ rnames.lookup name = some address

theorem underscored_zero (name : String) : underscored name 0 = name := by
  simp [underscored]

theorem underscored_succ (name : String) (count : Nat) :
    underscored (name ++ "_") count = underscored name (count + 1) := by
  apply String.toList_injective
  simp [underscored, List.replicate_succ]

theorem setName_free (rnames : Dict String Int) (address : Int) (name : String)
    (free : rnames.lookup name = none) :
    setName rnames address name = (name, rnames.insert name address) := by
  unfold setName
  split
  next => rfl
  next holder found => rw [free] at found; cases found

theorem setName_taken (rnames : Dict String Int) (address holder : Int) (name : String)
    (found : rnames.lookup name = some holder) :
    setName rnames address name =
      if address ≠ holder then setName rnames address (name ++ "_") else (name, rnames) := by
  rw [setName]
  split
  next free => rw [found] at free; cases free
  next other found' =>
    obtain rfl := Option.some.inj (found.symm.trans found')
    rfl

/-- `set_name` gives the name with as few underscores as make it available, registers it, and leaves
the rest of the index. -/
theorem setName_spec (rnames : Dict String Int) (address : Int) (name : String) :
    ∃ count, (setName rnames address name).1 = underscored name count ∧
      Available rnames address (underscored name count) ∧
      (∀ fewer < count, ¬ Available rnames address (underscored name fewer)) ∧
      (∀ other, (setName rnames address name).2.lookup other =
        if other = underscored name count then some address else rnames.lookup other) := by
  induction name using setName.induct rnames address with
  | case1 name free =>
    refine ⟨0, ?_, ?_, by simp, ?_⟩
    · rw [setName_free _ _ _ free, underscored_zero]
    · rw [underscored_zero]
      exact Or.inl free
    · intro other
      rw [setName_free _ _ _ free, underscored_zero]
      by_cases same : other = name
      · rw [if_pos same, same, AList.lookup_insert]
      · rw [if_neg same, AList.lookup_insert_ne same]
  | case2 name holder found other ih =>
    obtain ⟨count, result, available, least, index⟩ := ih
    rw [setName_taken _ _ _ _ found, if_pos other]
    rw [underscored_succ] at result available
    refine ⟨count + 1, result, available, ?_, ?_⟩
    · intro fewer below
      cases fewer with
      | zero =>
        rw [underscored_zero, Available, found]
        rintro (free | own)
        · cases free
        · exact other (Option.some.inj own).symm
      | succ fewer =>
        rw [← underscored_succ]
        exact least fewer (by omega)
    · simpa only [underscored_succ] using index
  | case3 name holder found own =>
    obtain rfl := not_not.mp own
    rw [setName_taken _ _ _ _ found, if_neg own]
    refine ⟨0, (underscored_zero name).symm, ?_, by simp, ?_⟩
    · rw [underscored_zero]
      exact Or.inr found
    · intro other
      rw [underscored_zero]
      by_cases same : other = name
      · rw [if_pos same, same, found]
      · rw [if_neg same]

inductive Action
  | set (address : Int) (name : String)
  | auto (address : Int) (name : String)
  | delete (address : Int)

def Names.step (s : Names) : Action → Option Names
  | .set address name => some (s.setItem address name)
  | .auto address name => some (s.autoUpdateName address name)
  | .delete address => some (s.delItem address)

/-- Every name tag is in the index, for its own address. -/
def Registered (s : Names) : Prop :=
  ∀ address name, s.tag address = some name → s.getAddressByName name = some address

/-- Writing the name gives the address no other name than it may already have: it has none, or the
one that the name asked for leads to past the names of other addresses. -/
def KeepsName (s : Names) (address : Int) (name : String) : Prop :=
  s.tag address = none ∨ ∃ count, s.tag address = some (underscored name count) ∧
    ∀ fewer < count, ∃ holder ≠ address,
      s.getAddressByName (underscored name fewer) = some holder

/-- No step takes a name away from an address. -/
def NoNameAbandoned (s : Names) : Action → Prop
  | .set address name => KeepsName s address name
  | .auto address name =>
      (s.tag address ≠ none ∧ s.tag address ≠ some "") ∨ KeepsName s address name
  | .delete address => s.tag address = none

/-- Every entry of the index is the current name of its address. -/
def NothingStale (s : Names) : Prop :=
  ∀ name address, s.getAddressByName name = some address → s.tag address = some name

section Writes
variable {s t : Names}

theorem setItem_registered (registered : Registered s) (address : Int) (val : String) :
    Registered (s.setItem address val) := by
  obtain ⟨count, result, available, -, index⟩ := setName_spec s.rnames address val
  intro other name tagged
  change (setName s.rnames address val).2.lookup name = some other
  change Function.update s.tag address (some (setName s.rnames address val).1) other = _ at tagged
  rw [result] at tagged
  rw [index]
  by_cases same : other = address
  · subst same
    rw [Function.update_self] at tagged
    rw [if_pos (Option.some.inj tagged).symm]
  · rw [Function.update_of_ne same] at tagged
    have held : s.rnames.lookup name = some other := registered other name tagged
    by_cases taken : name = underscored val count
    · -- the name was available to `address`, so `other` cannot have held it
      rw [Available, ← taken, held] at available
      rcases available with free | own
      · cases free
      · exact absurd (Option.some.inj own) same
    · rw [if_neg taken, held]

theorem step_registered {action : Action} (registered : Registered s)
    (taken : s.step action = some t) : Registered t := by
  cases action with
  | set address name =>
    obtain rfl := Option.some.inj taken
    exact setItem_registered registered address name
  | auto address name =>
    obtain rfl := Option.some.inj taken
    unfold Names.autoUpdateName
    split
    · exact setItem_registered registered address name
    · exact registered
  | delete address =>
    obtain rfl := Option.some.inj taken
    intro other name tagged
    change Function.update s.tag address none other = _ at tagged
    by_cases same : other = address
    · subst same
      rw [Function.update_self] at tagged
      cases tagged
    · rw [Function.update_of_ne same] at tagged
      exact registered other name tagged

theorem not_available_iff (rnames : Dict String Int) (address : Int) (name : String) :
    ¬ Available rnames address name ↔ ∃ holder ≠ address, rnames.lookup name = some holder := by
  unfold Available
  cases rnames.lookup name with
  | none => simp
  | some holder => simp

theorem first_available_unique {rnames : Dict String Int} {address : Int} {name : String} {m n : Nat}
    (here : Available rnames address (underscored name m))
    (first : ∀ fewer < m, ¬ Available rnames address (underscored name fewer))
    (there : Available rnames address (underscored name n))
    (least : ∀ fewer < n, ¬ Available rnames address (underscored name fewer)) : m = n := by
  rcases lt_trichotomy m n with less | equal | more
  · exact absurd here (least m less)
  · exact equal
  · exact absurd there (first n more)

/-- Writing a name leaves nothing stale exactly if it takes no name away. -/
theorem setItem_nothingStale_iff (registered : Registered s) (nothing : NothingStale s)
    (address : Int) (val : String) :
    NothingStale (s.setItem address val) ↔ KeepsName s address val := by
  obtain ⟨count, result, available, least, index⟩ := setName_spec s.rnames address val
  have tag : (s.setItem address val).tag =
      Function.update s.tag address (some (underscored val count)) := by
    rw [← result]
    rfl
  have lookup : ∀ name, (s.setItem address val).getAddressByName name =
      if name = underscored val count then some address else s.getAddressByName name := index
  constructor
  · intro after
    cases held : s.tag address with
    | none => exact Or.inl held
    | some old =>
      have inIndex := registered address old held
      have same : old = underscored val count := by
        by_contra renamed
        have stale := after old address (by rw [lookup, if_neg renamed, inIndex])
        rw [tag, Function.update_self] at stale
        exact renamed (Option.some.inj stale).symm
      refine Or.inr ⟨count, by rw [held, same], ?_⟩
      intro fewer below
      exact (not_available_iff _ _ _).mp (least fewer below)
  · intro keeps name other found
    rw [lookup] at found
    rw [tag]
    by_cases new : name = underscored val count
    · rw [if_pos new] at found
      rw [← Option.some.inj found, Function.update_self, new]
    · rw [if_neg new] at found
      have old := nothing name other found
      by_cases same : other = address
      · -- then the address had a name already, and it is the new one
        subst same
        rcases keeps with unnamed | ⟨count', held, below⟩
        · rw [old] at unnamed
          cases unnamed
        · have own : Available s.rnames other (underscored val count') := Or.inr (registered _ _ held)
          have below' := fun fewer less => (not_available_iff _ _ _).mpr (below fewer less)
          have equal : count' = count := first_available_unique own below' available least
          rw [held, equal] at old
          exact absurd (Option.some.inj old).symm new
      · rw [Function.update_of_ne same, old]

theorem step_nothingStale_iff {action : Action} (registered : Registered s)
    (nothing : NothingStale s) (taken : s.step action = some t) :
    NothingStale t ↔ NoNameAbandoned s action := by
  cases action with
  | set address name =>
    obtain rfl := Option.some.inj taken
    exact setItem_nothingStale_iff registered nothing address name
  | auto address name =>
    obtain rfl := Option.some.inj taken
    unfold Names.autoUpdateName NoNameAbandoned
    by_cases unnamed : s.tag address = none ∨ s.tag address = some ""
    · rw [if_pos unnamed, setItem_nothingStale_iff registered nothing address name]
      exact (or_iff_right (fun named => unnamed.elim named.1 named.2)).symm
    · rw [if_neg unnamed]
      exact iff_of_true nothing (Or.inl (not_or.mp unnamed))
  | delete address =>
    obtain rfl := Option.some.inj taken
    constructor
    · intro after
      by_contra named
      obtain ⟨name, held⟩ := Option.ne_none_iff_exists'.mp named
      have stale := after name address (registered address name held)
      change Function.update s.tag address none address = _ at stale
      rw [Function.update_self] at stale
      cases stale
    · intro unnamed name other found
      change Function.update s.tag address none other = _
      have kept := nothing name other found
      rw [Function.update_of_ne (fun same => by rw [same, unnamed] at kept; cases kept), kept]

theorem run_returns (actions : List Action) : ∃ t, run Names.step s actions = some t := by
  induction actions generalizing s with
  | nil => exact ⟨s, rfl⟩
  | cons action rest ih => cases action <;> exact ih

end Writes

theorem empty_registered : Registered Names.empty := nofun

theorem empty_nothingStale : NothingStale Names.empty := nofun

/-- Names are unique and resolvable. After any sequence of writes, `set_name` answers every request
with the least number of underscores that leads to a name unused or the address's own, which a write
gives to the address and to no other, no two addresses have one name, and each name leads back to its
address. -/
theorem names_unique (actions : List Action) :
    ∃ s, run Names.step Names.empty actions = some s ∧
      (∀ address name, ∃ count t, (setName s.rnames address name).1 = underscored name count ∧
        s.step (.set address name) = some t ∧
        t.tag = Function.update s.tag address (some (underscored name count)) ∧
        Available s.rnames address (underscored name count) ∧
        ∀ fewer < count, ¬ Available s.rnames address (underscored name fewer)) ∧
      (∀ a b name, s.tag a = some name → s.tag b = some name → a = b) ∧
      ∀ a name, s.tag a = some name → s.getAddressByName name = some a := by
  obtain ⟨s, ran⟩ := run_returns actions
  have registered : Registered s := run_invariant Registered
    (fun _ _ _ registered taken => step_registered registered taken) empty_registered ran
  refine ⟨s, ran, ?_, ?_, registered⟩
  · intro address name
    obtain ⟨count, result, available, least, -⟩ := setName_spec s.rnames address name
    have tag : (s.setItem address name).tag = Function.update s.tag address (some (underscored name count)) :=
      result ▸ rfl
    exact ⟨count, _, result, rfl, tag, available, least⟩
  · intro a b name first second
    exact Option.some.inj ((registered a name first).symm.trans (registered b name second))

/-- The index is never stale, in any state of a run, exactly if no step of the run takes a name away:
by giving its address another one, or by deleting the tag. -/
theorem nothingStale_iff_noNameAbandoned (actions : List Action) :
    Always Names.step NothingStale Names.empty actions ↔
      Along Names.step NoNameAbandoned Names.empty actions := by
  obtain ⟨s, ran⟩ := run_returns actions
  exact always_iff_along Registered NothingStale NoNameAbandoned
    (fun _ _ _ registered taken => step_registered registered taken)
    (fun _ _ _ registered nothing taken => step_nothingStale_iff registered nothing taken)
    empty_registered empty_nothingStale ran

/-- A renamed address: the old name still leads to it, and another address that asks for the name is
given one with an underscore. -/
theorem renamed_goes_stale :
    ∃ s, run Names.step Names.empty [.set 1 "f", .set 1 "main"] = some s ∧
      s.getAddressByName "f" = some 1 ∧ s.tag 1 = some "main" ∧
      (setName s.rnames 2 "f").1 = "f_" ∧ ¬ NothingStale s := by
  have first : setName ∅ 1 "f" = ("f", AList.insert "f" 1 ∅) := setName_free _ _ _ rfl
  have second : setName (AList.insert "f" 1 ∅) 1 "main" =
      ("main", AList.insert "main" 1 (AList.insert "f" 1 ∅)) :=
    setName_free _ _ _ (by rw [AList.lookup_insert_ne (by decide)]; rfl)
  have held : (AList.insert "main" 1 (AList.insert "f" 1 ∅) : Dict String Int).lookup "f" = some 1 := by
    rw [AList.lookup_insert_ne (by decide), AList.lookup_insert]
  have third : (setName (AList.insert "main" 1 (AList.insert "f" 1 ∅)) 2 "f").1 = "f_" := by
    rw [setName_taken _ _ _ _ held, if_pos (by decide), setName_free]
    · rfl
    · rw [AList.lookup_insert_ne (by decide), AList.lookup_insert_ne (by decide)]
      rfl
  have ran : run Names.step Names.empty [.set 1 "f", .set 1 "main"] =
      some ⟨Function.update (Function.update (fun _ => none) 1 (some "f")) 1 (some "main"),
        AList.insert "main" 1 (AList.insert "f" 1 ∅)⟩ := by
    simp only [run_cons, run_nil, Names.step, Names.setItem, Names.empty, first, second,
      Option.bind_some]
  refine ⟨_, ran, held, rfl, third, ?_⟩
  intro nothing
  have current : some "main" = some "f" := nothing "f" 1 held
  exact absurd (Option.some.inj current) (by decide)

end Qira.StaticNames
