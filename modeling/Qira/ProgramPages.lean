import Qira.TracePages
import Qira.Library.Numerals
import Qira.Library.Dictionaries

/-!
The page map shown to the user: each trace classifies its own pages, and `Program.get_pmaps` folds
those maps together in the order in which the dictionary of traces happens to be walked.
-/

namespace Qira.ProgramPages
open ChangeRecord TraceIndex TracePages Library.Words Library.Numerals Library.Dictionaries

inductive PageClass
  | instruction | memory | romemory
  deriving DecidableEq, Repr

/-- A dictionary from pages to their class. -/
abbrev Pmaps := Dict Address PageClass

/-- The class a page's bits give it, the first of the three tests that succeeds. -/
def classify (bits : Byte) : Option PageClass :=
  if bits &&& PAGE_INSTRUCTION ≠ 0 then some .instruction
  else if bits &&& PAGE_WRITE ≠ 0 then some .memory
  else if bits &&& PAGE_READ ≠ 0 then some .romemory
  else none

/-- `get_pmaps` of one trace. -/
def tracePmaps {cfg : Config} (t : Trace cfg) : Pmaps :=
  t.pages.toList.foldl
    (fun iit page => match classify page.2 with
      | some c => iit.insert page.1 c
      | none => iit) ∅

/-- The body of the inner loop of `Program.get_pmaps`. -/
def mergePage (ret : Pmaps) (a : Address) (c : PageClass) : Pmaps :=
  match ret.lookup a with
  | none => ret.insert a c
  | some .memory => ret.insert a c
  | some _ => ret

def mergePages (traces : List Pmaps) : Pmaps :=
  traces.foldl (fun ret pm => pm.foldl mergePage ret) ∅

/-- `hex(a).strip("L")`. -/
def ghex (a : Address) : String := String.ofList ('0' :: 'x' :: Nat.toDigits 16 a.toNat)

/-- `Program.get_pmaps`, for the page maps of the traces in the order they are walked. -/
def getPmaps (traces : List Pmaps) : Dict String PageClass :=
  (mergePages traces).foldl (fun rret k c => rret.insert (ghex k) c) ∅

/-- The classes the traces give a page, in the order they are walked. -/
def given (traces : List Pmaps) (a : Address) : List PageClass :=
  traces.filterMap (fun pm => pm.lookup a)

/-- The strongest of some classes, in the order of the tests of `classify`. -/
def strongest (classes : List PageClass) : Option PageClass :=
  if PageClass.instruction ∈ classes then some .instruction
  else if PageClass.memory ∈ classes then some .memory
  else if PageClass.romemory ∈ classes then some .romemory
  else none

/-- No page that one trace has as `romemory` has another class in another trace. -/
def RomemoryAlone (traces : List Pmaps) : Prop :=
  ∀ a, PageClass.romemory ∈ given traces a → ∀ c ∈ given traces a, c = .romemory

theorem ghex_injective (a b : Address) (same : ghex a = ghex b) : a = b := by
  have digits := String.ofList_injective same
  exact BitVec.eq_of_toNat_eq (toDigits_injective 16 (by decide) le_rfl _ _
    (List.cons.inj (List.cons.inj digits).2).2)

/-- What the merge does to one page. -/
def settle : Option PageClass → PageClass → Option PageClass
  | none, c => some c
  | some .memory, c => some c
  | some held, _ => some held

theorem lookup_mergePage (ret : Pmaps) (a page : Address) (c : PageClass) :
    (mergePage ret a c).lookup page =
      if page = a then settle (ret.lookup page) c else ret.lookup page := by
  unfold mergePage
  by_cases same : page = a
  · subst same
    rw [if_pos rfl]
    cases held : ret.lookup page with
    | none => simp [settle]
    | some c' => cases c' <;> simp [settle, held]
  · rw [if_neg same]
    cases held : ret.lookup a with
    | none => simp [AList.lookup_insert_ne same]
    | some c' => cases c' <;> simp [AList.lookup_insert_ne same]

/-- `get_pmaps` of a trace has the class of each page's bits. -/
theorem lookup_tracePmaps {cfg : Config} (t : Trace cfg) (page : Address) :
    (tracePmaps t).lookup page = t.pages[page]?.bind classify := by
  have nodup : (t.pages.toList.map
      (fun p => (⟨p.1, p.2⟩ : Sigma fun _ : Address => Byte))).NodupKeys := by
    rw [List.nodupKeys_iff_pairwise, List.pairwise_map]
    apply Std.TreeMap.distinct_keys_toList.imp
    intro a b apart same
    exact apart (Std.LawfulEqOrd.compare_eq_iff_eq.mpr same)
  have found : (t.pages.toList.map
      (fun p => (⟨p.1, p.2⟩ : Sigma fun _ : Address => Byte))).dlookup page = t.pages[page]? := by
    apply Option.ext
    intro bits
    rw [← Option.mem_def, List.mem_dlookup_iff nodup, List.mem_map,
      ← Std.TreeMap.mem_toList_iff_getElem?_eq_some]
    constructor
    · rintro ⟨entry, member, same⟩
      cases same
      exact member
    · exact fun member => ⟨(page, bits), member, rfl⟩
  have walked := entries_walk _ nodup
    (fun iit a bits => match classify bits with
      | some c => iit.insert a c
      | none => iit)
    (fun (iit : Pmaps) a => iit.lookup a) (fun held bits => (classify bits).or held)
    (by
      intro iit a bits k
      by_cases same : k = a
      · subst same
        cases classify bits <;> simp
      · cases classify bits <;> simp [same])
    ∅ page
  rw [List.foldl_map, found] at walked
  rw [tracePmaps, walked]
  cases t.pages[page]? <;> simp

/-- One page of the merge: the traces' classes for it, settled one after the other. -/
theorem lookup_mergePages (traces : List Pmaps) (page : Address) :
    (mergePages traces).lookup page = (given traces page).foldl settle none := by
  have folded : ∀ ret : Pmaps, (traces.foldl (fun ret pm => pm.foldl mergePage ret) ret).lookup page =
      (given traces page).foldl settle (ret.lookup page) := by
    induction traces with
    | nil => exact fun _ => rfl
    | cons pm rest ih =>
      intro ret
      have one := foldl_walk pm mergePage (fun ret page => ret.lookup page) settle
        (fun ret a c page => lookup_mergePage ret a page c) ret page
      rw [List.foldl_cons, ih, one]
      cases held : pm.lookup page with
      | none => simp [given, held]
      | some c => simp [given, held]
  exact folded ∅

theorem lookup_getPmaps (traces : List Pmaps) (page : Address) :
    (getPmaps traces).lookup (ghex page) = (mergePages traces).lookup page := by
  have renamed := foldl_walk (mergePages traces) (fun rret k c => rret.insert (ghex k) c)
    (fun (rret : Dict String PageClass) k => rret.lookup (ghex k)) (fun _ c => some c)
    (by
      intro rret a c k
      by_cases same : k = a
      · rw [same, if_pos rfl, AList.lookup_insert]
      · rw [if_neg same, AList.lookup_insert_ne (fun equal => same (ghex_injective k a equal))])
    ∅ page
  rw [getPmaps, renamed]
  cases (mergePages traces).lookup page <;> rfl

/-- The merge keeps the first class that is not `memory`. -/
theorem foldl_settle (classes : List PageClass) :
    classes.foldl settle none = (classes.find? (· ≠ .memory)).or classes.head? := by
  have fixed : ∀ (held : PageClass) (rest : List PageClass),
      rest.foldl settle (some held) = if held = .memory
        then (rest.find? (· ≠ .memory)).or (some .memory) else some held := by
    intro held rest
    induction rest generalizing held with
    | nil => cases held <;> rfl
    | cons c rest ih =>
      rw [List.foldl_cons]
      cases held with
      | memory =>
        change rest.foldl settle (some c) = _
        rw [ih c]
        cases c <;> simp
      | instruction => exact ih .instruction
      | romemory => exact ih .romemory
  cases classes with
  | nil => rfl
  | cons c rest =>
    change rest.foldl settle (some c) = _
    rw [fixed]
    cases c with
    | memory => rw [if_pos rfl, List.find?_cons_of_neg (by simp), List.head?_cons]
    | instruction => simp
    | romemory => simp

theorem strongest_perm (classes other : List PageClass) (same : classes.Perm other) :
    strongest classes = strongest other := by
  simp only [strongest, same.mem_iff]

/-- Without a weaker class in the way, the first class that is not `memory` is the strongest. -/
theorem foldl_settle_strongest (classes : List PageClass)
    (alone : PageClass.romemory ∈ classes → ∀ c ∈ classes, c = .romemory) :
    classes.foldl settle none = strongest classes := by
  rw [foldl_settle]
  unfold strongest
  by_cases weak : PageClass.romemory ∈ classes
  · have only := alone weak
    have noInstruction : PageClass.instruction ∉ classes := fun member => by cases only _ member
    have noMemory : PageClass.memory ∉ classes := fun member => by cases only _ member
    rw [if_neg noInstruction, if_neg noMemory, if_pos weak]
    obtain ⟨c, rest, rfl⟩ := List.exists_cons_of_ne_nil (List.ne_nil_of_mem weak)
    rw [only c List.mem_cons_self]
    rfl
  · rw [if_neg weak]
    cases found : classes.find? (· ≠ .memory) with
    | some c =>
      have member := List.mem_of_find?_eq_some found
      have strong : c = .instruction := by
        cases c with
        | instruction => rfl
        | memory => simpa using List.find?_some found
        | romemory => exact absurd member weak
      rw [if_pos (strong ▸ member), strong]
      rfl
    | none =>
      have only : ∀ c ∈ classes, c = .memory := by
        intro c member
        simpa using List.find?_eq_none.mp found c member
      have noInstruction : PageClass.instruction ∉ classes := fun member => by cases only _ member
      rw [if_neg noInstruction]
      cases classes with
      | nil => rfl
      | cons c rest =>
        rw [only c List.mem_cons_self, if_pos List.mem_cons_self]
        rfl

theorem lookup_getPmaps_settle (traces : List Pmaps) (page : Address) :
    (getPmaps traces).lookup (ghex page) = (given traces page).foldl settle none := by
  rw [lookup_getPmaps, lookup_mergePages]

/-- The page map does not depend on the order of the traces, and has the strongest class for every
page, exactly if no page is `romemory` to one trace and something else to another. -/
theorem getPmaps_strongest_iff (traces : List Pmaps) :
    (∀ order : List Pmaps, order.Perm traces → ∀ page,
        (getPmaps order).lookup (ghex page) = strongest (given traces page)) ↔
      RomemoryAlone traces := by
  constructor
  · intro independent page weak c member
    by_contra stronger
    obtain ⟨pm, inTraces, gives⟩ := List.mem_filterMap.mp weak
    obtain ⟨front, back, rfl⟩ := List.append_of_mem inTraces
    -- walked first, the trace that has the page as `romemory` keeps it so
    have first := independent (pm :: (front ++ back)) List.perm_middle.symm page
    have kept : (given (pm :: (front ++ back)) page).foldl settle none = some .romemory := by
      rw [given, List.filterMap_cons_some gives, foldl_settle]
      rfl
    rw [lookup_getPmaps_settle, kept] at first
    cases c with
    | instruction =>
      rw [strongest, if_pos member] at first
      cases first
    | memory =>
      by_cases code : PageClass.instruction ∈ given (front ++ pm :: back) page
      · rw [strongest, if_pos code] at first
        cases first
      · rw [strongest, if_neg code, if_pos member] at first
        cases first
    | romemory => exact stronger rfl
  · intro alone order same page
    have classes : (given order page).Perm (given traces page) := same.filterMap _
    rw [lookup_getPmaps_settle, strongest_perm _ _ classes.symm]
    apply foldl_settle_strongest
    intro weak c member
    exact alone page (classes.mem_iff.mp weak) c (classes.mem_iff.mp member)

/-- The page map of a trace that has the page at 0x1000 only. -/
def onePage (c : PageClass) : Pmaps := AList.singleton 0x1000 c

/-- Walked one way, a page of code in one trace stays `romemory` because another trace only read it. -/
theorem getPmaps_order_dependent :
    (getPmaps [onePage .romemory, onePage .instruction]).lookup (ghex 0x1000) = some .romemory ∧
      (getPmaps [onePage .instruction, onePage .romemory]).lookup (ghex 0x1000) = some .instruction ∧
      (getPmaps [onePage .memory, onePage .romemory]).lookup (ghex 0x1000) = some .romemory ∧
      strongest (given [onePage .romemory, onePage .instruction] 0x1000) = some .instruction ∧
      strongest (given [onePage .memory, onePage .romemory] 0x1000) = some .memory := by
  simp only [lookup_getPmaps_settle]
  decide

end Qira.ProgramPages
