import Qira.HexStrings
import Qira.ProgramPages
import Qira.Library.Islands

/-!
`haddrline.js`: the bar of all pages in use. Pages are put together in chunks, with the holes between them filled where
they are small. The loops go from address to address with `bn_add` and `bn_cmp`.
-/

namespace Qira.AddressBar
open HexStrings ProgramPages Library.Dictionaries Library.Islands

def PAGE_SIZE : Int := 0x1000

/-- The keys of `pmaps`, without the memory that is only read from. -/
def addrs (pmaps : Dict String PageClass) : List (List Char) :=
  (pmaps.keys.filter (fun k => pmaps.lookup k ≠ some .romemory)).map String.toList

/-- The loop over `j`; `none` where it goes on for more than `fuel` rounds. -/
def fillHoles : Nat → List Char → List Char → Option (List (List Char))
  | 0, _, _ => none
  | fuel + 1, j, addr =>
      if (bnCmp j addr).any (fun d => d < 0) then
        (fillHoles fuel (bnAdd j PAGE_SIZE) addr).map (fun holes => j :: holes)
      else some []

/-- The loop in which a chunk grows behind `caddr`, and the addresses it leaves. -/
def grow (fuel : Nat) : List Char → List (List Char) → Option (List (List Char) × List (List Char))
  | _, [] => some ([], [])
  | caddr, addr :: rest =>
      if (bnCmp (bnAdd caddr (PAGE_SIZE * 8)) addr).any (fun d => 0 < d) then do
        let holes ← fillHoles fuel (bnAdd caddr PAGE_SIZE) addr
        let (pchunk, left) ← grow fuel addr rest
        some (holes ++ addr :: pchunk, left)
      else some ([], addr :: rest)

/-- The loop over `i`. -/
def chunk : Nat → List (List Char) → Option (List (List (List Char)))
  | _, [] => some []
  | 0, _ :: _ => none
  | fuel + 1, caddr :: rest => do
      let (pchunk, left) ← grow fuel caddr rest
      let pchunks ← chunk fuel left
      some ((caddr :: pchunk) :: pchunks)

/-- What the function for `pmaps` makes of them. -/
def pchunks (fuel : Nat) (pmaps : Dict String PageClass) : Option (List (List (List Char))) :=
  chunk fuel (sort bnCmp (addrs pmaps))

/-- What the chunks of some pages are; pages are 0x1000 apart. -/
structure Chunked (pages : List (List Char)) (chunks : List (List (List Char))) : Prop where
  canonical : ∀ a ∈ chunks.flatten, Canonical a
  increasing : chunks.flatten.Pairwise (fun a b => value a < value b)
  once : ∀ a ∈ pages, chunks.flatten.count a = 1
  steps : ∀ chunk ∈ chunks, chunk.IsChain (fun a b => value b = value a + 0x1000)
  holes : ∀ chunk ∈ chunks, ∀ h ∈ chunk, h ∉ pages →
    ∃ a ∈ chunk, ∃ b ∈ chunk, a ∈ pages ∧ b ∈ pages ∧
      value a < value h ∧ value h < value b ∧ value b < value a + 8 * 0x1000
  apart : chunks.IsChain (fun c d => ∃ last ∈ c.getLast?, ∃ first ∈ d.head?, value last + 8 * 0x1000 ≤ value first)

/-- The address of a page as it is written. -/
def page (p : Nat) : List Char := hexString (0x1000 * p)

section Loops
variable {p q fuel : Nat} {ps : List Nat}

theorem bnAdd_page (p : Nat) (n : Nat) (few : n ≤ 8) : bnAdd (page p) (PAGE_SIZE * n) = page (p + n) := by
  have small : PAGE_SIZE * n < 2 ^ 32 := by
    unfold PAGE_SIZE
    omega
  have nonneg : 0 ≤ PAGE_SIZE * n := by
    unfold PAGE_SIZE
    omega
  have sum : (((0x1000 * p : Nat) : Int) + PAGE_SIZE * n).toNat = 0x1000 * (p + n) := by
    unfold PAGE_SIZE
    omega
  rw [page, bnAdd_hexString (by omega) small (by omega) (by omega), sum]
  rfl

theorem bnCmp_page (p q : Nat) :
    ((bnCmp (page p) (page q)).any (fun d => d < 0) = true ↔ p < q) ∧
      ((bnCmp (page p) (page q)).any (fun d => 0 < d) = true ↔ q < p) := by
  obtain ⟨below, above⟩ := bnCmp_any (0x1000 * p) (0x1000 * q)
  exact ⟨below.trans (Nat.mul_lt_mul_left (by decide)), above.trans (Nat.mul_lt_mul_left (by decide))⟩

/-- The pages from one up to another are filled in. -/
theorem fillHoles_page (rounds : q - p < fuel) :
    fillHoles fuel (page p) (page q) = some ((List.range' p (q - p)).map page) := by
  induction fuel generalizing p with
  | zero => exact absurd rounds (Nat.not_lt_zero _)
  | succ fuel ih =>
    have next : bnAdd (page p) PAGE_SIZE = page (p + 1) := bnAdd_page p 1 (by decide)
    rw [fillHoles, next]
    by_cases below : p < q
    · have more : q - p = q - (p + 1) + 1 := by omega
      rw [if_pos ((bnCmp_page p q).1.mpr below), ih (by omega), more, List.range'_succ]
      rfl
    · rw [if_neg ((bnCmp_page p q).1.not.mpr below), Nat.sub_eq_zero_of_le (not_lt.mp below)]
      rfl

/-- A chunk grows to the first island. -/
theorem grow_page (rounds : 8 ≤ fuel) (increasing : (p :: ps).Pairwise (fun a b => a < b)) :
    ∃ front back, grow fuel (page p) (ps.map page) = some (front.map page, back.map page) ∧
      islands 8 (p :: ps) = (p :: front) :: islands 8 back ∧ back.IsSuffix ps := by
  induction ps generalizing p with
  | nil => exact ⟨[], [], rfl, rfl, List.suffix_rfl⟩
  | cons q rest ih =>
    obtain ⟨first, increasing'⟩ := List.pairwise_cons.mp increasing
    have less := first q List.mem_cons_self
    have window : bnAdd (page p) (PAGE_SIZE * 8) = page (p + 8) := bnAdd_page p 8 le_rfl
    have next : bnAdd (page p) PAGE_SIZE = page (p + 1) := bnAdd_page p 1 (by decide)
    rw [List.map_cons, grow, window, next, islands]
    by_cases close : q < p + 8
    · obtain ⟨front, back, grown, joined, suffix'⟩ := ih increasing'
      refine ⟨List.range' (p + 1) (q - (p + 1)) ++ q :: front, back, ?_, ?_, suffix'.trans (List.suffix_cons q rest)⟩
      · rw [if_pos ((bnCmp_page (p + 8) q).2.mpr close), fillHoles_page (by omega), grown, List.map_append]
        rfl
      · rw [joined, join_near close]
    · obtain ⟨island, more, shape⟩ := islands_cons 8 q rest
      refine ⟨[], q :: rest, if_neg ((bnCmp_page (p + 8) q).2.not.mpr close), ?_, List.suffix_rfl⟩
      rw [shape, join_far close]

/-- The loops end, and the chunks are the islands. -/
theorem chunk_page (rounds : ps.length + 8 ≤ fuel) (increasing : ps.Pairwise (fun a b => a < b)) :
    chunk fuel (ps.map page) = some ((islands 8 ps).map (fun island => island.map page)) := by
  induction fuel generalizing ps with
  | zero => omega
  | succ fuel ih =>
    cases ps with
    | nil => rfl
    | cons p rest =>
      rw [List.length_cons] at rounds
      obtain ⟨front, back, grown, joined, suffix'⟩ := @grow_page p fuel rest (by omega) increasing
      have shorter := suffix'.length_le
      have left := @ih back (by omega) ((List.pairwise_cons.mp increasing).2.sublist suffix'.sublist)
      rw [List.map_cons, chunk, grown, joined]
      change (chunk fuel (back.map page)).bind _ = _
      rw [left]
      rfl

@[simp] theorem value_page (p : Nat) : value (page p) = 0x1000 * p := value_hexString _

theorem page_aligned (p : Nat) (small : 0x1000 * p < 2 ^ 64) : Canonical (page p) ∧ 0x1000 ∣ value (page p) :=
  ⟨(canonical_iff _).mpr ⟨_, small, rfl⟩, value_page p ▸ Nat.dvd_mul_right 0x1000 p⟩

theorem page_injective : Function.Injective page := by
  intro p q same
  exact Nat.eq_of_mul_eq_mul_left (by decide) (hexString_injective same)

/-- The islands of some pages are the chunks of their addresses. -/
theorem chunked_of_grouped {groups : List (List Nat)} (grouped : Grouped 8 ps groups)
    (below : ∀ p ∈ ps, 0x1000 * p < 2 ^ 64) :
    Chunked (ps.map page) (groups.map (fun island => island.map page)) := by
  have flat : (groups.map (fun island => island.map page)).flatten = groups.flatten.map page := List.map_flatten.symm
  have nodup : groups.flatten.Nodup := grouped.increasing.imp Nat.ne_of_lt
  have isPage : ∀ h, page h ∈ ps.map page ↔ h ∈ ps := fun h => List.mem_map_of_injective page_injective
  constructor
  · rw [flat]
    intro a inside
    obtain ⟨h, member, rfl⟩ := List.mem_map.mp inside
    obtain ⟨b, own, upTo⟩ := grouped.bounded h member
    exact (page_aligned h ((Nat.mul_le_mul_left 0x1000 upTo).trans_lt (below b own))).1
  · rw [flat, List.pairwise_map]
    simp only [value_page]
    exact grouped.increasing.imp fun less => Nat.mul_lt_mul_of_pos_left less (by decide)
  · intro a inside
    obtain ⟨p, member, rfl⟩ := List.mem_map.mp inside
    rw [flat, List.count_map_of_injective _ page page_injective]
    exact List.count_eq_one_of_mem nodup (grouped.complete p member)
  · intro chunk inside
    obtain ⟨group, member, rfl⟩ := List.mem_map.mp inside
    rw [List.isChain_map]
    refine (grouped.steps group member).imp ?_
    intro a b step
    rw [value_page, value_page, step]
    rfl
  · intro chunk inside h inChunk hole
    obtain ⟨group, member, rfl⟩ := List.mem_map.mp inside
    obtain ⟨h, inGroup, rfl⟩ := List.mem_map.mp inChunk
    obtain ⟨a, inA, b, inB, own, own', above, less, close⟩ :=
      grouped.holes group member h inGroup fun own => hole ((isPage h).mpr own)
    refine ⟨page a, List.mem_map_of_mem inA, page b, List.mem_map_of_mem inB, (isPage a).mpr own, (isPage b).mpr own', ?_⟩
    simp only [value_page]
    omega
  · rw [List.isChain_map]
    refine grouped.apart.imp ?_
    rintro c d ⟨last, inLast, first, inFirst, far⟩
    refine ⟨page last, ?_, page first, ?_, ?_⟩
    · rw [List.getLast?_map, Option.mem_def.mp inLast]
      rfl
    · rw [List.head?_map, Option.mem_def.mp inFirst]
      rfl
    · simp only [value_page]
      omega

theorem Chunked.congr {pages pages' : List (List Char)} {chunks : List (List (List Char))}
    (chunked : Chunked pages chunks) (same : ∀ a, a ∈ pages ↔ a ∈ pages') : Chunked pages' chunks where
  canonical := chunked.canonical
  increasing := chunked.increasing
  once := fun a inside => chunked.once a ((same a).mpr inside)
  steps := chunked.steps
  holes := by
    intro chunk member h inside hole
    obtain ⟨a, inA, b, inB, own, own', between⟩ :=
      chunked.holes chunk member h inside fun old => hole ((same h).mp old)
    exact ⟨a, inA, b, inB, (same a).mp own, (same b).mp own', between⟩
  apart := chunked.apart

theorem nodup_addrs (pmaps : Dict String PageClass) : (addrs pmaps).Nodup :=
  (pmaps.nodupKeys.filter _).map fun _ _ same => String.toList_inj.mp same

/-- Addresses of pages are the pages' addresses. -/
theorem exists_map_page {addrs : List (List Char)} (pages : ∀ k ∈ addrs, Canonical k ∧ 0x1000 ∣ value k) :
    ∃ ps : List Nat, ps.map page = addrs ∧ ∀ p ∈ ps, 0x1000 * p < 2 ^ 64 := by
  have own : ∀ k ∈ addrs, page (value k / 0x1000) = k ∧ value k < 2 ^ 64 := by
    intro k inside
    obtain ⟨canonical, aligned⟩ := pages k inside
    obtain ⟨v, small, rfl⟩ := (canonical_iff k).mp canonical
    rw [page, Nat.mul_div_cancel' aligned, value_hexString]
    exact ⟨rfl, small⟩
  refine ⟨addrs.map (fun k => value k / 0x1000), ?_, fun p inside => ?_⟩
  · rw [List.map_map]
    exact (List.map_congr_left fun k inside => (own k inside).1).trans (List.map_id addrs)
  · obtain ⟨k, member, rfl⟩ := List.mem_map.mp inside
    have small := (own k member).2
    omega

theorem sort_page (ps : List Nat) : sort bnCmp (ps.map page) = (ps.mergeSort (fun p q => p ≤ q)).map page := by
  symm
  apply List.map_mergeSort
  intro p _ q _
  rw [Bool.eq_iff_iff, decide_eq_true_iff, Bool.not_eq_true', Bool.eq_false_iff, ne_eq, (bnCmp_page p q).2, not_lt]

/-- For all pages of memory in use, the loops end with their chunks. -/
theorem pchunks_exact (pmaps : Dict String PageClass)
    (pages : ∀ k ∈ addrs pmaps, Canonical k ∧ 0x1000 ∣ value k) :
    ∃ rounds chunks, (∀ fuel, rounds ≤ fuel → pchunks fuel pmaps = some chunks) ∧ Chunked (addrs pmaps) chunks := by
  obtain ⟨ps, written, below⟩ := exists_map_page pages
  have members := List.mergeSort_perm ps (fun p q => p ≤ q)
  have nodup : ps.Nodup := List.Nodup.of_map page (written ▸ nodup_addrs pmaps)
  have increasing : (ps.mergeSort (fun p q => p ≤ q)).Pairwise (fun p q => p < q) := by
    have ordered := List.pairwise_mergeSort' (fun p q : Nat => p ≤ q) ps
    exact (ordered.and (members.nodup_iff.mpr nodup)).imp fun both => both.1.lt_of_ne both.2
  have chunked := chunked_of_grouped (islands_grouped 8 _ increasing) fun p inside => below p (members.mem_iff.mp inside)
  refine ⟨(ps.mergeSort (fun p q => p ≤ q)).length + 8, _, fun fuel rounds => ?_, chunked.congr fun a => ?_⟩
  · rw [pchunks, ← written, sort_page]
    exact chunk_page rounds increasing
  · rw [← written, (members.map page).mem_iff]

end Loops

/-- Code, data two pages above it behind the ninth digit, the topmost page, and one that is only read from. -/
def inUse : Dict String PageClass :=
  ofPairs [("0xfffffffffffff000", .memory), ("0x100001000", .memory), ("0xfffff000", .instruction),
    ("0x100003000", .romemory)]

theorem pchunks_exact_inUse :
    ∃ rounds chunks, (∀ fuel, rounds ≤ fuel → pchunks fuel inUse = some chunks) ∧ Chunked (addrs inUse) chunks := by
  apply pchunks_exact
  have three : addrs inUse = [page 0xfffff, page 0x100001, page 0xfffffffffffff] := by decide
  rw [three]
  intro k inside
  simp only [List.mem_cons, List.not_mem_nil, or_false] at inside
  rcases inside with rfl | rfl | rfl
  · exact page_aligned _ (by decide)
  · exact page_aligned _ (by decide)
  · exact page_aligned _ (by decide)

end Qira.AddressBar
