import Qira.SignatureLoading
import Qira.StaticMemory

/-!
Function starts by Byteweight: each address of a segment is scored by the longest signature that the bytes
from there begin with.
-/

namespace Qira.FunctionStarts
open Byteweight SignatureLoading StaticMemory
open Library.Words Library.ByteStrings Library.Doubles Library.Tries Library.Dictionaries Library.Gaps Library.Machines

def threshold : ℚ := 1 / 2

/-- Match a string with the trie. -/
def score : List Byte → Node → Number
  | [], .node value _ => value
  | b :: rest, .node value children =>
      match children.lookup b with
      | some child => score rest child
      | none => value

/-- The starts in a segment: the loop body of `fsi`. -/
def segmentStarts (trie : Node) (base : Dict Range (List Byte)) (segment : Int × Nat) : List Int :=
  let strr := memory base segment.1 segment.2
  ((List.range segment.2).filter
    (fun i => Number.exceeds (score ((strr.drop i).take sigLen) trie) threshold)).map (fun i : Nat => segment.1 + (i : Int))

/-- The function starts that `fsi` identifies with the signatures of a file. -/
def fsi (fuel : Nat) (arch : Option String) (m : Memory) (file : List Byte) : Option (Except Error (List Int)) :=
  if arch ≠ some "i386" then some (.ok [])
  else (load double fuel file).map (fun loaded =>
    loaded.map (fun trie => (m.segments.flatMap (segmentStarts trie m.base)).dedup))

/-- The signatures of a file with their scores, in the order of its records. -/
def table (file : List Byte) : List (List Byte × Number) := (records file).filterMap (fun line => (parse double line).toOption)

/-- With a signature, all its non-empty beginnings are signatures. -/
def PrefixClosed (entries : List (List Byte × Number)) : Prop :=
  ∀ e ∈ entries, ∀ p, p ≠ [] → p <+: e.1 → ∃ e' ∈ entries, e'.1 = p

def IsSignature (entries : List (List Byte × Number)) (sig : List Byte) : Prop := ∃ e ∈ entries, e.1 = sig

/-- The score of the longest signature that the string begins with, or 0 if there is none. -/
structure LongestScore (entries : List (List Byte × Number)) (s : List Byte) (v : Number) : Prop where
  longest : ∀ sig, Longest (IsSignature entries) s sig → lastValue entries sig = some v
  none : (∀ sig, IsSignature entries sig → ¬ sig <+: s) → v = .finite 0

/-- Some signature matches, and the longest that does scores above the threshold. -/
def Starts (entries : List (List Byte × Number)) (s : List Byte) : Prop :=
  ∃ sig v, Longest (IsSignature entries) s sig ∧ lastValue entries sig = some v ∧ Number.exceeds v threshold = true

theorem score_eq_search (s : List Byte) (trie : Node) : score s trie = trie.search s := by
  induction s generalizing trie with
  | nil => cases trie; rfl
  | cons b rest ih =>
    obtain ⟨value, children⟩ := trie
    rw [score, Trie.search]
    cases children.lookup b with
    | none => rfl
    | some child => exact ih child

/-- The trie that the signatures make, whatever their order. -/
def trieOf (entries : List (List Byte × Number)) : Node :=
  entries.foldl (fun t e => t.insert (.finite 0) e.1 e.2) (.node (.finite 0) [])

theorem readAll_eq {lines : List (List Byte)} {root trie : Node} (read : readAll double lines root = .ok trie) :
    trie = (lines.filterMap (fun line => (parse double line).toOption)).foldl
      (fun t e => t.insert (.finite 0) e.1 e.2) root := by
  induction lines generalizing root with
  | nil => exact (Except.ok.inj read).symm
  | cons line rest ih =>
    rw [readAll] at read
    cases parsed : parse double line with
    | error e =>
      rw [parsed] at read
      cases read
    | ok entry =>
      rw [parsed] at read
      rw [List.filterMap_cons, parsed]
      exact ih read

theorem trie_eq_trieOf {fuel : Nat} {file : List Byte} {trie : Node} (loaded : load double fuel file = some (.ok trie)) :
    trie = trieOf (table file) := by
  have ends := outcome_of_loadFrom loaded
  rw [outcome] at ends
  cases read : readAll double (records file) (.node (.finite 0) []) with
  | error e =>
    rw [read] at ends
    cases ends
  | ok made =>
    rw [read] at ends
    obtain ⟨-, same⟩ := Option.ite_none_right_eq_some.mp ends
    obtain rfl := Except.ok.inj (Option.some.inj same)
    exact readAll_eq read

/-- The table of what the trainer wrote is the trainer's, in its order. -/
theorem table_output {scores : List Byte × Nat × Nat → Number} (entries : List (List Byte × Nat × Nat))
    (absent : ∀ e ∈ entries, ¬ ARROW <:+: e.1) (divides : ∀ e ∈ entries, Divides double e (scores e)) :
    table (entries.flatMap record) = entries.map (fun e => (e.1, scores e)) := by
  have apart : records (entries.flatMap record) = entries.map record := by
    induction entries with
    | nil => rw [records, List.flatMap_nil, takeApart_of_none (by decide)]; rfl
    | cons e rest ih =>
      have found : cut ARROW ((e :: rest).flatMap record) =
          some (e.1, counts e.2.1 e.2.2 ++ rest.flatMap record) := by
        have arrow := cut_append ARROW e.1 (counts e.2.1 e.2.2 ++ rest.flatMap record) (by decide)
          (arrow_late (absent e List.mem_cons_self))
        rwa [← List.append_assoc] at arrow
      rw [records, takeApart_of_some found, readline_counts,
        ih (fun d member => absent d (List.mem_cons_of_mem e member))
          (fun d member => divides d (List.mem_cons_of_mem e member))]
      rfl
  rw [table, apart, List.filterMap_map, ← List.filterMap_eq_map]
  apply List.filterMap_congr
  intro e member
  change (parse double (record e)).toOption = _
  rw [parse_record e (absent e member) (divides e member)]
  rfl

section Matching
variable {entries : List (List Byte × Number)}

theorem valueAt_trieOf (entries : List (List Byte × Number)) (path : List Byte) :
    (trieOf entries).valueAt path = (lastValue entries path).or
      ((if path = [] then some (.finite 0) else none).or ((firstThrough entries path).map (fun _ => .finite 0))) := by
  rw [← Trie.valueAt_node_nil]
  exact valueAt_foldl_insert (fun _ => .finite 0) entries (.node (.finite 0) []) path

/-- Where the table is closed, there are nodes for the signatures only, and the root. -/
theorem valueAt_isSome_iff (closed : PrefixClosed entries) (path : List Byte) :
    ((trieOf entries).valueAt path).isSome ↔ path = [] ∨ IsSignature entries path := by
  refine (valueAt_foldl_insert_isSome (fun _ => .finite 0) entries (.finite 0) path).trans ?_
  constructor
  · rintro (empty | ⟨e, inside, onTheWay⟩)
    · exact .inl empty
    · by_cases empty : path = []
      · exact .inl empty
      · exact .inr (closed e inside path empty onTheWay)
  · rintro (empty | ⟨e, inside, rfl⟩)
    · exact .inl empty
    · exact .inr ⟨e, inside, List.prefix_rfl⟩

/-- The deepest node on the way is that of the longest signature, or the root. -/
theorem score_cases (closed : PrefixClosed entries) (s : List Byte) :
    (∃ sig, Longest (IsSignature entries) s sig ∧ lastValue entries sig = some (score s (trieOf entries))) ∨
      (∀ sig, IsSignature entries sig → ¬ sig <+: s) ∧ score s (trieOf entries) = .finite 0 := by
  obtain ⟨q, deepest, held⟩ := (trieOf entries).search_longest s
  rw [← score_eq_search, valueAt_trieOf] at held
  rw [Longest.congr (valueAt_isSome_iff closed)] at deepest
  by_cases signature : IsSignature entries q
  · refine Or.inl ⟨q, ⟨deepest.begins, signature, fun q' begins present => ?_⟩, ?_⟩
    · exact deepest.longest q' begins (.inr present)
    · obtain ⟨v, last⟩ := Option.isSome_iff_exists.mp ((lastValue_isSome entries q).mpr signature)
      rw [last, Option.some_or] at held
      exact last.trans held
  · obtain rfl := deepest.holds.resolve_right signature
    refine Or.inr ⟨fun sig other begins => ?_, ?_⟩
    · have short := deepest.longest sig begins (.inr other)
      exact signature (List.length_eq_zero_iff.mp (Nat.le_zero.mp short) ▸ other)
    · have missing : lastValue entries [] = none := by
        rw [← Option.not_isSome_iff_eq_none, lastValue_isSome]
        exact signature
      rw [missing, Option.none_or, if_pos rfl, Option.some_or] at held
      exact (Option.some.inj held).symm

theorem score_longest (closed : PrefixClosed entries) (s : List Byte) :
    LongestScore entries s (score s (trieOf entries)) := by
  rcases score_cases closed s with ⟨q, longest, last⟩ | ⟨unmatched, zero⟩
  · exact ⟨fun sig other => longest.unique other ▸ last,
      fun unmatched => absurd longest.begins (unmatched q longest.holds)⟩
  · exact ⟨fun sig other => absurd other.begins (unmatched sig other.holds), fun _ => zero⟩

theorem exceeds_iff_starts (closed : PrefixClosed entries) (s : List Byte) :
    Number.exceeds (score s (trieOf entries)) threshold = true ↔ Starts entries s := by
  rcases score_cases closed s with ⟨q, longest, last⟩ | ⟨unmatched, zero⟩
  · constructor
    · exact fun high => ⟨q, _, longest, last, high⟩
    · rintro ⟨sig, v, other, last', high⟩
      rw [← longest.unique other, last] at last'
      exact Option.some.inj last' ▸ high
  · refine iff_of_false ?_ ?_
    · rw [zero]
      simp [Number.exceeds, threshold]
    · rintro ⟨sig, v, other, -⟩
      exact unmatched sig other.holds other.begins

end Matching

section Segments

/-- Each segment is a registered chunk, and the other way round. -/
def Listed (m : Memory) : Prop :=
  ∀ (address : Int) (ln : Nat), (address, ln) ∈ m.segments ↔ ∃ dat, m.base.lookup (address, address + ln) = some dat

theorem step_listed {m t : Memory} {c : Chunk} (listed : Listed m) (taken : m.step c = some t) : Listed t := by
  obtain rfl := Option.some.inj taken
  unfold Memory.addMemoryChunk
  split
  next => exact listed
  next =>
    intro address ln
    change (address, ln) ∈ m.segments ++ [_] ↔ ∃ dat, (m.base.insert _ _).lookup _ = _
    rw [List.mem_append, List.mem_singleton]
    by_cases own : (address, address + (ln : Int)) = (c.address, c.address + (c.dat.length : Int))
    · obtain ⟨rfl, ends⟩ := Prod.mk.inj own
      have same : ln = c.dat.length := by omega
      refine iff_of_true (.inr (by rw [same])) ⟨c.dat, ?_⟩
      rw [own]
      exact AList.lookup_insert m.base
    · have different : (address, ln) ≠ (c.address, c.dat.length) := by
        intro same
        obtain ⟨rfl, rfl⟩ := Prod.mk.inj same
        exact own rfl
      rw [or_iff_left different, listed address ln, AList.lookup_insert_ne own]

theorem listed_of_run {chunks : List Chunk} {m : Memory} (ran : run Memory.step Memory.empty chunks = some m) :
    Listed m := by
  refine run_invariant Listed (fun _ _ _ listed taken => step_listed listed taken) ?_ ran
  intro address ln
  simp [Memory.empty]

/-- A segment apart from the others is read as it was registered. -/
theorem memory_segment {base : Dict Range (List Byte)} (whole : Whole base) (disjoint : base.keys.Pairwise Apart)
    {r : Range} {dat : List Byte} (held : base.lookup r = some dat) : memory base r.1 dat.length = dat := by
  have bytes : ∀ k < dat.length, byteAt base (r.1 + k) = dat[k]? := by
    intro k inside
    rw [List.getElem?_eq_getElem inside]
    refine (registered_iff whole disjoint _ _).mp ⟨r, dat, held, by omega, ?_⟩
    rw [add_sub_cancel_left, Int.toNat_natCast, List.getElem?_eq_getElem inside]
  rw [memory_eq_found whole, found_congr bytes, found_getElem?]

end Segments

/-- With the table of a file closed, a string is scored by the longest signature that it begins with; and over
disjoint segments of an i386 binary, the starts are where some signature matches the bytes that follow in the
segment, and the longest that does scores above the threshold. -/
theorem fsi_exact (fuel : Nat) (file : List Byte) (trie : Node) (loaded : load double fuel file = some (.ok trie))
    (closed : PrefixClosed (table file)) :
    (∀ s, LongestScore (table file) s (score s trie)) ∧
      ∀ (chunks : List Chunk) (m : Memory), run Memory.step Memory.empty chunks = some m →
        m.base.keys.Pairwise Apart → ∃ functions, fsi fuel (some "i386") m file = some (.ok functions) ∧
          ∀ a, a ∈ functions ↔ ∃ r dat, m.base.lookup r = some dat ∧
            ∃ i < dat.length, a = r.1 + i ∧ Starts (table file) ((dat.drop i).take sigLen) := by
  obtain rfl := trie_eq_trieOf loaded
  refine ⟨score_longest closed, fun chunks m ran disjoint => ?_⟩
  have whole := whole_of_run ran
  have listed := listed_of_run ran
  have found : fsi fuel (some "i386") m file =
      some (.ok (m.segments.flatMap (segmentStarts (trieOf (table file)) m.base)).dedup) := by
    rw [fsi, if_neg (by decide), loaded]
    rfl
  refine ⟨_, found, fun a => ?_⟩
  rw [List.mem_dedup, List.mem_flatMap]
  constructor
  · rintro ⟨⟨address, ln⟩, inside, starts⟩
    obtain ⟨dat, held⟩ := (listed address ln).mp inside
    have filled := whole _ _ held
    have same : ln = dat.length := by
      change address + (ln : Int) = address + dat.length at filled
      omega
    obtain ⟨i, member, rfl⟩ := List.mem_map.mp starts
    obtain ⟨small, high⟩ := List.mem_filter.mp member
    rw [exceeds_iff_starts closed, same, memory_segment whole disjoint held] at high
    exact ⟨_, dat, held, i, same ▸ List.mem_range.mp small, rfl, high⟩
  · rintro ⟨⟨address, ends⟩, dat, held, i, small, rfl, starts⟩
    have filled : ends = address + dat.length := whole _ _ held
    subst filled
    refine ⟨(address, dat.length), (listed _ _).mpr ⟨dat, held⟩, List.mem_map.mpr ⟨i, ?_, rfl⟩⟩
    rw [List.mem_filter, List.mem_range, exceeds_iff_starts closed]
    refine ⟨small, ?_⟩
    rw [memory_segment whole disjoint held]
    exact starts

/-- The beginnings of `push ebp; mov ebp, esp` and of a longer one, of which the third scores above the threshold. -/
def pushSigs : List (List Byte × Nat × Nat) :=
  [([0x55], 1, 3), ([0x55, 0x8B], 1, 1), ([0x55, 0x8B, 0xEC], 3, 1), ([0x55, 0x8B, 0xEC, 0xEB], 1, 8)]

/-- The first segment has the third signature behind a `nop`, and the first at its end; the second has the fourth. -/
def pushChunks : List Chunk := [⟨0x1000, [0x90, 0x55, 0x8B, 0xEC, 0x83, 0x55]⟩, ⟨0x2000, [0x55, 0x8B, 0xEC, 0xEB]⟩]

def pushScore (e : List Byte × Nat × Nat) : Number := double (e.2.1 / (e.2.1 + e.2.2))

theorem pushSigs_divides : ∀ e ∈ pushSigs, Divides double e (pushScore e) := by
  intro e member
  have counts : ∀ e ∈ pushSigs, 1 ≤ e.2.1 ∧ e.2.1 + e.2.2 < 2 ^ 53 := by decide
  exact divides_double e (counts e member).1 (counts e member).2

theorem pushSigs_arrowless : ∀ e ∈ pushSigs, ¬ ARROW <:+: e.1 := by decide

theorem pushSigs_closed : PrefixClosed (table (pushSigs.flatMap record)) := by
  rw [table_output pushSigs pushSigs_arrowless pushSigs_divides]
  have inits : ∀ e ∈ pushSigs, ∀ p ∈ e.1.inits, p ≠ [] → ∃ e' ∈ pushSigs, e'.1 = p := by decide
  intro entry member p nonempty begins
  obtain ⟨e, inside, rfl⟩ := List.mem_map.mp member
  obtain ⟨e', present, same⟩ := inits e inside p ((List.mem_inits p e.1).mpr begins) nonempty
  exact ⟨_, List.mem_map_of_mem present, same⟩

def pushTrie : Node := pushSigs.foldl (fun t e => t.insert (.finite 0) e.1 (pushScore e)) (.node (.finite 0) [])

def pushMemory : Memory := pushChunks.foldl (fun m c => m.addMemoryChunk c.address c.dat) Memory.empty

theorem pushMemory_apart : pushMemory.base.keys.Pairwise Apart := by
  have keys : pushMemory.base.keys = [(0x2000, 0x2004), (0x1000, 0x1006)] := by decide
  rw [keys]
  apply List.pairwise_pair.mpr
  intro ri both
  simp only [inRange, decide_eq_true_eq] at both
  omega

theorem pushMemory_starts :
    (pushMemory.segments.flatMap (segmentStarts pushTrie pushMemory.base)).dedup = [0x1001] := by
  decide +kernel

theorem fsi_exact_push : ∃ fuel, load double fuel (pushSigs.flatMap record) = some (.ok pushTrie) ∧
    run Memory.step Memory.empty pushChunks = some pushMemory ∧
    (∀ s, LongestScore (table (pushSigs.flatMap record)) s (score s pushTrie)) ∧
    fsi fuel (some "i386") pushMemory (pushSigs.flatMap record) = some (.ok [0x1001]) ∧
      ∀ a, a ∈ [(0x1001 : Int)] ↔ ∃ r dat, pushMemory.base.lookup r = some dat ∧
        ∃ i < dat.length, a = r.1 + i ∧ Starts (table (pushSigs.flatMap record)) ((dat.drop i).take sigLen) := by
  obtain ⟨enough, loads⟩ := loadFrom_output pushSigs (.node (.finite 0) []) pushSigs_arrowless pushSigs_divides
  have loaded : load double enough (pushSigs.flatMap record) = some (.ok pushTrie) := loads enough le_rfl
  obtain ⟨longest, found⟩ := fsi_exact enough (pushSigs.flatMap record) pushTrie loaded pushSigs_closed
  obtain ⟨functions, made, each⟩ := found pushChunks pushMemory rfl pushMemory_apart
  have starts : fsi enough (some "i386") pushMemory (pushSigs.flatMap record) = some (.ok [0x1001]) := by
    rw [fsi, if_neg (by decide), loaded, Option.map_some, Except.map, pushMemory_starts]
  obtain rfl : functions = [0x1001] := Except.ok.inj (Option.some.inj (made.symm.trans starts))
  exact ⟨enough, loaded, rfl, longest, starts, each⟩

end Qira.FunctionStarts
