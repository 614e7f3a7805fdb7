import Qira.Library.ByteStrings
import Qira.Library.Tries

/-!
Byteweight's signature files: the trainer writes a record for each signature, the loader reads the
records into a trie. The loader is modelled for any rounding of numbers: what it makes of a file depends on
the rounding only through the scores, and the errors of their division.
-/

namespace Qira.Byteweight
open Library.Words Library.ByteStrings Library.Doubles Library.Tries

def ARROW : List Byte := [ascii '-', ascii '>']

def COMMA : List Byte := [ascii ',']

def sigLen : Nat := 20

inductive Error
  | signatureErr (value : Nat)
  | valueError
  | zeroDivisionError
  deriving DecidableEq

/-- A node of the loader is `[score, children]`. -/
abbrev Node := Trie Byte Number

def parse (round : Rounding) (l : List Byte) : Except Error (List Byte × Number) :=
  match split ARROW nofun l with
  | [sig, counts] =>
      match split COMMA nofun counts with
      | [positive, negative] =>
          match float round positive, float round negative with
          | some p, some n =>
              match p.div round (p.add round n) with
              | some score => .ok (sig, score)
              | none => .error .zeroDivisionError
          | _, _ => .error .valueError
      | _ => .error (.signatureErr 1)
  | _ => .error (.signatureErr 0)

/-- The inner loop of `load`: lines are joined until an arrow shows up. `none` is running out of fuel. -/
def joinLines : Nat → List Byte → List Byte → Option (List Byte × List Byte)
  | 0, _, _ => none
  | fuel + 1, line, file =>
      if (cut ARROW line).isSome then some (line, file)
      else joinLines fuel (line ++ (readline file).1) (readline file).2

def loadFrom (round : Rounding) : Nat → List Byte → Node → Option (Except Error Node)
  | 0, _, _ => none
  | fuel + 1, file, root =>
      if (readline file).1 = [] then some (.ok root)
      else
        match joinLines fuel (readline file).1 (readline file).2 with
        | none => none
        | some (line, rest) =>
            match parse round line with
            | .error e => some (.error e)
            | .ok (sig, score) => loadFrom round fuel rest (root.insert (.finite 0) sig score)

def load (round : Rounding) (fuel : Nat) (file : List Byte) : Option (Except Error Node) :=
  loadFrom round fuel file (.node (.finite 0) [])

/-- The trainer's table, in the order in which `Sigs.iter` walks it. -/
structure Sigs where
  entries : List (List Byte × Nat × Nat)
  distinct : (entries.map Prod.fst).Nodup
  nonempty : ∀ e ∈ entries, e.1 ≠ []
  short : ∀ e ∈ entries, e.1.length ≤ sigLen
  positive : ∀ e ∈ entries, 1 ≤ e.2.1

/-- `%d,%d\\n` of the counts. -/
def counts (p n : Nat) : List Byte := decimal p ++ COMMA ++ (decimal n ++ [NEWLINE])

def record (e : List Byte × Nat × Nat) : List Byte := e.1 ++ ARROW ++ counts e.2.1 e.2.2

def Sigs.output (sigs : Sigs) : List Byte := sigs.entries.flatMap record

/-- The score of a signature with these counts, in exact numbers. -/
def scoreOf (e : List Byte × Nat × Nat) : Number := .finite (e.2.1 / (e.2.1 + e.2.2))

/-- With this rounding, the division of `parse` gives the score. -/
def Divides (round : Rounding) (e : List Byte × Nat × Nat) (score : Number) : Prop :=
  (round (e.2.1 : ℚ)).div round ((round (e.2.1 : ℚ)).add round (round (e.2.2 : ℚ))) = some score

/-- Every signature's node holds its score, and every other node 0. -/
structure Scored (entries : List (List Byte × Nat × Nat)) (trie : Node) : Prop where
  signature : ∀ e ∈ entries, trie.valueAt e.1 = some (scoreOf e)
  other : ∀ path score, trie.valueAt path = some score → (∀ e ∈ entries, e.1 ≠ path) → score = .finite 0

section Records
variable {sig : List Byte}

theorem arrow_absent {s : List Byte} (plain : ascii '>' ∉ s) : ¬ ARROW <:+: s := by
  intro occurs
  exact plain (occurs.subset (by simp [ARROW]))

theorem comma_absent {s : List Byte} (plain : ascii ',' ∉ s) : ¬ COMMA <:+: s := by
  intro occurs
  exact plain (occurs.subset (by simp [COMMA]))

/-- A dash at the end of a signature is not the arrow's. -/
theorem arrow_late (absent : ¬ ARROW <:+: sig) : ¬ ARROW <:+: sig ++ ARROW.dropLast := by
  change ¬ ARROW <:+: sig ++ [ascii '-']
  rw [List.infix_concat_iff]
  rintro (atEnd | inside)
  · have last := atEnd.getLast (by decide)
    simp [ARROW] at last
    revert last
    decide
  · exact absent inside

theorem not_mem_decimal {n : Nat} {b : Byte} (plain : isDigit b = false) : b ∉ decimal n := by
  intro member
  rw [isDigit_of_mem_decimal member] at plain
  cases plain

theorem counts_plain (p n : Nat) : ascii '>' ∉ counts p n := by
  simp only [counts, COMMA, List.mem_append, List.mem_singleton, not_or]
  exact ⟨⟨not_mem_decimal (by decide), by decide⟩, not_mem_decimal (by decide), by decide⟩

theorem split_record (e : List Byte × Nat × Nat) (absent : ¬ ARROW <:+: e.1) :
    split ARROW nofun (record e) = [e.1, counts e.2.1 e.2.2] := by
  have first := cut_append ARROW e.1 (counts e.2.1 e.2.2) nofun (arrow_late absent)
  have last := (cut_eq_none_iff ARROW (counts e.2.1 e.2.2)).mpr (arrow_absent (counts_plain _ _))
  rw [record, split_of_some first, split_of_none last]

theorem split_counts (p n : Nat) :
    split COMMA nofun (counts p n) = [decimal p, decimal n ++ [NEWLINE]] := by
  have noComma : ∀ k, ascii ',' ∉ decimal k := fun k => not_mem_decimal (by decide)
  have first := cut_append COMMA (decimal p) (decimal n ++ [NEWLINE]) nofun
    (comma_absent (by simpa [COMMA] using noComma p))
  have last := (cut_eq_none_iff COMMA (decimal n ++ [NEWLINE])).mpr
    (comma_absent (by simpa using ⟨noComma n, by decide⟩))
  rw [counts, split_of_some first, split_of_none last]

theorem parse_record {round : Rounding} {score : Number} (e : List Byte × Nat × Nat) (absent : ¬ ARROW <:+: e.1)
    (divides : Divides round e score) : parse round (record e) = .ok (e.1, score) := by
  have p := float_decimal round e.2.1 [] nofun
  have n := float_decimal round e.2.2 [NEWLINE] (by decide)
  rw [List.append_nil] at p
  rw [parse, split_record e absent]
  simp only [split_counts, p, n, show _ = some score from divides]

theorem divides_exactly (e : List Byte × Nat × Nat) (positive : 1 ≤ e.2.1) : Divides exactly e (scoreOf e) := by
  have total : (e.2.1 : ℚ) + e.2.2 ≠ 0 := by positivity
  simp [Divides, exactly, Number.add, Number.div, total, scoreOf]

/-- Counts that are doubles are divided with one rounding. -/
theorem divides_double (e : List Byte × Nat × Nat) (positive : 1 ≤ e.2.1) (small : e.2.1 + e.2.2 < 2 ^ 53) :
    Divides double e (double (e.2.1 / (e.2.1 + e.2.2))) := by
  have total : (e.2.1 : ℚ) + e.2.2 ≠ 0 := by positivity
  have sum := double_natCast small
  rw [Nat.cast_add] at sum
  rw [Divides, double_natCast (Nat.lt_of_le_of_lt (Nat.le_add_right _ _) small),
    double_natCast (Nat.lt_of_le_of_lt (Nat.le_add_left _ _) small), Number.add, sum]
  simp [Number.div, total]

/-- The loader never takes a signature with an arrow in it. -/
theorem parse_plain {round : Rounding} {l : List Byte} {score : Number} (parsed : parse round l = .ok (sig, score)) :
    ¬ ARROW <:+: sig := by
  unfold parse at parsed
  split at parsed
  next sig' counts words =>
    have same : sig' = sig := by
      split at parsed
      · split at parsed
        · split at parsed
          · exact (Prod.mk.inj (Except.ok.inj parsed)).1
          · cases parsed
        · cases parsed
      · cases parsed
    cases found : cut ARROW l with
    | none =>
      rw [split_of_none found] at words
      cases words
    | some parts =>
      rw [split_of_some found] at words
      have before : parts.1 = sig' := (List.cons.inj words).1
      rw [← same, ← before]
      exact (cut_eq_some found).2 nofun
  · cases parsed

end Records

section Loading

/-- Lines are joined up to the end of the one with the first arrow, whatever line that is. -/
theorem joinLines_append (before line rest after : List Byte) (whole : line ++ rest = before)
    (absent : ¬ ARROW <:+: before) (fuel : Nat) (enough : rest.length + 2 ≤ fuel) :
    joinLines fuel line (rest ++ ARROW ++ after) =
      some (before ++ ARROW ++ (readline after).1, (readline after).2) := by
  induction short : rest.length using Nat.strong_induction_on generalizing line rest fuel with
  | _ size ih =>
    obtain ⟨fuel, rfl⟩ : ∃ k, fuel = k + 1 := ⟨fuel - 1, by omega⟩
    have early : (cut ARROW line).isSome = false := by
      rw [(cut_eq_none_iff ARROW line).mpr]
      · rfl
      · exact fun occurs => absent (occurs.trans (whole ▸ (List.prefix_append line rest).isInfix))
    rw [joinLines, if_neg (by simp [early])]
    by_cases broken : NEWLINE ∈ rest
    · obtain ⟨front, back, rfl, oneLine⟩ := List.eq_append_cons_of_mem broken
      have file : front ++ NEWLINE :: back ++ ARROW ++ after =
          front ++ NEWLINE :: (back ++ ARROW ++ after) := by simp
      rw [file, readline_append _ _ oneLine]
      simp only [List.length_append, List.length_cons] at short enough
      exact ih back.length (by omega) (line ++ (front ++ [NEWLINE])) back (by simp [← whole]) fuel
        (by omega) rfl
    · have sameLine : NEWLINE ∉ rest ++ ARROW := by
        rw [List.mem_append, not_or]
        exact ⟨broken, by decide⟩
      rw [readline_append_left _ _ sameLine]
      obtain ⟨fuel, rfl⟩ : ∃ k, fuel = k + 1 := ⟨fuel - 1, by omega⟩
      have joined : line ++ (rest ++ ARROW ++ (readline after).1) = before ++ ARROW ++ (readline after).1 := by
        simp [← whole]
      have found : (cut ARROW (before ++ ARROW ++ (readline after).1)).isSome = true := by
        rw [Option.isSome_iff_ne_none, Ne, cut_eq_none_iff, not_not]
        exact List.infix_append before ARROW (readline after).1
      change joinLines (fuel + 1) (line ++ (rest ++ ARROW ++ (readline after).1)) _ = _
      rw [joined, joinLines, if_pos found]

/-- The counts end their line. -/
theorem readline_counts (p n : Nat) (more : List Byte) : readline (counts p n ++ more) = (counts p n, more) := by
  have oneLine : NEWLINE ∉ decimal p ++ COMMA ++ decimal n := by
    simp only [COMMA, List.mem_append, not_or]
    exact ⟨⟨not_mem_decimal (by decide), by decide⟩, not_mem_decimal (by decide)⟩
  have file : counts p n ++ more = (decimal p ++ COMMA ++ decimal n) ++ NEWLINE :: more := by simp [counts]
  rw [file, readline_append _ _ oneLine]
  simp [counts]

/-- However many lines a signature spreads over, its record is joined and nothing after it. -/
theorem joinLines_record (e : List Byte × Nat × Nat) (absent : ¬ ARROW <:+: e.1) (more : List Byte)
    (fuel : Nat) (enough : e.1.length + 2 ≤ fuel) :
    joinLines fuel [] (e.1 ++ ARROW ++ counts e.2.1 e.2.2 ++ more) = some (record e, more) := by
  rw [List.append_assoc, joinLines_append e.1 [] e.1 _ rfl absent fuel enough, readline_counts]
  rfl

/-- Reading the next line and then joining is joining from nothing. -/
theorem joinLines_readline (fuel : Nat) (file : List Byte) :
    joinLines fuel (readline file).1 (readline file).2 = joinLines (fuel + 1) [] file := by
  rw [joinLines, if_neg (by decide), List.nil_append]

theorem loadFrom_output {round : Rounding} {scores : List Byte × Nat × Nat → Number}
    (entries : List (List Byte × Nat × Nat)) (root : Node) (absent : ∀ e ∈ entries, ¬ ARROW <:+: e.1)
    (divides : ∀ e ∈ entries, Divides round e (scores e)) :
    ∃ enough, ∀ fuel ≥ enough, loadFrom round fuel (entries.flatMap record) root =
      some (.ok (entries.foldl (fun t e => t.insert (.finite 0) e.1 (scores e)) root)) := by
  induction entries generalizing root with
  | nil =>
    refine ⟨1, fun fuel enough => ?_⟩
    obtain ⟨fuel, rfl⟩ : ∃ k, fuel = k + 1 := ⟨fuel - 1, by omega⟩
    rfl
  | cons e rest ih =>
    obtain ⟨more, loads⟩ := ih (root.insert (.finite 0) e.1 (scores e))
      (fun d member => absent d (List.mem_cons_of_mem e member))
      (fun d member => divides d (List.mem_cons_of_mem e member))
    refine ⟨more + e.1.length + 2, fun fuel enough => ?_⟩
    obtain ⟨fuel, rfl⟩ : ∃ k, fuel = k + 1 := ⟨fuel - 1, by omega⟩
    have plain := absent e List.mem_cons_self
    have unread : (e :: rest).flatMap record ≠ [] := by simp [record, ARROW]
    have joined := joinLines_record e plain (rest.flatMap record) (fuel + 1) (by omega)
    rw [loadFrom, if_neg (mt (readline_eq_nil_iff _).mp unread), joinLines_readline, List.flatMap_cons]
    change (match joinLines (fuel + 1) [] (e.1 ++ ARROW ++ counts e.2.1 e.2.2 ++ rest.flatMap record) with
      | none => none | some (line, rest) => _) = _
    rw [joined]
    simp only [parse_record e plain (divides e List.mem_cons_self)]
    exact loads fuel (by omega)

/-- No node of a loaded trie is at a path with an arrow in it. -/
theorem loadFrom_plain {round : Rounding} (fuel : Nat) (file : List Byte) (root trie : Node)
    (plain : ∀ path, (root.valueAt path).isSome → ¬ ARROW <:+: path)
    (loaded : loadFrom round fuel file root = some (.ok trie)) (path : List Byte)
    (present : (trie.valueAt path).isSome) : ¬ ARROW <:+: path := by
  induction fuel generalizing file root with
  | zero => cases loaded
  | succ fuel ih =>
    rw [loadFrom] at loaded
    split_ifs at loaded with atEnd
    · obtain rfl : root = trie := Except.ok.inj (Option.some.inj loaded)
      exact plain path present
    · split at loaded
      · cases loaded
      · split at loaded
        · cases loaded
        next sig score parsed =>
          refine ih _ _ ?_ loaded
          intro path inside
          rw [Trie.valueAt_insert] at inside
          split_ifs at inside with same before
          · exact same ▸ parse_plain parsed
          · exact fun occurs => parse_plain parsed (occurs.trans before.isInfix)
          · exact plain path inside

end Loading

theorem Scored.concat {entries : List (List Byte × Nat × Nat)} {trie : Node} (scored : Scored entries trie)
    (e : List Byte × Nat × Nat) (new : ∀ d ∈ entries, d.1 ≠ e.1) :
    Scored (entries ++ [e]) (trie.insert (.finite 0) e.1 (scoreOf e)) := by
  constructor
  · intro d member
    rw [Trie.valueAt_insert]
    rcases List.mem_append.mp member with old | last
    · rw [if_neg (new d old), scored.signature d old]
      split_ifs <;> rfl
    · obtain rfl := List.mem_singleton.mp last
      rw [if_pos rfl]
  · intro path score held foreign
    rw [Trie.valueAt_insert, if_neg (Ne.symm (foreign e (by simp)))] at held
    have before := scored.other path score
    have foreign' : ∀ d ∈ entries, d.1 ≠ path := fun d old => foreign d (List.mem_append_left _ old)
    split_ifs at held with onTheWay
    · cases existing : trie.valueAt path with
      | none =>
        rw [existing] at held
        exact (Option.some.inj held).symm
      | some score' =>
        rw [existing] at held
        exact before (existing.trans held) foreign'
    · exact before held foreign'

theorem scored_foldl (entries : List (List Byte × Nat × Nat)) (distinct : (entries.map Prod.fst).Nodup) :
    Scored entries (entries.foldl (fun t e => t.insert (.finite 0) e.1 (scoreOf e))
      (.node (.finite 0) [])) := by
  induction entries using List.reverseRecOn with
  | nil =>
    refine ⟨nofun, fun path score held _ => ?_⟩
    rw [List.foldl_nil, Trie.valueAt_node_nil] at held
    split_ifs at held
    exact (Option.some.inj held).symm
  | append_singleton front e ih =>
    rw [List.map_append, List.nodup_append] at distinct
    rw [List.foldl_append]
    apply (ih distinct.1).concat e
    intro d member
    exact distinct.2.2 d.1 (List.mem_map_of_mem member) e.1 (by simp)

/-- In exact numbers, the loader gets back what the trainer wrote, if and only if no signature has an arrow in it. -/
theorem scored_iff_arrowless (sigs : Sigs) :
    (∃ fuel trie, load exactly fuel sigs.output = some (.ok trie) ∧ Scored sigs.entries trie) ↔
      ∀ e ∈ sigs.entries, ¬ ARROW <:+: e.1 := by
  constructor
  · rintro ⟨fuel, trie, loaded, scored⟩ e member
    apply loadFrom_plain fuel sigs.output (.node (.finite 0) []) trie ?_ loaded e.1
    · rw [scored.signature e member]
      rfl
    · intro path inside
      rw [Trie.valueAt_node_nil] at inside
      split_ifs at inside with atRoot
      · rw [atRoot]
        decide
      · cases inside
  · intro absent
    obtain ⟨enough, loads⟩ := loadFrom_output sigs.entries (.node (.finite 0) []) absent
      (fun e member => divides_exactly e (sigs.positive e member))
    exact ⟨enough, _, loads enough le_rfl, scored_foldl sigs.entries sigs.distinct⟩

/-- One signature, the two bytes of `sub eax, imm32` with the low byte 0x3e. -/
def arrowSig : Sigs where
  entries := [(ARROW, 1, 0)]
  distinct := by decide
  nonempty := by decide
  short := by decide
  positive := by decide

theorem arrow_unreadable :
    load exactly 2 arrowSig.output = some (.error (.signatureErr 0)) ∧
      ∀ fuel trie, load exactly fuel arrowSig.output ≠ some (.ok trie) := by
  have first : cut ARROW arrowSig.output = some ([], ARROW ++ counts 1 0) := by decide
  have second : cut ARROW (ARROW ++ counts 1 0) = some ([], counts 1 0) := by decide
  have third : cut ARROW (counts 1 0) = none := by decide
  have line : readline arrowSig.output = (arrowSig.output, []) := by decide
  have parsed : parse exactly arrowSig.output = .error (.signatureErr 0) := by
    rw [parse, split_of_some first, split_of_some second, split_of_none third]
  have loads : ∀ fuel, load exactly (fuel + 2) arrowSig.output = some (.error (.signatureErr 0)) := by
    intro fuel
    rw [load, loadFrom, line, if_neg (by decide), joinLines, first, Option.isSome_some, if_pos rfl]
    simp only [parsed]
  refine ⟨loads 0, fun fuel trie loaded => ?_⟩
  match fuel with
  | 0 => cases loaded
  | 1 =>
    rw [load, loadFrom, line, if_neg (by decide)] at loaded
    cases loaded
  | fuel + 2 =>
    rw [loads fuel] at loaded
    cases loaded

end Qira.Byteweight
