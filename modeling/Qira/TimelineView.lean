import Qira.ClnumQueries
import Qira.TimelineFlags

/-!
The accesses that the timeline shows. The view goes from the query of the server to what is drawn; the query leaves
the end of the view out, and drawing includes it.
-/

namespace Qira.TimelineView
open ChangeRecord TraceIndex ClnumQueries TimelineFlags Library.Dictionaries Library.Ranges

variable {cfg : Config}

/-- The answer of the database of a trace, with `LIMIT` 0. -/
def fetchHits (t : Trace cfg) (address : Address) (type : AccessType) (cview : Clnum × Clnum) : List Int :=
  (fetchClnumsByAddressAndType t address type.char cview.1 cview.2 0).map (fun c => (c.toNat : Int))

/-- The clnums that `getchanges` emits, by fork; -1 is for all forks, and nothing is emitted for one that is unknown. -/
def getchanges (order : Order) (traces : Dict Int (Trace cfg)) (forknum : Int) (address : Address) (type : AccessType)
    (cview : Clnum × Clnum) (cscale : ℚ) (clnum : Int) : Option (Dict Int (List Int)) :=
  if forknum ≠ -1 ∧ traces.lookup forknum = none then none
  else
    let forks := if forknum = -1 then order.walk traces.entries else traces.entries.filter (fun t => t.1 = forknum)
    some (ofPairs (forks.map (fun t => (t.1, sendClnums order cscale clnum (fetchHits t.2 address type cview)))))

/-- The ranges of the traces, that the client has as `max_clnum`. -/
def getMaxclnum (traces : Dict Int (Trace cfg)) : Dict Int (Int × Int) :=
  ofPairs (traces.entries.map (fun t => (t.1, ((t.2.minClnum.toNat : Int), (t.2.maxClnum.toNat : Int)))))

def absMaxclnum (order : Order) (maxclnum : Dict Int (Int × Int)) : Option Int :=
  (order.walk maxclnum.entries).foldl (fun ret fork =>
    if ret.all (fun ret => ret < fork.2.2) then some fork.2.2 else ret) none

/-- The view that `zoom_out_max` sets. -/
def zoomOutMax (order : Order) (maxclnum : Dict Int (Int × Int)) : Option (Int × Int) :=
  (absMaxclnum order maxclnum).map (fun max => (0, max))

/-- The flags that `redraw_vtimelines` puts at the ends of the view, where they lie in a trace. -/
def redrawVtimelines (order : Order) (cview : Int × Int) (maxclnum : Dict Int (Int × Int)) (flags : Flags) : Flags :=
  (order.walk maxclnum.entries).foldl (fun flags fork =>
    let flags := if fork.2.1 < cview.1 ∧ cview.1 < fork.2.2 then addFlag .zoom fork.1 cview.1 flags else flags
    if fork.2.1 < cview.2 ∧ cview.2 < fork.2.2 then addFlag .zoom fork.1 cview.2 flags else flags)
    (removeFlags .zoom none flags)

structure Drawn where
  forknum : Int
  clnum : Int
  types : List FlagType

/-- The loop body of `redraw_flags`. -/
def drawFlag (cview : Int × Int) (maxclnum : Dict Int (Int × Int))
    (flag : Sigma fun _ : Int × Int => List FlagType) : Option Drawn :=
  if flag.2 = [] then none
  else if maxclnum.lookup flag.1.1 = none then none
  else if flag.1.2 < cview.1 ∨ flag.1.2 > cview.2 then none
  else some ⟨flag.1.1, flag.1.2, flag.2⟩

/-- What `redraw_flags` draws, where the view and the ranges are known. -/
def redrawFlags (order : Order) (cview : Int × Int) (maxclnum : Dict Int (Int × Int)) (flags : Flags) : List Drawn :=
  (order.walk (redrawVtimelines order cview maxclnum flags).entries).filterMap (drawFlag cview maxclnum)

/-- A hit goes from the database to the client, and is drawn. -/
def Shown (order : Order) (traces : Dict Int (Trace cfg)) (client : Client) (address : Address) (type : AccessType)
    (cview : Clnum × Clnum) (cscale : ℚ) (forknum c : Int) : Prop :=
  ∃ clnums, getchanges order traces (-1) address type cview cscale client.clnum = some clnums ∧
    ∃ d ∈ redrawFlags order (cview.1.toNat, cview.2.toNat) (getMaxclnum traces) (client.onChanges order type clnums).flags,
      d.forknum = forknum ∧ d.clnum = c ∧ type.flag ∈ d.types

def Accessed (log : List Change) (address : Address) (type : AccessType) (c : Clnum) : Prop :=
  ∃ r ∈ log, r.clnum = c ∧ r.address = address ∧ r.type = type.char

/-- The changelists of the view at which the address is accessed. -/
def viewHits (log : List Change) (address : Address) (type : AccessType) (cview : Clnum × Clnum) : List Clnum :=
  ((log.filter (fun r => r.address = address ∧ r.type = type.char ∧ cview.1 ≤ r.clnum ∧ r.clnum ≤ cview.2)).map
    Change.clnum).dedup

section Drawing
variable {order : Order} {cview : Int × Int} {maxclnum : Dict Int (Int × Int)} {flags : Flags} {type : FlagType}

theorem carries_redrawVtimelines (notZoom : type ≠ .zoom) (f c : Int) :
    Carries (redrawVtimelines order cview maxclnum flags) type f c ↔ Carries flags type f c := by
  have walked : ∀ (forks : List (Sigma fun _ : Int => Int × Int)) (flags : Flags),
      Carries (forks.foldl (fun flags fork =>
        let flags := if fork.2.1 < cview.1 ∧ cview.1 < fork.2.2 then addFlag .zoom fork.1 cview.1 flags else flags
        if fork.2.1 < cview.2 ∧ cview.2 < fork.2.2 then addFlag .zoom fork.1 cview.2 flags else flags) flags) type f c ↔
          Carries flags type f c := by
    intro forks
    induction forks with
    | nil => exact fun _ => Iff.rfl
    | cons fork rest ih =>
      intro flags
      have kept : ∀ (flags : Flags) (clnum : Int),
          Carries (addFlag .zoom fork.1 clnum flags) type f c ↔ Carries flags type f c := fun flags clnum =>
        (carries_addFlag ..).trans (or_iff_left fun key => notZoom key.1.symm)
      rw [List.foldl_cons, ih]
      dsimp only
      split <;> split <;> simp only [kept]
  exact (walked _ _).trans ((carries_removeFlags f c).trans (and_iff_right notZoom))

/-- A flag is drawn if it lies in the view, ends included, and on a known timeline. -/
theorem drawn_iff_carries (notZoom : type ≠ .zoom) {forknum : Int} (known : maxclnum.lookup forknum ≠ none) (c : Int) :
    (∃ d ∈ redrawFlags order cview maxclnum flags, d.forknum = forknum ∧ d.clnum = c ∧ type ∈ d.types) ↔
      cview.1 ≤ c ∧ c ≤ cview.2 ∧ Carries flags type forknum c := by
  rw [← carries_redrawVtimelines notZoom]
  constructor
  · rintro ⟨d, drawn, rfl, rfl, inside⟩
    obtain ⟨⟨⟨f, c⟩, types⟩, entry, draw⟩ := List.mem_filterMap.mp drawn
    obtain ⟨-, draw⟩ := Option.ite_none_left_eq_some.mp draw
    obtain ⟨-, draw⟩ := Option.ite_none_left_eq_some.mp draw
    obtain ⟨visible, same⟩ := Option.ite_none_left_eq_some.mp draw
    obtain rfl := Option.some.inj same
    obtain ⟨above, below⟩ := not_or.mp visible
    exact ⟨not_lt.mp above, not_lt.mp below, types, (mem_walk order _ _ _).mp entry, inside⟩
  · rintro ⟨above, below, types, found, inside⟩
    refine ⟨⟨forknum, c, types⟩, List.mem_filterMap.mpr ⟨⟨(forknum, c), types⟩, (mem_walk order _ _ _).mpr found, ?_⟩,
      rfl, rfl, inside⟩
    rw [drawFlag, if_neg (List.ne_nil_of_mem inside), if_neg known,
      if_neg (not_or.mpr ⟨above.not_gt, below.not_gt⟩)]

end Drawing

section View
variable {order : Order} {traces : Dict Int (Trace cfg)} {forknum : Int} {log : List Change}

theorem lookup_getMaxclnum (t : Trace cfg) (found : traces.lookup forknum = some t) :
    (getMaxclnum traces).lookup forknum ≠ none := by
  have answered : (getMaxclnum traces).lookup forknum = some ((t.minClnum.toNat : Int), (t.maxClnum.toNat : Int)) := by
    apply lookup_ofPairs
    · rw [List.map_map]
      exact traces.nodupKeys
    · exact List.mem_map.mpr ⟨⟨forknum, t⟩, AList.mem_lookup_iff.mp found, rfl⟩
  rw [answered]
  exact Option.some_ne_none _

theorem lookup_getchanges (t : Trace cfg) (found : traces.lookup forknum = some t) (address : Address)
    (type : AccessType) (cview : Clnum × Clnum) (cscale : ℚ) (clnum : Int) :
    ∃ clnums, getchanges order traces (-1) address type cview cscale clnum = some clnums ∧
      clnums.lookup forknum = some (sendClnums order cscale clnum (fetchHits t address type cview)) := by
  refine ⟨_, if_neg fun unknown => unknown.1 rfl, ?_⟩
  rw [if_pos rfl]
  apply lookup_ofPairs
  · rw [List.map_map]
    exact ((order.perm traces.entries).map Sigma.fst).nodup_iff.mpr traces.nodupKeys
  · exact List.mem_map.mpr ⟨⟨forknum, t⟩, (mem_walk order traces forknum t).mpr found, rfl⟩

theorem mem_fetchHits (log : List Change) (address : Address) (type : AccessType) (cview : Clnum × Clnum) (c : Int) :
    c ∈ fetchHits (ingestAll cfg log) address type cview ↔
      ∃ k : Clnum, c = k.toNat ∧ cview.1 ≤ k ∧ k < cview.2 ∧ Accessed log address type k := by
  have ordered := ordered_toList (clnumsOf (ingestAll cfg log).addresstypeToClnums address type.char)
  have member : ∀ k, k ∈ fetchClnumsByAddressAndType (ingestAll cfg log) address type.char cview.1 cview.2 0 ↔
      cview.1 ≤ k ∧ k < cview.2 ∧ Accessed log address type k := by
    intro k
    rw [fetchClnumsByAddressAndType_eq]
    dsimp only
    rw [if_pos rfl, mem_between _ _ ordered, Std.TreeSet.mem_toList, mem_ingestAll, and_comm, and_assoc]
    rfl
  rw [fetchHits, List.mem_map]
  constructor
  · rintro ⟨k, inside, rfl⟩
    exact ⟨k, rfl, (member k).mp inside⟩
  · rintro ⟨k, rfl, inside⟩
    exact ⟨k, (member k).mpr inside, rfl⟩

theorem length_fetchHits_le (log : List Change) (address : Address) (type : AccessType) (cview : Clnum × Clnum) :
    (fetchHits (ingestAll cfg log) address type cview).length ≤ (viewHits log address type cview).length := by
  have ordered := ordered_toList (clnumsOf (ingestAll cfg log).addresstypeToClnums address type.char)
  have nodup : (fetchHits (ingestAll cfg log) address type cview).Nodup := by
    rw [fetchHits, fetchClnumsByAddressAndType_eq]
    dsimp only
    rw [if_pos rfl]
    refine List.Nodup.map (fun k k' same => BitVec.eq_of_toNat_eq (by exact_mod_cast same)) ?_
    exact (ordered.sublist (between_sublist _ _ _)).imp fun less => less.ne
  have subset : fetchHits (ingestAll cfg log) address type cview ⊆
      (viewHits log address type cview).map (fun k => (k.toNat : Int)) := by
    intro c inside
    obtain ⟨k, rfl, above, below, r, found, rfl, here, same⟩ := (mem_fetchHits log address type cview c).mp inside
    refine List.mem_map.mpr ⟨r.clnum, List.mem_dedup.mpr (List.mem_map.mpr ⟨r, List.mem_filter.mpr ⟨found, ?_⟩, rfl⟩), rfl⟩
    exact decide_eq_true ⟨here, same, above, below.le⟩
  exact (nodup.subperm subset).length_le.trans_eq (List.length_map ..)

theorem flag_ne_zoom (type : AccessType) : type.flag ≠ .zoom := by
  cases type <;> decide

theorem sendClnums_few (cscale : ℚ) (clnum : Int) {db : List Int} (few : db.length ≤ 50) :
    sendClnums order cscale clnum db = db :=
  if_neg few.not_gt

/-- Of few hits exactly those before the end of the view are shown. -/
theorem shown_iff (client : Client) (address : Address) (type : AccessType) (cview : Clnum × Clnum) (cscale : ℚ)
    (found : traces.lookup forknum = some (ingestAll cfg log)) (few : (viewHits log address type cview).length ≤ 50)
    (c : Int) :
    Shown order traces client address type cview cscale forknum c ↔
      ∃ k : Clnum, c = k.toNat ∧ cview.1 ≤ k ∧ k < cview.2 ∧ Accessed log address type k := by
  obtain ⟨clnums, emitted, sent⟩ :=
    @lookup_getchanges cfg order traces forknum _ found address type cview cscale client.clnum
  rw [sendClnums_few cscale client.clnum ((length_fetchHits_le log address type cview).trans few)] at sent
  have drawn := fun flags => @drawn_iff_carries order ((cview.1.toNat : Int), (cview.2.toNat : Int)) (getMaxclnum traces)
    flags type.flag (flag_ne_zoom type) forknum (lookup_getMaxclnum _ found) c
  have shown : Shown order traces client address type cview cscale forknum c ↔
      (cview.1.toNat : Int) ≤ c ∧ c ≤ cview.2.toNat ∧ c ∈ fetchHits (ingestAll cfg log) address type cview := by
    unfold Shown
    rw [emitted]
    simp only [Option.some.injEq, exists_eq_left', drawn, carries_onChanges, if_pos, sent]
  rw [shown, mem_fetchHits]
  constructor
  · exact fun inside => inside.2.2
  · rintro ⟨k, rfl, above, below, accessed⟩
    refine ⟨?_, ?_, k, rfl, above, below, accessed⟩
    · exact_mod_cast above
    · exact_mod_cast below.le

end View

/-- With at most 50 hits in its view, the timeline shows exactly the accesses of the view, unless there is one at the
view's end. -/
theorem shown_exact_iff (order : Order) (traces : Dict Int (Trace cfg)) (client : Client) (address : Address)
    (type : AccessType) (cview : Clnum × Clnum) (cscale : ℚ) (forknum : Int) (log : List Change)
    (found : traces.lookup forknum = some (ingestAll cfg log)) (few : (viewHits log address type cview).length ≤ 50) :
    (∀ c : Int, Shown order traces client address type cview cscale forknum c ↔
      ∃ k : Clnum, c = k.toNat ∧ cview.1 ≤ k ∧ k ≤ cview.2 ∧ Accessed log address type k) ↔
        ¬ (cview.1 ≤ cview.2 ∧ Accessed log address type cview.2) := by
  constructor
  · rintro exact' ⟨order', accessed⟩
    have shown := (exact' cview.2.toNat).mpr ⟨cview.2, rfl, order', le_rfl, accessed⟩
    obtain ⟨k, same, -, below, -⟩ := (shown_iff client address type cview cscale found few _).mp shown
    have last : cview.2 = k := BitVec.eq_of_toNat_eq (by exact_mod_cast same)
    exact below.ne last.symm
  · intro unaccessed c
    rw [shown_iff client address type cview cscale found few]
    refine exists_congr fun k => and_congr_right fun _ => and_congr_right fun above => ?_
    constructor
    · exact fun inside => ⟨inside.1.le, inside.2⟩
    · rintro ⟨upTo, accessed⟩
      refine ⟨upTo.lt_of_ne ?_, accessed⟩
      rintro rfl
      exact unaccessed ⟨above, accessed⟩

/-- A trace of one instruction. -/
def single : List Change := [⟨0x400000, 1, 5, 0x90000008⟩]

/-- A program with that trace, and its client. -/
def program : Dict Int (Trace ⟨true, 8, 2⟩) := ofPairs [(0, ingestAll _ single)]

def started : Client := ⟨∅, 0, 5, false⟩

theorem lookup_program : program.lookup 0 = some (ingestAll _ single) :=
  lookup_ofPairs _ 0 _ (List.nodup_singleton 0) List.mem_cons_self

theorem shown_exact_iff_single :
    (∀ c : Int, Shown filled program started 0x400000 .I (0, 5) 1 0 c ↔
      ∃ k : Clnum, c = k.toNat ∧ 0 ≤ k ∧ k ≤ 5 ∧ Accessed single 0x400000 .I k) ↔
        ¬ ((0 : Clnum) ≤ 5 ∧ Accessed single 0x400000 .I 5) :=
  shown_exact_iff filled program started 0x400000 .I (0, 5) 1 0 single lookup_program (by decide)

/-- Zoomed out all the way, the view does not show the last instruction. -/
theorem last_hidden : zoomOutMax filled (getMaxclnum program) = some (0, 5) ∧
    ¬ ∀ c : Int, Shown filled program started 0x400000 .I (0, 5) 1 0 c ↔
      ∃ k : Clnum, c = k.toNat ∧ 0 ≤ k ∧ k ≤ 5 ∧ Accessed single 0x400000 .I k := by
  refine ⟨by decide, fun exact' => ?_⟩
  have accessed : Accessed single 0x400000 .I 5 := ⟨_, List.mem_cons_self, rfl, rfl, by decide⟩
  have shown := (exact' 5).mpr ⟨5, by decide, by decide, le_rfl, accessed⟩
  obtain ⟨k, same, -, below, -⟩ :=
    (shown_iff started 0x400000 .I (0, 5) 1 lookup_program (by decide) 5).mp shown
  have last : 5 = k := BitVec.eq_of_toNat_eq (by exact_mod_cast same)
  exact below.ne last.symm

end Qira.TimelineView
