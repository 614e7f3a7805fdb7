import Qira.TraceProcess
import Qira.Library.Overwrites

/-! What the register index answers. A register write record sets the whole cell of the register its
address falls in, whatever its size field, and `FetchRegisters` returns the last such data. -/

namespace Qira.TraceRegisters
open ChangeRecord TraceIndex Library.Timelines Library.Overwrites

/-- The register a record is keyed to, if any, with the data it sets. -/
def registerWrite (cfg : Config) (c : Change) : Nat → Option (BitVec 64) :=
  fun i => if (c.type = 'W' ∧ c.address.toNat < cfg.registerSize * cfg.registerCount) ∧
      c.address.toNat / cfg.registerSize = i
    then some c.data else none

theorem writeRegister_getElem {cfg : Config} (registers : Vector RegisterCell cfg.registerCount)
    (c : Change) (i : Nat) (inFile : i < cfg.registerCount) :
    (writeRegister registers c)[i] =
      registers[i].record ((registerWrite cfg c i).map (fun d => (c.clnum, d))).toList := by
  unfold writeRegister registerWrite
  split
  next inside =>
    rw [Vector.getElem_set]
    by_cases keyed : c.address.toNat / cfg.registerSize = i
    · subst keyed
      rw [if_pos rfl, if_pos ⟨inside, rfl⟩]
      rfl
    · rw [if_neg keyed, if_neg (fun both => keyed both.2)]
      rfl
  next outside =>
    rw [if_neg (fun both => outside both.1)]
    rfl

theorem registers_foldl {cfg : Config} (t : Trace cfg) (log : List Change) (i : Nat)
    (inFile : i < cfg.registerCount) :
    (log.foldl Trace.ingest t).registers[i] =
      t.registers[i].record (stamped Change.clnum (registerWrite cfg) log i) := by
  induction log using List.reverseRecOn with
  | nil => rfl
  | append_singleton front c ih =>
    rw [List.foldl_append, stamped_append_singleton, record_append, ← ih]
    exact writeRegister_getElem _ c i inFile

theorem fetchRegisters_getElem {cfg : Config} (t : Trace cfg) (clnum : Clnum) (i : Nat)
    (inFile : i < cfg.registerCount) :
    (t.fetchRegisters clnum)[i] = ((t.registers[i]).asOf clnum).getD 0 := by
  simp [Trace.fetchRegisters]

/-- `FetchRegisters` on a log in changelist order: the last data keyed to the register. -/
theorem fetchRegisters_ingestAll (cfg : Config) (log : List Change) (clnum : Clnum) (i : Nat)
    (inFile : i < cfg.registerCount)
    (ordered : log.Pairwise (fun b c => b.clnum ≤ c.clnum)) :
    ((ingestAll cfg log).fetchRegisters clnum)[i] =
      (lastWrite ((log.filter (fun c => c.clnum ≤ clnum)).map (registerWrite cfg)) i).getD 0 := by
  have start : (Trace.new cfg).registers[i] = empty := by simp [Trace.new]
  rw [fetchRegisters_getElem, ingestAll, registers_foldl, start, asOf_stamped _ _ _ _ _ ordered]

end Qira.TraceRegisters
