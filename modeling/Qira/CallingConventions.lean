import Qira.Library.PartialMaps

/-!
Guessing the calling convention of a function from the registers and the places on the stack that it reads before
it has written them.
-/

namespace Qira.CallingConventions
open Library.PartialMaps

/-- `ABITYPE`. -/
inductive ABI
  | unknown
  | x86Cdecl
  | x86Fastcall
  | x86Bfastcall
  | x64Win
  | x64Sysv
  | armStd
  deriving DecidableEq

def ABI.all : List ABI := [.unknown, .x86Cdecl, .x86Fastcall, .x86Bfastcall, .x64Win, .x64Sysv, .armStd]

theorem ABI.mem_all (abi : ABI) : abi ∈ ABI.all := by
  cases abi <;> decide

/-- The registers of the arguments, in order. -/
def ABI.args : ABI → List String
  | .unknown => []
  | .x86Cdecl => []
  | .x86Fastcall => ["ECX", "EDX"]
  | .x86Bfastcall => ["EAX", "EDX", "ECX"]
  | .x64Win => ["RCX", "RDX", "R8", "R9"]
  | .x64Sysv => ["RDI", "RSI", "RDX", "RCX", "R8", "R9"]
  | .armStd => ["r0", "r1", "r2", "r3"]

/-- The loop over the registers of an ABI, from the registers that are left and from `consistent`. -/
def consistentLoop (readstack : Nat) : List String → List String → Bool → Bool
  | [], _, consistent => consistent
  | reg :: rest, regsCpy, consistent =>
      if regsCpy ≠ [] ∧ reg ∈ regsCpy then consistentLoop readstack rest (regsCpy.erase reg) consistent
      else if readstack ≠ 0 ∨ regsCpy ≠ [] then false
      else consistent

def consistent (readregs : List String) (readstack : Nat) (abi : ABI) : Bool :=
  consistentLoop readstack abi.args readregs (readregs.length ≤ abi.args.length)

/-- The loop over the names of `ABITYPE`. -/
def guessLoop (readregs : List String) (readstack : Nat) : List ABI → ABI × Nat
  | [] => (.unknown, 0)
  | abi :: rest =>
      if abi = .unknown then guessLoop readregs readstack rest
      else if consistent readregs readstack abi then (abi, readstack + readregs.length)
      else guessLoop readregs readstack rest

/-- `guess_calling_conv`, where `regs` is `program.tregs[0]` and `order` has the names of `ABITYPE` that do not begin
with `_` as they come from its dictionary; `none` is an `IndexError`. -/
def guessCallingConv (regs : List String) (order : List ABI) (readregs : List Nat) (readstack : Nat) :
    Option (ABI × Nat) :=
  if readregs = [] ∧ readstack = 0 then some (.unknown, 0)
  else (readregs.mapM (fun x => regs[x]?)).map (fun readregs => guessLoop readregs readstack order)

/-- The registers read are the first ones of the ABI, in any order, and all of them if the stack is read, too. -/
structure Fits (readregs : List String) (readstack : Nat) (abi : ABI) : Prop where
  known : abi ≠ .unknown
  first : (abi.args.take readregs.length).Perm readregs
  all : 0 < readstack → abi.args.length = readregs.length

section Consistency
variable (readstack : Nat)

theorem consistentLoop_false (args regsCpy : List String) : consistentLoop readstack args regsCpy false = false := by
  induction args generalizing regsCpy with
  | nil => rfl
  | cons reg rest ih =>
    simp only [consistentLoop, ih]
    split_ifs <;> rfl

theorem consistentLoop_iff (args regsCpy : List String) (few : regsCpy.length ≤ args.length) :
    consistentLoop readstack args regsCpy true = true ↔
      (args.take regsCpy.length).Perm regsCpy ∧ (0 < readstack → args.length = regsCpy.length) := by
  induction args generalizing regsCpy with
  | nil =>
    obtain rfl := List.length_eq_zero_iff.mp (Nat.le_zero.mp few)
    exact iff_of_true rfl ⟨List.Perm.refl _, fun _ => rfl⟩
  | cons reg rest ih =>
    by_cases inside : reg ∈ regsCpy
    · have some : regsCpy ≠ [] := List.ne_nil_of_mem inside
      have length := List.length_erase_of_mem inside
      obtain ⟨n, whole⟩ : ∃ n, regsCpy.length = n + 1 := ⟨_, (Nat.succ_pred (List.length_pos_of_mem inside).ne').symm⟩
      rw [whole, Nat.add_sub_cancel] at length
      rw [List.length_cons] at few
      rw [consistentLoop, if_pos ⟨some, inside⟩, ih _ (by omega), length, whole, List.take_succ_cons,
        List.cons_perm_iff_perm_erase, and_iff_right inside, List.length_cons, Nat.add_right_cancel_iff]
    · rw [consistentLoop, if_neg fun both => inside both.2]
      rcases regsCpy with _ | ⟨first, others⟩
      · simp
      · rw [if_pos (.inr (List.cons_ne_nil first others))]
        refine iff_of_false Bool.false_ne_true fun fits => inside ?_
        rw [List.length_cons, List.take_succ_cons] at fits
        exact fits.1.mem_iff.mp List.mem_cons_self

theorem consistent_iff (readregs : List String) (abi : ABI) :
    consistent readregs readstack abi = true ↔
      (abi.args.take readregs.length).Perm readregs ∧ (0 < readstack → abi.args.length = readregs.length) := by
  rw [consistent]
  by_cases few : readregs.length ≤ abi.args.length
  · rw [decide_eq_true few]
    exact consistentLoop_iff readstack abi.args readregs few
  · rw [decide_eq_false few, consistentLoop_false]
    refine iff_of_false Bool.false_ne_true fun fits => few ?_
    have length := fits.1.length_eq
    rw [List.length_take] at length
    omega

end Consistency

section Guessing
variable {readregs : List String} {readstack : Nat}

theorem fits_iff (abi : ABI) :
    Fits readregs readstack abi ↔ abi ≠ .unknown ∧ consistent readregs readstack abi = true := by
  rw [consistent_iff]
  exact ⟨fun fits => ⟨fits.known, fits.first, fits.all⟩, fun ⟨known, first, all⟩ => ⟨known, first, all⟩⟩

theorem guessLoop_of_fits {abi : ABI} (fits : Fits readregs readstack abi)
    (only : ∀ other, Fits readregs readstack other → other = abi) (order : List ABI) (inside : abi ∈ order) :
    guessLoop readregs readstack order = (abi, readstack + readregs.length) := by
  induction order with
  | nil => exact absurd inside List.not_mem_nil
  | cons head rest ih =>
    have later : head ≠ abi → guessLoop readregs readstack rest = (abi, readstack + readregs.length) := fun other =>
      ih ((List.mem_cons.mp inside).resolve_left fun same => other same.symm)
    by_cases skipped : head = .unknown
    · rw [guessLoop, if_pos skipped]
      exact later fun same => fits.known (same.symm.trans skipped)
    · rw [guessLoop, if_neg skipped]
      by_cases agrees : consistent readregs readstack head = true
      · rw [if_pos agrees, only head ((fits_iff head).mpr ⟨skipped, agrees⟩)]
      · rw [if_neg agrees]
        exact later fun same => agrees ((fits_iff head).mp (same ▸ fits)).2

theorem guessLoop_of_none (none : ∀ abi, ¬ Fits readregs readstack abi) (order : List ABI) :
    guessLoop readregs readstack order = (.unknown, 0) := by
  induction order with
  | nil => rfl
  | cons head rest ih =>
    by_cases skipped : head = .unknown
    · rw [guessLoop, if_pos skipped, ih]
    · have differs : ¬ consistent readregs readstack head = true := fun agrees =>
        none head ((fits_iff head).mpr ⟨skipped, agrees⟩)
      rw [guessLoop, if_neg skipped, if_neg differs, ih]

/-- The first registers of two ABIs are the same ones only if there are none. -/
theorem args_apart : ∀ a ∈ ABI.all, ∀ b ∈ ABI.all, ∀ n ≤ a.args.length, n ≠ 0 →
    (a.args.take n).Perm (b.args.take n) → a = b := by
  decide

/-- Only one ABI has no arguments in registers, apart from the unknown one. -/
theorem args_none : ∀ a ∈ ABI.all, a ≠ .unknown → a.args.length = 0 → a = .x86Cdecl := by
  decide

theorem fits_unique {a b : ABI} (read : readregs ≠ [] ∨ 0 < readstack) (first : Fits readregs readstack a)
    (second : Fits readregs readstack b) : a = b := by
  by_cases none : readregs = []
  · have stack := read.resolve_left (not_not.mpr none)
    rw [args_none a a.mem_all first.known ((first.all stack).trans (congrArg List.length none)),
      args_none b b.mem_all second.known ((second.all stack).trans (congrArg List.length none))]
  · have few : readregs.length ≤ a.args.length := by
      rw [← first.first.length_eq, List.length_take]
      exact min_le_right _ _
    exact args_apart a a.mem_all b b.mem_all readregs.length few (mt List.length_eq_zero_iff.mp none)
      (first.first.trans second.first.symm)

end Guessing

/-- The guess is the ABI that fits, with the number of places read, in every order; no other fits, and without one
that does nothing is guessed. -/
theorem guessCallingConv_exact (regs : List String) {order : List ABI} (whole : order.Perm ABI.all) {readregs : List Nat}
    {names : List String} (named : readregs.mapM (fun x => regs[x]?) = some names) {readstack : Nat}
    (read : readregs ≠ [] ∨ 0 < readstack) :
    (∀ abi, guessCallingConv regs order readregs readstack = some (abi, readstack + readregs.length) ↔
        Fits names readstack abi) ∧
      (∀ a b, Fits names readstack a → Fits names readstack b → a = b) ∧
      ((∀ abi, ¬ Fits names readstack abi) →
        guessCallingConv regs order readregs readstack = some (.unknown, 0)) := by
  have length := length_of_mapM named
  have read' : names ≠ [] ∨ 0 < readstack :=
    read.imp_left (mt fun none => List.length_eq_zero_iff.mp (length.symm.trans (congrArg List.length none)))
  have guessed : guessCallingConv regs order readregs readstack = some (guessLoop names readstack order) := by
    have begun : ¬ (readregs = [] ∧ readstack = 0) := by
      rintro ⟨none, zero⟩
      exact read.elim (fun other => other none) (fun positive => positive.ne' zero)
    rw [guessCallingConv, if_neg begun, named, Option.map_some]
  have found (abi : ABI) (fits : Fits names readstack abi) :
      guessLoop names readstack order = (abi, readstack + names.length) :=
    guessLoop_of_fits fits (fun other fits' => fits_unique read' fits' fits) order (whole.mem_iff.mpr abi.mem_all)
  rw [guessed, ← length]
  refine ⟨fun abi => ⟨fun answer => ?_, fun fits => congrArg some (found abi fits)⟩,
    fun a b => fits_unique read', fun none => congrArg some (guessLoop_of_none none order)⟩
  have answer := Option.some.inj answer
  by_cases none : ∀ abi, ¬ Fits names readstack abi
  · -- The guess of nothing counts no place, and some place was read.
    have zero := congrArg Prod.snd ((guessLoop_of_none none order).symm.trans answer)
    have count : 0 = readstack + names.length := zero
    rcases read' with named | stack
    · exact absurd (List.length_eq_zero_iff.mp (by omega)) named
    · omega
  · obtain ⟨other, fits⟩ := not_forall_not.mp none
    have same : other = abi := congrArg Prod.fst ((found other fits).symm.trans answer)
    exact same ▸ fits

example : guessCallingConv ["EAX", "ECX", "EDX"] ABI.all [2, 1] 0 = some (.x86Fastcall, 2) := by decide

/-- Two registers are read in the other order, and none of the stack. -/
theorem guessCallingConv_exact_fastcall :
    (∀ abi, guessCallingConv ["EAX", "ECX", "EDX"] ABI.all [2, 1] 0 = some (abi, 0 + [2, 1].length) ↔
        Fits ["EDX", "ECX"] 0 abi) ∧
      (∀ a b, Fits ["EDX", "ECX"] 0 a → Fits ["EDX", "ECX"] 0 b → a = b) ∧
      ((∀ abi, ¬ Fits ["EDX", "ECX"] 0 abi) →
        guessCallingConv ["EAX", "ECX", "EDX"] ABI.all [2, 1] 0 = some (.unknown, 0)) :=
  guessCallingConv_exact ["EAX", "ECX", "EDX"] (List.Perm.refl _) rfl (.inl (List.cons_ne_nil _ _))

end Qira.CallingConventions
