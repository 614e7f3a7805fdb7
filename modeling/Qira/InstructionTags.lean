import Qira.Instructions

/-!
The tag `instruction` of an address: it is decoded when it is first read, from the memory and for the
architecture of that moment, and kept until it is deleted.
-/

namespace Qira.InstructionTags
open Instructions StaticMemory Library.Words Library.Dictionaries Library.Machines

/-- What capstone is opened for. -/
inductive Mode
  | x86_32
  | x86_64
  | thumb
  | arm
  | arm64
  | ppc32

/-- The architectures supported by capstone. -/
def Mode.ofArch : Option String → Option Mode
  | some "i386" => some .x86_32
  | some "x86-64" => some .x86_64
  | some "thumb" => some .thumb
  | some "arm" => some .arm
  | some "aarch64" => some .arm64
  | some "ppc" => some .ppc32
  | _ => none

/-- Capstone, and BAP where it is to be used: its instruction for some bytes, an address and an architecture,
or an exception, and the size of that. -/
structure Engines (β : Type) where
  capstone : Mode → Capstone
  bap : Option (List Byte → Int → Option String → Option β)
  bapSize : β → Nat

/-- An instance of `BapInsn` or `CsInsn`. -/
inductive Instruction (β : Type)
  | bap (insn : β)
  | cs (insn : CsInsn)
  deriving DecidableEq

variable {β : Type}

/-- `BapInsn(raw, address, arch)`; `none` is an exception, as in what follows. -/
def bapInsn (disasm : List Byte → Int → Option String → Option β) (raw : List Byte) (address : Int)
    (arch : Option String) : Option β :=
  if raw = [] then none else disasm raw address (if arch = some "arm" then some "armv7" else arch)

/-- `Instruction(raw, address, arch)` -/
def Engines.instruction (engines : Engines β) (raw : List Byte) (address : Int) (arch : Option String) :
    Option (Instruction β) :=
  match engines.bap.bind (fun disasm => bapInsn disasm raw address arch) with
  | some insn => some (.bap insn)
  | none => (Mode.ofArch arch).map (fun mode => .cs ((engines.capstone mode).csInsn raw address))

def Engines.size (engines : Engines β) : Instruction β → Nat
  | .bap insn => engines.bapSize insn
  | .cs insn => insn.size

/-- The tags that are treated in a way of their own, and all others. -/
inductive Tag
  | instruction
  | len
  | type
  | arch
  | crefs
  | xrefs
  | other (name : String)
  deriving DecidableEq

inductive Value (β : Type)
  | instruction (insn : Instruction β)
  | number (n : Nat)
  | text (s : String)
  | addresses (set : List Int)

/-- The `backing` of an address, by key; a field is missing where there is no such key. -/
structure Tags (β : Type) where
  instruction : Option (Instruction β)
  len : Option Nat
  type : Option String
  arch : Option String
  crefs : Option (List Int)
  xrefs : Option (List Int)
  other : Dict String (Value β)

def Tags.empty : Tags β := ⟨none, none, none, none, none, none, ∅⟩

/-- `arch` is the global tag of that name, and `globalTags` are all others that the loaders set. -/
structure Static (β : Type) where
  memory : Memory
  arch : Option String
  globalTags : Dict String (Value β)
  tags : Int → Tags β

def Static.new (arch : Option String) (globalTags : Dict String (Value β)) : Static β :=
  ⟨Memory.empty, arch, globalTags, fun _ => Tags.empty⟩

namespace Static

def setTags (s : Static β) (address : Int) (tags : Tags β) : Static β :=
  { s with tags := Function.update s.tags address tags }

/-- `static[address]['arch']` -/
def archOf (s : Static β) (address : Int) : Option String := (s.tags address).arch.or s.arch

/-- The instruction that the memory and the architecture of the moment make of an address. -/
def decoded (engines : Engines β) (s : Static β) (address : Int) : Option (Instruction β) :=
  engines.instruction (StaticMemory.memory s.memory.base address 16) address (s.archOf address)

/-- `Tags.__getitem__` -/
def getItem (engines : Engines β) (s : Static β) (address : Int) :
    Tag → Option (Static β × Option (Value β))
  | .instruction =>
      match (s.tags address).instruction with
      | some insn => some (s, some (.instruction insn))
      | none =>
          (s.decoded engines address).map (fun insn =>
            (s.setTags address { s.tags address with
              instruction := some insn
              len := some (engines.size insn)
              type := some "instruction" }, some (.instruction insn)))
  | .len => some (s, (s.tags address).len.map .number)
  | .type => some (s, (s.tags address).type.map .text)
  | .arch => some (s, (s.archOf address).map .text)
  | .crefs =>
      match (s.tags address).crefs with
      | some set => some (s, some (.addresses set))
      | none => some (s.setTags address { s.tags address with crefs := some [] }, some (.addresses []))
  | .xrefs =>
      match (s.tags address).xrefs with
      | some set => some (s, some (.addresses set))
      | none => some (s.setTags address { s.tags address with xrefs := some [] }, some (.addresses []))
  | .other name => some (s, ((s.tags address).other.lookup name).or (s.globalTags.lookup name))

/-- `Tags.__delitem__` -/
def delItem (s : Static β) (address : Int) (tag : Tag) : Static β :=
  s.setTags address (match tag with
    | .instruction => { s.tags address with instruction := none }
    | .len => { s.tags address with len := none }
    | .type => { s.tags address with type := none }
    | .arch => { s.tags address with arch := none }
    | .crefs => { s.tags address with crefs := none }
    | .xrefs => { s.tags address with xrefs := none }
    | .other name => { s.tags address with other := (s.tags address).other.erase name })

/-- `Tags.__setitem__` for the tag `arch`. -/
def setArch (s : Static β) (address : Int) (arch : String) : Static β :=
  s.setTags address { s.tags address with arch := some arch }

def addMemoryChunk (s : Static β) (c : Chunk) : Static β :=
  { s with memory := s.memory.addMemoryChunk c.address c.dat }

end Static

inductive Action
  | addMemoryChunk (c : Chunk)
  | setArch (address : Int) (arch : String)
  | read (address : Int) (tag : Tag)
  | delete (address : Int) (tag : Tag)

/-- A read that raises an exception leaves everything as it is. -/
def step (engines : Engines β) (s : Static β) : Action → Option (Static β)
  | .addMemoryChunk c => some (s.addMemoryChunk c)
  | .setArch address arch => some (s.setArch address arch)
  | .read address tag => some ((s.getItem engines address tag).elim s Prod.fst)
  | .delete address tag => some (s.delItem address tag)

/-- Whatever instruction is read, it is the one decoded from the memory and for the architecture of this
moment, and `len` is its size. -/
def Coherent (engines : Engines β) (s : Static β) : Prop :=
  ∀ address t value, s.getItem engines address .instruction = some (t, value) →
    ∃ insn, value = some (.instruction insn) ∧ s.decoded engines address = some insn ∧
      t.getItem engines address .len = some (t, some (.number (engines.size insn)))

/-- What is done leaves each kept instruction the one that would be decoded anew, and does not delete the
`len` beside it. -/
def Undisturbed (engines : Engines β) (s : Static β) : Action → Prop
  | .addMemoryChunk c => ∀ address, (s.tags address).instruction ≠ none →
      (s.addMemoryChunk c).decoded engines address = s.decoded engines address
  | .setArch address arch => (s.tags address).instruction ≠ none →
      (s.setArch address arch).decoded engines address = s.decoded engines address
  | .read .. => True
  | .delete address tag => (s.tags address).instruction ≠ none →
      (tag = .arch → (s.delItem address .arch).decoded engines address = s.decoded engines address) ∧
        tag ≠ .len

/-- The instruction kept at an address, if there is one, is right, and so is its `len`. -/
def KeptRight (engines : Engines β) (s : Static β) (address : Int) : Prop :=
  ∀ insn, (s.tags address).instruction = some insn →
    s.decoded engines address = some insn ∧ (s.tags address).len = some (engines.size insn)

section Steps
variable {engines : Engines β} {s t : Static β} {address : Int}

@[simp] theorem setTags_tags (s : Static β) (address : Int) (tags : Tags β) :
    (s.setTags address tags).tags address = tags := Function.update_self ..

theorem setTags_tags_ne {a : Int} (s : Static β) (tags : Tags β) (other : a ≠ address) :
    (s.setTags address tags).tags a = s.tags a := Function.update_of_ne other ..

/-- Tags with the same `arch` have the same decoded. -/
theorem setTags_decoded (s : Static β) (tags : Tags β) (same : tags.arch = (s.tags address).arch) :
    (s.setTags address tags).decoded engines address = s.decoded engines address := by
  rw [Static.decoded, Static.decoded, Static.archOf, Static.archOf, setTags_tags, same]
  rfl

theorem setTags_keptRight_ne {a : Int} (s : Static β) (tags : Tags β) (other : a ≠ address) :
    KeptRight engines (s.setTags address tags) a ↔ KeptRight engines s a := by
  have decoded : (s.setTags address tags).decoded engines a = s.decoded engines a := by
    rw [Static.decoded, Static.decoded, Static.archOf, Static.archOf, setTags_tags_ne s tags other]
    rfl
  rw [KeptRight, KeptRight, decoded, setTags_tags_ne s tags other]

theorem coherent_iff (s : Static β) : Coherent engines s ↔ ∀ address, KeptRight engines s address := by
  constructor
  · intro coherent address insn kept
    have read : s.getItem engines address .instruction = some (s, some (.instruction insn)) := by
      rw [Static.getItem, kept]
    obtain ⟨insn', same, decoded, len⟩ := coherent address s _ read
    obtain rfl := Value.instruction.inj (Option.some.inj same)
    obtain ⟨n, held, number⟩ := Option.map_eq_some_iff.mp (Prod.mk.inj (Option.some.inj len)).2
    obtain rfl := Value.number.inj number
    exact ⟨decoded, held⟩
  · intro right address t value read
    rw [Static.getItem] at read
    split at read
    next insn kept =>
      obtain ⟨rfl, rfl⟩ := Prod.mk.inj (Option.some.inj read)
      obtain ⟨decoded, len⟩ := right address insn kept
      exact ⟨insn, rfl, decoded, by rw [Static.getItem, len]; rfl⟩
    next =>
      obtain ⟨insn, decoded, same⟩ := Option.map_eq_some_iff.mp read
      obtain ⟨rfl, rfl⟩ := Prod.mk.inj same
      exact ⟨insn, rfl, decoded, by rw [Static.getItem, setTags_tags]; rfl⟩

/-- What leaves an instruction and its `len` in place leaves them right exactly if it would be decoded anew
as before. -/
theorem keptRight_iff (before : KeptRight engines s address)
    (insn : (t.tags address).instruction = (s.tags address).instruction)
    (len : (t.tags address).len = (s.tags address).len) :
    KeptRight engines t address ↔
      ((s.tags address).instruction ≠ none → t.decoded engines address = s.decoded engines address) := by
  rw [KeptRight, insn, len]
  constructor
  · intro right kept
    obtain ⟨insn, held⟩ := Option.ne_none_iff_exists'.mp kept
    exact (right insn held).1.trans (before insn held).1.symm
  · intro same insn held
    obtain ⟨decoded, right⟩ := before insn held
    exact ⟨(same (by rw [held]; nofun)).trans decoded, right⟩

/-- Only the address itself is to be looked at after its tags have been set. -/
theorem setTags_coherent_iff (before : ∀ a, KeptRight engines s a) (tags : Tags β) :
    Coherent engines (s.setTags address tags) ↔ KeptRight engines (s.setTags address tags) address := by
  rw [coherent_iff]
  refine ⟨fun right => right address, fun right a => ?_⟩
  by_cases own : a = address
  · exact own ▸ right
  · exact (setTags_keptRight_ne s tags own).mpr (before a)

/-- Where the three tags stay, all stays right. -/
theorem setTags_coherent (before : ∀ a, KeptRight engines s a) (tags : Tags β)
    (insn : tags.instruction = (s.tags address).instruction) (len : tags.len = (s.tags address).len)
    (arch : tags.arch = (s.tags address).arch) : Coherent engines (s.setTags address tags) := by
  rw [setTags_coherent_iff before, keptRight_iff (before address) (by rwa [setTags_tags]) (by rwa [setTags_tags])]
  exact fun _ => setTags_decoded s tags arch

theorem read_coherent (before : ∀ a, KeptRight engines s a) (tag : Tag) :
    Coherent engines ((s.getItem engines address tag).elim s Prod.fst) := by
  have unchanged : Coherent engines s := (coherent_iff s).mpr before
  cases tag with
  | instruction =>
    rw [Static.getItem]
    split
    next => exact unchanged
    next missing =>
      cases decoded : s.decoded engines address with
      | none => exact unchanged
      | some insn =>
        rw [Option.map_some, Option.elim_some, setTags_coherent_iff before]
        intro insn' kept
        rw [setTags_tags] at kept ⊢
        obtain rfl := Option.some.inj kept
        refine ⟨Eq.trans (setTags_decoded s _ ?_) decoded, rfl⟩
        rfl
  | crefs =>
    rw [Static.getItem]
    split
    next => exact unchanged
    next => exact setTags_coherent before _ rfl rfl rfl
  | xrefs =>
    rw [Static.getItem]
    split
    next => exact unchanged
    next => exact setTags_coherent before _ rfl rfl rfl
  | len => exact unchanged
  | type => exact unchanged
  | arch => exact unchanged
  | other name => exact unchanged

theorem delItem_coherent_iff (before : ∀ a, KeptRight engines s a) (tag : Tag) :
    Coherent engines (s.delItem address tag) ↔ Undisturbed engines s (.delete address tag) := by
  have others : tag ≠ .arch → tag ≠ .len → Undisturbed engines s (.delete address tag) :=
    fun notArch notLen _ => ⟨fun same => absurd same notArch, notLen⟩
  cases tag with
  | instruction =>
    refine iff_of_true ?_ (others nofun nofun)
    rw [Static.delItem, setTags_coherent_iff before]
    intro insn kept
    rw [setTags_tags] at kept
    cases kept
  | len =>
    rw [Static.delItem, setTags_coherent_iff before]
    constructor
    · intro right kept
      obtain ⟨insn, held⟩ := Option.ne_none_iff_exists'.mp kept
      have len := (right insn (by rw [setTags_tags]; exact held)).2
      rw [setTags_tags] at len
      cases len
    · intro undisturbed insn kept
      rw [setTags_tags] at kept
      exact absurd rfl (undisturbed (by rw [kept]; nofun)).2
  | arch =>
    have kept : KeptRight engines (s.delItem address .arch) address ↔ _ :=
      keptRight_iff (before address) (by rw [Static.delItem, setTags_tags]) (by rw [Static.delItem, setTags_tags])
    rw [Static.delItem, setTags_coherent_iff before, ← Static.delItem, kept]
    exact forall_congr' fun _ => ⟨fun same => ⟨fun _ => same, nofun⟩, fun same => same.1 rfl⟩
  | type => exact iff_of_true (setTags_coherent before _ rfl rfl rfl) (others nofun nofun)
  | crefs => exact iff_of_true (setTags_coherent before _ rfl rfl rfl) (others nofun nofun)
  | xrefs => exact iff_of_true (setTags_coherent before _ rfl rfl rfl) (others nofun nofun)
  | other name => exact iff_of_true (setTags_coherent before _ rfl rfl rfl) (others nofun nofun)

theorem step_coherent_iff (action : Action) (coherent : Coherent engines s)
    (taken : step engines s action = some t) : Coherent engines t ↔ Undisturbed engines s action := by
  have before := (coherent_iff s).mp coherent
  cases action with
  | addMemoryChunk c =>
    obtain rfl := Option.some.inj taken
    rw [coherent_iff]
    exact forall_congr' fun address => keptRight_iff (before address) rfl rfl
  | setArch address arch =>
    obtain rfl := Option.some.inj taken
    rw [Static.setArch, setTags_coherent_iff before]
    exact keptRight_iff (before address) (by rw [setTags_tags]) (by rw [setTags_tags])
  | read address tag =>
    obtain rfl := Option.some.inj taken
    exact iff_of_true (read_coherent before tag) trivial
  | delete address tag =>
    obtain rfl := Option.some.inj taken
    exact delItem_coherent_iff before tag

end Steps

theorem new_coherent (engines : Engines β) (arch : Option String) (globalTags : Dict String (Value β)) :
    Coherent engines (Static.new arch globalTags) := by
  rw [coherent_iff]
  intro address insn kept
  cases kept

/-- All along a sequence of actions, whatever instruction is read is right, exactly if no action disturbs
a kept one. -/
theorem always_coherent_iff (engines : Engines β) (arch : Option String) (globalTags : Dict String (Value β))
    (actions : List Action) :
    Always (step engines) (Coherent engines) (Static.new arch globalTags) actions ↔
      Along (step engines) (Undisturbed engines) (Static.new arch globalTags) actions := by
  obtain ⟨t, ran, -⟩ : ∃ t, run (step engines) (Static.new arch globalTags) actions = some t ∧ True :=
    run_returns (fun _ => True) (fun s action _ _ => by cases action <;> exact ⟨_, rfl, trivial⟩) trivial
  exact always_iff_along (fun _ => True) (Coherent engines) (Undisturbed engines) (fun _ _ _ _ _ => trivial)
    (fun _ action _ _ coherent taken => step_coherent_iff action coherent taken) trivial
    (new_coherent engines arch globalTags) ran

/-- Capstone as far as it decodes a `ret` of x86, and no BAP. -/
def retEngines : Engines Empty where
  capstone _ :=
    { disasm := fun raw _ => if raw.head? = some 0xC3 then some ⟨1, "ret", false, none⟩ else none
      empty := fun _ => rfl }
  bap := none
  bapSize := Empty.elim

/-- An address is asked for before its library is mapped. -/
def earlyRead : List Action := [.read 0x1000 .instruction, .addMemoryChunk ⟨0x1000, [0xC3]⟩]

theorem earlyRead_stale : ∃ s, run (step retEngines) (Static.new (some "i386") ∅) earlyRead = some s ∧
    s.getItem retEngines 0x1000 .instruction = some (s, some (.instruction (.cs ⟨0x1000, none⟩))) ∧
    s.decoded retEngines 0x1000 = some (.cs ⟨0x1000, some ⟨1, "ret", false, none⟩⟩) ∧
    ¬ Coherent retEngines s := by
  refine ⟨_, rfl, rfl, rfl, fun coherent => ?_⟩
  obtain ⟨insn, same, decoded, -⟩ := coherent 0x1000 _ _ rfl
  obtain rfl := Value.instruction.inj (Option.some.inj same)
  cases decoded

end Qira.InstructionTags
