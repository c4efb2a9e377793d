import V86.Lib.Exec

/-!
# The high-level IR

The data model of `ir/hir.rs`, `ir/ids.rs`, `ir/types.rs`, `ir/state.rs` and `ir/simd.rs`: a
region holds arenas of blocks, instructions, values and recovery maps, and everything refers to
everything else by index. The `u32` ids of the source are natural numbers here; an id is only
ever used as an index, and `arena_index` keeps arenas below `2^32`. Small unsigned payload fields
(register numbers, byte counts, bit offsets) are natural numbers as well, 64-bit literals are
`BitVec 64`.

A recovery map (`StateMap`) is generic in what it holds: value ids in a region, run-time values in
a snapshot (`StateMap.map`).
-/

namespace V86.Ir

abbrev ValueId := Nat
abbrev BlockId := Nat
abbrev InstId := Nat
abbrev StateId := Nat
abbrev HelperId := Nat

/-- `types::Type`. -/
inductive Ty
  | i1 | i8 | i16 | i32 | i64 | f32 | f64 | v128 | f80 | effect | effectiveAddress
  | linearAddress | ramAddress | guardProof | rmwTicket
  deriving DecidableEq

/-- `Type::bits`: the width of an integer type. -/
def Ty.bits : Ty → Option Nat
  | .i1 => some 1
  | .i8 => some 8
  | .i16 => some 16
  | .i32 => some 32
  | .i64 => some 64
  | _ => none

/-! ## Recovery maps -/

/-- `state::ResumeKind`. -/
inductive ResumeKind
  | beforeInstruction | afterInstruction | repProgress
  deriving DecidableEq

/-- `state::FlagState`, over the values `α` it holds. -/
structure FlagState (α : Type) where
  arithmetic : Vector α 6
  system : α
  lastOp1 : Option α
  rawZero : Option α
  zeroIsLazy : Option α
  rawFlags : Option α
  lazyMask : Option α
  lastResult : Option α
  lastOpSize : Option α
  backingValid : Option α
  deriving DecidableEq

/-- `state::StateMap`, over the values `α` it holds. -/
structure StateMap (α : Type) where
  instructionPc : Nat
  nextPc : Nat
  nextValue : Option α
  resume : ResumeKind
  gpr : Vector α 8
  flags : FlagState α
  xmm : List α
  x87 : List α
  committedInstructions : Nat
  countBase : Option α
  repProgress : Option (α × α × α)
  deriving DecidableEq

section
variable {α β γ : Type}

def FlagState.map (f : α → β) (s : FlagState α) : FlagState β where
  arithmetic := s.arithmetic.map f
  system := f s.system
  lastOp1 := s.lastOp1.map f
  rawZero := s.rawZero.map f
  zeroIsLazy := s.zeroIsLazy.map f
  rawFlags := s.rawFlags.map f
  lazyMask := s.lazyMask.map f
  lastResult := s.lastResult.map f
  lastOpSize := s.lastOpSize.map f
  backingValid := s.backingValid.map f

def StateMap.map (f : α → β) (s : StateMap α) : StateMap β where
  instructionPc := s.instructionPc
  nextPc := s.nextPc
  nextValue := s.nextValue.map f
  resume := s.resume
  gpr := s.gpr.map f
  flags := s.flags.map f
  xmm := s.xmm.map f
  x87 := s.x87.map f
  committedInstructions := s.committedInstructions
  countBase := s.countBase.map f
  repProgress := s.repProgress.map fun (c, s, d) => (f c, f s, f d)

/-- `StateMap::values`: the recovery operands in order. -/
def StateMap.values (s : StateMap α) : List α :=
  s.gpr.toList ++ s.flags.arithmetic.toList ++ [s.flags.system] ++ s.flags.lastOp1.toList ++
    s.flags.rawZero.toList ++ s.flags.zeroIsLazy.toList ++ s.flags.rawFlags.toList ++
    s.flags.lazyMask.toList ++ s.flags.lastResult.toList ++ s.flags.lastOpSize.toList ++
    s.flags.backingValid.toList ++ s.xmm ++ s.x87 ++ s.nextValue.toList ++ s.countBase.toList ++
    match s.repProgress with
    | some (ecx, esi, edi) => [ecx, esi, edi]
    | none => []

theorem FlagState.map_map (f : α → β) (g : β → γ) (s : FlagState α) :
    (s.map f).map g = s.map (g ∘ f) := by
  simp [FlagState.map]

@[simp] theorem StateMap.map_map (f : α → β) (g : β → γ) (s : StateMap α) :
    (s.map f).map g = s.map (g ∘ f) := by
  simp [StateMap.map, FlagState.map_map, Function.comp_def]

@[simp] theorem StateMap.map_id (s : StateMap α) : s.map id = s := by
  simp [StateMap.map, FlagState.map]

/-- The operands of a mapped recovery map are the mapped operands. -/
theorem StateMap.values_map (f : α → β) (s : StateMap α) : (s.map f).values = s.values.map f := by
  simp only [values, map, FlagState.map, Vector.toList_map, List.map_append, List.map_cons,
    List.map_nil, Option.toList_map]
  cases s.repProgress <;> rfl

/-- Two maps that agree on the operands of a recovery map give the same recovery map. -/
theorem StateMap.map_congr {f g : α → β} {s : StateMap α} (h : ∀ v ∈ s.values, f v = g v) :
    s.map f = s.map g := by
  have hopt : ∀ {o : Option α}, (∀ v ∈ o.toList, f v = g v) → o.map f = o.map g := by
    intro o ho
    cases o with
    | none => rfl
    | some v => exact congrArg some (ho v (by simp))
  have hvec : ∀ {n : Nat} {l : Vector α n}, (∀ v ∈ l.toList, f v = g v) → l.map f = l.map g :=
    fun hl => Vector.map_congr_left fun v hv => hl v (Vector.mem_toList_iff.2 hv)
  simp only [values, List.forall_mem_append] at h
  obtain ⟨⟨⟨⟨⟨⟨⟨⟨⟨⟨⟨⟨⟨⟨⟨hgpr, harith⟩, hsys⟩, h1⟩, h2⟩, h3⟩, h4⟩, h5⟩, h6⟩, h7⟩, h8⟩, hxmm⟩,
    hx87⟩, hnext⟩, hcount⟩, hrep⟩ := h
  unfold map FlagState.map
  rw [hvec hgpr, hvec harith, hsys _ (List.mem_singleton_self _), hopt h1, hopt h2, hopt h3,
    hopt h4, hopt h5, hopt h6, hopt h7, hopt h8, List.map_congr_left hxmm,
    List.map_congr_left hx87, hopt hnext, hopt hcount]
  cases hr : s.repProgress with
  | none => rfl
  | some t =>
    obtain ⟨c, e, d⟩ := t
    rw [hr] at hrep
    simp only [Option.map_some]
    rw [hrep c (by simp), hrep e (by simp), hrep d (by simp)]

end

/-! ## Operations -/

/-- `hir::Binary`. -/
inductive Binary
  | add | sub | mul | and | or | xor | shl | shr | sar | eq | ult | slt
  deriving DecidableEq

/-- `hir::RmwOrder`. -/
inductive RmwOrder
  | plain | locked
  deriving DecidableEq

/-- `simd::PackedOp`. -/
inductive PackedOp
  | unpackLow8 | unpackLow16 | unpackLow32 | unpackHigh8 | unpackHigh16 | unpackHigh32
  | unpackLow64 | unpackHigh64 | packS16S8 | packS16U8 | packS32S16
  | shr16 | shr32 | shr64 | sar16 | sar32 | shl16 | shl32 | shl64
  | add8 | add16 | add32 | add64 | sub8 | sub16 | sub32 | sub64
  | addSatS8 | addSatS16 | addSatU8 | addSatU16 | subSatS8 | subSatS16 | subSatU8 | subSatU16
  | gtS8 | gtS16 | gtS32 | eq8 | eq16 | eq32 | minU8 | maxU8 | minS16 | maxS16 | avgU8 | avgU16
  | mulHighU16 | mulHighS16 | mulU32 | sadU8 | mulLow16 | maddS16 | and | andNot | or | xor
  | shuffleBytes | eq64 | packS32U16 | gtS64 | minS8 | minS32 | minU16 | minU32 | maxS8 | maxS32
  | maxU16 | maxU32 | mulLow32
  deriving DecidableEq

/-- `simd::ShuffleOp`. -/
inductive ShuffleOp
  | dwords | lowWords | highWords | singles | doubles | blendSingles | blendDoubles | blendWords
  deriving DecidableEq

/-- `simd::TransferOp`. -/
inductive TransferOp
  | low64 | high64 | duplicate64 | duplicateLow32 | duplicateHigh32
  deriving DecidableEq

/-- `hir::Op`. -/
inductive Op
  | const (n : BitVec 64)
  | binary (op : Binary)
  | select
  | extend (signed : Bool)
  | truncate
  | extract (lsb : Nat)
  | insert (lsb : Nat)
  | readEntryLinear
  | readGpr (reg : Nat)
  | readXmm (reg : Nat)
  | xmmMaskedStore (source mask : Nat)
  | vectorBitmask (bits : Nat)
  | xmmInsertWord (register lane : Nat)
  | vectorBinary (op : PackedOp)
  | vectorShuffle (lanes : Vector Nat 16)
  | xmmTransferLoad (operation : TransferOp) (register first : Nat) (vex : Bool)
  | xmmShuffle (operation : ShuffleOp) (immediate register first : Nat) (vex : Bool)
  | xmmBinary (operation : PackedOp) (bytes register first : Nat) (vex : Bool)
  | vectorExtract (bits lane : Nat)
  | vectorReplace (bits lane : Nat)
  | sseCheck
  | fpuCheck
  | avxCheck
  | ymmZero (register : Nat)
  | x87 (opcode modrm : Nat)
  | xmmLoad (bytes register : Nat) (vex : Bool)
  | xmmStore (lane bytes register : Nat)
  | readFlags
  | readSystemFlags
  | readFlag (bit : Nat)
  | readRawFlags
  | readFlagChanges
  | readFlagOperand
  | readFlagResult
  | readFlagSize
  | countLeadingZeros
  | countTrailingZeros
  | populationCount
  | divide (bits : Nat) (signed : Bool)
  | readStack32
  | readSegment (segment : Nat)
  | popAddress (segment bytes : Nat)
  | segmentAddress (segment : Nat)
  | linearOffset
  | guestLoad (bytes : Nat)
  | guestStore (bytes : Nat)
  | partialStore (bytes : Nat)
  | guestCheck (bytes : Nat) (write : Bool)
  | alignmentCheck (bytes : Nat)
  | callHelper (helper : HelperId)
  | rmwLoad (bytes : Nat) (order : RmwOrder)
  | rmwStore (bytes : Nat) (order : RmwOrder)
  | compareExchange8B (order : RmwOrder)
  | pollBudget
  deriving DecidableEq

/-- `Op::ordered`: the operations on the effect chain. -/
def Op.ordered : Op → Bool
  | .guestLoad _ | .segmentAddress _ | .popAddress .. | .guestStore _ | .partialStore _
  | .guestCheck .. | .alignmentCheck _ | .callHelper _ | .divide .. | .rmwLoad .. | .rmwStore ..
  | .compareExchange8B _ | .sseCheck | .fpuCheck | .avxCheck | .ymmZero _ | .x87 .. | .xmmLoad ..
  | .xmmBinary .. | .xmmShuffle .. | .xmmTransferLoad .. | .xmmInsertWord .. | .xmmStore ..
  | .xmmMaskedStore .. | .pollBudget => true
  | _ => false

/-! ## Regions -/

/-- `hir::Definition`. -/
inductive Definition
  | parameter (block : BlockId) (index : Nat)
  | instruction (id : InstId) (index : Nat)
  deriving DecidableEq

/-- `hir::Value`. -/
structure Value where
  ty : Ty
  definition : Definition
  deriving DecidableEq

/-- `hir::Instruction`. -/
structure Instruction where
  block : BlockId
  op : Op
  args : List ValueId
  results : List ValueId
  state : Option StateId
  commit : Option StateId
  trapAfterFault : Bool
  unmaskedWordStore : Bool
  deriving DecidableEq

/-- `hir::Edge`. -/
structure Edge where
  target : BlockId
  args : List ValueId
  deriving DecidableEq

/-- `hir::Terminator`. -/
inductive Terminator
  | branch (edge : Edge)
  | condBranch (condition : ValueId) (taken notTaken : Edge)
  | exit (state : StateId)
  deriving DecidableEq

/-- `Terminator::edges`. -/
def Terminator.edges : Terminator → List Edge
  | .branch edge => [edge]
  | .condBranch _ taken notTaken => [taken, notTaken]
  | .exit _ => []

/-- `hir::Block`. -/
structure Block where
  entryState : Option StateId
  params : List ValueId
  instructions : List InstId
  terminator : Option Terminator
  budget : Nat
  deriving DecidableEq

/-- `effects::Effects`; a `StateSet` is its bit mask. -/
structure Effects where
  readsState : Nat
  writesState : Nat
  readsMemory : Bool
  writesMemory : Bool
  mayFault : Bool
  mayTransfer : Bool
  mayYield : Bool
  changesTranslation : Bool
  invalidatesCode : Bool
  io : Bool
  deriving DecidableEq

/-- `helper::ExceptionOwner`. -/
inductive ExceptionOwner
  | cannotFault | caller | helper
  deriving DecidableEq

/-- `helper::HelperAbi`. -/
inductive HelperAbi
  | unadapted
  | cpuReload
  | cpuExit
  | cpuRep
  | outcome (faultDelivery : Option String) (normalPreservesState : Bool)
  deriving DecidableEq

/-- `helper::HelperDescriptor`. -/
structure HelperDescriptor where
  name : String
  params : List Ty
  results : List Ty
  effects : Effects
  exceptionOwner : ExceptionOwner
  abi : HelperAbi
  deriving DecidableEq

/-- `hir::Region`. -/
structure Region where
  entries : List BlockId
  blocks : List Block
  values : List Value
  instructions : List Instruction
  states : List (StateMap ValueId)
  helpers : List HelperDescriptor
  deriving DecidableEq

/-! ## The checks of a recovery map -/

namespace Verify

open Exec

section
variable {α : Type} [DecidableEq α] (ty : α → Exec Ty)

/-- One type check of a list of operands. -/
def requireType (expected : Ty) (msg : String) (values : List α) : Exec Unit :=
  values.foldlM (fun _ v => do require ((← ty v) = expected) msg) ()

/-- The checks of `state` after the availability of the operands. -/
def checkState (map : StateMap α) : Exec Unit := do
  requireType ty .i32 "count base must be i32" map.countBase.toList
  map.nextValue.toList.foldlM (fun _ target => do
    require ((← ty target) = .i32 && map.resume = .afterInstruction)
      "dynamic EIP requires i32 after-instruction state") ()
  requireType ty .i32 "GPR state type" map.gpr.toList
  requireType ty .i1 "flag state type" map.flags.arithmetic.toList
  requireType ty .i32 "system flags type" [map.flags.system]
  requireType ty .i32 "flag operand type" map.flags.lastOp1.toList
  require (map.flags.rawZero.isSome = map.flags.zeroIsLazy.isSome) "incomplete raw zero state"
  let backing := [map.flags.rawFlags, map.flags.lazyMask, map.flags.lastResult,
    map.flags.lastOpSize]
  require (backing.all Option.isSome || backing.all Option.isNone) "incomplete lazy flags backing"
  require (map.flags.backingValid.isSome = map.flags.rawFlags.isSome)
    "lazy flags validity/backing mismatch"
  requireType ty .i1 "zero lazy flag type" map.flags.zeroIsLazy.toList
  requireType ty .i1 "raw zero flag type" map.flags.rawZero.toList
  requireType ty .i32 "lazy flags backing type" (backing.flatMap Option.toList)
  requireType ty .i1 "lazy flags validity type" map.flags.backingValid.toList
  require (map.xmm.isEmpty || map.xmm.length = 8) "partial XMM state map"
  requireType ty .v128 "XMM state type" map.xmm
  requireType ty .f80 "x87 state type" map.x87
  match map.repProgress with
  | some (ecx, esi, edi) =>
    requireType ty .i32 "REP state type" [ecx, esi, edi]
    require (map.resume = .repProgress) "REP resume mismatch"
    require ((ecx, esi, edi) = (map.gpr[1], map.gpr[6], map.gpr[7]) && map.nextValue.isNone)
      "REP progress must match materialized GPRs"
  | none => require (map.resume ≠ .repProgress) "REP state missing progress"

end

end Verify

end V86.Ir
