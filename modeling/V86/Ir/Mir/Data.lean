import V86.Ir.Mir.Schedule

/-!
# Owned machine plans

The data of `ir/mir.rs` and of the plans it holds (`mir/value.rs`, `mir/memory.rs`, `mir/effect.rs`,
`mir/arithmetic.rs`, `mir/call.rs`, `mir/control.rs`, `mir/budget.rs`, `mir/forwarding.rs`): what
lowering leaves of a region, one plan for each instruction in arenas that are indexed by it.

`MirData.action` is the order in which the emitter looks through the arenas.
-/

namespace V86.Ir.Mir

/-! ## Value programs -/

/-- `wasm_builder::WasmType`, of the types a signature names. -/
inductive WasmType
  | i32 | i64 | v128
  deriving DecidableEq

/-- `wasm_builder::Signature`. -/
structure Signature where
  params : List WasmType
  results : List WasmType
  deriving DecidableEq

/-- `value::Scalar`. -/
inductive Scalar
  | i32Add | i32Sub | i32Mul | i32And | i32Or | i32Xor | i32Shl | i32Shr | i32Sar | i32Eq | i32Ult
  | i32Slt | i32Clz | i32Ctz | i32Popcnt | i64Add | i64Sub | i64Mul | i64And | i64Or | i64Xor
  | i64Shl | i64Shr | i64Sar | i64Eq | i64Ult | i64Slt | i64Clz | i64Ctz | i64Popcnt | i32WrapI64
  | i64ExtendSignedI32 | i64ExtendUnsignedI32 | select
  deriving DecidableEq

/-- `value::Address`: a place of the CPU state. -/
inductive Address
  | absolute (address : BitVec 32)
  | gpr (register : Nat)
  | flags
  | flagOperand
  | eip
  | committed
  deriving DecidableEq

/-- `value::Load`. -/
inductive Load
  | u8 | u16 | i32 | v128
  deriving DecidableEq

/-- `value::Reading`. -/
inductive Reading
  | memory (address : Address) (load : Load)
  | constant (n : BitVec 32)
  | call (name : String) (signature : Signature)
  deriving DecidableEq

/-- `vector::PackedPlan`. -/
inductive PackedPlan
  | shuffle (lanes : List Nat)
  | shift (maximum : BitVec 64) (opcode : Nat) (signFill : Bool)
  | multiplyHigh (low high : Nat) (lanes : List Nat)
  | multiplyEven (lanes : List Nat) (opcode : Nat)
  | sad (difference widen : List Nat) (swap : List Nat) (add : Nat) (pack : List Nat)
  | binary (opcode : Nat) (reverse : Bool)
  | swizzle (mask : Nat)
  deriving DecidableEq

/-- `value::Step`: one operation of a stack program. -/
inductive Step
  | value (v : ValueId)
  | i32 (n : BitVec 32)
  | i64 (n : BitVec 64)
  | scalar (op : Scalar)
  | read (cpu standalone : Reading)
  | simd (opcode : Nat)
  | lane (opcode lane : Nat)
  | shuffle (lanes : List Nat)
  | packed (destination source : ValueId) (plan : PackedPlan)
  deriving DecidableEq

/-- `value::ValuePlan`. -/
structure ValuePlan where
  result : ValueId
  steps : List Step
  deriving DecidableEq

/-- `allocation::expression`: the values a program reads. -/
def expression (steps : List Step) : List ValueId :=
  steps.flatMap fun step => match step with
    | .value v => [v]
    | .packed destination source _ => [destination, source]
    | _ => []

/-- The step reads through an import. -/
def Step.readsImport : Step → Bool
  | .read (.call ..) _ => true
  | .read _ (.call ..) => true
  | _ => false

/-! ## Memory, effects and calls -/

/-- `TLB_VALID`, `TLB_READONLY`, `TLB_NO_USER`, `TLB_IN_MAPPED_RANGE` and `TLB_HAS_CODE`. -/
def tlbValid : BitVec 32 := 1
def tlbReadonly : BitVec 32 := 2
def tlbNoUser : BitVec 32 := 4
def tlbInMappedRange : BitVec 32 := 8
def tlbHasCode : BitVec 32 := 32

/-- `memory::RamGuard`. -/
structure RamGuard where
  bytes : Nat
  flagsMask : BitVec 32
  requiredFlags : BitVec 32
  userMask : BitVec 32
  pageOffsetLimit : Int
  deriving DecidableEq

/-- `RamGuard::new`. -/
def RamGuard.ofAccess (bytes : Nat) (write : Bool) : RamGuard where
  bytes := bytes
  flagsMask := tlbValid ||| tlbInMappedRange ||| if write then tlbHasCode ||| tlbReadonly else 0
  requiredFlags := tlbValid
  userMask := tlbNoUser
  pageOffsetLimit := 4097 - (bytes : Int)

/-- `memory::Argument`. -/
inductive Argument
  | value (v : ValueId)
  | i32 (n : BitVec 32)
  deriving DecidableEq

/-- `memory::RuntimeCall`. -/
structure RuntimeCall where
  name : String
  args : List Argument
  deriving DecidableEq

/-- The values among the arguments of a call. -/
def RuntimeCall.values (call : RuntimeCall) : List ValueId :=
  call.args.filterMap fun a => match a with
    | .value v => some v
    | .i32 _ => none

/-- `memory::VectorCombine`. -/
inductive VectorCombine
  | none
  | replaceWord (old : ValueId) (lane : Nat)
  | shuffle (old : ValueId) (lanes : List Nat)
  | binary (old : ValueId) (plan : PackedPlan)
  deriving DecidableEq

/-- `memory::NativeMemory`. -/
inductive NativeMemory
  | scalarLoad (result : ValueId) (ticket : Option ValueId)
  | scalarStore (value : ValueId) (commit : Option StateId)
  | vectorLoad (result : ValueId) (combine : VectorCombine)
  | vectorStore (value : ValueId) (lane : Nat) (mask : Option ValueId) (commit : StateId)
  deriving DecidableEq

/-- `memory::SlowResult`. -/
inductive SlowResult
  | packed (result : ValueId) (trapAfterFault : Bool)
  | rmw (result ticket : ValueId) (readValue : RuntimeCall)
  | store (commit : Option StateId) (trapAfterFault : Bool)
  | cpuExit
  deriving DecidableEq

/-- `memory::MemoryPlan`. -/
structure MemoryPlan where
  address : ValueId
  before : StateId
  guard : RamGuard
  native : NativeMemory
  call : RuntimeCall
  result : SlowResult
  deriving DecidableEq

/-- `effect::Observation`. -/
structure Observation where
  values : StateId
  count : StateId
  deriving DecidableEq

/-- `effect::EffectPlan`, with the plans of `arithmetic::ArithmeticPlan`. -/
inductive EffectPlan
  | division (dividend divisor quotient remainder : ValueId) (before : StateId)
      (fault : RuntimeCall)
  | compareExchange (address : ValueId) (before : StateId) (call : RuntimeCall)
  | address (nullByte base : BitVec 32) (offset result : ValueId) (before : StateId)
      (call : RuntimeCall) (trapAfterFault : Bool)
  | check (before : StateId) (call : RuntimeCall)
  | rmwCommit (bytes : Nat) (ticket value : ValueId) (observe : Observation) (commit : StateId)
      (call : RuntimeCall)
  | zeroState (address : BitVec 32) (bytes : Nat) (call : RuntimeCall)
  | x87 (opcode modrm : Nat) (outputs : List ValueId) (call : RuntimeCall)
  deriving DecidableEq

/-- `EffectPlan::call`. -/
def EffectPlan.call : EffectPlan → RuntimeCall
  | .division _ _ _ _ _ call | .compareExchange _ _ call | .address _ _ _ _ _ call _
  | .check _ call | .rmwCommit _ _ _ _ _ call | .zeroState _ _ call | .x87 _ _ _ call => call

/-- `call::CallPlan`: the helper, its recovery map, its arguments, the results of the call or the
values it reloads, and the recovery map of a fault it delivers. -/
structure CallPlan where
  helper : HelperId
  state : StateId
  args : List ValueId
  staged : List ValueId
  reload : List ValueId
  delivery : Option StateId
  deriving DecidableEq

/-- `mir::HelperCall`. -/
structure HelperCall where
  startsInterruptShadow : Bool
  deriving DecidableEq

/-! ## Control flow and certificates -/

/-- `control::Terminator`. -/
inductive Terminator
  | jump (edge : Edge)
  | branch (condition : Nat) (taken notTaken : Edge)
  | exit (state : StateId)
  deriving DecidableEq

/-- `Terminator::edges`. -/
def Terminator.edges : Terminator → List Edge
  | .jump edge => [edge]
  | .branch _ taken notTaken => [taken, notTaken]
  | .exit _ => []

/-- `control::Block`. -/
structure Block where
  instructions : List InstId
  recovery : Option StateId
  budgetCost : Nat
  terminator : Terminator

/-- `control::Poll`. -/
structure Poll where
  recovery : StateId
  cost : Nat
  deriving DecidableEq

/-- `control::ControlFlow`. -/
structure ControlFlow where
  entries : List BlockId
  blocks : List Block
  polls : List (Option Poll)

/-- `budget::LoopBackedge`. -/
structure LoopBackedge where
  target : BlockId
  cost : Nat
  deriving DecidableEq

/-- `budget::Batch`. -/
structure Batch where
  start : Nat
  cost : Nat
  pure : Bool
  backedge : Option LoopBackedge
  deriving DecidableEq

/-- `mir::MirData`: the arenas of a lowered region. -/
structure MirData where
  valueTypes : List Ty
  valueBlocks : List (Option BlockId)
  valueDefinitions : List (Option InstId)
  helpers : List (Option HelperCall)
  memory : List (Option MemoryPlan)
  effects : List (Option EffectPlan)
  calls : List (Option CallPlan)
  control : ControlFlow
  pollBatches : List (Option Batch)
  values : List (Option ValuePlan)

/-! ## Reading the arenas -/

/-- The entry of an instruction in an arena. -/
def planAt {α : Type} (arena : List (Option α)) (id : InstId) : Option α := arena[id]?.join

theorem planAt_of_get {α : Type} {arena : List (Option α)} {o : Option α} {id : InstId}
    (h : arena[id]? = some o) : planAt arena id = o := by
  rw [planAt, h]
  rfl

/-- What an instruction does. -/
inductive Action
  | poll (p : Poll)
  | memory (m : MemoryPlan)
  | effect (e : EffectPlan)
  | call (c : CallPlan)
  | value (v : ValuePlan)

/-- The order in which `Emitter::instruction` looks for the plan of an instruction. -/
def MirData.action (data : MirData) (id : InstId) : Option Action :=
  match planAt data.control.polls id, planAt data.memory id, planAt data.effects id,
      planAt data.calls id, planAt data.values id with
  | some p, _, _, _, _ => some (.poll p)
  | none, some m, _, _, _ => some (.memory m)
  | none, none, some e, _, _ => some (.effect e)
  | none, none, none, some c, _ => some (.call c)
  | none, none, none, none, some v => some (.value v)
  | none, none, none, none, none => none

/-- An action is the plan of an arena. -/
theorem MirData.planAt_of_action {data : MirData} {id : InstId} {action : Action}
    (h : data.action id = some action) : match action with
      | .poll p => planAt data.control.polls id = some p
      | .memory m => planAt data.memory id = some m
      | .effect e => planAt data.effects id = some e
      | .call c => planAt data.calls id = some c
      | .value v => planAt data.values id = some v := by
  unfold MirData.action at h
  split at h <;> cases h
  all_goals assumption

end V86.Ir.Mir
