import V86.Ir.Mir.Data

/-!
# Operand-stack fusion

`stack::schedule` of `ir/mir/stack.rs`: a value program whose result is read once, by the program
that runs next, becomes a part of that program. The uses come from the allocation graph
(`ir/mir/allocation.rs`), which records for every instruction, block and terminator the values its
plan and its recovery maps read.
-/

namespace V86.Ir.Mir

open Exec

/-! ## The allocation graph -/

namespace Allocation

/-- `allocation::Instruction`. -/
structure Instruction where
  uses : List ValueId
  recovery : List ValueId
  definitions : List ValueId
  deriving DecidableEq

/-- `allocation::Edge`. -/
structure Edge where
  target : BlockId
  arguments : List ValueId
  deriving DecidableEq

/-- `allocation::Terminator`. -/
inductive Terminator
  | exit (state : StateId)
  | jump (edge : Edge)
  | branch (condition : ValueId) (taken notTaken : Edge)
  deriving DecidableEq

/-- `allocation::edges`. -/
def Terminator.edges : Terminator → List Edge
  | .exit _ => []
  | .jump e => [e]
  | .branch _ a b => [a, b]

/-- `allocation::Block`. -/
structure Block where
  params : List ValueId
  instructions : List InstId
  recovery : List ValueId
  exitUses : List ValueId
  terminator : Terminator
  deriving DecidableEq

/-- `allocation::Graph`. -/
structure Graph where
  instructions : List Instruction
  blocks : List Block
  entries : List BlockId
  deriving DecidableEq

/-- `allocation::term_uses`. -/
def Block.termUses (b : Block) : List ValueId :=
  b.exitUses ++ (match b.terminator with
    | .branch v _ _ => [v]
    | _ => []) ++ b.terminator.edges.flatMap (·.arguments)

end Allocation

/-- The fields of `MirData` that fusion reads. -/
structure FusionData where
  graph : Allocation.Graph
  valueTypes : List Ty
  values : List (Option ValuePlan)
  stackElided : List Bool
  deriving DecidableEq

namespace FusionData

variable (data : FusionData)

/-- `allocation::uses`. -/
def uses (id : InstId) : Exec (List ValueId) := do
  if ← idx data.stackElided id then pure []
  else
    let i ← idx data.graph.instructions id
    let plan ← idx data.values id
    pure ((plan.elim i.uses fun p => expression p.steps) ++ i.recovery)

/-- `allocation::spend`, with the message of `CompileError::Budget`. -/
def spendUses (left n : Nat) : Exec Nat := spend "machine allocation/scheduling work" left n

/-- One use counted. -/
def countUse (counts : List Nat) (v : ValueId) : Exec (List Nat) := do
  setAt counts v ((← idx counts v) + 1)

/-- `allocation::use_counts`. -/
def useCounts (limit : Nat) : Exec (List Nat × Nat) :=
  data.graph.blocks.foldlM (fun (counts, limit) b => do
    let used ← b.instructions.mapM data.uses
    let values := b.termUses ++ b.recovery ++ used.flatten
    let limit ← spendUses limit (values.length + 1)
    pure (← values.foldlM countUse counts, limit))
    (List.replicate data.valueTypes.length 0, limit)

end FusionData

/-! ## Types of value programs -/

/-- `value::machine_type`; nothing is an error. -/
def machineType : Ty → Option WasmType
  | .i1 | .i8 | .i16 | .i32 | .linearAddress => some .i32
  | .i64 | .rmwTicket => some .i64
  | .v128 => some .v128
  | _ => none

/-- `Scalar::signature`, which has none for `select`. -/
def Scalar.signature : Scalar → Option (List WasmType × WasmType)
  | .i32Add | .i32Sub | .i32Mul | .i32And | .i32Or | .i32Xor | .i32Shl | .i32Shr | .i32Sar | .i32Eq
  | .i32Ult | .i32Slt => some ([.i32, .i32], .i32)
  | .i32Clz | .i32Ctz | .i32Popcnt => some ([.i32], .i32)
  | .i64Add | .i64Sub | .i64Mul | .i64And | .i64Or | .i64Xor | .i64Shl | .i64Shr | .i64Sar =>
    some ([.i64, .i64], .i64)
  | .i64Eq | .i64Ult | .i64Slt => some ([.i64, .i64], .i32)
  | .i64Clz | .i64Ctz | .i64Popcnt => some ([.i64], .i64)
  | .i32WrapI64 => some ([.i64], .i32)
  | .i64ExtendSignedI32 | .i64ExtendUnsignedI32 => some ([.i32], .i64)
  | .select => none

/-- `value::reading_type`. -/
def readingType : Reading → Option WasmType
  | .memory _ .v128 => some .v128
  | .memory .. | .constant _ => some .i32
  | .call _ signature =>
    match signature.params, signature.results with
    | [], [ty] => some ty
    | _, _ => none

/-- `value::apply`; a stack has its top first. -/
def applyTypes (stack params : List WasmType) (result : WasmType) : Option (List WasmType) :=
  if params.reverse <+: stack then some (result :: stack.drop params.length) else none

/-- The types of the stack behind a step (the loop body of `value::verify_expression_with`). -/
def Step.type (types : List Ty) (stack : List WasmType) : Step → Option (List WasmType)
  | .value v => do
    let ty ← types[v]?.bind machineType
    pure (ty :: stack)
  | .i32 _ => some (.i32 :: stack)
  | .i64 _ => some (.i64 :: stack)
  | .scalar .select =>
    match stack with
    | .i32 :: right :: left :: rest => if left = right then some (right :: rest) else none
    | _ => none
  | .scalar op => op.signature.bind fun s => applyTypes stack s.1 s.2
  | .read cpu standalone => do
    let cpu ← readingType cpu
    if some cpu = readingType standalone then some (cpu :: stack) else none
  | .simd opcode =>
    if opcode = 0x64 ∨ opcode = 0xA4 ∨ opcode = 0xC4 then applyTypes stack [.v128] .i32 else none
  | .lane opcode number => do
    let (limit, ty, replaces) ← match opcode with
      | 0x19 => some (8, WasmType.i32, false)
      | 0x1A => some (8, .i32, true)
      | 0x1B => some (4, .i32, false)
      | 0x1C => some (4, .i32, true)
      | 0x1D => some (2, .i64, false)
      | 0x1E => some (2, .i64, true)
      | _ => none
    if limit ≤ number then none
    else if replaces then applyTypes stack [.v128, ty] .v128
    else applyTypes stack [.v128] ty
  | .shuffle lanes =>
    if lanes.any (32 ≤ ·) then none else applyTypes stack [.v128, .v128] .v128
  | .packed destination source _ =>
    if types[destination]?.bind machineType = some .v128 ∧
        types[source]?.bind machineType = some .v128 then some (.v128 :: stack)
    else none

/-- `value::verify_program_types`. -/
def verifyProgramTypes (types : List Ty) (plan : ValuePlan) : Exec Unit :=
  match types[plan.result]?.bind machineType, plan.steps.foldlM (Step.type types) [] with
  | some result, some stack => require (stack = [result]) "invalid value program stack"
  | _, _ => fail "invalid value program stack"

/-! ## Scheduling -/

namespace Stack

/-- The locals of `schedule`, with `previous` of the block. -/
structure State where
  left : Nat
  counts : List Nat
  values : List (Option ValuePlan)
  elided : List Bool
  fused : Nat
  previous : Option InstId

/-- The steps that may move onto the stack of another program. -/
def Step.plain : Step → Bool
  | .value _ | .i32 _ | .i64 _ | .scalar _ => true
  | _ => false

/-- The condition of a fusion. -/
def fusible (types : List Ty) (counts : List Nat) (producer consumer : ValuePlan) : Exec Bool := do
  if (← idx counts producer.result) = 1 then
    let ty ← idx types producer.result
    pure ((ty = .i32 ∨ ty = .i64) && producer.steps.all Step.plain &&
      consumer.steps.any (· = .value producer.result))
  else pure false

/-- The consumer with the steps of the producer in place of its result. -/
def rewritten (producer consumer : ValuePlan) : ValuePlan :=
  { consumer with steps := consumer.steps.flatMap fun s =>
      if s = .value producer.result then producer.steps else [s] }

def workMessage : String := "machine stack scheduling work"

/-- The rewritten consumer is checked and recorded. -/
def record (types : List Ty) (s : State) (before id : InstId) (producer consumer : ValuePlan) :
    Exec State := do
  verifyProgramTypes types (rewritten producer consumer)
  let values ← setAt s.values id (some (rewritten producer consumer))
  let elided ← setAt s.elided before true
  let counts ← setAt s.counts producer.result 0
  pure { s with values, elided, counts, fused := s.fused + 1 }

/-- The fusion of a program into the one behind it. -/
def fuse (types : List Ty) (s : State) (before id : InstId) (producer consumer : ValuePlan) :
    Exec State := do
  let ok ← fusible types s.counts producer consumer
  if ok then
    let size := consumer.steps.length + producer.steps.length - 1
    let left ← spend workMessage s.left size
    if size ≤ 256 then record types { s with left } before id producer consumer
    else pure { s with left }
  else pure s

/-- A value program, with the one before it. -/
def consume (types : List Ty) (s : State) (id : InstId) (consumer : ValuePlan) : Exec State :=
  match s.previous with
  | none => pure { s with previous := some id }
  | some before => do
    let producer ← unwrap (← idx s.values before)
    let s ← fuse types s before id producer consumer
    pure { s with previous := some id }

/-- The loop body for an instruction. -/
def turn (types : List Ty) (s : State) (id : InstId) : Exec State := do
  let left ← spend workMessage s.left 1
  let s := { s with left }
  if ← idx s.elided id then pure s
  else
    match ← idx s.values id with
    | none => pure { s with previous := none }
    | some consumer => consume types s id consumer

/-- The loop over a block. -/
def scanBlock (types : List Ty) (s : State) (block : List InstId) : Exec State :=
  block.foldlM (turn types) { s with previous := none }

/-- A turn of the outer loop, which ends when it has fused nothing. -/
def pass (types : List Ty) (blocks : List (List InstId)) (s : State) : Exec (State ⊕ State) := do
  let s' ← blocks.foldlM (scanBlock types) s
  pure (if s'.fused = s.fused then .inr s' else .inl s')

/-- `schedule` up to its last assignments. The outer loop has no bound in the source; a turn that
does not end it takes work, so the work that is left bounds it. -/
def search (data : FusionData) (workLimit : Nat) : Exec State := do
  let (counts, left) ← data.useCounts workLimit
  loop (pass data.valueTypes (data.graph.blocks.map (·.instructions))) (left + 1)
    ⟨left, counts, data.values, data.stackElided, 0, none⟩

/-- `stack::schedule`. -/
def schedule (data : FusionData) (workLimit : Nat) : Exec Nat × FusionData :=
  match search data workLimit with
  | .error e => (.error e, data)
  | .ok s => (.ok s.fused, { data with values := s.values, stackElided := s.elided })

end Stack

end V86.Ir.Mir
