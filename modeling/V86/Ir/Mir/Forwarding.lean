import Mathlib.Data.List.ReduceOption
import V86.Ir.Mir.Data

/-!
# Forwarding of RAM reads

`ir/mir/forwarding.rs`: the certificate that a load gives what an earlier access of its block read
or wrote (`planWithLoops`), and the one that the loads of a loop share a cache slot that its
preheader resets (`loopPlan`).
-/

namespace V86.Ir.Mir

open Exec

/-- `Forwarding`. -/
inductive Forwarding
  | start
  | reuse (previous : InstId)
  deriving DecidableEq

/-- `LoopPlan`: the slot of each instruction, the slots each block resets, and how many there
are. -/
structure LoopPlan where
  instructions : List (Option Nat)
  resets : List (List Nat)
  slots : Nat
  deriving DecidableEq

/-- `LoopPlan::disabled`. -/
def LoopPlan.disabled (instructions blocks : Nat) : LoopPlan where
  instructions := List.replicate instructions none
  resets := List.replicate blocks []
  slots := 0

/-- `AliasProof`. -/
inductive AliasProof
  | exact | disjoint | mayAlias
  deriving DecidableEq

/-- `AddressKey`. -/
inductive AddressKey
  | value (v : ValueId)
  | segment (base nullByte : BitVec 32) (offset : ValueId)
  deriving DecidableEq

namespace Forwarding

/-! ## Accesses -/

/-- `eligible_load`. -/
def eligibleLoad (plan : MemoryPlan) : Bool :=
  match plan.native with
  | .scalarLoad result none =>
    let bytes := plan.guard.bytes
    (bytes = 1 ∨ bytes = 2 ∨ bytes = 4) ∧ plan.guard = .ofAccess bytes false ∧
      plan.result = .packed result false ∧ plan.call.name = "ir_memory_read" ∧
      plan.call.args = [.value plan.address, .i32 (BitVec.ofNat 32 bytes)]
  | _ => false

/-- `eligible_store`. -/
def eligibleStore (plan : MemoryPlan) : Bool :=
  match plan.native with
  | .scalarStore value (some commit) =>
    let bytes := plan.guard.bytes
    (bytes = 1 ∨ bytes = 2 ∨ bytes = 4) ∧ plan.guard = .ofAccess bytes true ∧
      plan.result = .store (some commit) false ∧ plan.call.name = "ir_memory_write" ∧
      plan.call.args = [.value plan.address, .value value, .i32 (BitVec.ofNat 32 bytes)]
  | _ => false

/-- `committed_rmw`: the address and width of the read the commit belongs to. -/
def committedRmw (data : MirData) : EffectPlan → Option (ValueId × Nat)
  | .rmwCommit bytes ticket _ _ _ _ => do
    let definition ← planAt data.valueDefinitions ticket
    let read ← planAt data.memory definition
    match read.native with
    | .scalarLoad _ (some t) =>
      if t = ticket ∧ read.guard = .ofAccess bytes true then some (read.address, bytes) else none
    | _ => none
  | _ => none

/-- `segment`. -/
def segment : EffectPlan → Option (ValueId × AddressKey)
  | .address nullByte base offset result _ call false =>
    if call.name = "ir_segment_address" then some (result, .segment base nullByte offset) else none
  | _ => none

def workMessage : String := "MIR RAM optimization work"

/-- `address_keys`. -/
def addressKeys (data : MirData) (left : Nat) : Exec (List (Option AddressKey) × Nat) :=
  data.effects.reduceOption.foldlM (fun s effect => do
    let left ← spend workMessage s.2 1
    match segment effect with
    | none => .ok (s.1, left)
    | some (value, key) =>
      if value < s.1.length then .ok (s.1.set value (some key), left)
      else fail "RAM proof address outside value arena")
    (List.replicate data.valueTypes.length none, left)

/-- `key_for`. -/
def keyFor (addresses : List (Option AddressKey)) (plan : MemoryPlan) : AddressKey :=
  (planAt addresses plan.address).getD (.value plan.address)

/-- `value_plan`. -/
def valuePlan (data : MirData) (value : ValueId) : Option ValuePlan :=
  (planAt data.valueDefinitions value).bind (planAt data.values)

/-- `constant_i32`. -/
def constantI32 (data : MirData) (value : ValueId) : Option (BitVec 32) :=
  (valuePlan data value).bind fun plan => match plan.steps with
    | [.i32 n] => some n
    | _ => none

/-- `native_offsets_disjoint`. -/
def nativeOffsetsDisjoint (a : BitVec 32) (aBytes : Nat) (b : BitVec 32) (bBytes : Nat) : Bool :=
  (List.range aBytes).all fun i => (List.range bBytes).all fun j =>
    (a + BitVec.ofNat 32 i) &&& 4095 != (b + BitVec.ofNat 32 j) &&& 4095

/-- The constant offsets of two keys over the same base. -/
def constants (data : MirData) : AddressKey → AddressKey → Option (BitVec 32 × BitVec 32)
  | .segment aBase aNull aOffset, .segment bBase bNull bOffset =>
    if aBase = bBase ∧ aNull = bNull then
      (constantI32 data aOffset).bind fun a => (constantI32 data bOffset).map fun b => (a, b)
    else none
  | .value a, .value b =>
    (constantI32 data a).bind fun a => (constantI32 data b).map fun b => (a, b)
  | _, _ => none

/-- `alias`. -/
def aliasProof (data : MirData) (a : AddressKey) (aBytes : Nat) (b : AddressKey) (bBytes : Nat) :
    AliasProof :=
  if a = b ∧ aBytes = bBytes then .exact
  else match constants data a b with
    | some (a, b) => if nativeOffsetsDisjoint a aBytes b bBytes then .disjoint else .mayAlias
    | none => .mayAlias

/-- `passes::MAX_BLOCKS`, `MAX_INSTRUCTIONS` and `MAX_VALUES`. -/
def maxBlocks : Nat := 1024
def maxInstructions : Nat := 65536
def maxValues : Nat := 131072

/-- `validate_arenas`. -/
def validateArenas (data : MirData) : Exec Unit := do
  let n := data.memory.length
  require (data.control.blocks.length ≤ maxBlocks ∧ n ≤ maxInstructions ∧
    data.valueTypes.length ≤ maxValues ∧ data.valueBlocks.length = data.valueTypes.length ∧
    data.valueDefinitions.length = data.valueTypes.length) "MIR RAM optimization region"
  require (data.effects.length = n ∧ data.calls.length = n ∧ data.values.length = n ∧
    data.control.polls.length = n) "inconsistent RAM optimization arenas"

/-! ## Forwarding within a block -/

/-- What `plan_with_loops` works on: the work left, the certificates, and the last access that may
be a source. -/
structure Scan where
  left : Nat
  result : List (Option Forwarding)
  previous : Option (AddressKey × Nat × InstId)

section
variable (data : MirData) (addresses : List (Option AddressKey))

/-- A source starts a chain if it is in none. -/
def begun (result : List (Option Forwarding)) (old : InstId) : Exec (List (Option Forwarding)) :=
  idx result old >>= fun first => match first with
    | none => setAt result old (some .start)
    | some _ => .ok result

/-- The certificate of a load with its source. -/
def chain (result : List (Option Forwarding)) (old id : InstId) :
    Exec (List (Option Forwarding)) := do
  let result ← begun result old
  setAt result id (some (.reuse old))

/-- The certificates when a load of a key and a width follows. -/
def reuseSource (s : Scan) (id : InstId) (key : AddressKey) (bytes : Nat) :
    Exec (List (Option Forwarding)) :=
  match s.previous with
  | some (oldKey, oldBytes, old) =>
    if aliasProof data oldKey oldBytes key bytes = .exact then chain s.result old id
    else .ok s.result
  | none => .ok s.result

/-- A scalar load becomes the source of what follows. -/
def planLoad (s : Scan) (id : InstId) (memory : MemoryPlan) : Exec Scan := do
  let key := keyFor addresses memory
  let result ← reuseSource data s id key memory.guard.bytes
  .ok { s with result := result, previous := some (key, memory.guard.bytes, id) }

/-- A store that is proven disjoint from the source leaves it, any other becomes the source. -/
def planStore (s : Scan) (id : InstId) (memory : MemoryPlan) : Scan :=
  let key := keyFor addresses memory
  match s.previous with
  | some (oldKey, oldBytes, _) =>
    if aliasProof data oldKey oldBytes key memory.guard.bytes = .disjoint then s
    else { s with previous := some (key, memory.guard.bytes, id) }
  | none => { s with previous := some (key, memory.guard.bytes, id) }

/-- The commit of a read-modify-write becomes the source. -/
def planEffect (s : Scan) (id : InstId) (effect : EffectPlan) : Exec Scan :=
  if (segment effect).isSome then .ok s
  else match committedRmw data effect with
    | some (address, bytes) => do
      let key ← idx addresses address
      .ok { s with previous := some (key.getD (.value address), bytes, id) }
    | none => .ok { s with previous := none }

/-- Any other instruction is passed over when it only computes. -/
def planValue (s : Scan) (id : InstId) : Exec Scan := do
  let call ← idx data.calls id
  if call.isSome then .ok { s with previous := none }
  else match ← idx data.values id with
    | none => .ok { s with previous := none }
    | some value => do
      let left ← spend workMessage s.left value.steps.length
      let imports := value.steps.any fun step => match step with
        | .read (.call ..) _ => true
        | _ => false
      .ok { s with left := left, previous := if imports then none else s.previous }

/-- The body of the inner loop of `plan_with_loops`. -/
def planInst (loops : LoopPlan) (s : Scan) (id : InstId) : Exec Scan := do
  let left ← spend workMessage s.left 1
  let s := { s with left := left }
  let slot ← idx loops.instructions id
  if slot.isSome then .ok { s with previous := none }
  else do
    let memory ← okOr data.memory[id]? "forwarding instruction outside arena"
    match ← idx data.control.polls id with
    | some poll => .ok { s with previous := if 1 ≤ poll.cost then s.previous else none }
    | none => match memory with
      | some memory =>
        if eligibleLoad memory then planLoad data addresses s id memory
        else if eligibleStore memory then .ok (planStore data addresses s id memory)
        else .ok { s with previous := none }
      | none => do
        match ← idx data.effects id with
        | some effect => planEffect data addresses s id effect
        | none => planValue data s id

/-- `plan_with_loops`. -/
def planWithLoops (loops : LoopPlan) (workLimit : Nat) : Exec (List (Option Forwarding)) := do
  validateArenas data
  let n := data.memory.length
  require (loops.instructions.length = n ∧ loops.resets.length = data.control.blocks.length)
    "invalid loop RAM certificate dimensions"
  let left ← spend workMessage workLimit (n + data.valueTypes.length)
  let (addresses, left) ← addressKeys data left
  let s ← data.control.blocks.foldlM (fun s block =>
    block.instructions.foldlM (planInst data addresses loops) { s with previous := none })
    ⟨left, List.replicate n none, none⟩
  .ok s.result

end

/-! ## Invariant addresses -/

/-- `1u64 << block`. -/
def bit (b : BlockId) : BitVec 64 := 1#64 <<< (b % 64)

/-- The block is in a set. -/
def inSet (members : BitVec 64) (b : BlockId) : Bool := members &&& bit b != 0

section
variable (data : MirData) (members : BitVec 64)

/-- The operands of a step are invariant, and it reads no state. -/
def stepInvariant (invariant : ValueId → Nat → Exec (Bool × Nat)) (left : Nat) :
    Step → Exec (Bool × Nat)
  | .value v => invariant v left
  | .packed destination source _ => invariant destination left >>= fun r =>
    if r.1 then invariant source r.2 else .ok (false, r.2)
  | .read .. => .ok (false, left)
  | _ => .ok (true, left)

/-- The steps of a program in order, until one is not invariant. -/
def stepsInvariant (invariant : ValueId → Nat → Exec (Bool × Nat)) :
    List Step → Nat → Exec (Bool × Nat)
  | [], left => .ok (true, left)
  | step :: rest, left => do
    let left ← spend workMessage left 1
    let r ← stepInvariant invariant left step
    if r.1 then stepsInvariant invariant rest r.2 else .ok (false, r.2)

/-- `value_invariant`: the values that are being visited are marked. The first argument bounds the
depth of the recursion, which takes work. -/
def valueInvariant : Nat → List Bool → ValueId → Nat → Exec (Bool × Nat)
  | 0, _, _, _ => .error .timeout
  | depth + 1, visiting, value, left => do
    let left ← spend workMessage left 1
    let block ← okOr (planAt data.valueBlocks value) "missing MIR value provenance"
    if inSet members block = false then .ok (true, left)
    else if (constantI32 data value).isSome then .ok (true, left)
    else do
      let seen ← okOr visiting[value]? "value provenance outside arena"
      if seen then .ok (false, left)
      else match valuePlan data value with
        | some plan =>
          stepsInvariant (valueInvariant depth (visiting.set value true)) plan.steps left
        | none => .ok (false, left)

/-- `invariant_address`. -/
def invariantAddress (key : AddressKey) (left : Nat) : Exec (Bool × Nat) :=
  let value := match key with
    | .value v => v
    | .segment _ _ offset => offset
  valueInvariant data members (left + 1) (List.replicate data.valueTypes.length false) value left

end

/-! ## Natural loops -/

/-- A loop: its blocks, its preheader and its header. -/
structure NaturalLoop where
  members : BitVec 64
  preheader : BlockId
  header : BlockId

section
variable (data : MirData)

/-- The predecessors of every block, each once. -/
def predecessors (left : Nat) : Exec (List (List BlockId) × Nat) :=
  data.control.blocks.zipIdx.foldlM (fun s (block, b) => do
    let left ← spend workMessage s.2 1
    let predecessors ← block.terminator.edges.foldlM (fun predecessors edge => do
      require (decide (edge.target < data.control.blocks.length)) "loop edge outside MIR CFG"
      let known ← idx predecessors edge.target
      if known.contains b then .ok predecessors
      else setAt predecessors edge.target (known ++ [b])) s.1
    .ok (predecessors, left))
    (List.replicate data.control.blocks.length [], left)

variable (preds : List (List BlockId))

/-- The block dominates only itself: an entry, or a block without predecessors. -/
def isRoot (b : BlockId) : Bool :=
  data.control.entries.contains b || (preds.getD b []).isEmpty

/-- The set of all blocks. -/
def allBlocks : BitVec 64 :=
  if data.control.blocks.length = 64 then BitVec.allOnes 64
  else (1#64 <<< data.control.blocks.length) - 1

/-- One round over the blocks; the flag tells whether a set changed. -/
def dominanceRound (s : List (BitVec 64) × Nat) : Exec (List (BitVec 64) × Nat × Bool) :=
  (List.range data.control.blocks.length).foldlM (fun s b => do
    let left ← spend workMessage s.2.1 1
    if isRoot data preds b then .ok (s.1, left, s.2.2)
    else do
      let (next, left) ← (preds.getD b []).foldlM (fun t p => do
        let left ← spend workMessage t.2 1
        let row ← idx s.1 p
        .ok (t.1 &&& row, left)) (allBlocks data, left)
      let next := next ||| bit b
      let old ← idx s.1 b
      if next = old then .ok (s.1, left, s.2.2) else .ok (s.1.set b next, left, true))
    (s.1, s.2, false)

/-- The dominators of every block, refined until nothing changes. -/
def dominators (left : Nat) : Exec (List (BitVec 64) × Nat) :=
  loop (fun s => do
    let (dominates, left, changed) ← dominanceRound data preds s
    .ok (if changed then .inl (dominates, left) else .inr (dominates, left))) (left + 1)
    ((List.range data.control.blocks.length).map fun b =>
      if isRoot data preds b then bit b else allBlocks data, left)

/-- The blocks that reach a latch without the header, from a stack whose top is the last. -/
def naturalLoop (s : BitVec 64 × List BlockId × Nat) : Exec (BitVec 64 × Nat) :=
  loop (fun s => match s.2.1.getLast? with
    | none => .ok (.inr (s.1, s.2.2))
    | some block => do
      let left ← spend workMessage s.2.2 1
      let stack := s.2.1.dropLast
      if inSet s.1 block then .ok (.inl (s.1, stack, left))
      else
        let members := s.1 ||| bit block
        let pushed := (preds.getD block []).filter fun p => !inSet members p
        .ok (.inl (members, stack ++ pushed, left))) (s.2.2 + 1) s

/-- The loop of a header, if it has the shape the cache needs. -/
def findLoop (dominates : List (BitVec 64)) (header : BlockId) (left : Nat) :
    Exec (Option NaturalLoop × Nat) := do
  let left ← spend workMessage left 1
  if data.control.entries.contains header then .ok (none, left)
  else
    let above (b : BlockId) : Bool := inSet (dominates.getD b 0) header
    let latches := (preds.getD header []).filter above
    if latches.isEmpty then .ok (none, left)
    else do
      let (members, left) ← naturalLoop preds (bit header, latches, left)
      let blocks := (List.range data.control.blocks.length).filter (inSet members)
      let valid := blocks.all fun b =>
        above b && (b == header || (preds.getD b []).all (inSet members))
      if valid then
        match (preds.getD header []).filter fun p => !inSet members p with
        | [preheader] => do
          let block ← idx data.control.blocks preheader
          match block.terminator with
          | .jump edge =>
            .ok (if edge.target = header then some ⟨members, preheader, header⟩ else none, left)
          | _ => .ok (none, left)
        | _ => .ok (none, left)
      else .ok (none, left)

/-- The loops of the region, in the order of their headers. -/
def findLoops (dominates : List (BitVec 64)) (left : Nat) : Exec (List NaturalLoop × Nat) :=
  (List.range data.control.blocks.length).foldlM (fun s header => do
    let (found, left) ← findLoop data preds dominates header s.2
    .ok (s.1 ++ found.toList, left)) ([], left)

end

/-! ## The loop plan -/

/-- A load that may be cached: its instruction, its address and its width. -/
structure Candidate where
  id : InstId
  key : AddressKey
  bytes : Nat

section
variable (data : MirData) (addresses : List (Option AddressKey)) (members : BitVec 64)

/-- An instruction of a loop; none when the loop may change RAM or mappings. -/
def scanInst (s : List Candidate × Nat) (id : InstId) : Exec (Option (List Candidate) × Nat) := do
  let left ← spend workMessage s.2 1
  let call ← idx data.calls id
  if call.isSome then .ok (none, left)
  else do
    let effect ← idx data.effects id
    if effect.any fun e => (segment e).isNone then .ok (none, left)
    else do
      let poll ← idx data.control.polls id
      if poll.any fun p => p.cost == 0 then .ok (none, left)
      else match ← idx data.memory id with
        | none => .ok (some s.1, left)
        | some memory =>
          if eligibleLoad memory then do
            let key := keyFor addresses memory
            let (invariant, left) ← invariantAddress data members key left
            .ok (if invariant then some (s.1 ++ [⟨id, key, memory.guard.bytes⟩]) else some s.1, left)
          else .ok (none, left)

/-- The instructions of a loop in order, until one is not safe. -/
def scanLoop : List InstId → List Candidate × Nat → Exec (Option (List Candidate) × Nat)
  | [], s => .ok (some s.1, s.2)
  | id :: rest, s => do
    match ← scanInst data addresses members s id with
    | (none, left) => .ok (none, left)
    | (some candidates, left) => scanLoop rest (candidates, left)

end

/-- Give a candidate the slot of its group, or a new one. -/
def assign (data : MirData) (preheader : BlockId)
    (s : LoopPlan × List (AddressKey × Nat × Nat)) (c : Candidate) :
    Exec (LoopPlan × List (AddressKey × Nat × Nat)) := do
  let owned ← idx s.1.instructions c.id
  if owned.isSome then .ok s
  else match s.2.find? fun g => aliasProof data g.1 g.2.1 c.key c.bytes == .exact with
    | some g => do
      let instructions ← setAt s.1.instructions c.id (some g.2.2)
      .ok ({ s.1 with instructions := instructions }, s.2)
    | none => do
      let slot := s.1.slots
      let resets ← idx s.1.resets preheader
      let resets ← setAt s.1.resets preheader (resets ++ [slot])
      let instructions ← setAt s.1.instructions c.id (some slot)
      .ok (⟨instructions, resets, slot + 1⟩, s.2 ++ [(c.key, c.bytes, slot)])

/-- The instructions of the blocks of a set, block after block. -/
def loopInstructions (data : MirData) (members : BitVec 64) : List InstId :=
  ((List.range data.control.blocks.length).filter (inSet members)).flatMap fun b =>
    (data.control.blocks[b]?).elim [] (·.instructions)

/-- The slots of one loop. -/
def cacheLoop (data : MirData) (addresses : List (Option AddressKey)) (s : LoopPlan × Nat)
    (l : NaturalLoop) : Exec (LoopPlan × Nat) := do
  match ← scanLoop data addresses l.members (loopInstructions data l.members) ([], s.2) with
  | (none, left) => .ok (s.1, left)
  | (some candidates, left) => do
    let (plan, _) ← candidates.foldlM (assign data l.preheader) (s.1, [])
    .ok (plan, left)

/-- Inner loops first: by the number of blocks, then by the header. -/
def NaturalLoop.before (a b : NaturalLoop) : Bool :=
  let x := a.members.cpop.toNat
  let y := b.members.cpop.toNat
  x < y || (x == y && a.header ≤ b.header)

/-- `loop_plan`. -/
def loopPlan (data : MirData) (workLimit : Nat) : Exec LoopPlan := do
  validateArenas data
  let blocks := data.control.blocks.length
  let disabled := LoopPlan.disabled data.memory.length blocks
  if blocks = 0 ∨ 64 < blocks then .ok disabled
  else do
    let left ← spend workMessage workLimit (data.memory.length + data.valueTypes.length + blocks)
    let (addresses, left) ← addressKeys data left
    let (preds, left) ← predecessors data left
    let (dominates, left) ← dominators data preds left
    let (loops, left) ← findLoops data preds dominates left
    let (plan, _) ← (loops.mergeSort NaturalLoop.before).foldlM (cacheLoop data addresses)
      (disabled, left)
    .ok { plan with resets := plan.resets.map fun slots => (slots.mergeSort fun a b => a ≤ b).eraseDups }

end Forwarding

end V86.Ir.Mir
