import V86.Ir.Mir.Data

/-!
# Reserved poll credits

`ir/mir/budget.rs`: every poll of a region takes credits from the budget of the activation. A
certificate (`Batch`) lets the emitter take the credits of the rest of a block at once, or those of
a whole trip around a loop that comes back directly or through a small latch.
-/

namespace V86.Ir.Mir.Budget

open Exec

def maxBodyInstructions : Nat := 512
def maxPolls : Nat := 31
def maxBatches : Nat := 4
def maxLatchInstructions : Nat := 8
def maxLatchSteps : Nat := 8

/-- `checked_add`, on 32-bit numbers. -/
def checkedAdd (a b : Nat) : Option Nat := if a + b < 2 ^ 32 then some (a + b) else none

/-- `observes`: the instruction may run code outside of the region. -/
def observes (data : MirData) (id : InstId) : Exec Bool :=
  idx data.memory id >>= fun memory => if memory.isSome then .ok true else
  idx data.effects id >>= fun effect => if effect.isSome then .ok true else
  idx data.calls id >>= fun call => if call.isSome then .ok true else
  idx data.control.polls id >>= fun poll => if poll.isSome then .ok false else
  idx data.values id >>= fun value => match value with
    | none => .ok true
    | some value => .ok (value.steps.any Step.readsImport)

/-- The loop of `loop_backedge` over the instructions of a latch: whether they may be prepaid, and
the credits so far. Too many credits end the search. -/
def latch (data : MirData) : List InstId → Bool → Nat → Exec (Option (Bool × Nat))
  | [], valid, cost => .ok (some (valid, cost))
  | id :: rest, valid, cost => do
    let observed ← observes data id
    let value ← idx data.values id
    let small := value.all fun v => decide (v.steps.length ≤ maxLatchSteps)
    match ← idx data.control.polls id with
    | none => latch data rest (valid && !observed && small) cost
    | some poll => match checkedAdd cost poll.cost with
      | none => .ok none
      | some cost => latch data rest (valid && !observed && small && poll.cost == 1) cost

/-- The loop of `loop_backedge` over the edges of a block that does not come back directly. -/
def latchEdge (data : MirData) (id : BlockId) : List Edge → Exec (Option LoopBackedge)
  | [] => .ok none
  | edge :: rest => do
    let block ← idx data.control.blocks edge.target
    match block.terminator with
    | .jump back =>
      if back.target ≠ id ∨ maxLatchInstructions < block.instructions.length ∨
          1 < block.budgetCost then latchEdge data id rest
      else match ← latch data block.instructions true block.budgetCost with
        | none => .ok none
        | some (true, cost) => .ok (some ⟨edge.target, cost⟩)
        | some (false, _) => latchEdge data id rest
    | _ => latchEdge data id rest

/-- `loop_backedge`. -/
def loopBackedge (data : MirData) (id : BlockId) : Exec (Option LoopBackedge) := do
  let block ← idx data.control.blocks id
  let edges := block.terminator.edges
  if edges.any fun edge => edge.target == id then .ok (some ⟨id, 0⟩) else latchEdge data id edges

/-- The loop of `body`: the credits of a list of instructions, and whether none of them observes. -/
def credits (data : MirData) : List InstId → Nat → Bool → Exec (Option (Nat × Bool))
  | [], cost, pure => .ok (some (cost, pure))
  | id :: rest, cost, pure => do
    let observed ← observes data id
    match ← idx data.control.polls id with
    | none => credits data rest cost (pure && !observed)
    | some poll =>
      if poll.cost ≠ 1 then .ok none
      else match checkedAdd cost 1 with
        | none => .ok none
        | some cost => credits data rest cost (pure && !observed)

/-- `body`. -/
def body (data : MirData) (instructions : List InstId) (start : Nat) : Exec (Option Batch) :=
  if maxBodyInstructions < instructions.length - start then .ok none
  else do
    match ← credits data (instructions.drop start) 0 true with
    | none => .ok none
    | some (cost, pure) =>
      .ok (if 2 ≤ cost ∧ cost ≤ maxPolls then some ⟨start, cost, pure, none⟩ else none)

/-- The position of the last instruction that observes, searched from the end. -/
def lastObserver (data : MirData) : List InstId → Exec (Option Nat)
  | [] => .ok none
  | id :: rest => do
    match ← lastObserver data rest with
    | some k => .ok (some (k + 1))
    | none => do
      let observed ← observes data id
      .ok (if observed then some 0 else none)

/-- The position of the first poll of one credit. -/
def firstPoll (data : MirData) : List InstId → Exec (Option Nat)
  | [] => .ok none
  | id :: rest => do
    let poll ← idx data.control.polls id
    if poll.any fun p => p.cost == 1 then .ok (some 0)
    else do
      let k ← firstPoll data rest
      .ok (k.map (· + 1))

/-- The certificate of a loop: its body and the way back. -/
def loopCertificate (data : MirData) (id : BlockId) (block : Block) : Exec (Option Batch) := do
  match ← loopBackedge data id with
  | none => .ok none
  | some backedge => do
    let batch ← body data block.instructions 0
    .ok (batch.bind fun batch =>
      if batch.cost + block.budgetCost + backedge.cost ≤ maxPolls + 1 then
        some { batch with backedge := some backedge }
      else none)

/-- The certificate of the end of a block, behind a poll that stays. -/
def suffixCertificate (data : MirData) (block : Block) : Exec (Option Batch) := do
  let observer ← lastObserver data block.instructions
  let after := match observer with
    | none => 0
    | some i => i + 1
  match ← firstPoll data (block.instructions.drop after) with
  | none => .ok none
  | some k => body data block.instructions (after + k + 1)

/-- `certificate`. -/
def certificate (data : MirData) (id : BlockId) : Exec (Option Batch) := do
  let block ← idx data.control.blocks id
  if block.budgetCost ≠ 1 ∨ data.helpers.any (fun h => h.any (·.startsInterruptShadow)) then
    .ok none
  else do
    match ← loopCertificate data id block with
    | some batch => .ok (some batch)
    | none => suffixCertificate data block

/-- The work of `enable`: the steps of the programs, and for every block its instructions, the
helpers and a latch. -/
def work (data : MirData) : Option Nat := do
  let values ← (data.values.filterMap id).foldlM (fun n v => checkedAdd n v.steps.length) 0
  data.control.blocks.foldlM (fun total block => do
    let n ← checkedAdd total block.instructions.length
    let n ← checkedAdd n data.helpers.length
    checkedAdd n (2 * maxLatchInstructions * maxLatchSteps)) values

/-- The loop of `enable` over the blocks, which stops when there are enough certificates. -/
def certify (data : MirData) : List BlockId → Nat → Exec (List (Option Batch) × Nat)
  | [], count => .ok ([], count)
  | id :: rest, count =>
    if count = maxBatches then .ok (List.replicate (rest.length + 1) none, count)
    else do
      let batch ← certificate data id
      let (batches, count) ← certify data rest (count + if batch.isSome then 1 else 0)
      .ok (batch :: batches, count)

/-- `enable` up to its assignment. -/
def batches (data : MirData) (workLimit : Nat) : Exec (List (Option Batch) × Nat) := do
  let work ← okOr (work data) "budget batch work"
  require (decide (work ≤ workLimit)) "budget batch work"
  certify data (List.range data.control.blocks.length) 0

/-- `enable`: its result, and the data it leaves. -/
def enable (data : MirData) (workLimit : Nat) : Exec Nat × MirData :=
  match batches data workLimit with
  | .ok (batches, count) => (.ok count, { data with pollBatches := batches })
  | .error e => (.error e, data)

end V86.Ir.Mir.Budget
