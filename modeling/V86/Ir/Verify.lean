import V86.Ir.Cfg
import V86.Ir.Helper

/-!
# The verifier

`ir/verify.rs`: every value is defined once and where its arena slot says, every use is dominated by
a live definition, recovery maps are complete and typed, and the ordered operations of a block form
one effect chain with its RMW tickets and partial-store sequences completed. The checks stand in the
source's order, with its messages. Those of a recovery map stand with it.

What the checks of a recovery map and of an operation's signature read is given to them as a value
of its own (`StateMap` and `OpView`), generic in the ids: they only compare ids for equality, so they
commute with a renaming.
-/

namespace V86.Ir

open Exec

namespace Verify

/-! ## Signatures -/

/-- `verify::memory_width`. -/
def memoryWidth : Ty → Option Nat
  | .v128 => some 16
  | .f32 => some 4
  | .f64 => some 8
  | ty => ty.bits.map (· / 8)

/-- `checked_add(1)` of a 32-bit count gives the other count. -/
def increments (before after : Nat) : Bool := before + 1 < 2 ^ 32 && before + 1 = after

/-- What the check of an operation's signature reads. The types of operands and results are those
left after the effect token of an ordered operation is taken away. -/
structure OpView (α : Type) where
  op : Op
  args : List Ty
  results : List Ty
  argIds : List α
  state : Option (StateMap α)
  commit : Option (StateMap α)
  unmaskedWordStore : Bool
  /-- The instruction stands in an entry block. -/
  entry : Bool
  /-- The instruction is the last of its block, which exits with the instruction's state. -/
  exits : Bool
  helpers : List HelperDescriptor

section
variable {α : Type} [DecidableEq α]

/-- The recovery map before the instruction. -/
def OpView.map (view : OpView α) : Exec (StateMap α) := unwrap view.state

/-- A store of XMM state commits exactly its own instruction. -/
def commitsXmm (map commit : StateMap α) : Bool :=
  commit.gpr = map.gpr && commit.flags = map.flags && commit.xmm = map.xmm &&
    commit.instructionPc = map.instructionPc && commit.nextPc = map.nextPc &&
    commit.countBase = map.countBase &&
    increments map.committedInstructions commit.committedInstructions

/-- An XMM operation that takes a register as an operand agrees with the recovery map on it. -/
def requireXmm (view : OpView α) (registers : List (Nat × Nat)) (complete mismatch : String) :
    Exec (StateMap α) := do
  let map ← view.map
  require (map.xmm.length = 8) complete
  require (registers.all fun p => view.argIds[p.1]? = map.xmm[p.2]?) mismatch
  pure map

/-- The instruction ends its block, which exits at the state before it. -/
def requireExit (view : OpView α) (resume : ResumeKind) (msg : String) : Exec Unit := do
  require view.exits msg
  let map ← view.map
  require (map.resume = resume) msg

/-- The signature of a CPU read, allowed in entry blocks only. -/
def requireRead (view : OpView α) (ok : Bool) (ty : Ty) (msg : String) : Exec Unit :=
  require (ok && view.args.isEmpty && view.results = [ty] && view.entry) msg

/-- The signature of a conversion between integer types, with the check of its widths. -/
def requireConversion (view : OpView α) (ok : Nat → Nat → Bool) : Exec Unit := do
  require (view.args.length = 1 && view.results.length = 1) "conversion arity"
  let a ← okOr (view.args.headD .effect).bits "conversion source"
  let r ← okOr (view.results.headD .effect).bits "conversion target"
  require (ok a r) "conversion width"

/-- The match over the operations at the end of the instruction loop of `verify`. -/
def checkOp (view : OpView α) : Exec Unit :=
  let args := view.args
  let results := view.results
  match view.op with
  | .const value => do
    require (args.isEmpty && results.length = 1) "constant arity"
    let bits ← okOr (results.headD .effect).bits "noninteger constant"
    require (bits = 64 || value.toNat < 2 ^ bits) "constant width overflow"
  | .binary op => do
    require (args.length = 2 && results.length = 1) "binary arity"
    require (((args.headD .effect).bits).isSome && args[0]? = args[1]?) "binary operand types"
    let result := if op = .eq || op = .ult || op = .slt then some .i1 else args[0]?
    require (results[0]? = result) "binary result type"
  | .countLeadingZeros | .countTrailingZeros | .populationCount =>
    require (args.length = 1 && (args = [.i32] || args = [.i64]) && results = args)
      "bit-count types"
  | .select => do
    require (args.length = 3 && results.length = 1) "select arity"
    require (args[0]? = some .i1 && args[1]? = args[2]? && results[0]? = args[1]?) "select types"
  | .extend _ => requireConversion view fun a r => a < r
  | .truncate => requireConversion view fun a r => r < a
  | .extract lsb => requireConversion view fun a r => lsb + r ≤ a
  | .insert lsb => do
    require (args.length = 2 && results.length = 1) "insert arity"
    let a ← okOr (args.headD .effect).bits "insert base type"
    let part ← okOr (args.tail.headD .effect).bits "insert part type"
    require (results[0]? = args[0]? && lsb + part ≤ a) "insert width"
  | .readXmm reg => requireRead view (reg < 8) .v128 "XMM initialization outside entry"
  | .vectorShuffle lanes =>
    require (args = [.v128, .v128] && results = [.v128] && lanes.toList.all (· < 32))
      "vector shuffle signature/lanes"
  | .vectorBinary _ =>
    require (args = [.v128, .v128] && results = [.v128]) "vector binary signature"
  | .xmmBinary operation bytes register first vex => do
    require (bytes = 16 ||
        bytes = 8 && (operation = .unpackLow32 || operation = .unpackLow64))
      "XMM binary read width"
    require (register < 8 && first < 8 && (vex || first = register) &&
        args = [.linearAddress, .v128] && results = [.v128])
      "XMM binary signature"
    let _ ← requireXmm view [(1, first)] "XMM binary needs complete state"
      "XMM binary destination/state mismatch"
  | .xmmShuffle _ _ register first vex | .xmmTransferLoad _ register first vex => do
    require (register < 8 && first < 8 && (vex || first = register) &&
        args = [.linearAddress, .v128] && results = [.v128])
      "XMM shuffle signature"
    let _ ← requireXmm view [(1, first)] "XMM shuffle needs complete state"
      "XMM shuffle destination/state mismatch"
  | .xmmInsertWord register lane => do
    require (register < 8 && lane < 8 && args = [.linearAddress, .v128] && results = [.v128])
      "XMM word insert signature/lane"
    let _ ← requireXmm view [(1, register)] "XMM word insert needs complete state"
      "XMM word insert destination/state mismatch"
  | .xmmMaskedStore source mask => do
    require (source < 8 && mask < 8 && args = [.linearAddress, .v128, .v128] && results.isEmpty)
      "XMM masked store signature"
    let map ← requireXmm view [(1, source), (2, mask)] "XMM masked store needs complete state"
      "XMM masked store source/mask state mismatch"
    require (commitsXmm map (← unwrap view.commit)) "XMM masked store commit mismatch"
  | .vectorBitmask bits =>
    require ([8, 32, 64].contains bits && args = [.v128] && results = [.i32])
      "vector bitmask signature/width"
  | .vectorExtract bits lane =>
    require ([16, 32, 64].contains bits && lane * bits < 128 && args = [.v128] &&
        results = [if bits = 64 then .i64 else .i32])
      "vector extract types/lane"
  | .vectorReplace bits lane =>
    require ([16, 32, 64].contains bits && lane * bits < 128 &&
        args = [.v128, if bits = 64 then .i64 else .i32] && results = [.v128])
      "vector replace types/lane"
  | .sseCheck | .fpuCheck | .avxCheck =>
    require (args.isEmpty && results.isEmpty) "FP guard signature"
  | .ymmZero register =>
    require (register < 8 && args.isEmpty && results.isEmpty) "YMM zeroing signature"
  | .x87 opcode modrm =>
    -- a form that keeps its helper has no signature at all
    let io := X87.io opcode modrm
    let inputs := match io with | some (.load _) => 2 | _ => 0
    let outputs := match io with | some (.store _) => 2 | _ => 0
    require (io.isSome && args.length = inputs && args.all (· = .i32) &&
        results.length = outputs && results.all (· = .i32))
      "x87 operation signature"
  | .xmmLoad bytes register _ => do
    require (register < 8 && [4, 8, 16].contains bytes && args = [.linearAddress] &&
        results = [.v128])
      "XMM memory signature"
    let _ ← requireXmm view [] "XMM memory needs complete state" ""
  | .xmmStore lane bytes register => do
    require (lane = 0 || bytes = 8 && lane = 1) "XMM store lane/width"
    require (register < 8 && [4, 8, 16].contains bytes && args = [.linearAddress, .v128] &&
        results.isEmpty)
      "XMM memory signature"
    let map ← requireXmm view [(1, register)] "XMM memory needs complete state"
      "XMM store source/state mismatch"
    require (commitsXmm map (← unwrap view.commit)) "XMM store commit mismatch"
  | .readGpr reg => requireRead view (reg < 8) .i32 "GPR initialization outside entry"
  | .readEntryLinear | .readFlags | .readSystemFlags | .readRawFlags | .readFlagChanges
  | .readFlagOperand | .readFlagResult | .readFlagSize =>
    requireRead view true .i32 "flags initialization outside entry"
  | .readFlag bit =>
    requireRead view ([0, 2, 4, 6, 7, 11].contains bit) .i1
      "arithmetic flag initialization outside entry"
  | .readSegment segment =>
    requireRead view (segment < 6) .i16 "segment selector initialization"
  | .readStack32 => requireRead view true .i1 "stack-mode initialization outside entry"
  | .popAddress segment bytes =>
    require (segment < 6 && [2, 4].contains bytes && args = [.i32] && results = [.linearAddress])
      "POP address types"
  | .segmentAddress segment =>
    require (segment < 6 && args = [.i32] && results = [.linearAddress]) "segment address types"
  | .rmwLoad bytes _ =>
    require ([1, 2, 4].contains bytes && args = [.linearAddress] && results.length = 2 &&
        memoryWidth (results.headD .effect) = some bytes && results[1]? = some .rmwTicket)
      "RMW read types"
  | .rmwStore bytes _ =>
    require (args.length = 2 && args[0]? = some .rmwTicket &&
        memoryWidth (args.tail.headD .effect) = some bytes && results.isEmpty)
      "RMW store types"
  | .divide bits _ =>
    require ([8, 16, 32].contains bits && args = [.i64, .i64] && results.length = 2 &&
        results[0]? = results[1]? && (results.headD .effect).bits = some bits)
      "divide types"
  | .guestCheck bytes _ =>
    require (0 < bytes && bytes < 4096 && args = [.linearAddress] && results.isEmpty)
      "page preflight types or range"
  | .alignmentCheck bytes =>
    require (bytes = 16 && args = [.linearAddress] && results.isEmpty)
      "alignment check types or size"
  | .linearOffset =>
    require (args = [.linearAddress, .i32] && results = [.linearAddress]) "linear offset types"
  | .guestLoad bytes =>
    require ([1, 2, 4, 8, 16].contains bytes && args = [.linearAddress] && results.length = 1 &&
        memoryWidth (results.headD .effect) = some bytes)
      "load types"
  | .guestStore bytes | .partialStore bytes =>
    require ([1, 2, 4, 8, 16].contains bytes && args.length = 2 && args[0]? = some .linearAddress &&
        (if view.unmaskedWordStore then args[1]? = some .i32
          else memoryWidth (args.tail.headD .effect) = some bytes) &&
        results.isEmpty)
      "store types"
  | .callHelper helper => do
    let helper ← okOr view.helpers[helper]? "unknown helper contract"
    onlyIf (helper.abi = .cpuExit || helper.abi = .cpuRep)
      (requireExit view (if helper.abi = .cpuRep then .repProgress else .beforeInstruction)
        "CPU exit helper must terminate at its pre-instruction state")
    require (args = helper.params && results = helper.results) "helper signature"
    require (!helper.effects.mayFault || helper.exceptionOwner ≠ .cannotFault)
      "helper exception owner"
    onlyIf (helper.effects.mayFault && helper.exceptionOwner = .caller) do
      let map ← view.map
      require (map.resume ≠ .afterInstruction)
        "caller fault cannot resume after faulting instruction"
  | .compareExchange8B _ => do
    require (args = [.linearAddress] && results.isEmpty) "CMPXCHG8B signature"
    requireExit view .beforeInstruction "CMPXCHG8B must terminate at its pre-instruction state"
  | .pollBudget => require (args.isEmpty && results.isEmpty) "poll arity"

end

/-! ## Definitions -/

/-- The position of each listed instruction in its block, and the values defined so far. -/
structure Definitions where
  positions : List (Option Nat)
  defined : List Bool

/-- Define a value where its arena slot says it is defined. -/
def define (r : Region) (definition : Definition) (ok : Ty → Bool)
    (invalid mismatch escape : String) (defined : List Bool) (v : ValueId) :
    Exec (List Bool) := do
  let data ← okOr r.values[v]? invalid
  require (data.definition = definition) mismatch
  require (ok data.ty) escape
  require (!(← idx defined v)) "duplicate value definition"
  setAt defined v true

/-- The definitions of one listed instruction. -/
def defineInst (r : Region) (b : BlockId) (s : Definitions) (at_ : InstId × Nat) :
    Exec Definitions := do
  let (id, p) := at_
  let inst ← okOr r.instructions[id]? "invalid instruction"
  require (inst.block = b) "instruction owner mismatch"
  require ((← idx s.positions id).isNone) "duplicate instruction"
  let positions ← setAt s.positions id (some p)
  let defined ← inst.results.zipIdx.foldlM (fun defined (v, k) =>
    define r (.instruction id k) (fun _ => true) "invalid result" "result definition mismatch" ""
      defined v) s.defined
  pure ⟨positions, defined⟩

/-- The definitions of one block. -/
def defineBlock (r : Region) (cfg : Cfg) (s : Definitions) (at_ : Block × Nat) :
    Exec Definitions := do
  let (block, b) := at_
  require (← idx cfg.reachable b) "unreachable block must be removed"
  let defined ← block.params.zipIdx.foldlM (fun defined (v, i) =>
    define r (.parameter b i) (· ≠ .rmwTicket) "invalid parameter" "parameter definition mismatch"
      "RMW ticket cannot be a block parameter" defined v) s.defined
  block.instructions.zipIdx.foldlM (defineInst r b) { s with defined }

/-- The first loop of `verify`. -/
def definitions (r : Region) (cfg : Cfg) : Exec Definitions :=
  r.blocks.zipIdx.foldlM (defineBlock r cfg)
    ⟨List.replicate r.instructions.length none, List.replicate r.values.length false⟩

/-! ## Uses -/

/-- What the checks of uses consult. -/
structure Context where
  r : Region
  cfg : Cfg
  defs : Definitions

namespace Context

variable (ctx : Context)

/-- The block a value is defined in, and its position there if it is a result. -/
def site (definition : Definition) : Exec (BlockId × Option Nat) :=
  match definition with
  | .parameter owner _ => .ok (owner, none)
  | .instruction id _ => do
    let inst ← okOr ctx.r.instructions[id]? "bad value definition"
    pure (inst.block, ← idx ctx.defs.positions id)

/-- The closure `available` of `verify`: the value may be used before position `p` of block `b`. -/
def available (v : ValueId) (b p : Nat) : Exec Unit := do
  let data ← okOr ctx.r.values[v]? "value outside arena"
  require (← idx ctx.defs.defined v) "use of removed definition"
  let (owner, position) ← ctx.site data.definition
  require (ctx.cfg.dominates b owner) "definition does not dominate use"
  onlyIf (owner = b) (require (position.all (· < p)) "use before definition")

/-- The closure `ty` of `verify`. -/
def ty (v : ValueId) : Exec Ty := okOr ((ctx.r.values[v]?).map (·.ty)) "invalid value"

/-- The closure `state` of `verify`. -/
def state (id : StateId) (b p : Nat) : Exec Unit := do
  let map ← okOr ctx.r.states[id]? "missing state map"
  map.values.foldlM (fun _ v => ctx.available v b p) ()
  checkState ctx.ty map

end Context

/-! ## Instructions -/

/-- A pending RMW ticket: its value, width, order and fault map. -/
abbrev Ticket := ValueId × Nat × RmwOrder × Option StateId

/-- The guest instruction a partial store belongs to. -/
abbrev Identity := Nat × Nat × Nat × Option ValueId

/-- What an instruction passes on to the next one of its block. -/
structure Chain where
  effect : Option ValueId
  rmw : Option Ticket
  pending : Option Identity
  deriving DecidableEq

/-- The stores that commit a guest instruction. -/
def commits : Op → Bool
  | .guestStore _ | .rmwStore .. | .xmmStore .. | .xmmMaskedStore .. => true
  | _ => false

def isRmwStore : Op → Bool
  | .rmwStore .. => true
  | _ => false

def isRmwLoad : Op → Bool
  | .rmwLoad .. => true
  | _ => false

def isPartialStore : Op → Bool
  | .partialStore _ => true
  | _ => false

/-- The operations with a fault trap policy. -/
def mayTrapAfterFault : Op → Bool
  | .guestLoad _ | .partialStore _ => true
  | _ => false

/-- The operations allowed between a partial store and its commit. -/
def continuesPartialStore : Op → Bool
  | .segmentAddress _ | .guestLoad _ | .partialStore _ | .guestStore _ => true
  | _ => false

/-- The checks of an instruction's policies and of its commit map. -/
def checkCommit (ctx : Context) (b p : Nat) (inst : Instruction) : Exec Unit := do
  require (inst.commit.isSome = commits inst.op)
    "store needs explicit commit map; other operations cannot commit"
  require (!inst.trapAfterFault || mayTrapAfterFault inst.op)
    "fault trap policy requires a load or partial store"
  require (!inst.unmaskedWordStore || inst.op = .partialStore 2)
    "unmasked word payload requires partial word store"
  inst.commit.toList.foldlM (fun _ commit => do
    ctx.state commit b p
    let before ← okOr ctx.r.states[← okOr inst.state "store needs before state"]?
      "missing state map"
    let after ← idx ctx.r.states commit
    require (before.countBase = after.countBase) "store changed dynamic count base"
    require (after.resume = .afterInstruction) "store commit must resume after instruction") ()

/-- The guest instruction of a recovery map. -/
def identity (map : StateMap ValueId) : Identity :=
  (map.instructionPc, map.nextPc, map.committedInstructions, map.countBase)

/-- An ordered operation inside a sequence of partial stores: it belongs to the sequence's guest
instruction, and its commit ends the sequence. -/
def checkSequence (op : Op) (map : StateMap ValueId) (commit : Option (StateMap ValueId))
    (pending : Option Identity) : Exec (Option Identity) :=
  match pending with
  | none => .ok none
  | some expected => do
    require (identity map = expected) "partial store crossed guest instruction"
    require (continuesPartialStore op) "effect interrupts partial store sequence"
    match commit with
    | none => pure (some expected)
    | some commit =>
      require (commit.instructionPc = map.instructionPc && commit.nextPc = map.nextPc &&
          commit.countBase = map.countBase &&
          increments map.committedInstructions commit.committedInstructions)
        "partial store commit mismatch"
      pure none

/-- The sequence of partial stores after an instruction. -/
def checkPending (r : Region) (inst : Instruction) (pending : Option Identity) :
    Exec (Option Identity) :=
  if inst.op.ordered then do
    let map ← idx r.states (← unwrap inst.state)
    let pending ← checkSequence inst.op map (inst.commit.bind (r.states[·]?)) pending
    pure (if isPartialStore inst.op then some (identity map) else pending)
  else .ok pending

/-- The effect chain: an ordered operation consumes the current token and gives the next one. The
types left are those without the token. -/
def checkEffect (ctx : Context) (b p : Nat) (inst : Instruction) (chain : Chain)
    (args results : List Ty) : Exec (List Ty × List Ty × Option ValueId) :=
  if inst.op.ordered then do
    require (chain.rmw.isNone || isRmwStore inst.op) "effect invalidates pending RMW ticket"
    require (chain.effect.isSome && inst.args.getLast? = chain.effect) "broken effect chain"
    require (args.getLast? = some .effect && results.getLast? = some .effect)
      "missing effect input/output"
    ctx.state (← okOr inst.state "ordered operation needs state map") b p
    pure (args.dropLast, results.dropLast, inst.results.getLast?)
  else do
    require (!args.contains .effect && !results.contains .effect) "pure operation consumes effect"
    inst.state.toList.foldlM (fun _ map => ctx.state map b p) ()
    pure (args, results, chain.effect)

/-- The pending ticket after an instruction. -/
def checkRmw (inst : Instruction) (rmw : Option Ticket) : Exec (Option Ticket) :=
  match inst.op with
  | .rmwLoad bytes order => do pure (some (← idx inst.results 1, bytes, order, inst.state))
  | .rmwStore bytes order => do
    require (rmw = some (← idx inst.args 0, bytes, order, inst.state))
      "RMW ticket, width, order or fault map mismatch"
    pure none
  | _ => pure rmw

/-- The block exits with the given state. -/
def exitsWith (block : Block) (state : Option StateId) : Bool :=
  match block.terminator with
  | some (.exit id) => some id = state
  | _ => false

/-- What the signature check reads of an instruction. -/
def opView (r : Region) (b p : Nat) (block : Block) (inst : Instruction) (args results : List Ty) :
    OpView ValueId where
  op := inst.op
  args := args
  results := results
  argIds := inst.args
  state := inst.state.bind (r.states[·]?)
  commit := inst.commit.bind (r.states[·]?)
  unmaskedWordStore := inst.unmaskedWordStore
  entry := r.entries.contains b
  exits := p + 1 = block.instructions.length && exitsWith block inst.state
  helpers := r.helpers

/-- The check of one instruction of a block. -/
def checkInst (ctx : Context) (b : BlockId) (block : Block) (chain : Chain) (at_ : InstId × Nat) :
    Exec Chain := do
  let (id, p) := at_
  let inst ← idx ctx.r.instructions id
  checkCommit ctx b p inst
  inst.args.foldlM (fun _ arg => ctx.available arg b p) ()
  let args ← inst.args.mapM ctx.ty
  let results ← inst.results.mapM ctx.ty
  require (!args.contains .rmwTicket || isRmwStore inst.op)
    "RMW ticket escapes to another operation"
  require (!results.contains .rmwTicket || isRmwLoad inst.op) "RMW ticket needs validated read"
  let (args, results, effect) ← checkEffect ctx b p inst chain args results
  let pending ← checkPending ctx.r inst chain.pending
  checkOp (opView ctx.r b p block inst args results)
  let rmw ← checkRmw inst chain.rmw
  pure ⟨effect, rmw, pending⟩

/-! ## Blocks -/

/-- The check of one argument of an edge. -/
def checkEdgeArg (ctx : Context) (b p : Nat) (effect : Option ValueId) (arg param : ValueId) :
    Exec Unit := do
  ctx.available arg b p
  require ((← ctx.ty arg) = (← ctx.ty param)) "edge type"
  onlyIf ((← ctx.ty param) = .effect) (require (some arg = effect) "stale effect on edge")

/-- The check of an edge. -/
def checkEdge (ctx : Context) (b p : Nat) (effect : Option ValueId) (edge : Edge) : Exec Unit := do
  let target ← idx ctx.r.blocks edge.target
  require (target.params.length = edge.args.length) "edge arity"
  (edge.args.zip target.params).foldlM (fun _ (arg, param) =>
    checkEdgeArg ctx b p effect arg param) ()

/-- The check of what a terminator uses besides its edges. -/
def checkExit (ctx : Context) (b p : Nat) : Terminator → Exec Unit
  | .exit id => ctx.state id b p
  | .condBranch condition _ _ => do
    ctx.available condition b p
    require ((← ctx.ty condition) = .i1) "branch condition type"
  | .branch _ => .ok ()

/-- The check of a terminator. -/
def checkTerminator (ctx : Context) (b : BlockId) (block : Block) (effect : Option ValueId) :
    Exec Unit := do
  let p := block.instructions.length
  let term ← unwrap block.terminator
  checkExit ctx b p term
  term.edges.foldlM (fun _ edge => checkEdge ctx b p effect edge) ()

/-- The parameters of a block that are effect tokens. -/
def effects (r : Region) (block : Block) : List ValueId :=
  block.params.filter fun v => (r.values[v]?).map (·.ty) = some .effect

/-- The check of one block. -/
def checkBlock (ctx : Context) (at_ : Block × Nat) : Exec Unit := do
  let (block, b) := at_
  block.entryState.toList.foldlM (fun _ id => ctx.state id b 0) ()
  let roots := effects ctx.r block
  require (roots.length ≤ 1) "multiple effect roots"
  let chain ← block.instructions.zipIdx.foldlM (checkInst ctx b block) ⟨roots.head?, none, none⟩
  require chain.rmw.isNone "uncommitted RMW ticket"
  require chain.pending.isNone "uncommitted partial store sequence"
  checkTerminator ctx b block chain.effect

end Verify

/-- `verify::verify`. -/
def verify (r : Region) : Exec Unit := do
  let cfg ← Cfg.compute r
  let defs ← Verify.definitions r cfg
  r.helpers.foldlM (fun _ helper => helper.validate) ()
  r.blocks.zipIdx.foldlM (fun _ at_ => Verify.checkBlock ⟨r, cfg, defs⟩ at_) ()

end V86.Ir
