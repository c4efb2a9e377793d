import Mathlib.Data.List.Sort
import V86.Ir.Passes.Rewrite

/-!
# Vector identities

`passes/simd.rs`: identities of packed integer operations, of lanes that are written back and of
nested byte shuffles. The pass works on a draft of the region, whose operands it resolves through
the aliases found so far, and replaces the region only when the verifier accepts the draft.
-/

namespace V86.Ir.Simd

open Exec

/-- `simd::Stats`. -/
structure Stats where
  eliminated : Nat
  shuffled : Nat
  deriving DecidableEq

/-- The message of `Work::spend`. -/
def exceeded : String := "SIMD simplification work budget exceeded"

/-- `simd::pure`: one result, and nothing but the result. -/
def plain (i : Instruction) : Bool :=
  i.results.length = 1 && i.state.isNone && i.commit.isNone && !i.trapAfterFault &&
    !i.unmaskedWordStore

/-- One turn of `resolve`. -/
def follow (aliases : List ValueId) (s : ValueId × Nat) :
    Exec ((ValueId × Nat) ⊕ (ValueId × Nat)) := do
  let work ← spend exceeded s.2 1
  let next ← idx aliases s.1
  pure (if next = s.1 then .inr (s.1, work) else .inl (next, work))

/-- `simd::resolve`: follow the aliases of a value, at the cost of one unit a step. -/
def resolve (v : ValueId) (aliases : List ValueId) (work : Nat) : Exec (ValueId × Nat) :=
  loop (follow aliases) (work + 1) (v, work)

/-- The operations that give zero for equal operands. -/
def cancels : Op → Bool
  | .vectorBinary op => op ∈ [.xor, .andNot, .sub8, .sub16, .sub32, .sub64]
  | _ => false

/-- `simd::zero`: the value is a vector of zeros. -/
def zero (r : Region) (v : ValueId) : Exec Bool := do
  match ← r.definition v with
  | none => pure false
  | some i =>
    if plain i && i.args.length = 2 then do
      pure ((← idx i.args 0) = (← idx i.args 1) && cancels i.op)
    else pure false

/-- The operations that give an operand for equal operands. -/
def idempotent (op : PackedOp) : Bool :=
  op ∈ [.and, .or, .minU8, .maxU8, .minS16, .maxS16, .avgU8, .avgU16]

/-- The operations that give their left operand when the right one is zero. -/
def rightNeutral (op : PackedOp) : Bool :=
  op ∈ [.or, .xor, .add8, .add16, .add32, .add64, .sub8, .sub16, .sub32, .sub64]

/-- The operations that give their right operand when the left one is zero. -/
def leftNeutral (op : PackedOp) : Bool :=
  op ∈ [.or, .xor, .add8, .add16, .add32, .add64]

/-- The identities of a packed operation. -/
def identityBinary (r : Region) (op : PackedOp) (a b : ValueId) : Exec (Option ValueId) := do
  if a = b && idempotent op then pure (some a)
  else do
    let zb ← zero r b
    if zb && rightNeutral op then pure (some a)
    else do
      let za ← zero r a
      if za && leftNeutral op then pure (some b)
      -- `PANDN` is `~a & b`
      else if op = .andNot && (za || zb) then pure (some b)
      else if op = .and && za then pure (some a)
      else if op = .and && zb then pure (some b)
      else pure none

/-- `simd::identity`. -/
def identity (r : Region) (i : Instruction) : Exec (Option ValueId) := do
  match i.op with
  | .vectorBinary op => do identityBinary r op (← idx i.args 0) (← idx i.args 1)
  | .vectorReplace bits lane => do
    match ← r.definition (← idx i.args 1) with
    | none => pure none
    | some scalar =>
      if plain scalar && scalar.op = .vectorExtract bits lane then do
        let base ← idx i.args 0
        pure (if (← idx scalar.args 0) = base then some base else none)
      else pure none
  | .vectorExtract bits lane =>
    if bits = 32 || bits = 64 then do
      match ← r.definition (← idx i.args 0) with
      | none => pure none
      | some vector =>
        if plain vector && vector.op = .vectorReplace bits lane then do
          pure (some (← idx vector.args 1))
        else pure none
    else pure none
  | _ => pure none

/-- The source of a byte: through one more shuffle, if the byte comes from one. -/
def leaf (r : Region) (source : ValueId) (offset : Nat) : Exec (ValueId × Nat) := do
  match ← r.definition source with
  | none => pure (source, offset)
  | some inner =>
    if plain inner then
      match inner.op with
      | .vectorShuffle lanes => do
        let selected ← idx lanes.toList offset
        pure (← idx inner.args (selected / 16), selected % 16)
      | _ => pure (source, offset)
    else pure (source, offset)

/-- The loop of `simd::shuffle`: the leaves and the bytes of the mask so far. -/
def shuffleFrom (r : Region) (i : Instruction) :
    List Nat → List ValueId → List Nat → Exec (Option (List ValueId × List Nat))
  | [], leaves, output => pure (some (leaves, output))
  | byte :: mask, leaves, output => do
    let (source, offset) ← leaf r (← idx i.args (byte / 16)) (byte % 16)
    let leaves := if source ∈ leaves then leaves else leaves ++ [source]
    let position := leaves.idxOf source
    if position > 1 then pure none
    else shuffleFrom r i mask leaves (output ++ [position * 16 + offset])

/-- `simd::shuffle`. -/
def shuffle (r : Region) (i : Instruction) (mask : Vector Nat 16) :
    Exec (Option (List ValueId × Vector Nat 16)) := do
  match ← shuffleFrom r i mask.toList [] [] with
  | none => pure none
  | some (leaves, output) => do
    let args ← if leaves.length = 1 then do pure (leaves ++ [← idx leaves 0]) else pure leaves
    pure (some (args, Vector.ofFn fun n => output.getD n 0))

/-- The state of the visit. -/
structure State where
  instructions : List Instruction
  work : Nat
  aliases : List ValueId
  removed : List Bool
  stats : Stats

/-- Resolve the operands of an instruction. -/
def resolveArgs (aliases : List ValueId) : List ValueId → Nat → Exec (List ValueId × Nat)
  | [], work => pure ([], work)
  | a :: args, work => do
    let (a, work) ← resolve a aliases work
    let (args, work) ← resolveArgs aliases args work
    pure (a :: args, work)

/-- Compose a shuffle with those it reads: a value that replaces it, if any. -/
def compose (r : Region) (id : InstId) (inst : Instruction) (mask : Vector Nat 16) (s : State) :
    Exec (Option ValueId × State) := do
  let work ← spend exceeded s.work 16
  let s := { s with work }
  match ← shuffle { r with instructions := s.instructions } inst mask with
  | none => pure (none, s)
  | some (args, next) =>
    if next.toList.zipIdx.all fun p => p.1 = p.2 then do pure (some (← idx args 0), s)
    else if args ≠ inst.args ∨ next ≠ mask then do
      let instructions ← setAt s.instructions id { inst with args, op := .vectorShuffle next }
      pure (none, { s with
        instructions, stats := { s.stats with shuffled := s.stats.shuffled + 1 } })
    else pure (none, s)

/-- What replaces an instruction. -/
def replacement (r : Region) (id : InstId) (inst : Instruction) (s : State) :
    Exec (Option ValueId × State) := do
  let value ← identity { r with instructions := s.instructions } inst
  match inst.op with
  | .vectorShuffle mask => compose r id inst mask s
  | _ => pure (value, s)

/-- Alias the result of an instruction and remove the instruction. -/
def eliminate (id : InstId) (inst : Instruction) (value : ValueId) (s : State) : Exec State := do
  let (value, work) ← resolve value s.aliases s.work
  let aliases ← setAt s.aliases (← idx inst.results 0) value
  let removed ← setAt s.removed id true
  pure { s with
    work, aliases, removed, stats := { s.stats with eliminated := s.stats.eliminated + 1 } }

/-- Visit one instruction. -/
def visit (r : Region) (_ : BlockId) (s : State) (id : InstId) : Exec State := do
  let work ← spend exceeded s.work 1
  let inst ← idx s.instructions id
  let (args, work) ← resolveArgs s.aliases inst.args work
  let inst := { inst with args }
  let instructions ← setAt s.instructions id inst
  let s := { s with instructions, work }
  if !plain inst then pure s
  else do
    let (value, s) ← replacement r id inst s
    match value with
    | none => pure s
    | some value => eliminate id inst value s

/-- Is there anything for the pass to look at? -/
def vector (r : Region) : Exec Bool :=
  (r.blocks.flatMap (·.instructions)).foldlM (fun found id => do
    if found then pure true
    else pure (match (← idx r.instructions id).op with
      | .vectorBinary _ | .vectorShuffle _ | .vectorReplace .. | .vectorExtract .. => true
      | _ => false)) false

/-- The blocks by their number of dominators, then by their index. -/
def order (r : Region) (cfg : Cfg) : List BlockId :=
  (List.range r.blocks.length).insertionSort fun a b =>
    cfg.dominatorCount a < cfg.dominatorCount b ∨
      cfg.dominatorCount a = cfg.dominatorCount b ∧ a ≤ b

/-- Replace every alias by the end of its chain. -/
def compress (aliases : List ValueId) (work : Nat) : Exec (List ValueId × Nat) :=
  (List.range aliases.length).foldlM (fun (aliases, work) n => do
    let (v, work) ← resolve (← idx aliases n) aliases work
    pure (← setAt aliases n v, work)) (aliases, work)

/-- Pay for the references that the rewrite visits. -/
def reserve (r : Region) (work : Nat) : Exec Nat := do
  let work ← r.instructions.foldlM (fun work i => spend exceeded work i.args.length) work
  let work ← r.states.foldlM (fun work map => spend exceeded work map.values.length) work
  r.blocks.foldlM (fun work block => do
    let work ← spend exceeded work (1 + block.instructions.length)
    (← unwrap block.terminator).edges.foldlM (fun work edge =>
      spend exceeded work edge.args.length) work) work

/-- The draft after the visit; nothing where nothing was found. -/
def draft (r : Region) (s : State) : Exec (Option Region) := do
  if s.stats.eliminated = 0 && s.stats.shuffled = 0 then pure none
  else do
    let (aliases, work) ← compress s.aliases s.work
    let d := { r with instructions := s.instructions }
    let _ ← reserve d work
    let d ← d.rewriteValues (idx aliases)
    let d := d.retain fun id => !s.removed.getD id false
    verify d
    pure (some d)

/-- `simd::run` up to the assignment of the draft. -/
def attempt (audit : Bool) (r : Region) (limit : Nat) : Exec (Option Region × Stats) := do
  require (r.blocks.length ≤ maxBlocks && r.instructions.length ≤ maxInstructions &&
    r.values.length ≤ maxValues && r.states.length ≤ maxStates)
    "SIMD simplification region budget exceeded"
  let work ← spend exceeded limit
    (r.instructions.length + r.values.length + r.states.length + 1)
  onlyIf audit (verify r)
  if !(← vector r) then pure (none, ⟨0, 0⟩)
  else do
    let cfg ← Cfg.compute r
    let s ← (order r cfg).foldlM (fun s b => do
        (← idx r.blocks b).instructions.foldlM (visit r b) s)
      ⟨r.instructions, work, List.range r.values.length,
        List.replicate r.instructions.length false, ⟨0, 0⟩⟩
    pure (← draft r s, s.stats)

/-- `simd::run`: the region afterwards, and the outcome. -/
def run (audit : Bool) (r : Region) (limit : Nat) : Region × Exec Stats :=
  match attempt audit r limit with
  | .ok (d, stats) => (d.getD r, .ok stats)
  | .error e => (r, .error e)

end V86.Ir.Simd
