import V86.Ir.Passes.Rewrite
import V86.Lib.Kahn

/-!
# Scalar identities

`passes/scalar.rs`: pure integer instructions whose value is that of an operand, or a constant, are
found in dependency order, and the rewrite follows only when nothing can fail any more.
-/

namespace V86.Ir.Scalar

open Exec

/-- `scalar::Mode`. -/
inductive Mode
  | copies | constants | all
  deriving DecidableEq

/-- `Mode::aliases`. -/
def Mode.aliases : Mode → Bool
  | .copies | .all => true
  | .constants => false

/-- `Mode::constants`; the constructor has that name here. -/
def Mode.literals : Mode → Bool
  | .constants | .all => true
  | .copies => false

/-- `scalar::Stats`. -/
structure Stats where
  aliases : Nat
  constants : Nat
  deriving DecidableEq

/-- The message of `Work::spend`. -/
def exceeded : String := "scalar simplification work budget exceeded"

/-- `scalar::Rewrite`. -/
inductive Rewrite
  | value (v : ValueId)
  | constant (n : BitVec 64)
  deriving DecidableEq

/-- The operations of a candidate. -/
def scalarOp : Op → Bool
  | .const _ | .binary _ | .select | .extend _ | .truncate | .extract _ | .insert _ => true
  | _ => false

/-- `scalar::candidate`. -/
def candidate (r : Region) (i : Instruction) : Exec Bool :=
  if i.results.length ≠ 1 then .ok false
  else do
    let data ← idx r.values (← idx i.results 0)
    pure (data.ty.bits.isSome && i.state.isNone && i.commit.isNone && !i.trapAfterFault &&
      !i.unmaskedWordStore && scalarOp i.op)

/-- The largest number of `bits` bits. -/
def mask (bits : Nat) : BitVec 64 :=
  if bits = 64 then BitVec.allOnes 64 else (1#64 <<< bits) - 1

/-- The identities of a binary operation on one operand twice. -/
def sameIdentity (op : Binary) (a : ValueId) : Option Rewrite :=
  match op with
  | .and | .or => some (.value a)
  | .sub | .xor | .ult | .slt => some (.constant 0)
  | .eq => some (.constant 1)
  | _ => none

/-- The identities of a binary operation with a literal operand. -/
def literalIdentity (op : Binary) (bits : Nat) (a b : ValueId) (ca cb : Option (BitVec 64)) :
    Option Rewrite :=
  match op with
  | .add | .or | .xor =>
    if cb = some 0 then some (.value a)
    else if ca = some 0 then some (.value b)
    else if op = .or && (ca = some (mask bits) || cb = some (mask bits)) then
      some (.constant (mask bits))
    else none
  | .sub => if cb = some 0 then some (.value a) else none
  | .mul =>
    if ca = some 0 || cb = some 0 then some (.constant 0)
    else if cb = some 1 then some (.value a)
    else if ca = some 1 then some (.value b)
    else none
  | .and =>
    if ca = some 0 || cb = some 0 then some (.constant 0)
    else if cb = some (mask bits) then some (.value a)
    else if ca = some (mask bits) then some (.value b)
    else none
  -- a shift count is taken modulo 32 or 64, not modulo the operand's width
  | .shl | .shr | .sar =>
    if cb.any fun n => n &&& (if bits = 64 then 63 else 31) = 0 then some (.value a) else none
  | _ => none

/-- `scalar::extract_insert`: extract what was inserted at the same place. -/
def extractInsert (r : Region) (base : ValueId) (lsb : Nat) (ty : Ty) (aliases : List ValueId) :
    Exec (Option Rewrite) := do
  match ← r.definition base with
  | none => pure none
  | some inner =>
    if (← candidate r inner) && inner.op = .insert lsb then do
      let part ← idx aliases (← idx inner.args 1)
      pure (if (← idx r.values part).ty = ty then some (.value part) else none)
    else pure none

def isExtend : Op → Bool
  | .extend _ => true
  | _ => false

/-- The operand of an extension, if it has the type. -/
def extendSource (r : Region) (inner : Instruction) (ty : Ty) (aliases : List ValueId) :
    Exec (Option Rewrite) := do
  if (← candidate r inner) && isExtend inner.op then do
    let source ← idx aliases (← idx inner.args 0)
    pure (if (← idx r.values source).ty = ty then some (.value source) else none)
  else pure none

/-- `scalar::identity`. -/
def identity (r : Region) (i : Instruction) (aliases : List ValueId)
    (constants : List (Option (BitVec 64))) : Exec (Option Rewrite) := do
  let arg (n : Nat) : Exec ValueId := do idx aliases (← idx i.args n)
  let ty := (← idx r.values (← idx i.results 0)).ty
  match i.op with
  | .binary op => do
    let a ← arg 0
    let b ← arg 1
    let ca ← idx constants a
    let cb ← idx constants b
    match (← idx r.values a).ty.bits with
    | none => pure none
    | some bits =>
      pure ((if a = b then sameIdentity op a else none) <|> literalIdentity op bits a b ca cb)
  | .select => do
    let yes ← arg 1
    let no ← arg 2
    if yes = no then pure (some (.value yes))
    else do
      let condition ← idx constants (← arg 0)
      pure (condition.map fun c => .value (if c ≠ 0 then yes else no))
  | .truncate => do
    match ← r.definition (← arg 0) with
    | none => pure none
    | some inner => extendSource r inner ty aliases
  | .extract lsb => do
    let base ← arg 0
    if lsb = 0 then
      match ← r.definition base with
      | none => pure none
      | some inner => do
        match ← extendSource r inner ty aliases with
        | some rewrite => pure (some rewrite)
        | none => extractInsert r base lsb ty aliases
    else extractInsert r base lsb ty aliases
  | .insert lsb => do
    let base ← arg 0
    match ← r.definition (← arg 1) with
    | none => pure none
    | some part =>
      if (← candidate r part) && part.op = .extract lsb then do
        let source ← idx aliases (← idx part.args 0)
        pure (if source = base then some (.value base) else none)
      else pure none
  | _ => pure none

/-! ## The plan -/

/-- The candidates among the listed instructions. -/
def markActive (r : Region) (work : Nat) : Exec (Nat × List Bool) :=
  r.blocks.foldlM (fun (work, active) block => do
    let work ← spend exceeded work block.instructions.length
    let active ← block.instructions.foldlM (fun active id => do
      setAt active id (← candidate r (← idx r.instructions id))) active
    pure (work, active)) (work, List.replicate r.instructions.length false)

/-- The dependencies of the candidates: who uses whom, how many candidates each one waits for, and
those that wait for none. -/
structure Graph where
  work : Nat
  constants : List (Option (BitVec 64))
  users : List (List InstId)
  pending : List Nat
  ready : List InstId
  expected : Nat

/-- Record the use of an operand. -/
def scanArg (r : Region) (active : List Bool) (n : InstId) (s : List (List InstId) × List Nat)
    (arg : ValueId) : Exec (List (List InstId) × List Nat) := do
  match (← idx r.values arg).definition with
  | .instruction producer _ =>
    if ← idx active producer then do
      let users ← setAt s.1 producer ((← idx s.1 producer) ++ [n])
      let pending ← setAt s.2 n ((← idx s.2 n) + 1)
      pure (users, pending)
    else pure s
  | .parameter .. => pure s

/-- Record the value of a literal. -/
def scanLiteral (i : Instruction) (constants : List (Option (BitVec 64))) :
    Exec (List (Option (BitVec 64))) :=
  match i.op with
  | .const value => do setAt constants (← idx i.results 0) (some value)
  | _ => pure constants

/-- Record the uses of one instruction. -/
def scanInst (r : Region) (active : List Bool) (g : Graph) (at_ : Instruction × InstId) :
    Exec Graph := do
  let (i, n) := at_
  let work ← spend exceeded g.work 1
  let work ← spend exceeded work i.args.length
  if !(← idx active n) then pure { g with work }
  else do
    let constants ← scanLiteral i g.constants
    let (users, pending) ← i.args.foldlM (scanArg r active n) (g.users, g.pending)
    let ready := if (← idx pending n) = 0 then n :: g.ready else g.ready
    pure ⟨work, constants, users, pending, ready, g.expected + 1⟩

/-- The dependencies of all candidates. -/
def scan (r : Region) (active : List Bool) (work : Nat) : Exec Graph :=
  r.instructions.zipIdx.foldlM (scanInst r active)
    ⟨work, List.replicate r.values.length none, List.replicate r.instructions.length [],
      List.replicate r.instructions.length 0, [], 0⟩

/-- Reserve the work of the rewrite. -/
def reserve (r : Region) (work : Nat) : Exec Nat := do
  let work ← r.states.foldlM (fun work map => spend exceeded work map.values.length) work
  r.blocks.foldlM (fun work block => do
    let work ← spend exceeded work 1
    (← unwrap block.terminator).edges.foldlM (fun work edge =>
      spend exceeded work edge.args.length) work) work

/-- The state of the visit of the candidates. -/
structure Plan where
  work : Nat
  ready : List InstId
  pending : List Nat
  aliases : List ValueId
  constants : List (Option (BitVec 64))
  edits : List (InstId × BitVec 64)
  visited : Nat
  stats : Stats

/-- Enter a rewrite into the tables. -/
def enter (r : Region) (mode : Mode) (n : InstId) (result : ValueId) (s : Plan) :
    Option Rewrite → Exec Plan
  | some (.value v) =>
    if mode.aliases then do
      require ((← idx r.values result).ty = (← idx r.values v).ty)
        "scalar simplification type mismatch"
      let aliases ← setAt s.aliases result v
      pure { s with aliases, stats := { s.stats with aliases := s.stats.aliases + 1 } }
    else pure s
  | some (.constant c) =>
    if mode.literals then do
      let constants ← setAt s.constants result (some c)
      pure { s with
        constants
        edits := s.edits ++ [(n, c)]
        stats := { s.stats with constants := s.stats.constants + 1 } }
    else pure s
  | none => pure s

/-- One turn of the visit. -/
def turn (r : Region) (mode : Mode) (users : List (List InstId)) (s : Plan) : Exec (Plan ⊕ Plan) :=
  match s.ready with
  | [] => .ok (.inr s)
  | n :: ready => do
    let work ← spend exceeded s.work 1
    let i ← idx r.instructions n
    let result ← idx i.results 0
    let rewrite ← identity r i s.aliases s.constants
    let s ← enter r mode n result { s with work, ready, visited := s.visited + 1 } rewrite
    let us ← idx users n
    let work ← spend exceeded s.work us.length
    let (pending, ready) ← Kahn.release us (s.pending, s.ready)
    pure (.inl { s with work, pending, ready })

/-- The fallible part of `run_mode`. -/
def plan (audit : Bool) (r : Region) (limit : Nat) (mode : Mode) : Exec Plan := do
  let work ← spend exceeded limit r.values.length
  let work ← spend exceeded work r.instructions.length
  let work ← spend exceeded work r.blocks.length
  let work ← spend exceeded work r.states.length
  onlyIf audit (verify r)
  let (work, active) ← markActive r work
  let g ← scan r active work
  let work ← reserve r g.work
  let s ← loop (turn r mode g.users) (r.instructions.length + 1)
    ⟨work, g.ready, g.pending, List.range r.values.length, g.constants, [], 0, ⟨0, 0⟩⟩
  require (s.visited = g.expected) "cycle in scalar SSA dependencies"
  pure s

/-- Turn planned instructions into constants. -/
def applyEdits (edits : List (InstId × BitVec 64)) (instructions : List Instruction) :
    Exec (List Instruction) :=
  edits.foldlM (fun instructions (n, value) => do
    let i ← idx instructions n
    setAt instructions n { i with op := .const value, args := [] }) instructions

/-- The part of `run_mode` that changes the region. -/
def commit (r : Region) (s : Plan) : Exec Region := do
  let instructions ← applyEdits s.edits r.instructions
  { r with instructions }.rewriteValues fun v => .ok (s.aliases.getD v v)

/-- `scalar::run_mode`: the region afterwards, and the outcome. -/
def runMode (audit : Bool) (r : Region) (limit : Nat) (mode : Mode) : Region × Exec Stats :=
  match plan audit r limit mode with
  | .error e => (r, .error e)
  | .ok s =>
    match commit r s with
    | .error e => (r, .error e)
    | .ok r' => (r', .ok s.stats)

end V86.Ir.Scalar
