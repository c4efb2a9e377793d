import V86.Ir.Passes.Rewrite

/-!
# Trivial block parameters

`trivial_phis` of `passes/mod.rs`: a parameter is trivial when every argument for it, other than
itself, resolves to one value. The aliases are collected to a fixed point, then all operands are
rewritten and the parameters and their arguments dropped.
-/

namespace V86.Ir.TrivialPhis

open Exec

/-- `incoming`: the edges into each block, as the source and the number of the edge. -/
def incoming (r : Region) : Exec (List (List (BlockId × Nat))) :=
  r.blocks.zipIdx.foldlM (fun table (block, a) => do
    (← unwrap block.terminator).edges.zipIdx.foldlM (fun table (edge, k) => do
      setAt table edge.target ((← idx table edge.target) ++ [(a, k)])) table)
    (List.replicate r.blocks.length [])

/-- `arg`: the argument of an edge for a parameter. -/
def arg (r : Region) (edge : BlockId × Nat) (p : Nat) : Exec ValueId := do
  match ← unwrap (← idx r.blocks edge.1).terminator with
  | .branch e => idx e.args p
  | .condBranch _ taken notTaken => if edge.2 = 0 then idx taken.args p else idx notTaken.args p
  | .exit _ => .error .panic

/-- One turn of `resolve`. -/
def follow (aliases : List (Option ValueId)) (v : ValueId) : Exec (ValueId ⊕ ValueId) := do
  match ← idx aliases v with
  | some next => pure (.inl next)
  | none => pure (.inr v)

/-- `resolve`: follow the aliases of a value to their end. -/
def resolve (aliases : List (Option ValueId)) (v : ValueId) : Exec ValueId :=
  loop (follow aliases) (aliases.length + 1) v

/-- The state of the search for trivial parameters. -/
structure State where
  aliases : List (Option ValueId)
  removed : List (List Bool)
  count : Nat
  changed : Bool

/-- The one value that the arguments other than the parameter resolve to, if there is one. -/
def candidate (r : Region) (aliases : List (Option ValueId)) (param : ValueId) (p : Nat) :
    Option ValueId → List (BlockId × Nat) → Exec (Option ValueId)
  | found, [] => pure found
  | found, edge :: rest => do
    let value ← resolve aliases (← arg r edge p)
    if value = param then candidate r aliases param p found rest
    else if found.isSome ∧ found ≠ some value then pure none
    else candidate r aliases param p (some value) rest

/-- Visit one parameter. -/
def visitParam (r : Region) (table : List (List (BlockId × Nat))) (b : BlockId) (s : State)
    (p : Nat) : Exec State := do
  if ← idx (← idx s.removed b) p then pure s
  else do
    let param ← idx (← idx r.blocks b).params p
    -- effect parameters remain the roots of their chains
    if (← idx r.values param).ty = .effect then pure s
    else do
      match ← candidate r s.aliases param p none (← idx table b) with
      | none => pure s
      | some value => do
        let aliases ← setAt s.aliases param (some value)
        let removed ← setAt s.removed b (← setAt (← idx s.removed b) p true)
        pure ⟨aliases, removed, s.count + 1, true⟩

/-- Visit the parameters of one block. -/
def visitBlock (r : Region) (table : List (List (BlockId × Nat))) (s : State) (b : BlockId) :
    Exec State :=
  if b ∈ r.entries then pure s
  else do (List.range (← idx r.blocks b).params.length).foldlM (visitParam r table b) s

/-- Visit all blocks; go on while an alias is found. -/
def sweep (r : Region) (table : List (List (BlockId × Nat))) (s : State) :
    Exec (State ⊕ State) := do
  let s ← (List.range r.blocks.length).foldlM (visitBlock r table) { s with changed := false }
  pure (if s.changed then .inl s else .inr s)

/-- Collect the aliases. -/
def find (r : Region) : Exec State := do
  let table ← incoming r
  loop (sweep r table) (r.values.length + 1)
    ⟨List.replicate r.values.length none,
      r.blocks.map fun block => List.replicate block.params.length false, 0, false⟩

/-- `Vec::retain` with the flags of the elements to drop; a panic where the flags run out. -/
def retain {α : Type} : List Bool → List α → Exec (List α)
  | _, [] => pure []
  | [], _ :: _ => .error .panic
  | d :: drop, a :: l => do
    let kept ← retain drop l
    pure (if d then kept else a :: kept)

/-- Drop the arguments of an edge for removed parameters. -/
def dropArgs (removed : List (List Bool)) (edge : Edge) : Exec Edge := do
  let drop ← idx removed edge.target
  if drop.any id then do pure { edge with args := ← retain drop edge.args } else pure edge

def dropTerm (removed : List (List Bool)) : Terminator → Exec Terminator
  | .branch edge => do pure (.branch (← dropArgs removed edge))
  | .condBranch c taken notTaken => do
    pure (.condBranch c (← dropArgs removed taken) (← dropArgs removed notTaken))
  | .exit s => pure (.exit s)

/-- The block with the arguments of its edges dropped. -/
def dropBlock (removed : List (List Bool)) (block : Block) : Exec Block :=
  match block.terminator with
  | some term => do pure { block with terminator := some (← dropTerm removed term) }
  | none => pure block

/-- Number the parameters of a block in the arena of values. -/
def renumber (b : BlockId) (params : List ValueId) (values : List Value) : Exec (List Value) :=
  params.zipIdx.foldlM (fun values (v, i) => do
    let data ← idx values v
    setAt values v { data with definition := .parameter b i }) values

/-- Drop the removed parameters of a block. -/
def dropParams (removed : List (List Bool)) (r : Region) (b : BlockId) : Exec Region := do
  let drop ← idx removed b
  if !drop.any id then pure r
  else do
    let block ← idx r.blocks b
    let params ← retain drop block.params
    let blocks ← setAt r.blocks b { block with params }
    let values ← renumber b params r.values
    pure { r with blocks, values }

/-- `trivial_phis`. -/
def run (r : Region) (stats : PassStats) : Exec (Region × PassStats) := do
  let s ← find r
  if s.count = 0 then pure (r, stats)
  else do
    let r ← r.rewriteValues (resolve s.aliases)
    let blocks ← r.blocks.mapM (dropBlock s.removed)
    let r ← (List.range blocks.length).foldlM (dropParams s.removed) { r with blocks }
    pure (r, { stats with phis := stats.phis + s.count })

end V86.Ir.TrivialPhis
