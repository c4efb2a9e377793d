import V86.Ir.Hir
import V86.Lib.Words

/-!
# Control-flow analysis

`analysis::cfg::Cfg`: predecessors and reachability of the blocks, and the dominator sets as rows
of 64-bit words, refined in reverse postorder until nothing changes. A Rust vector that is used as
a stack is a list here, its top first. The loops have no bound in the source; each takes as fuel
a number of turns it cannot exceed (`Cfg.compute` never times out, see `V86.Ir.CfgCorrect`).
-/

namespace V86.Ir

open Exec

/-- The targets of a block's terminator. -/
def Block.succs (blk : Block) : List BlockId :=
  (blk.terminator.map fun t => t.edges.map (·.target)).getD []

/-- The successors of a block of the region. -/
def Region.succs (r : Region) (b : BlockId) : List BlockId :=
  ((r.blocks[b]?).map (·.succs)).getD []

/-- `cfg::Cfg`. -/
structure Cfg where
  predecessors : List (List BlockId)
  reachable : List Bool
  dominators : List Words

namespace Cfg

/-- `Cfg::dominates`: whether block `a`'s dominator set contains `b`. -/
def dominates (cfg : Cfg) (a b : BlockId) : Bool := (cfg.dominators.getD a []).contains b

/-- `Cfg::dominator_count`. -/
def dominatorCount (cfg : Cfg) (b : BlockId) : Nat :=
  ((cfg.dominators.getD b []).map fun w => w.cpop.toNat).sum

/-- The first loop of `Cfg::reachability`: every block is terminated and every target exists. -/
def collectPredecessors (r : Region) : Exec (List (List BlockId)) :=
  r.blocks.zipIdx.foldlM (fun preds (block, i) => do
    let term ← okOr block.terminator "unterminated block"
    term.edges.foldlM (fun preds edge => do
      let pred ← okOr preds[edge.target]? "invalid edge target"
      pure (preds.set edge.target (pred ++ [i]))) preds)
    (List.replicate r.blocks.length [])

/-- One turn of the search of `Cfg::reachability`. -/
def reachTurn (r : Region) (s : List BlockId × List Bool) :
    Exec ((List BlockId × List Bool) ⊕ List Bool) :=
  match s with
  | ([], reachable) => .ok (.inr reachable)
  | (b :: queue, reachable) => do
    let seen ← okOr reachable[b]? "invalid entry"
    if seen then pure (.inl (queue, reachable))
    else pure (.inl ((r.succs b).reverse ++ queue, reachable.set b true))

/-- `Cfg::reachability`: predecessors and reachability only. -/
def reachability (r : Region) : Exec (List (List BlockId) × List Bool) := do
  let predecessors ← collectPredecessors r
  require (!r.entries.isEmpty) "region has no entry"
  let reachable ← loop (reachTurn r) (r.entries.length + 3 * r.blocks.length + 1)
    (r.entries.reverse, List.replicate r.blocks.length false)
  pure (predecessors, reachable)

/-- The state of the depth-first search: the stack of blocks with the next successor to visit,
the visited blocks and the postorder so far. -/
structure Dfs where
  stack : List (BlockId × Nat)
  state : List Nat
  post : List BlockId

/-- One turn of the depth-first search of `reverse_postorder`. -/
def dfsTurn (r : Region) (s : Dfs) : Exec (Dfs ⊕ Dfs) :=
  match s.stack with
  | [] => .ok (.inr s)
  | (b, next) :: rest =>
    match (r.succs b)[next]? with
    | some t =>
      if s.state.getD t 1 = 0 then
        .ok (.inl ⟨(t, 0) :: (b, next + 1) :: rest, s.state.set t 1, s.post⟩)
      else .ok (.inl ⟨(b, next + 1) :: rest, s.state, s.post⟩)
    | none => .ok (.inl ⟨rest, s.state.set b 2, s.post ++ [b]⟩)

/-- The search from one entry. -/
def dfsEntry (r : Region) (s : Dfs) (entry : BlockId) : Exec Dfs :=
  if s.state.getD entry 1 ≠ 0 then .ok s
  else loop (dfsTurn r) (4 * r.blocks.length + 4) ⟨[(entry, 0)], s.state.set entry 1, s.post⟩

/-- `cfg::reverse_postorder`. -/
def reversePostorder (r : Region) (reachable : List Bool) : Exec (List BlockId) := do
  let s ← r.entries.foldlM (dfsEntry r) ⟨[], List.replicate r.blocks.length 0, []⟩
  pure (s.post.reverse.filter fun b => reachable.getD b false)

/-- The number of words of a row. -/
def words (r : Region) : Nat := max (Words.count r.blocks.length) 1

/-- The row a block gets from the rows of its reachable predecessors. -/
def refineRow (r : Region) (predecessors : List (List BlockId)) (reachable : List Bool)
    (doms : List Words) (i : BlockId) : Words :=
  let next := ((predecessors.getD i []).filter fun p => reachable.getD p false).foldl
    (fun next p => Words.inter next (doms.getD p [])) (List.replicate (words r) (BitVec.allOnes 64))
  (Words.cut r.blocks.length next).insert i

/-- One round over the blocks in order; the flag tells whether a row changed. -/
def refineRound (r : Region) (predecessors : List (List BlockId)) (reachable entry : List Bool)
    (order : List BlockId) (doms : List Words) : List Words × Bool :=
  order.foldl (fun s i =>
    if entry.getD i false then s
    else
      let next := refineRow r predecessors reachable s.1 i
      if next = s.1.getD i [] then s else (s.1.set i next, true)) (doms, false)

/-- The rows before the first round: entries and unreachable blocks dominate only themselves,
every other block starts at the full set. -/
def initialRows (r : Region) (reachable entry : List Bool) : List Words :=
  (List.range r.blocks.length).map fun i =>
    if !reachable.getD i false || entry.getD i false then
      Words.insert (List.replicate (words r) 0#64) i
    else Words.cut r.blocks.length (List.replicate (words r) (BitVec.allOnes 64))

/-- `Cfg::compute`. -/
def compute (r : Region) : Exec Cfg := do
  let (predecessors, reachable) ← reachability r
  let entry ← r.entries.foldlM (fun entry e => setAt entry e true)
    (List.replicate r.blocks.length false)
  let order ← reversePostorder r reachable
  let dominators ← loop (fun doms =>
      let (doms, changed) := refineRound r predecessors reachable entry order doms
      .ok (if changed then .inl doms else .inr doms))
    (r.blocks.length * r.blocks.length + 1) (initialRows r reachable entry)
  pure ⟨predecessors, reachable, dominators⟩

end Cfg

end V86.Ir
