import Mathlib.Data.Finset.Prod
import V86.Ir.Cfg
import V86.Lib.Dominance

/-!
# The control-flow analysis is exact

`Cfg.compute` returns exactly for the regions whose blocks are terminated, whose targets exist and
which have entries (`CfgOk`). What it returns is the flow graph's own notions (`Cfg.Exact`): the
incoming edges of each block, the reachable blocks, and for each reachable block the blocks that
every path from an entry passes through. The refinement of the dominator rows keeps every true
dominator and only ever removes bits, so it ends, and a row that no round changes any more
contains true dominators only.
-/

namespace V86.Ir

open Exec List

/-- The flow graph of a region. -/
def Region.flow (r : Region) : Flow BlockId where
  entry b := b ∈ r.entries
  edge a b := b ∈ r.succs a

/-- What the control-flow analysis demands of a region. -/
structure CfgOk (r : Region) : Prop where
  terminated : ∀ (b : BlockId) (blk : Block), r.blocks[b]? = some blk → ∃ t, blk.terminator = some t
  target_lt : ∀ a b, b ∈ r.succs a → b < r.blocks.length
  entries_ne : r.entries ≠ []
  entry_lt : ∀ b ∈ r.entries, b < r.blocks.length

/-- The sources of the edges into a block, once for each edge. -/
def Region.preds (r : Region) (b : BlockId) : List BlockId :=
  (List.range r.blocks.length).flatMap fun a => ((r.succs a).filter (· = b)).map fun _ => a

/-- What the analysis returns, in terms of the flow graph. -/
structure Cfg.Exact (r : Region) (cfg : Cfg) : Prop where
  predecessors : cfg.predecessors = (List.range r.blocks.length).map r.preds
  length_reachable : cfg.reachable.length = r.blocks.length
  reachable : ∀ b, cfg.reachable.getD b false = true ↔ r.flow.Reach b
  dominates : ∀ a b, r.flow.Reach a → (cfg.dominates a b = true ↔ r.flow.Dom b a)
  length_dominators : cfg.dominators.length = r.blocks.length

namespace Region

variable {r : Region} {a b : BlockId}

theorem succs_of_blocks {blk : Block} (h : r.blocks[b]? = some blk) : r.succs b = blk.succs := by
  simp [succs, h]

theorem lt_of_mem_succs (h : b ∈ r.succs a) : a < r.blocks.length := by
  by_contra ha
  rw [succs, List.getElem?_eq_none (Nat.not_lt.1 ha)] at h
  cases h

theorem length_succs_le (b : BlockId) : (r.succs b).length ≤ 2 := by
  unfold succs Block.succs
  cases r.blocks[b]? with
  | none => simp
  | some blk =>
    cases ht : blk.terminator with
    | none => simp [ht]
    | some t => cases t <;> simp [ht, Terminator.edges]

theorem mem_preds : a ∈ r.preds b ↔ b ∈ r.succs a := by
  simp only [preds, mem_flatMap, mem_range, mem_map, mem_filter, decide_eq_true_eq]
  constructor
  · rintro ⟨a', _, c, ⟨hc, rfl⟩, rfl⟩
    exact hc
  · exact fun h => ⟨a, lt_of_mem_succs h, b, ⟨h, rfl⟩, rfl⟩

end Region

theorem CfgOk.reach_lt {r : Region} {b : BlockId} (h : CfgOk r) (hb : r.flow.Reach b) :
    b < r.blocks.length :=
  hb.induction (P := (· < r.blocks.length)) (fun a ha => h.entry_lt a ha)
    fun a c _ _ hc => h.target_lt a c hc

namespace Cfg

variable {r : Region}

/-! ## Predecessors -/

/-- The predecessors with those of one more block's edges. -/
private def addPreds (i : BlockId) (targets : List BlockId) (preds : List (List BlockId)) :
    List (List BlockId) :=
  targets.foldl (fun preds t => preds.modify t (· ++ [i])) preds

private theorem getElem?_addPreds (i b : BlockId) (targets : List BlockId) :
    ∀ preds : List (List BlockId), (addPreds i targets preds)[b]? =
      (preds[b]?).map (· ++ (targets.filter (· = b)).map fun _ => i) := by
  induction targets with
  | nil => simp [addPreds]
  | cons t targets ih =>
    intro preds
    rw [addPreds, foldl_cons, ← addPreds, ih, List.getElem?_modify]
    by_cases h : t = b
    · cases preds[b]? <;> simp [h]
    · cases preds[b]? <;> simp [h]

/-- The fold over the edges of one block succeeds when every target exists. -/
private theorem edges_fold {i : BlockId} :
    ∀ {edges : List Edge} {preds preds' : List (List BlockId)}, edges.foldlM (fun preds edge => do
      let pred ← okOr preds[edge.target]? "invalid edge target"
      pure (preds.set edge.target (pred ++ [i]))) preds = .ok preds' ↔
    (∀ e ∈ edges, e.target < preds.length) ∧ preds' = addPreds i (edges.map (·.target)) preds
  | [], preds, preds' => by
    simp [addPreds, eq_comm]
  | e :: edges, preds, preds' => by
    rw [foldlM_cons, bind_eq_ok]
    have hset : ∀ l, preds[e.target]? = some l →
        preds.set e.target (l ++ [i]) = preds.modify e.target (· ++ [i]) := by
      intro l hl
      rw [List.modify_eq_set_getElem?, hl]
      rfl
    constructor
    · rintro ⟨mid, h1, h2⟩
      obtain ⟨l, hl, h3⟩ := bind_eq_ok.1 h1
      rw [okOr_eq_ok] at hl
      cases h3
      obtain ⟨h4, h5⟩ := edges_fold.1 h2
      have hlt : e.target < preds.length := (List.getElem?_eq_some_iff.1 hl).1
      exact ⟨by simpa [hlt] using h4, by rw [h5, hset l hl]; rfl⟩
    · rintro ⟨h1, h2⟩
      have hl := List.getElem?_eq_getElem (h1 e mem_cons_self)
      refine ⟨_, bind_eq_ok.2 ⟨_, okOr_eq_ok.2 hl, rfl⟩, edges_fold.2 ⟨?_, ?_⟩⟩
      · simpa using fun e' he' => h1 e' (mem_cons_of_mem _ he')
      · rw [h2, hset _ hl]
        rfl

/-- The predecessors collected from the first blocks. -/
private def predsUpto (r : Region) (n : Nat) : List (List BlockId) :=
  (List.range r.blocks.length).map fun b =>
    (List.range n).flatMap fun a => ((r.succs a).filter (· = b)).map fun _ => a

private theorem predsUpto_succ {i : Nat} :
    predsUpto r (i + 1) = addPreds i (r.succs i) (predsUpto r i) := by
  refine ext_getElem? fun b => ?_
  rw [getElem?_addPreds]
  by_cases hb : b < r.blocks.length <;> simp [predsUpto, hb, range_succ]

/-- Predecessors are collected exactly when every block is terminated and every target exists. -/
theorem collectPredecessors_eq_ok {preds : List (List BlockId)} :
    collectPredecessors r = .ok preds ↔
      (∀ (b : BlockId) (blk : Block), r.blocks[b]? = some blk → ∃ t, blk.terminator = some t) ∧
      (∀ a b, b ∈ r.succs a → b < r.blocks.length) ∧
      preds = (List.range r.blocks.length).map r.preds := by
  have hstart : List.replicate r.blocks.length [] = predsUpto r 0 := by simp [predsUpto]
  have hlen : ∀ n, (predsUpto r n).length = r.blocks.length := by simp [predsUpto]
  unfold collectPredecessors
  rw [hstart]
  constructor
  · intro h
    have hI := foldlM_ok (I := fun pre preds => preds = predsUpto r pre.length ∧
      ∀ b blk, b < pre.length → r.blocks[b]? = some blk →
        ∃ t, blk.terminator = some t ∧ ∀ e ∈ t.edges, e.target < r.blocks.length) ?_
      ⟨rfl, by simp⟩ h
    · obtain ⟨h1, h2⟩ := hI
      have hlt : ∀ (b : BlockId) (blk : Block), r.blocks[b]? = some blk →
          b < r.blocks.zipIdx.length :=
        fun b blk hb => by simpa using (List.getElem?_eq_some_iff.1 hb).1
      refine ⟨fun b blk hb => ?_, fun a b hab => ?_, by rw [h1]; simp [predsUpto, Region.preds]⟩
      · obtain ⟨t, ht, _⟩ := h2 b blk (hlt b blk hb) hb
        exact ⟨t, ht⟩
      · have ha := List.getElem?_eq_getElem (Region.lt_of_mem_succs hab)
        obtain ⟨t, ht, hmem⟩ := h2 a _ (hlt a _ ha) ha
        rw [Region.succs_of_blocks ha, Block.succs, ht] at hab
        obtain ⟨e, he, rfl⟩ := List.mem_map.1 hab
        exact hmem e he
    · rintro pre ⟨blk, i⟩ post s s' hl ⟨rfl, hpre⟩ hs
      obtain ⟨rfl, hblk⟩ := zipIdx_split hl
      obtain ⟨t, ht, hs⟩ := bind_eq_ok.1 hs
      rw [okOr_eq_ok] at ht
      obtain ⟨hlt, rfl⟩ := edges_fold.1 hs
      rw [hlen] at hlt
      have hsucc : r.succs pre.length = t.edges.map (·.target) := by
        rw [Region.succs_of_blocks hblk, Block.succs, ht]
        rfl
      refine ⟨by rw [← hsucc, ← predsUpto_succ]; simp, fun b blk' hb hblk' => ?_⟩
      rcases Nat.lt_succ_iff_lt_or_eq.1 (show b < pre.length + 1 by simpa using hb) with hb | rfl
      · exact hpre b blk' hb hblk'
      · cases hblk.symm.trans hblk'
        exact ⟨t, ht, hlt⟩
  · rintro ⟨hterm, htarget, rfl⟩
    refine Gives.eq_ok ?_
    refine (Gives.foldlM (I := fun pre preds => preds = predsUpto r pre.length) ?_ rfl).mono ?_
    · rintro pre ⟨blk, i⟩ post s hl rfl
      obtain ⟨rfl, hblk⟩ := zipIdx_split hl
      obtain ⟨t, ht⟩ := hterm _ blk hblk
      have hsucc : r.succs pre.length = t.edges.map (·.target) := by
        rw [Region.succs_of_blocks hblk, Block.succs, ht]
        rfl
      refine ⟨_, bind_eq_ok.2 ⟨t, okOr_eq_ok.2 ht, edges_fold.2 ⟨fun e he => ?_, rfl⟩⟩, ?_⟩
      · rw [hlen]
        exact htarget pre.length _ (hsucc ▸ mem_map_of_mem he)
      · rw [← hsucc, ← predsUpto_succ]
        simp
    · rintro _ rfl
      simp [predsUpto, Region.preds]

/-! ## Reachable blocks -/

/-- The state of the search: everything queued or marked is reachable, every entry and every
successor of a marked block is queued or marked. -/
private structure ReachInv (r : Region) (s : List BlockId × List Bool) : Prop where
  length : s.2.length = r.blocks.length
  queued : ∀ b ∈ s.1, r.flow.Reach b
  marked : ∀ b, s.2.getD b false = true → r.flow.Reach b
  entry : ∀ b ∈ r.entries, b ∈ s.1 ∨ s.2.getD b false = true
  closed : ∀ a b, s.2.getD a false = true → b ∈ r.succs a → b ∈ s.1 ∨ s.2.getD b false = true

variable {l state : List Nat} {a b n next t : Nat} {reachable : List Bool} {s : Dfs}
  {rest : List (BlockId × Nat)} {post : List BlockId}

private theorem getD_set_true {l : List Bool} (ha : a < l.length) :
    (l.set a true).getD b false = true ↔ b = a ∨ l.getD b false = true := by
  simp only [getD_eq_getElem?_getD, List.getElem?_set]
  by_cases h : a = b
  · subst h
    simp [ha]
  · rw [if_neg h, or_iff_right fun h' => h h'.symm]

/-- Marking a block makes up for the successors it queues. -/
private theorem count_mark_lt {b : BlockId} {queue : List BlockId} (hlt : b < reachable.length)
    (hseen : reachable[b] = false) :
    ((r.succs b).reverse ++ queue).length + 3 * (reachable.set b true).count false <
      (b :: queue).length + 3 * reachable.count false := by
  have hpos : 0 < reachable.count false := by
    rw [count_pos_iff, ← hseen]
    exact getElem_mem hlt
  have hset := List.count_set (a := true) (b := false) hlt
  have hsucc := r.length_succs_le b
  simp only [hseen, beq_self_eq_true, if_true] at hset
  simp only [length_append, length_reverse, length_cons, hset]
  simp
  omega

/-- One turn of the search keeps its invariant and uses up a queued or an unmarked block. -/
private theorem reachTurn_inv (hok : CfgOk r) {s : List BlockId × List Bool} (h : ReachInv r s) :
    Gives (reachTurn r s) (Sum.elim (fun s' => ReachInv r s' ∧
        s'.1.length + 3 * s'.2.count false < s.1.length + 3 * s.2.count false)
      fun reachable => reachable.length = r.blocks.length ∧
        ∀ b, reachable.getD b false = true ↔ r.flow.Reach b) := by
  obtain ⟨queue, reachable⟩ := s
  cases queue with
  | nil =>
    refine .ok ⟨h.length, fun b => ⟨h.marked b, fun hb => ?_⟩⟩
    refine hb.induction (P := fun b => reachable.getD b false = true) (fun a ha => ?_)
      fun a c _ ha hc => ?_
    · simpa using h.entry a ha
    · simpa using h.closed a c ha hc
  | cons b queue =>
    have hb : r.flow.Reach b := h.queued b (by simp)
    have hlt : b < reachable.length := by
      rw [h.length]
      exact hok.reach_lt hb
    have hget := List.getElem?_eq_getElem hlt
    simp only [reachTurn, hget, okOr, ok_bind]
    cases hseen : reachable[b] with
    | true =>
      have hmark : reachable.getD b false = true := by simp [List.getD, hget, hseen]
      refine .ok ⟨⟨h.length, fun c hc => h.queued c (by simp [hc]), h.marked, fun c hc => ?_,
        fun a c ha hc => ?_⟩, by simp⟩
      · rcases h.entry c hc with hq | hm
        · rcases List.mem_cons.1 hq with rfl | hq
          · exact .inr hmark
          · exact .inl hq
        · exact .inr hm
      · rcases h.closed a c ha hc with hq | hm
        · rcases List.mem_cons.1 hq with rfl | hq
          · exact .inr hmark
          · exact .inl hq
        · exact .inr hm
    | false =>
      have hmem : ∀ c, c ∈ (r.succs b).reverse ++ queue ↔ c ∈ r.succs b ∨ c ∈ queue := by simp
      have hlater : ∀ c, c ∈ b :: queue ∨ reachable.getD c false = true →
          c ∈ (r.succs b).reverse ++ queue ∨ (reachable.set b true).getD c false = true := by
        intro c hc
        rw [getD_set_true hlt, hmem]
        rcases hc with hc | hc
        · rcases List.mem_cons.1 hc with rfl | hc
          · exact .inr (.inl rfl)
          · exact .inl (.inr hc)
        · exact .inr (.inr hc)
      refine .ok ⟨⟨by simpa using h.length, fun c hc => ?_, fun c hc => ?_,
        fun c hc => hlater c (h.entry c hc), fun a c ha hc => ?_⟩, ?_⟩
      · rcases (hmem c).1 hc with hc | hc
        · exact hb.step hc
        · exact h.queued c (by simp [hc])
      · rcases (getD_set_true hlt).1 hc with rfl | hc
        · exact hb
        · exact h.marked c hc
      · rcases (getD_set_true hlt).1 ha with rfl | ha
        · exact .inl ((hmem c).2 (.inl hc))
        · exact hlater c (h.closed a c ha hc)
      · exact count_mark_lt hlt hseen

/-- On a region the analysis accepts, the search ends and marks the reachable blocks. -/
theorem reachability_gives (hok : CfgOk r) :
    Gives (reachability r) fun p => p.1 = (List.range r.blocks.length).map r.preds ∧
      p.2.length = r.blocks.length ∧ ∀ b, p.2.getD b false = true ↔ r.flow.Reach b := by
  have hpred := collectPredecessors_eq_ok.2 ⟨hok.terminated, hok.target_lt, rfl⟩
  have hne : (!r.entries.isEmpty) = true := by simpa using hok.entries_ne
  have hstart : ReachInv r (r.entries.reverse, List.replicate r.blocks.length false) := by
    have hfalse : ∀ b, (List.replicate r.blocks.length false).getD b false ≠ true := by
      intro b
      by_cases hb : b < r.blocks.length <;> simp [hb]
    exact ⟨by simp, fun b hb => .entry (List.mem_reverse.1 hb), fun b hb => absurd hb (hfalse b),
      fun b hb => .inl (List.mem_reverse.2 hb), fun a b ha _ => absurd ha (hfalse a)⟩
  obtain ⟨reachable, h1, h2⟩ := Gives.loop
    (fun s : List BlockId × List Bool => s.1.length + 3 * s.2.count false)
    (fun s hs => reachTurn_inv hok hs) hstart
    (show _ < r.entries.length + 3 * r.blocks.length + 1 by simp)
  exact ⟨(_, reachable), by simp [reachability, hpred, require, hne, h1], rfl, h2⟩

/-- The search returns only for the regions the analysis accepts. -/
theorem reachability_ok {p : List (List BlockId) × List Bool} (h : reachability r = .ok p) :
    CfgOk r := by
  obtain ⟨preds, h1, h⟩ := bind_eq_ok.1 h
  obtain ⟨_, h2, h⟩ := bind_eq_ok.1 h
  obtain ⟨reachable, h3, _⟩ := bind_eq_ok.1 h
  obtain ⟨hterm, htarget, _⟩ := collectPredecessors_eq_ok.1 h1
  refine ⟨hterm, htarget, by simpa using h2, fun b hb => ?_⟩
  -- an entry stays in the queue until it is popped, and popping it needs its mark
  have hI := loop_ok (I := fun s => s.2.length = r.blocks.length ∧
    (b ∈ s.1 ∨ b < r.blocks.length)) ?_ ⟨by simp, .inl (by simpa using hb)⟩ h3
  · obtain ⟨⟨queue, reachable⟩, hs, hend⟩ := hI
    cases queue with
    | nil => simpa using hs.2
    | cons c queue =>
      obtain ⟨seen, _, hc⟩ := bind_eq_ok.1 hend
      cases seen <;> cases hc
  · rintro ⟨queue, reachable⟩ s' ⟨hlen, hq⟩ hturn
    cases queue with
    | nil => cases hturn
    | cons c queue =>
      obtain ⟨seen, hseen, hc⟩ := bind_eq_ok.1 hturn
      rw [okOr_eq_ok] at hseen
      have hlt : c < reachable.length := (List.getElem?_eq_some_iff.1 hseen).1
      have hq' : b ∈ queue ∨ b < r.blocks.length := by
        rcases hq with hq | hq
        · rcases List.mem_cons.1 hq with rfl | hq
          · exact .inr (hlen ▸ hlt)
          · exact .inl hq
        · exact .inr hq
      cases seen with
      | true =>
        cases hc
        exact ⟨hlen, hq'⟩
      | false =>
        cases hc
        exact ⟨by simpa using hlen, hq'.imp_left (mem_append_right _)⟩

/-! ## The order of the refinement -/

/-- The state of the depth-first search: a visited block is on the stack or in the postorder, and
so are the successors of a finished block and those a block on the stack has passed. -/
private structure DfsInv (r : Region) (s : Dfs) : Prop where
  length : s.state.length = r.blocks.length
  visited : ∀ b, b < r.blocks.length → s.state.getD b 1 ≠ 0 → (∃ k, (b, k) ∈ s.stack) ∨ b ∈ s.post
  next_le : ∀ p ∈ s.stack, p.1 < r.blocks.length ∧ p.2 ≤ (r.succs p.1).length
  passed : ∀ p ∈ s.stack, ∀ i t, i < p.2 → (r.succs p.1)[i]? = some t → s.state.getD t 1 ≠ 0
  finished : ∀ b ∈ s.post, ∀ t ∈ r.succs b, s.state.getD t 1 ≠ 0
  post_lt : ∀ b ∈ s.post, b < r.blocks.length

/-- The work left: three turns for a block on the stack, four for a block not visited. -/
private def dfsWork (s : Dfs) : Nat := (s.stack.map fun p => 3 - p.2).sum + 4 * s.state.count 0

private theorem getD_set_visited (hn : n ≠ 0) (h : l.getD b 1 ≠ 0) : (l.set a n).getD b 1 ≠ 0 := by
  simp only [getD_eq_getElem?_getD, List.getElem?_set] at h ⊢
  split
  · split
    · simpa using hn
    · simp
  · exact h

private theorem getD_set_ne (h : (l.set a n).getD b 1 ≠ 0) (hne : a ≠ b) : l.getD b 1 ≠ 0 := by
  simpa [getD_eq_getElem?_getD, List.getElem?_set, hne] using h

/-- A finished block moves from the stack to the postorder. -/
private theorem DfsInv.finish (h : DfsInv r ⟨(b, next) :: rest, state, post⟩)
    (hend : (r.succs b)[next]? = none) : DfsInv r ⟨rest, state.set b 2, post ++ [b]⟩ := by
  have hb := (h.next_le _ mem_cons_self).1
  have hmono : ∀ c, state.getD c 1 ≠ 0 → (state.set b 2).getD c 1 ≠ 0 :=
    fun c hc => getD_set_visited (by decide) hc
  refine ⟨by simpa using h.length, fun c hc hv => ?_,
    fun q hq => h.next_le q (mem_cons_of_mem _ hq),
    fun q hq i t hi ht => hmono t (h.passed q (mem_cons_of_mem _ hq) i t hi ht),
    fun c hc t ht => hmono t ?_, fun c hc => ?_⟩
  · by_cases hcb : b = c
    · exact .inr (by simp [hcb])
    · rcases h.visited c hc (getD_set_ne hv hcb) with ⟨k, hk⟩ | hp
      · rcases List.mem_cons.1 hk with hk | hk
        · cases hk
          exact absurd rfl hcb
        · exact .inl ⟨k, hk⟩
      · exact .inr (mem_append_left _ hp)
  · rcases List.mem_append.1 hc with hc | hc
    · exact h.finished c hc t ht
    · rw [mem_singleton] at hc
      subst hc
      obtain ⟨i, hi, rfl⟩ := List.mem_iff_getElem.1 ht
      have hge := List.getElem?_eq_none_iff.1 hend
      exact h.passed _ mem_cons_self i _ (Nat.lt_of_lt_of_le hi hge)
        (List.getElem?_eq_getElem hi)
  · rcases List.mem_append.1 hc with hc | hc
    · exact h.post_lt c hc
    · rw [mem_singleton] at hc
      exact hc ▸ hb

/-- A block on the stack passes a successor that is visited. -/
private theorem DfsInv.skip {l : List (BlockId × Nat)}
    (h : DfsInv r ⟨l ++ (b, next) :: rest, state, post⟩) (ht : (r.succs b)[next]? = some t)
    (hvis : state.getD t 1 ≠ 0) : DfsInv r ⟨l ++ (b, next + 1) :: rest, state, post⟩ := by
  have hmem : ∀ q, q ∈ l ++ (b, next + 1) :: rest →
      q = (b, next + 1) ∨ q ∈ l ++ (b, next) :: rest := by
    intro q hq
    rcases List.mem_append.1 hq with hq | hq
    · exact .inr (mem_append_left _ hq)
    · exact (List.mem_cons.1 hq).imp_right fun hq => by simp [hq]
  have hcur : (b, next) ∈ l ++ (b, next) :: rest := by simp
  refine ⟨h.length, fun c hc hv => ?_, fun q hq => ?_, fun q hq i u hi hu => ?_, h.finished,
    h.post_lt⟩
  · rcases h.visited c hc hv with ⟨k, hk⟩ | hp
    · rcases List.mem_append.1 hk with hk | hk
      · exact .inl ⟨k, mem_append_left _ hk⟩
      · rcases List.mem_cons.1 hk with hk | hk
        · cases hk
          exact .inl ⟨next + 1, by simp⟩
        · exact .inl ⟨k, by simp [hk]⟩
    · exact .inr hp
  · rcases hmem q hq with rfl | hq
    · exact ⟨(h.next_le _ hcur).1, (List.getElem?_eq_some_iff.1 ht).1⟩
    · exact h.next_le q hq
  · rcases hmem q hq with rfl | hq
    · rcases Nat.lt_succ_iff_lt_or_eq.1 hi with hi | rfl
      · exact h.passed _ hcur i u hi hu
      · cases ht.symm.trans hu
        exact hvis
    · exact h.passed q hq i u hi hu

/-- A block that is not visited yet goes on the stack. -/
private theorem DfsInv.push {stack : List (BlockId × Nat)} (h : DfsInv r ⟨stack, state, post⟩)
    (ht : t < r.blocks.length) : DfsInv r ⟨(t, 0) :: stack, state.set t 1, post⟩ := by
  have hmono : ∀ c, state.getD c 1 ≠ 0 → (state.set t 1).getD c 1 ≠ 0 :=
    fun c hc => getD_set_visited (by decide) hc
  refine ⟨by simpa using h.length, fun c hc hv => ?_, fun q hq => ?_, fun q hq i u hi hu => ?_,
    fun c hc u hu => hmono u (h.finished c hc u hu), h.post_lt⟩
  · by_cases hct : t = c
    · exact .inl ⟨0, by simp [hct]⟩
    · rcases h.visited c hc (getD_set_ne hv hct) with ⟨k, hk⟩ | hp
      · exact .inl ⟨k, mem_cons_of_mem _ hk⟩
      · exact .inr hp
  · rcases List.mem_cons.1 hq with rfl | hq
    · exact ⟨ht, Nat.zero_le _⟩
    · exact h.next_le q hq
  · rcases List.mem_cons.1 hq with rfl | hq
    · exact absurd hi (Nat.not_lt_zero _)
    · exact hmono u (h.passed q hq i u hi hu)

private theorem count_set_visited (ht : t < state.length)
    (hzero : state.getD t 1 = 0) : (state.set t 1).count 0 + 1 = state.count 0 := by
  have hget : state[t] = 0 := by simpa [List.getD, List.getElem?_eq_getElem ht] using hzero
  have hpos : 0 < state.count 0 := List.count_pos_iff.2 (hget ▸ getElem_mem ht)
  rw [List.count_set ht]
  simp only [hget, beq_self_eq_true, if_true]
  simp
  omega

/-- One turn of the search keeps its invariant and what is visited, and uses up work. -/
private theorem dfsTurn_inv (hok : CfgOk r) (h : DfsInv r s) :
    Gives (dfsTurn r s) (Sum.elim (fun s' => (DfsInv r s' ∧ ∀ b, s.state.getD b 1 ≠ 0 →
        s'.state.getD b 1 ≠ 0) ∧ dfsWork s' < dfsWork s) fun s' => s' = s ∧ s.stack = []) := by
  obtain ⟨stack, state, post⟩ := s
  cases stack with
  | nil => exact .ok ⟨rfl, rfl⟩
  | cons p rest =>
    obtain ⟨b, next⟩ := p
    obtain ⟨hb, hnext⟩ := h.next_le _ mem_cons_self
    have hle := r.length_succs_le b
    have hlen : state.length = r.blocks.length := h.length
    cases hsucc : (r.succs b)[next]? with
    | none =>
      simp only [dfsTurn, hsucc]
      refine .ok ⟨⟨h.finish hsucc, fun c hc => getD_set_visited (by decide) hc⟩, ?_⟩
      have hcount : (state.set b 2).count 0 ≤ state.count 0 := by
        rw [List.count_set (hlen ▸ hb)]
        simp
      simp only [dfsWork, map_cons, sum_cons]
      dsimp only at hnext
      omega
    | some t =>
      have ht : t < r.blocks.length := hok.target_lt b t (mem_of_getElem? hsucc)
      have hlt : next < (r.succs b).length := (List.getElem?_eq_some_iff.1 hsucc).1
      simp only [dfsTurn, hsucc]
      split
      · next hzero =>
        have hpush := h.push ht
        have hcount := count_set_visited (hlen ▸ ht) hzero
        have hvis : (state.set t 1).getD t 1 ≠ 0 := by
          simp [getD_eq_getElem?_getD, hlen, ht]
        refine .ok ⟨⟨DfsInv.skip (l := [(t, 0)]) hpush hsucc hvis,
          fun c hc => getD_set_visited (by decide) hc⟩, ?_⟩
        simp only [dfsWork, map_cons, sum_cons]
        omega
      · next hvis =>
        refine .ok ⟨⟨DfsInv.skip (l := []) h hsucc hvis, fun c hc => hc⟩, ?_⟩
        simp only [dfsWork, map_cons, sum_cons]
        omega

/-- The search from one entry visits it and keeps what is visited. -/
private theorem dfsEntry_inv (hok : CfgOk r) {b : BlockId} (hb : b < r.blocks.length)
    (h : DfsInv r s) (hstack : s.stack = []) :
    Gives (dfsEntry r s b) fun s' => (DfsInv r s' ∧ s'.stack = []) ∧ s'.state.getD b 1 ≠ 0 ∧
      ∀ c, s.state.getD c 1 ≠ 0 → s'.state.getD c 1 ≠ 0 := by
  unfold dfsEntry
  obtain ⟨stack, state, post⟩ := s
  cases hstack
  split
  · next hvis => exact .ok ⟨⟨h, rfl⟩, hvis, fun c hc => hc⟩
  · next hzero =>
    have hlen : state.length = r.blocks.length := h.length
    have hcount : (state.set b 1).count 0 + 1 = state.count 0 :=
      count_set_visited (hlen ▸ hb) (not_not.1 hzero)
    have hvis : (state.set b 1).getD b 1 ≠ 0 := by
      simp [getD_eq_getElem?_getD, hlen, hb]
    have hmono : ∀ c, state.getD c 1 ≠ 0 → (state.set b 1).getD c 1 ≠ 0 :=
      fun c hc => getD_set_visited (by decide) hc
    have hle : state.count 0 ≤ state.length := count_le_length
    refine Gives.loop (I := fun s' => DfsInv r s' ∧ s'.state.getD b 1 ≠ 0 ∧
      ∀ c, state.getD c 1 ≠ 0 → s'.state.getD c 1 ≠ 0) dfsWork ?_ ⟨h.push hb, hvis, hmono⟩ ?_
    · rintro s ⟨hs, hsb, hsc⟩
      refine (dfsTurn_inv hok hs).mono ?_
      rintro (s' | s') hs'
      · obtain ⟨⟨h1, h2⟩, h3⟩ := hs'
        exact ⟨⟨h1, h2 b hsb, fun c hc => h2 c (hsc c hc)⟩, h3⟩
      · obtain ⟨rfl, h2⟩ := hs'
        exact ⟨⟨hs, h2⟩, hsb, hsc⟩
    · simp only [dfsWork, map_cons, map_nil, sum_cons, sum_nil]
      omega

/-- The order of the refinement lists every reachable block. -/
theorem reversePostorder_gives (hok : CfgOk r)
    (hreach : ∀ b, reachable.getD b false = true ↔ r.flow.Reach b) :
    Gives (reversePostorder r reachable) fun order => ∀ b, b ∈ order ↔ r.flow.Reach b := by
  have hfold : Gives (r.entries.foldlM (dfsEntry r) ⟨[], List.replicate r.blocks.length 0, []⟩)
      fun s => (DfsInv r s ∧ s.stack = []) ∧ ∀ b ∈ r.entries, s.state.getD b 1 ≠ 0 := by
    refine Gives.foldlM (I := fun pre s => (DfsInv r s ∧ s.stack = []) ∧
      ∀ b ∈ pre, s.state.getD b 1 ≠ 0) ?_ ⟨⟨⟨?_, ?_, ?_, ?_, ?_, ?_⟩, rfl⟩, ?_⟩
    · rintro pre b post s hl ⟨⟨hs, hstack⟩, hpre⟩
      refine (dfsEntry_inv hok (hok.entry_lt b (by simp [hl])) hs hstack).mono ?_
      rintro s' ⟨h1, h2, h3⟩
      refine ⟨h1, fun c hc => ?_⟩
      rcases List.mem_append.1 hc with hc | hc
      · exact h3 c (hpre c hc)
      · rw [mem_singleton] at hc
        exact hc ▸ h2
    · simp
    · intro b hb hv
      simp [hb] at hv
    all_goals simp
  refine hfold.bind fun s ⟨⟨hs, hstack⟩, hentry⟩ => .ok fun b => ?_
  rw [mem_filter, mem_reverse, hreach]
  refine ⟨fun h => h.2, fun hb => ⟨?_, hb⟩⟩
  have hpost : ∀ c, c < r.blocks.length → s.state.getD c 1 ≠ 0 → c ∈ s.post := by
    intro c hc hv
    rcases hs.visited c hc hv with ⟨k, hk⟩ | hp
    · rw [hstack] at hk
      cases hk
    · exact hp
  refine hb.induction (P := (· ∈ s.post)) (fun a ha => ?_) fun a c _ ha hc => ?_
  · exact hpost a (hok.entry_lt a ha) (hentry a ha)
  · exact hpost c (hok.target_lt a c hc) (hs.finished a ha c hc)

/-! ## Dominator rows -/

/-- The rows during the refinement: each is a set of blocks, keeps every true dominator, and
shrinks when it is refined; an entry's row holds the entry alone. -/
private structure RowsInv (r : Region) (preds : List (List BlockId)) (reachable : List Bool)
    (doms : List Words) : Prop where
  length : doms.length = r.blocks.length
  width : ∀ i < r.blocks.length, (doms.getD i []).length = words r
  lt : ∀ i < r.blocks.length, ∀ j, (doms.getD i []).contains j = true → j < r.blocks.length
  keeps : ∀ i, r.flow.Reach i → ∀ j, r.flow.Dom j i → (doms.getD i []).contains j = true
  entry : ∀ i ∈ r.entries, ∀ j, (doms.getD i []).contains j = true → j = i
  shrinks : ∀ i, r.flow.Reach i → i ∉ r.entries → ∀ j,
    (refineRow r preds reachable doms i).contains j = true → (doms.getD i []).contains j = true

section
variable {preds : List (List BlockId)} {reachable : List Bool} {doms doms' : List Words}
  (hok : CfgOk r) (hpred : preds = (List.range r.blocks.length).map r.preds)
  (hreach : ∀ b, reachable.getD b false = true ↔ r.flow.Reach b)

private theorem lt_words {i : Nat} (hi : i < r.blocks.length) : i < 64 * words r := by
  simp only [words, Words.count]
  omega

include hok

private theorem contains_cut_words {ws : Words} (hlen : ws.length = words r) (j : Nat) :
    (Words.cut r.blocks.length ws).contains j = true ↔
      ws.contains j = true ∧ j < r.blocks.length := by
  have hpos : 0 < r.blocks.length := by
    obtain ⟨b, _⟩ := exists_mem_of_ne_nil _ hok.entries_ne
    exact Nat.lt_of_le_of_lt (Nat.zero_le b) (hok.entry_lt b (by assumption))
  rw [Words.contains_cut hlen, Bool.and_eq_true, Bool.or_eq_true, decide_eq_true_eq, beq_iff_eq]
  refine and_congr_right fun hj => or_iff_left_of_imp fun h0 => ?_
  have := Words.lt_of_contains hj
  simp only [hlen, words, Words.count] at this
  omega

omit hok in
private theorem contains_fold_inter (doms : List Words) (ps : List BlockId) (start : Words)
    (hw : ∀ p ∈ ps, (doms.getD p []).length = start.length) (j : Nat) :
    (ps.foldl (fun next p => Words.inter next (doms.getD p [])) start).length = start.length ∧
    ((ps.foldl (fun next p => Words.inter next (doms.getD p [])) start).contains j = true ↔
      start.contains j = true ∧ ∀ p ∈ ps, (doms.getD p []).contains j = true) := by
  induction ps generalizing start with
  | nil => simp
  | cons p ps ih =>
    have hp := hw p mem_cons_self
    have hlen := Words.length_inter hp.symm
    obtain ⟨h1, h2⟩ := ih (start.inter (doms.getD p []))
      fun q hq => (hw q (mem_cons_of_mem _ hq)).trans hlen.symm
    rw [foldl_cons, h2, h1, hlen, Words.contains_inter hp.symm, Bool.and_eq_true]
    simp [and_assoc]

include hpred hreach in
/-- What a refined row holds: the block itself and what the rows of all its reachable
predecessors hold. -/
private theorem contains_refineRow (hw : ∀ i < r.blocks.length, (doms.getD i []).length = words r)
    {i : BlockId} (hi : i < r.blocks.length) :
    (refineRow r preds reachable doms i).length = words r ∧
    ∀ j, (refineRow r preds reachable doms i).contains j = true ↔ j = i ∨ j < r.blocks.length ∧
        ∀ p, i ∈ r.succs p → r.flow.Reach p → (doms.getD p []).contains j = true := by
  have hget : preds.getD i [] = r.preds i := by simp [hpred, hi]
  have hmem : ∀ p, p ∈ (preds.getD i []).filter (fun p => reachable.getD p false) ↔
      i ∈ r.succs p ∧ r.flow.Reach p := by
    intro p
    rw [mem_filter, hget, Region.mem_preds, hreach]
  have hfold := contains_fold_inter doms
    ((preds.getD i []).filter fun p => reachable.getD p false)
    (List.replicate (words r) (BitVec.allOnes 64))
    fun p hp => by simpa using hw p (hok.reach_lt ((hmem p).1 hp).2)
  have hlen : ((((preds.getD i []).filter fun p => reachable.getD p false).foldl
      (fun next p => Words.inter next (doms.getD p []))
      (List.replicate (words r) (BitVec.allOnes 64))).length) = words r := by
    simpa using (hfold 0).1
  refine ⟨by simpa [refineRow] using hlen, fun j => ?_⟩
  unfold refineRow
  rw [Words.contains_insert (by rw [Words.length_cut, hlen]; exact lt_words hi),
    Bool.or_eq_true, contains_cut_words hok hlen, (hfold j).2, Words.contains_replicate_allOnes,
    decide_eq_true_eq, decide_eq_true_eq, or_comm]
  refine or_congr_right ⟨fun ⟨⟨_, h1⟩, h2⟩ => ⟨h2, fun p hp hr => h1 p ((hmem p).2 ⟨hp, hr⟩)⟩,
    fun ⟨h1, h2⟩ => ⟨⟨lt_words h1, fun p hp => ?_⟩, h1⟩⟩
  exact h2 p ((hmem p).1 hp).1 ((hmem p).1 hp).2

/-- The number of bits set in the rows. -/
private def bits (r : Region) (doms : List Words) : Nat :=
  ((Finset.range r.blocks.length ×ˢ Finset.range r.blocks.length).filter
    fun p => (doms.getD p.1 []).contains p.2 = true).card

omit hok in
private theorem getD_set_row {i : BlockId} (row : Words) (hi : i < doms.length) (k : BlockId) :
    (doms.set i row).getD k [] = if k = i then row else doms.getD k [] := by
  simp only [getD_eq_getElem?_getD, List.getElem?_set]
  by_cases h : i = k
  · simp [h ▸ hi, h]
  · rw [if_neg h, if_neg fun h' => h h'.symm]

include hpred hreach in
/-- Refining one row keeps the invariant and removes bits, if it changes the row. -/
private theorem RowsInv.refine (h : RowsInv r preds reachable doms) {i : BlockId}
    (hi : r.flow.Reach i) (hentry : i ∉ r.entries) :
    RowsInv r preds reachable (doms.set i (refineRow r preds reachable doms i)) ∧
      (refineRow r preds reachable doms i ≠ doms.getD i [] →
        bits r (doms.set i (refineRow r preds reachable doms i)) < bits r doms) := by
  have hlt := hok.reach_lt hi
  obtain ⟨hlen, hrow⟩ := contains_refineRow hok hpred hreach h.width hlt
  have hget := getD_set_row (refineRow r preds reachable doms i) (h.length ▸ hlt)
  -- every row of the new rows is contained in the old one
  have hsub : ∀ k j, ((doms.set i (refineRow r preds reachable doms i)).getD k []).contains j =
      true → (doms.getD k []).contains j = true := by
    intro k j hj
    rw [hget] at hj
    split at hj
    · next hk => exact hk ▸ h.shrinks i hi hentry j hj
    · exact hj
  have hwidth : ∀ k < r.blocks.length,
      ((doms.set i (refineRow r preds reachable doms i)).getD k []).length = words r := by
    intro k hk
    rw [hget]
    split
    · exact hlen
    · exact h.width k hk
  refine ⟨⟨by simpa using h.length, hwidth, fun k hk j hj => h.lt k hk j (hsub k j hj),
    fun k hk j hj => ?_, fun k hk j hj => h.entry k hk j (hsub k j hj), fun k hk hke j hj => ?_⟩,
    fun hne => ?_⟩
  · rw [hget]
    split
    · next hki =>
      subst hki
      refine (hrow j).2 ((Classical.em (j = k)).imp_right fun hjk => ?_)
      exact ⟨hok.reach_lt (hj.reach hk), fun p hp hpr => h.keeps p hpr j (hj.step hp hjk)⟩
    · exact h.keeps k hk j hj
  · have hkl := hok.reach_lt hk
    have hsmall := (contains_refineRow hok hpred hreach hwidth hkl).2 j
    have hbig := (contains_refineRow hok hpred hreach h.width hkl).2 j
    have hold : (refineRow r preds reachable doms k).contains j = true :=
      hbig.2 ((hsmall.1 hj).imp_right fun ⟨h1, h2⟩ => ⟨h1, fun p hp hpr => hsub p j (h2 p hp hpr)⟩)
    rw [hget]
    split
    · next hki => exact hki ▸ hold
    · exact h.shrinks k hk hke j hold
  · -- some bit of the old row is not in the new one
    obtain ⟨j, hj1, hj2⟩ : ∃ j, (doms.getD i []).contains j = true ∧
        ¬ (refineRow r preds reachable doms i).contains j = true := by
      by_contra hall
      push Not at hall
      refine hne (Words.ext (hlen.trans (h.width i hlt).symm) fun j _ => ?_)
      rw [Bool.eq_iff_iff]
      exact ⟨h.shrinks i hi hentry j, hall j⟩
    refine Finset.card_lt_card (Finset.ssubset_iff_of_subset ?_ |>.2 ⟨(i, j), ?_, ?_⟩)
    · intro p hp
      simp only [Finset.mem_filter] at hp ⊢
      exact ⟨hp.1, hsub p.1 p.2 hp.2⟩
    · simp only [Finset.mem_filter, Finset.mem_product, Finset.mem_range]
      exact ⟨⟨hlt, h.lt i hlt j hj1⟩, hj1⟩
    · intro hmem
      simp only [Finset.mem_filter, hget, if_true] at hmem
      exact hj2 hmem.2

include hpred hreach in
/-- A round keeps the invariant. Either it changes nothing and every row is its own refinement,
or it removes bits. -/
private theorem refineRound_inv {entry : List Bool} {order : List BlockId}
    (hentry : ∀ b, entry.getD b false = true ↔ b ∈ r.entries)
    (horder : ∀ i ∈ order, r.flow.Reach i) (h : RowsInv r preds reachable doms) (flag : Bool) :
    let s := order.foldl (fun s i =>
      if entry.getD i false then s
      else
        let next := refineRow r preds reachable s.1 i
        if next = s.1.getD i [] then s else (s.1.set i next, true)) (doms, flag)
    RowsInv r preds reachable s.1 ∧
      (s = (doms, flag) ∧ (∀ i ∈ order, i ∉ r.entries →
        refineRow r preds reachable doms i = doms.getD i []) ∨
        s.2 = true ∧ bits r s.1 < bits r doms) := by
  induction order generalizing doms flag with
  | nil => exact ⟨h, .inl ⟨rfl, by simp⟩⟩
  | cons i order ih =>
    have hi := horder i mem_cons_self
    have horder' : ∀ i ∈ order, r.flow.Reach i := fun k hk => horder k (mem_cons_of_mem _ hk)
    simp only [foldl_cons]
    by_cases he : entry.getD i false = true
    · obtain ⟨h1, h2⟩ := ih horder' h flag
      rw [if_pos he]
      refine ⟨h1, h2.imp_left fun ⟨h3, h4⟩ => ⟨h3, fun k hk hke => ?_⟩⟩
      rcases List.mem_cons.1 hk with rfl | hk
      · exact absurd ((hentry k).1 he) hke
      · exact h4 k hk hke
    · rw [if_neg he]
      have hie : i ∉ r.entries := fun hmem => he ((hentry i).2 hmem)
      obtain ⟨hinv, hdec⟩ := h.refine hok hpred hreach hi hie
      by_cases hsame : refineRow r preds reachable doms i = doms.getD i []
      · obtain ⟨h1, h2⟩ := ih horder' h flag
        rw [if_pos hsame]
        refine ⟨h1, h2.imp_left fun ⟨h3, h4⟩ => ⟨h3, fun k hk hke => ?_⟩⟩
        rcases List.mem_cons.1 hk with rfl | hk
        · exact hsame
        · exact h4 k hk hke
      · obtain ⟨h1, h2⟩ := ih horder' hinv true
        rw [if_neg hsame]
        refine ⟨h1, .inr ?_⟩
        rcases h2 with ⟨h3, _⟩ | ⟨h3, h4⟩
        · rw [h3]
          exact ⟨rfl, hdec hsame⟩
        · exact ⟨h3, h4.trans (hdec hsame)⟩

include hpred hreach in
/-- The rows before the first round satisfy the invariant. -/
private theorem initialRows_inv {entry : List Bool}
    (hentry : ∀ b, entry.getD b false = true ↔ b ∈ r.entries) :
    RowsInv r preds reachable (initialRows r reachable entry) := by
  have hget : ∀ i < r.blocks.length, (initialRows r reachable entry).getD i [] =
      if !reachable.getD i false || entry.getD i false then
        Words.insert (List.replicate (words r) 0#64) i
      else Words.cut r.blocks.length (List.replicate (words r) (BitVec.allOnes 64)) := by
    intro i hi
    simp only [initialRows, getD_eq_getElem?_getD, List.getElem?_map,
      List.getElem?_range hi, Option.map_some, Option.getD_some]
  have hsingle : ∀ i < r.blocks.length, ∀ j,
      (Words.insert (List.replicate (words r) 0#64) i).contains j = true ↔ j = i := by
    intro i hi j
    rw [Words.contains_insert (by simpa using lt_words hi), Words.contains_replicate_zero]
    simp
  have hfull : ∀ j, (Words.cut r.blocks.length
      (List.replicate (words r) (BitVec.allOnes 64))).contains j = true ↔
      j < r.blocks.length := by
    intro j
    rw [contains_cut_words hok (by simp), Words.contains_replicate_allOnes, decide_eq_true_eq]
    exact and_iff_right_of_imp lt_words
  have hwidth : ∀ i < r.blocks.length,
      ((initialRows r reachable entry).getD i []).length = words r := by
    intro i hi
    rw [hget i hi]
    split <;> simp
  have hfalse : ∀ i, r.flow.Reach i → i ∉ r.entries →
      (!reachable.getD i false || entry.getD i false) = false := by
    intro i hi hie
    have h1 := (hreach i).2 hi
    have h2 : entry.getD i false = false := by
      simpa using fun h => hie ((hentry i).1 h)
    rw [h1, h2]
    rfl
  refine ⟨by simp [initialRows], hwidth, fun i hi j hj => ?_, fun i hi j hj => ?_,
    fun i hi j hj => ?_, fun i hi hie j hj => ?_⟩
  · rw [hget i hi] at hj
    split at hj
    · exact (hsingle i hi j).1 hj ▸ hi
    · exact (hfull j).1 hj
  · rw [hget i (hok.reach_lt hi)]
    by_cases hie : i ∈ r.entries
    · rw [if_pos (by rw [(hentry i).2 hie, Bool.or_true])]
      exact (hsingle i (hok.reach_lt hi) j).2 (hj.of_entry hie)
    · rw [if_neg (by rw [hfalse i hi hie]; decide)]
      exact (hfull j).2 (hok.reach_lt (hj.reach hi))
  · have hlt := hok.entry_lt i hi
    rw [hget i hlt, if_pos (by rw [(hentry i).2 hi, Bool.or_true])] at hj
    exact (hsingle i hlt j).1 hj
  · have hlt := hok.reach_lt hi
    rw [hget i hlt, if_neg (by rw [hfalse i hi hie]; decide)]
    rcases ((contains_refineRow hok hpred hreach hwidth hlt).2 j).1 hj with rfl | ⟨hjl, _⟩
    · exact (hfull j).2 hlt
    · exact (hfull j).2 hjl

/-- Rows that are their own refinement hold true dominators only. -/
private theorem RowsInv.sound (h : RowsInv r preds reachable doms)
    (hpred : preds = (List.range r.blocks.length).map r.preds)
    (hreach : ∀ b, reachable.getD b false = true ↔ r.flow.Reach b)
    (hfix : ∀ i, r.flow.Reach i → i ∉ r.entries →
      refineRow r preds reachable doms i = doms.getD i []) {i j : BlockId}
    (hj : (doms.getD i []).contains j = true) : r.flow.Dom j i := by
  intro l hl
  induction hl generalizing j with
  | entry he => exact List.mem_singleton.2 (h.entry _ he j hj)
  | @step l a b hp hab ih =>
    by_cases hb : b ∈ r.entries
    · exact h.entry b hb j hj ▸ mem_cons_self
    · have hr : r.flow.Reach b := ⟨_, .step hp hab⟩
      rw [← hfix b hr hb] at hj
      rcases ((contains_refineRow hok hpred hreach h.width (hok.reach_lt hr)).2 j).1 hj with
        rfl | ⟨_, hall⟩
      · exact mem_cons_self
      · exact mem_cons_of_mem _ (ih (hall a hab ⟨_, hp⟩))

end

private theorem entryMarks_gives (hok : CfgOk r) :
    Gives (r.entries.foldlM (fun entry e => setAt entry e true)
      (List.replicate r.blocks.length false)) fun entry =>
        ∀ b, entry.getD b false = true ↔ b ∈ r.entries := by
  refine (Gives.foldlM (I := fun pre entry => entry.length = r.blocks.length ∧
    ∀ b, entry.getD b false = true ↔ b ∈ pre) ?_ ⟨by simp, fun b => ?_⟩).mono fun _ h => h.2
  · rintro pre e post entry hl ⟨hlen, hmem⟩
    have hlt : e < entry.length := hlen ▸ hok.entry_lt e (by simp [hl])
    refine ⟨_, setAt_eq_ok.2 ⟨hlt, rfl⟩, by simpa using hlen, fun b => ?_⟩
    rw [getD_set_true hlt, hmem, mem_append, mem_singleton, or_comm]
  · by_cases hb : b < r.blocks.length <;> simp [hb]

/-- The analysis of an accepted region returns the flow graph's predecessors, reachable blocks
and dominators, which are rows of the same width. -/
theorem compute_rows (hok : CfgOk r) : Gives (compute r) fun cfg => Exact r cfg ∧
    ∀ b < r.blocks.length, (cfg.dominators.getD b []).length = words r := by
  refine (reachability_gives hok).bind fun ⟨preds, reachable⟩ ⟨hpred, hlen, hreach⟩ => ?_
  refine (entryMarks_gives hok).bind fun entry hentry => ?_
  refine (reversePostorder_gives hok hreach).bind fun order horder => ?_
  have hstart := initialRows_inv hok hpred hreach hentry
  have hround : ∀ doms, RowsInv r preds reachable doms →
      Gives (.ok (if (refineRound r preds reachable entry order doms).2 then
          .inl (refineRound r preds reachable entry order doms).1
        else .inr (refineRound r preds reachable entry order doms).1)) (Sum.elim
          (fun doms' => RowsInv r preds reachable doms' ∧ bits r doms' < bits r doms)
          fun doms' => RowsInv r preds reachable doms' ∧ ∀ i, r.flow.Reach i → i ∉ r.entries →
            refineRow r preds reachable doms' i = doms'.getD i []) := by
    intro doms h
    obtain ⟨h1, h2⟩ := refineRound_inv hok hpred hreach hentry (fun i => (horder i).1) h false
    rcases h2 with ⟨h3, h4⟩ | ⟨h3, h4⟩
    · have h5 : refineRound r preds reachable entry order doms = (doms, false) := h3
      rw [h5]
      exact .ok ⟨h, fun i hi => h4 i ((horder i).2 hi)⟩
    · have h5 : (refineRound r preds reachable entry order doms).2 = true := h3
      rw [if_pos h5]
      exact .ok ⟨h1, h4⟩
  have hbits : bits r (initialRows r reachable entry) < r.blocks.length * r.blocks.length + 1 := by
    refine Nat.lt_succ_of_le ((Finset.card_filter_le _ _).trans ?_)
    simp
  refine (Gives.loop (bits r) hround hstart hbits).bind fun doms ⟨h, hfix⟩ => .ok ?_
  refine ⟨⟨hpred, hlen, hreach, fun a b ha => ⟨?_, ?_⟩, h.length⟩, h.width⟩
  · exact fun hab => h.sound hok hpred hreach hfix hab
  · exact fun hdom => h.keeps a ha b hdom

theorem compute_gives (hok : CfgOk r) : Gives (compute r) (Exact r) :=
  (compute_rows hok).mono fun _ h => h.1

/-- The analysis returns only for the regions it accepts. -/
theorem compute_ok {cfg : Cfg} (h : compute r = .ok cfg) : CfgOk r := by
  obtain ⟨_, h1, _⟩ := bind_eq_ok.1 h
  exact reachability_ok h1

/-- What a successful analysis returns is exact. -/
theorem Exact.of_compute {cfg : Cfg} (h : compute r = .ok cfg) : Exact r cfg := by
  obtain ⟨cfg', h1, h2⟩ := compute_gives (compute_ok h)
  cases h.symm.trans h1
  exact h2

/-! ## Regions with an entry that does not exist -/

/-- A turn of the search fails at an entry that does not exist. -/
private theorem reachTurn_sat {s : List BlockId × List Bool} :
    Sat (· = "invalid entry") (reachTurn r s) (Sum.elim
      (fun s' => True ∧ s'.1.length + 3 * s'.2.count false < s.1.length + 3 * s.2.count false)
      fun _ => True) := by
  obtain ⟨queue, reachable⟩ := s
  cases queue with
  | nil => exact trivial
  | cons b queue =>
    unfold reachTurn
    dsimp only
    by_cases hlt : b < reachable.length
    · rw [List.getElem?_eq_getElem hlt]
      cases hseen : reachable[b] with
      | true =>
        refine Sat.ok ⟨trivial, ?_⟩
        dsimp only
        rw [length_cons]
        omega
      | false => exact Sat.ok ⟨trivial, count_mark_lt hlt hseen⟩
    · rw [List.getElem?_eq_none (Nat.not_lt.1 hlt)]
      exact Sat.fail rfl

/-- Where the search does not return, an entry does not exist. -/
theorem compute_invalid (hterminated : ∀ (b : BlockId) (blk : Block), r.blocks[b]? = some blk →
      ∃ t, blk.terminator = some t)
    (htarget : ∀ a b, b ∈ r.succs a → b < r.blocks.length) (hentry : r.entries ≠ [])
    (hinvalid : ¬∀ b ∈ r.entries, b < r.blocks.length) : compute r = fail "invalid entry" := by
  have hpred := collectPredecessors_eq_ok.2 ⟨hterminated, htarget, rfl⟩
  have hne : (!r.entries.isEmpty) = true := by simpa using hentry
  have hsat : Sat (· = "invalid entry") (reachability r) fun _ => True := by
    rw [reachability, hpred, ok_bind]
    refine Sat.bind (P := fun _ => True) (by rw [hne]; exact trivial) fun _ _ _ => ?_
    refine Sat.bind (P := fun _ => True) ?_ fun _ _ _ => trivial
    exact Sat.loop (fun s : List BlockId × List Bool => s.1.length + 3 * s.2.count false)
      (fun s _ => reachTurn_sat) trivial (by simp)
  cases hreach : reachability r with
  | ok p => exact absurd (reachability_ok hreach).entry_lt hinvalid
  | error e =>
    rw [hreach] at hsat
    match e, hsat with
    | .error msg, hmsg =>
      obtain rfl : msg = "invalid entry" := hmsg
      rw [compute, hreach]
      rfl

/-- On every region with an entry, terminated blocks and valid targets the analysis ends, with an
error where an entry does not exist and else with the dominators: for reachable blocks the recorded
sets hold the blocks that every path passes through, and strict dominators have smaller counts. -/
theorem dominators_exact (r : Region)
    (hterminated : ∀ (b : BlockId) (blk : Block), r.blocks[b]? = some blk →
      ∃ t, blk.terminator = some t)
    (htarget : ∀ a b, b ∈ r.succs a → b < r.blocks.length) (hentry : r.entries ≠ []) :
    (∃ cfg, compute r = .ok cfg ∧
        (∀ a b, r.flow.Reach a → (cfg.dominates a b = true ↔ r.flow.Dom b a)) ∧
        ∀ a b, r.flow.Reach a → r.flow.Dom b a → b ≠ a →
          cfg.dominatorCount b < cfg.dominatorCount a) ∨
      compute r = fail "invalid entry" ∧ ∃ b ∈ r.entries, r.blocks.length ≤ b := by
  by_cases hvalid : ∀ b ∈ r.entries, b < r.blocks.length
  · have hok : CfgOk r := ⟨hterminated, htarget, hentry, hvalid⟩
    obtain ⟨cfg, hcfg, hexact, hwidth⟩ := compute_rows hok
    refine .inl ⟨cfg, hcfg, hexact.dominates, fun a b ha hdom hne => ?_⟩
    have hb : r.flow.Reach b := hdom.reach ha
    refine Words.sum_cpop_lt (fun j hj => ?_) ?_ ((hexact.dominates a a ha).2 (.refl a)) fun hab => ?_
    · exact (hexact.dominates a j ha).2 (((hexact.dominates b j hb).1 hj).trans hdom)
    · rw [hwidth b (hok.reach_lt hb), hwidth a (hok.reach_lt ha)]
    · exact hne (hdom.antisymm hb ((hexact.dominates b a hb).1 hab))
  · refine .inr ⟨compute_invalid hterminated htarget hentry hvalid, ?_⟩
    simpa using hvalid

/-- Two entries that are connected, and a loop between the blocks behind them. -/
def twoEntries : Region where
  entries := [0, 1]
  blocks := [⟨none, [], [], some (.branch ⟨2, []⟩), 0⟩, ⟨none, [], [], some (.branch ⟨0, []⟩), 0⟩,
    ⟨none, [], [], some (.condBranch 0 ⟨3, []⟩ ⟨0, []⟩), 0⟩, ⟨none, [], [], some (.branch ⟨2, []⟩), 0⟩]
  values := []
  instructions := []
  states := []
  helpers := []

theorem dominators_exact_twoEntries : (∃ cfg, compute twoEntries = .ok cfg ∧
        (∀ a b, twoEntries.flow.Reach a → (cfg.dominates a b = true ↔ twoEntries.flow.Dom b a)) ∧
        ∀ a b, twoEntries.flow.Reach a → twoEntries.flow.Dom b a → b ≠ a →
          cfg.dominatorCount b < cfg.dominatorCount a) ∨
      compute twoEntries = fail "invalid entry" ∧ ∃ b ∈ twoEntries.entries, 4 ≤ b := by
  refine dominators_exact twoEntries (fun b blk h => ?_) (fun a b h => ?_) (by decide)
  · have hmem : blk ∈ twoEntries.blocks := mem_of_getElem? h
    have hall : ∀ blk ∈ twoEntries.blocks, blk.terminator.isSome = true := by decide
    exact Option.isSome_iff_exists.1 (hall blk hmem)
  · have hlt := Region.lt_of_mem_succs h
    have hall : ∀ a < 4, ∀ b ∈ twoEntries.succs a, b < 4 := by decide
    exact hall a hlt b h

end Cfg

end V86.Ir
