import Mathlib.Data.List.Basic
import Mathlib.Data.Nat.Find

/-!
# Paths and dominance in flow graphs

A flow graph has entries and edges. A path starts at an entry and is written backwards, its last
node first. `Flow.Dom d b` is the textbook notion: every path to `b` passes through `d`. The
rules the proofs use are `Dom.step` (a strict dominator of `b` dominates each predecessor of
`b`), `Dom.antisymm` on reachable nodes, and `Path.first_arrival`, the part of a path up to the
first visit of its end.
-/

namespace V86

open List

/-- A flow graph: the nodes control may enter from outside, and the edges between nodes. -/
structure Flow (α : Type) where
  entry : α → Prop
  edge : α → α → Prop

namespace Flow

variable {α : Type} {G H : Flow α} {a b c d : α} {l : List α}

/-- The nodes of a path from an entry to `b`, the last one first. -/
inductive Path (G : Flow α) : List α → α → Prop
  | entry {a : α} : G.entry a → Path G [a] a
  | step {l : List α} {a b : α} : Path G l a → G.edge a b → Path G (b :: l) b

/-- Some path from an entry ends in `b`. -/
def Reach (G : Flow α) (b : α) : Prop := ∃ l, G.Path l b

/-- Every path from an entry to `b` passes through `d`. -/
def Dom (G : Flow α) (d b : α) : Prop := ∀ l, G.Path l b → d ∈ l

theorem Path.head (h : G.Path l b) : ∃ t, l = b :: t := by
  cases h with
  | entry _ => exact ⟨[], rfl⟩
  | step _ _ => exact ⟨_, rfl⟩

theorem Path.mem (h : G.Path l b) : b ∈ l := by
  obtain ⟨t, rfl⟩ := h.head
  exact mem_cons_self

/-- The part of a path up to one of its nodes is a path. -/
theorem Path.upto (h : G.Path l b) (hd : d ∈ l) : ∃ l', G.Path l' d ∧ l' <:+ l := by
  induction h with
  | entry he =>
    rw [mem_singleton] at hd
    subst hd
    exact ⟨_, .entry he, suffix_refl _⟩
  | step hp he ih =>
    rcases List.mem_cons.1 hd with rfl | hd
    · exact ⟨_, .step hp he, suffix_refl _⟩
    · obtain ⟨l', h1, h2⟩ := ih hd
      exact ⟨l', h1, h2.trans (suffix_cons _ _)⟩

theorem Path.reach (h : G.Path l b) (hd : d ∈ l) : G.Reach d := by
  obtain ⟨l', h1, _⟩ := h.upto hd
  exact ⟨l', h1⟩

/-- Up to the first visit of its end, a path visits the end once. -/
theorem Path.first_arrival (h : G.Path l b) : ∃ t, G.Path (b :: t) b ∧ b ∉ t ∧ b :: t <:+ l := by
  suffices ∀ (n : Nat) (l : List α), l.length ≤ n → G.Path l b →
      ∃ t, G.Path (b :: t) b ∧ b ∉ t ∧ b :: t <:+ l from this _ l (Nat.le_refl _) h
  intro n
  induction n with
  | zero =>
    intro l hl hp
    obtain ⟨t, rfl⟩ := hp.head
    simp at hl
  | succ n ih =>
    intro l hl hp
    obtain ⟨t, rfl⟩ := hp.head
    by_cases hb : b ∈ t
    · -- the rest of the path visits `b` again: its part up to that visit is shorter
      cases hp with
      | entry _ => cases hb
      | step hp' _ =>
        obtain ⟨l', h1, h2⟩ := hp'.upto hb
        have := h2.length_le
        obtain ⟨t', h3, h4, h5⟩ := ih l' (by simp at hl; omega) h1
        exact ⟨t', h3, h4, (h5.trans h2).trans (suffix_cons _ _)⟩
    · exact ⟨t, hp, hb, suffix_refl _⟩

theorem Reach.entry (h : G.entry a) : G.Reach a := ⟨_, .entry h⟩

theorem Reach.step (h : G.Reach a) (he : G.edge a b) : G.Reach b :=
  have ⟨_, hl⟩ := h
  ⟨_, .step hl he⟩

/-- What holds of the entries and along edges holds of the reachable nodes. -/
theorem Reach.induction {P : α → Prop} (h : G.Reach b) (h0 : ∀ a, G.entry a → P a)
    (h1 : ∀ a b, G.Reach a → P a → G.edge a b → P b) : P b := by
  obtain ⟨l, hl⟩ := h
  induction hl with
  | entry he => exact h0 _ he
  | step hp he ih => exact h1 _ _ ⟨_, hp⟩ ih he

theorem Dom.refl (b : α) : G.Dom b b := fun _ hl => hl.mem

theorem Dom.trans (h1 : G.Dom c d) (h2 : G.Dom d b) : G.Dom c b := by
  intro l hl
  obtain ⟨l', h3, h4⟩ := hl.upto (h2 l hl)
  exact h4.subset (h1 l' h3)

/-- A strict dominator of a node dominates each of its predecessors. -/
theorem Dom.step (h : G.Dom d b) (he : G.edge a b) (hne : d ≠ b) : G.Dom d a := by
  intro l hl
  exact (List.mem_cons.1 (h _ (.step hl he))).resolve_left hne

/-- An entry is dominated by itself alone. -/
theorem Dom.of_entry (h : G.Dom d b) (hb : G.entry b) : d = b :=
  List.mem_singleton.1 (h _ (.entry hb))

/-- The only entry dominates every node. -/
theorem Dom.of_sole_entry (h : ∀ a, G.entry a → a = d) (b : α) : G.Dom d b := by
  intro l hl
  induction hl with
  | entry he => exact h _ he ▸ mem_cons_self
  | step _ _ ih => exact mem_cons_of_mem _ ih

theorem Dom.reach (h : G.Dom d b) (hb : G.Reach b) : G.Reach d := by
  obtain ⟨l, hl⟩ := hb
  exact hl.reach (h l hl)

/-- Dominance is antisymmetric on reachable nodes: a shortest path to `a` would pass through `b`
and, before that, through `a`. -/
theorem Dom.antisymm (hr : G.Reach a) (h1 : G.Dom a b) (h2 : G.Dom b a) : a = b := by
  by_contra hne
  obtain ⟨l, hl⟩ := hr
  obtain ⟨t, hp, hnot, _⟩ := hl.first_arrival
  have hb : b ∈ t := (List.mem_cons.1 (h2 _ hp)).resolve_left (fun h => hne h.symm)
  cases hp with
  | entry _ => cases hb
  | step hp' _ =>
    obtain ⟨l', h3, h4⟩ := hp'.upto hb
    exact hnot (h4.subset (h1 l' h3))

/-- A node dominates `b` when every path that ends in its first visit of `b` passes through it. -/
theorem Dom.of_first_arrival (h : ∀ t, G.Path (b :: t) b → b ∉ t → d ∈ b :: t) : G.Dom d b := by
  intro l hl
  obtain ⟨t, h1, h2, h3⟩ := hl.first_arrival
  exact h3.subset (h t h1 h2)

/-- A node that is no entry is entered for the first time through an edge from a node it does not
dominate. -/
theorem Reach.first_edge (h : G.Reach b) (hb : ¬ G.entry b) : ∃ a, G.edge a b ∧ ¬ G.Dom b a := by
  obtain ⟨l, hl⟩ := h
  obtain ⟨t, hp, hnot, _⟩ := hl.first_arrival
  cases hp with
  | entry h => exact absurd h hb
  | step hp' he => exact ⟨_, he, fun hdom => hnot (hdom _ hp')⟩

/-- What dominates the sources of all edges through which a node can be entered for the first time
dominates the node. -/
theorem Dom.of_first_edges (hb : ¬ G.entry b) (h : ∀ a, G.edge a b → ¬ G.Dom b a → G.Dom d a) :
    G.Dom d b := by
  refine .of_first_arrival fun t hp hnot => ?_
  cases hp with
  | entry h => exact absurd h hb
  | step hp' he => exact mem_cons_of_mem _ (h _ he (fun hdom => hnot (hdom _ hp')) _ hp')

/-- Nodes have depths that are smaller at strict dominators: the lengths of shortest paths. -/
theorem exists_depth (G : Flow α) :
    ∃ depth : α → Nat, ∀ d b, G.Reach b → G.Dom d b → d ≠ b → depth d < depth b := by
  classical
  have hlen : ∀ {b : α}, G.Reach b → ∃ n l, G.Path l b ∧ l.length = n :=
    fun ⟨l, hl⟩ => ⟨l.length, l, hl, rfl⟩
  refine ⟨fun b => if h : G.Reach b then Nat.find (hlen h) else 0, fun d b hb hdom hne => ?_⟩
  have hd := hdom.reach hb
  simp only [dif_pos hb, dif_pos hd]
  obtain ⟨l, hl, hn⟩ := Nat.find_spec (hlen hb)
  rw [← hn]
  cases hl with
  | entry he => exact absurd (List.mem_singleton.1 (hdom _ (.entry he))) hne
  | step hp he =>
    -- the path up to the dominator is shorter
    have hmem := (List.mem_cons.1 (hdom _ (.step hp he))).resolve_left hne
    obtain ⟨l', hl', hsuf⟩ := hp.upto hmem
    have h1 := Nat.find_min' (hlen hd) ⟨l', hl', rfl⟩
    have h2 := hsuf.length_le
    simp only [length_cons]
    omega

end Flow

end V86
