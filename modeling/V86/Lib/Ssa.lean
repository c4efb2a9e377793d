import V86.Lib.Dominance

/-!
# Programs in static single assignment form

A program is a flow graph whose blocks have parameters and a list of instructions; an instruction
uses and defines values. It is in SSA form (`Ssa.Valid`) when every value has one definition and
every use comes after it: the definition is above in the dominator tree or earlier in the block
(`Ssa.Avail`).

The point of the form is that what an instruction has made true of its operands and results stays
true as long as the results are available, because none of them is assigned in between. An equation
of this kind that every instruction establishes holds at every point its instruction dominates, of
every state a run reaches (`Ssa.Interp.At.settled`).
-/

namespace V86

open List

/-- A program: blocks `B` with parameters, instructions `I`, values `V`. -/
structure Ssa (B I V : Type) where
  flow : Flow B
  body : B → List I
  params : B → V → Prop
  defs : I → List V
  uses : I → List V

namespace Ssa

variable {B I V : Type} {c : Ssa B I V} {b d t : B} {pre pre' post : List I} {id id' : I} {v a : V}

/-- The value is available at block `b` behind the instructions `pre` of it. -/
inductive Avail (c : Ssa B I V) (b : B) (pre : List I) : V → Prop
  | param {d : B} {v : V} : c.params d v → c.flow.Dom d b → Avail c b pre v
  | above {d : B} {id : I} {v : V} : id ∈ c.body d → v ∈ c.defs id → d ≠ b → c.flow.Dom d b →
      Avail c b pre v
  | here {id : I} {v : V} : id ∈ pre → v ∈ c.defs id → Avail c b pre v

/-- The form: one definition for each value, and every use behind it. -/
structure Valid (c : Ssa B I V) : Prop where
  reach : ∀ {b : B}, c.body b ≠ [] → c.flow.Reach b
  nodup : ∀ b : B, (c.body b).Nodup
  block : ∀ {b b' : B} {id : I}, id ∈ c.body b → id ∈ c.body b' → b = b'
  result : ∀ {b b' : B} {id id' : I} {v : V}, id ∈ c.body b → id' ∈ c.body b' →
    v ∈ c.defs id → v ∈ c.defs id' → id = id'
  param : ∀ {b b' : B} {v : V}, c.params b v → c.params b' v → b = b'
  separate : ∀ {b b' : B} {id : I} {v : V}, c.params b v → id ∈ c.body b' → v ∉ c.defs id
  uses : ∀ {b : B} {pre post : List I} {id : I} {v : V}, c.body b = pre ++ id :: post →
    v ∈ c.uses id → Avail c b pre v

/-- The instruction is done at a point: its block is strictly above, or it is behind the point. -/
def Done (c : Ssa B I V) (b : B) (pre : List I) (d : B) (id : I) : Prop :=
  d ≠ b ∧ c.flow.Dom d b ∨ d = b ∧ id ∈ pre

namespace Valid

theorem reach_of_mem (h : c.Valid) (hid : id ∈ c.body b) : c.flow.Reach b :=
  h.reach (ne_nil_of_mem hid)

/-- The instruction at a position of a block is not one of those before it. -/
theorem not_mem_pre (h : c.Valid) (hsplit : c.body b = pre ++ id :: post) : id ∉ pre := by
  intro hid
  have hnd := h.nodup b
  rw [hsplit, nodup_append] at hnd
  exact hnd.2.2 id hid id mem_cons_self rfl

/-- The instructions before one in its block are those of any list that is cut off behind it. -/
theorem pre_subset (h : c.Valid) (hsplit : c.body b = pre' ++ id :: post) (hpre : pre <+: c.body b)
    (hid : id ∈ pre) : pre' ⊆ pre := by
  obtain ⟨pre₁, post₁, rfl⟩ := append_of_mem hid
  obtain ⟨rest, hrest⟩ := hpre
  have hsame : pre' ++ id :: post = pre₁ ++ id :: (post₁ ++ rest) := by
    rw [← hsplit, ← hrest, append_assoc, cons_append]
  have hnot := h.not_mem_pre hsplit
  have hnot' : id ∉ post := by
    have hnd := h.nodup b
    rw [hsplit, nodup_append, nodup_cons] at hnd
    exact hnd.2.1.1
  have heq := ((append_cons_inj_of_notMem hnot hnot').1 hsame).1
  rw [heq]
  exact subset_append_left _ _

end Valid

namespace Avail

theorem mono (hv : c.Avail b pre v) (hsub : pre ⊆ pre') : c.Avail b pre' v := by
  cases hv with
  | param hv hdom => exact .param hv hdom
  | above hid hv hne hdom => exact .above hid hv hne hdom
  | here hid hv => exact .here (hsub hid) hv

/-- What is available in a strict dominator is available below it. -/
theorem down (h : c.Valid) (hpre : pre ⊆ c.body d) (hne : d ≠ b)
    (hdom : c.flow.Dom d b) (hv : c.Avail d pre v) : c.Avail b pre' v := by
  cases hv with
  | param hv hdom' => exact .param hv (hdom'.trans hdom)
  | @above e id _ hid hv hne' hdom' =>
    refine .above hid hv (fun hb => ?_) (hdom'.trans hdom)
    subst hb
    exact hne' (hdom'.antisymm (h.reach_of_mem hid) hdom)
  | here hid hv => exact .above (hpre hid) hv hne hdom

/-- Where a result is available, its instruction is done. -/
theorem done (h : c.Valid) (hpre : pre ⊆ c.body b) (hid : id ∈ c.body d) (hres : v ∈ c.defs id)
    (hv : c.Avail b pre v) : c.Done b pre d id := by
  cases hv with
  | param hv _ => exact absurd hres (h.separate hv hid)
  | @above e id' _ hid' hv hne hdom =>
    obtain rfl := h.result hid' hid hv hres
    obtain rfl := h.block hid' hid
    exact .inl ⟨hne, hdom⟩
  | @here id' _ hid' hv =>
    obtain rfl := h.result (hpre hid') hid hv hres
    exact .inr ⟨h.block hid (hpre hid'), hid'⟩

/-- Where a parameter is available, its block dominates. -/
theorem dom_of_param (h : c.Valid) (hpre : pre ⊆ c.body b) (hparam : c.params t v)
    (hv : c.Avail b pre v) : c.flow.Dom t b := by
  cases hv with
  | param hv hdom => exact h.param hv hparam ▸ hdom
  | above hid hv _ _ => exact absurd hv (h.separate hparam hid)
  | here hid hv => exact absurd hv (h.separate hparam (hpre hid))

/-- What a done instruction uses is available. -/
theorem of_done (h : c.Valid) (hpre : pre <+: c.body b) (hid : id ∈ c.body d)
    (hdone : c.Done b pre d id) (ha : a ∈ c.uses id) : c.Avail b pre a := by
  obtain ⟨pre₀, post₀, hsplit⟩ := append_of_mem hid
  have hav := h.uses hsplit ha
  rcases hdone with ⟨hne, hdom⟩ | ⟨rfl, hmem⟩
  · exact hav.down h (hsplit ▸ subset_append_left _ _) hne hdom
  · exact hav.mono (h.pre_subset hsplit hpre hmem)

/-- What an available result was computed from is available. -/
theorem use (h : c.Valid) (hpre : pre <+: c.body b) (hid : id ∈ c.body d) (hres : v ∈ c.defs id)
    (hv : c.Avail b pre v) (ha : a ∈ c.uses id) : c.Avail b pre a :=
  of_done h hpre hid (hv.done h hpre.subset hid hres) ha

/-- An available value is not a result of the instruction that comes next. -/
theorem not_mem_defs (h : c.Valid) (hsplit : c.body b = pre ++ id :: post)
    (hv : c.Avail b pre v) : v ∉ c.defs id := by
  intro hres
  have hid : id ∈ c.body b := hsplit ▸ mem_append_right _ mem_cons_self
  rcases hv.done h (hsplit ▸ subset_append_left _ _) hid hres with ⟨hne, -⟩ | ⟨-, hmem⟩
  · exact hne rfl
  · exact h.not_mem_pre hsplit hmem

/-- What a done instruction of another block uses is no parameter of a block that follows. -/
theorem not_param (h : c.Valid) (hid : id ∈ c.body d) (hne : d ≠ t) (hdom : c.flow.Dom d t)
    (ha : a ∈ c.uses id) : ¬ c.params t a := by
  intro hparam
  obtain ⟨pre₀, post₀, hsplit⟩ := append_of_mem hid
  have hback := (h.uses hsplit ha).dom_of_param h (hsplit ▸ subset_append_left _ _) hparam
  exact hne (hdom.antisymm (h.reach_of_mem hid) hback)

end Avail

/-! ## Runs -/

/-- How a program runs: what the values are in a state, what an instruction and an edge do. They
assign nothing but the results and the parameters. -/
structure Interp (c : Ssa B I V) (σ α : Type) where
  env : σ → V → α
  step : I → σ → σ → Prop
  edge : B → B → σ → σ → Prop
  step_frame : ∀ {id : I} {s s' : σ} {v : V}, step id s s' → v ∉ c.defs id → env s' v = env s v
  edge_frame : ∀ {b t : B} {s s' : σ} {v : V}, edge b t s s' → ¬ c.params t v → env s' v = env s v

namespace Interp

variable {σ α : Type} {m : c.Interp σ α} {s s' : σ}

/-- The points a run reaches: a block, the instructions of it that are done, and the state. -/
inductive At (m : c.Interp σ α) : B → List I → σ → Prop
  | entry {b : B} {s : σ} : c.flow.entry b → At m b [] s
  | step {b : B} {pre post : List I} {id : I} {s s' : σ} : At m b pre s →
      c.body b = pre ++ id :: post → m.step id s s' → At m b (pre ++ [id]) s'
  | edge {b t : B} {s s' : σ} : At m b (c.body b) s → c.flow.edge b t → m.edge b t s s' →
      At m t [] s'

theorem At.prefix (h : m.At b pre s) : pre <+: c.body b := by
  cases h with
  | entry _ => exact nil_prefix
  | step _ hsplit _ => exact ⟨_, by rw [hsplit, append_assoc, singleton_append]⟩
  | edge _ _ _ => exact nil_prefix

/-- What an instruction makes true of the values it uses and defines. -/
structure Equation (m : c.Interp σ α) where
  holds : I → (V → α) → Prop
  congr : ∀ {id : I} {e e' : V → α}, (∀ v ∈ c.defs id, e' v = e v) → (∀ v ∈ c.uses id, e' v = e v) →
    holds id e → holds id e'
  step : ∀ {id : I} {s s' : σ}, m.step id s s' → (∀ v ∈ c.uses id, m.env s' v = m.env s v) →
    holds id (m.env s')

/-- What the instructions that are done have made true holds at every point a run reaches. -/
theorem At.settled (h : c.Valid) (eqn : m.Equation) (hat : m.At b pre s) :
    ∀ {d : B} {id : I}, id ∈ c.body d → c.Done b pre d id → eqn.holds id (m.env s) := by
  induction hat with
  | entry he =>
    intro d id hid hdone
    rcases hdone with ⟨hne, hdom⟩ | ⟨-, hmem⟩
    · exact absurd (hdom.of_entry he) hne
    · cases hmem
  | @step b pre post next s s' hat hsplit hstep ih =>
    intro d id hid hdone
    have hpre : pre <+: c.body b := hat.prefix
    have huses : ∀ v ∈ c.uses next, m.env s' v = m.env s v := fun v hv =>
      m.step_frame hstep ((h.uses hsplit hv).not_mem_defs h hsplit)
    by_cases hnext : id = next
    · subst hnext
      exact eqn.step hstep huses
    · -- an older instruction: neither its results nor its operands are assigned
      have hold : c.Done b pre d id := by
        rcases hdone with habove | ⟨rfl, hmem⟩
        · exact .inl habove
        · refine .inr ⟨rfl, (List.mem_append.1 hmem).resolve_right fun hm => ?_⟩
          exact hnext (List.mem_singleton.1 hm)
      have hmem : next ∈ c.body b := hsplit ▸ mem_append_right _ mem_cons_self
      refine eqn.congr (fun v hv => m.step_frame hstep fun hres => ?_) (fun v hv => ?_)
        (ih hid hold)
      · exact hnext (h.result hid hmem hv hres)
      · exact m.step_frame hstep ((Avail.of_done h hpre hid hold hv).not_mem_defs h hsplit)
  | @edge b t s s' hat hedge hcopy ih =>
    intro d id hid hdone
    rcases hdone with ⟨hne, hdom⟩ | ⟨-, hmem⟩
    · have hstep := hdom.step hedge hne
      have hold : c.Done b (c.body b) d id := by
        by_cases hdb : d = b
        · exact .inr ⟨hdb, hdb ▸ hid⟩
        · exact .inl ⟨hdb, hstep⟩
      refine eqn.congr (fun v hv => m.edge_frame hcopy fun hp => h.separate hp hid hv)
        (fun v hv => m.edge_frame hcopy (Avail.not_param h hid hne hdom hv)) (ih hid hold)
    · cases hmem

/-- The equation of an available result. -/
theorem At.settled_of_avail (h : c.Valid) (eqn : m.Equation) (hat : m.At b pre s)
    (hid : id ∈ c.body d) (hres : v ∈ c.defs id) (hv : c.Avail b pre v) : eqn.holds id (m.env s) :=
  hat.settled h eqn hid (hv.done h hat.prefix.subset hid hres)

end Interp

end Ssa

end V86
