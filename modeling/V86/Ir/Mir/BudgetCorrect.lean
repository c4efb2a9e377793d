import V86.Ir.Mir.Budget

/-!
# Reserved credits are exact

An activation runs the instructions of a block in order and pays the credits of every poll it
passes (`Executes`), after those of the block itself (`Visits`). What a list of instructions pays
depends on its polls alone (`Executes.paid`), so a certificate, which adds up the polls of a body
and of a latch, is the number of credits any completed run of them takes
(`budget_batches_exact`).
-/

namespace V86.Ir.Mir.Budget

open Exec List

/-! ## Activations -/

/-- What the emitted code does besides counting credits: the epoch check of a poll, and the plans
of the other instructions. Each may leave the region. -/
structure Machine (σ : Type) where
  epoch : Option StateId → σ → Option σ
  act : Action → σ → Option σ
  copy : Edge → σ → σ

/-- An activation of a region: the credits that remain, and everything else. -/
structure Activation (σ : Type) where
  remaining : Nat
  state : σ

section
variable {σ : Type} (m : Machine σ) (data : MirData)

/-- `Executes m data l a polls a'`: the instructions `l` run from `a` to `a'` without leaving the
region, and pass polls of the costs `polls`. -/
inductive Executes : List InstId → Activation σ → List Nat → Activation σ → Prop
  | done (a : Activation σ) : Executes [] a [] a
  | poll {id : InstId} {rest : List InstId} {a a' : Activation σ} {p : Poll} {s : σ}
      {polls : List Nat} : data.action id = some (.poll p) → p.cost ≤ a.remaining →
      m.epoch (some p.recovery) a.state = some s →
      Executes rest ⟨a.remaining - p.cost, s⟩ polls a' → Executes (id :: rest) a (p.cost :: polls) a'
  | act {id : InstId} {rest : List InstId} {a a' : Activation σ} {action : Action} {s : σ}
      {polls : List Nat} : data.action id = some action → (∀ p, action ≠ .poll p) →
      m.act action a.state = some s → Executes rest ⟨a.remaining, s⟩ polls a' →
      Executes (id :: rest) a polls a'

/-- `Visits m data b a polls next a'`: control enters block `b`, which takes the block's own
credits, runs its instructions and goes on to `next`. -/
inductive Visits (b : BlockId) : Activation σ → List Nat → BlockId → Activation σ → Prop
  | visit {block : Block} {a a' : Activation σ} {s : σ} {polls : List Nat} {edge : Edge} :
      data.control.blocks[b]? = some block → block.budgetCost ≤ a.remaining →
      m.epoch block.recovery a.state = some s →
      Executes m data block.instructions ⟨a.remaining - block.budgetCost, s⟩ polls a' →
      edge ∈ block.terminator.edges →
      Visits b a (block.budgetCost :: polls) edge.target ⟨a'.remaining, m.copy edge a'.state⟩

end

/-- The polls among a list of instructions. -/
def pollsOf (data : MirData) (l : List InstId) : List Poll :=
  l.filterMap (planAt data.control.polls)

section
variable {σ : Type} {m : Machine σ} {data : MirData} {l : List InstId} {a a' : Activation σ}
  {polls : List Nat} {b next : BlockId} {id : InstId}

theorem action_of_poll {p : Poll} (h : planAt data.control.polls id = some p) :
    data.action id = some (.poll p) := by
  rw [MirData.action, h]

theorem poll_of_action {p : Poll} (h : data.action id = some (.poll p)) :
    planAt data.control.polls id = some p := by
  unfold MirData.action at h
  split at h <;> cases h
  assumption

/-- A run passes the polls of its instructions, all of them and in order, and pays for each. -/
theorem Executes.paid (h : Executes m data l a polls a') :
    polls = (pollsOf data l).map (·.cost) ∧ a.remaining = polls.sum + a'.remaining := by
  induction h with
  | done a => exact ⟨rfl, (Nat.zero_add _).symm⟩
  | @poll id rest a a' p s polls haction hcost hepoch hrest ih =>
    obtain ⟨hpolls, hpaid⟩ := ih
    have hplan := poll_of_action haction
    constructor
    · rw [pollsOf, filterMap_cons_some hplan, map_cons, hpolls]
      rfl
    · dsimp only at hpaid
      rw [sum_cons]
      omega
  | @act id rest a a' action s polls haction hother hact hrest ih =>
    obtain ⟨hpolls, hpaid⟩ := ih
    have hplan : planAt data.control.polls id = none := by
      cases hpoll : planAt data.control.polls id with
      | none => rfl
      | some p =>
        have hsame := haction.symm.trans (action_of_poll hpoll)
        exact absurd (Option.some.inj hsame) (hother p)
    exact ⟨by rw [pollsOf, filterMap_cons_none hplan, hpolls]; rfl, hpaid⟩

/-- A visit pays the credits of the block and those of the polls in it. -/
theorem Visits.paid {block : Block} (h : Visits m data b a polls next a')
    (hb : data.control.blocks[b]? = some block) : a.remaining =
      block.budgetCost + ((pollsOf data block.instructions).map (·.cost)).sum + a'.remaining ∧
    ∃ edge ∈ block.terminator.edges, edge.target = next := by
  cases h with
  | visit hb' hcost hepoch hrun hedge =>
    cases hb.symm.trans hb'
    obtain ⟨hpolls, hpaid⟩ := hrun.paid
    subst hpolls
    dsimp only at hpaid ⊢
    exact ⟨by omega, _, hedge, rfl⟩

end

/-! ## What the certificates count -/

section
variable {data : MirData} {id : InstId} {l : List InstId}

/-- An instruction that does not observe only polls or computes from values and CPU state. -/
theorem observes_false (h : observes data id = .ok false) :
    planAt data.memory id = none ∧ planAt data.effects id = none ∧ planAt data.calls id = none ∧
      ((∃ p, data.action id = some (.poll p)) ∨
        ∃ v, data.action id = some (.value v) ∧ ∀ step ∈ v.steps, step.readsImport = false) := by
  unfold observes at h
  obtain ⟨memory, hmemory, h⟩ := bind_eq_ok.1 h
  split at h
  · cases h
  rename_i hm
  obtain ⟨effect, heffect, h⟩ := bind_eq_ok.1 h
  split at h
  · cases h
  rename_i he
  obtain ⟨call, hcall, h⟩ := bind_eq_ok.1 h
  split at h
  · cases h
  rename_i hc
  rw [Bool.not_eq_true, Option.isSome_eq_false_iff, Option.isNone_iff_eq_none] at hm he hc
  subst hm he hc
  have hmemory := planAt_of_get (idx_eq_ok.1 hmemory)
  have heffect := planAt_of_get (idx_eq_ok.1 heffect)
  have hcall := planAt_of_get (idx_eq_ok.1 hcall)
  refine ⟨hmemory, heffect, hcall, ?_⟩
  obtain ⟨poll, hpoll, h⟩ := bind_eq_ok.1 h
  have hpoll := planAt_of_get (idx_eq_ok.1 hpoll)
  split at h
  · rename_i hsome
    obtain ⟨p, rfl⟩ := Option.isSome_iff_exists.1 hsome
    exact .inl ⟨p, action_of_poll hpoll⟩
  · rename_i hnone
    rw [Bool.not_eq_true, Option.isSome_eq_false_iff, Option.isNone_iff_eq_none] at hnone
    subst hnone
    obtain ⟨value, hvalue, h⟩ := bind_eq_ok.1 h
    have hvalue := planAt_of_get (idx_eq_ok.1 hvalue)
    cases value with
    | none => cases h
    | some v =>
      refine .inr ⟨v, ?_, ?_⟩
      · rw [MirData.action, hpoll, hmemory, heffect, hcall, hvalue]
      · have hany : v.steps.any Step.readsImport = false := by simpa using h
        exact fun step hs => eq_false_of_ne_true (List.any_eq_false.1 hany step hs)

theorem checkedAdd_eq_some {a b c : Nat} (h : checkedAdd a b = some c) : c = a + b := by
  unfold checkedAdd at h
  split at h
  · exact (Option.some.inj h).symm
  · cases h

theorem pollsOf_cons_none (h : planAt data.control.polls id = none) :
    pollsOf data (id :: l) = pollsOf data l := filterMap_cons_none h

theorem pollsOf_cons_some {p : Poll} (h : planAt data.control.polls id = some p) :
    pollsOf data (id :: l) = p :: pollsOf data l := filterMap_cons_some h

/-- `credits` counts the polls, which all cost one credit. -/
theorem credits_ok {cost cost' : Nat} {pure pure' : Bool}
    (h : credits data l cost pure = .ok (some (cost', pure'))) :
    (∀ p ∈ pollsOf data l, p.cost = 1) ∧ cost' = cost + (pollsOf data l).length ∧
      (pure' = true → pure = true ∧ ∀ id ∈ l, observes data id = .ok false) := by
  induction l generalizing cost pure with
  | nil =>
    cases h
    exact ⟨nofun, rfl, fun hp => ⟨hp, nofun⟩⟩
  | cons id rest ih =>
    rw [credits] at h
    obtain ⟨observed, hobserved, h⟩ := bind_eq_ok.1 h
    obtain ⟨poll, hpoll, h⟩ := bind_eq_ok.1 h
    have hplan := planAt_of_get (idx_eq_ok.1 hpoll)
    -- the rest is counted from either cost with the same flag
    have hpure : ∀ {c : Nat}, credits data rest c (pure && !observed) = .ok (some (cost', pure')) →
        pure' = true → pure = true ∧ ∀ i ∈ id :: rest, observes data i = .ok false := by
      intro c hc htrue
      obtain ⟨-, -, hflag⟩ := ih hc
      obtain ⟨hboth, hall⟩ := hflag htrue
      rw [Bool.and_eq_true, Bool.not_eq_true'] at hboth
      exact ⟨hboth.1, List.forall_mem_cons.2 ⟨hboth.2 ▸ hobserved, hall⟩⟩
    cases poll with
    | none =>
      obtain ⟨hone, hcost, -⟩ := ih h
      rw [pollsOf_cons_none hplan]
      exact ⟨hone, hcost, hpure h⟩
    | some p =>
      dsimp only at h
      split at h
      · cases h
      rename_i hp
      split at h
      · cases h
      rename_i c hc
      obtain ⟨hone, hcost, -⟩ := ih h
      rw [pollsOf_cons_some hplan, length_cons]
      have hc := checkedAdd_eq_some hc
      exact ⟨List.forall_mem_cons.2 ⟨not_not.1 hp, hone⟩, by omega, hpure h⟩

/-- `latch` adds the credits of a latch that may be prepaid. -/
theorem latch_ok {valid : Bool} {cost cost' : Nat}
    (h : latch data l valid cost = .ok (some (true, cost'))) :
    valid = true ∧ cost' = cost + ((pollsOf data l).map (·.cost)).sum := by
  induction l generalizing valid cost with
  | nil =>
    cases h
    exact ⟨rfl, rfl⟩
  | cons id rest ih =>
    rw [latch] at h
    obtain ⟨observed, -, h⟩ := bind_eq_ok.1 h
    obtain ⟨value, -, h⟩ := bind_eq_ok.1 h
    obtain ⟨poll, hpoll, h⟩ := bind_eq_ok.1 h
    have hplan := planAt_of_get (idx_eq_ok.1 hpoll)
    cases poll with
    | none =>
      obtain ⟨hvalid, hcost⟩ := ih h
      rw [Bool.and_eq_true, Bool.and_eq_true] at hvalid
      rw [pollsOf_cons_none hplan]
      exact ⟨hvalid.1.1, hcost⟩
    | some p =>
      dsimp only at h
      split at h
      · cases h
      rename_i c hc
      obtain ⟨hvalid, hcost⟩ := ih h
      rw [Bool.and_eq_true, Bool.and_eq_true, Bool.and_eq_true] at hvalid
      rw [pollsOf_cons_some hplan, map_cons, sum_cons]
      have hc := checkedAdd_eq_some hc
      exact ⟨hvalid.1.1.1, by omega⟩

end

/-- The way back of a loop: directly, or through a latch whose credits are counted. -/
inductive ComesBack (data : MirData) (id : BlockId) : LoopBackedge → Prop
  | direct : ComesBack data id ⟨id, 0⟩
  | latch {target : BlockId} {block : Block} {back : Edge} :
      target ≠ id → data.control.blocks[target]? = some block →
      block.terminator = .jump back → back.target = id →
      ComesBack data id
        ⟨target, block.budgetCost + ((pollsOf data block.instructions).map (·.cost)).sum⟩

section
variable {data : MirData} {id : BlockId} {backedge : LoopBackedge}

theorem latchEdge_ok {edges : List Edge} (hother : ∀ edge ∈ edges, edge.target ≠ id)
    (h : latchEdge data id edges = .ok (some backedge)) :
    ComesBack data id backedge ∧ ∃ edge ∈ edges, edge.target = backedge.target := by
  induction edges with
  | nil => cases h
  | cons edge rest ih =>
    obtain ⟨hne, hother⟩ := List.forall_mem_cons.1 hother
    rw [latchEdge] at h
    obtain ⟨block, hblock, h⟩ := bind_eq_ok.1 h
    have hrest : latchEdge data id rest = .ok (some backedge) →
        ComesBack data id backedge ∧ ∃ e ∈ edge :: rest, e.target = backedge.target := by
      intro hr
      obtain ⟨hback, e, he, htarget⟩ := ih hother hr
      exact ⟨hback, e, mem_cons_of_mem _ he, htarget⟩
    split at h
    · rename_i back hjump
      split at h
      · exact hrest h
      rename_i hsmall
      rw [not_or, not_or, not_not] at hsmall
      obtain ⟨result, hlatch, h⟩ := bind_eq_ok.1 h
      split at h
      · cases h
      · cases h
        obtain ⟨-, rfl⟩ := latch_ok hlatch
        exact ⟨.latch hne (idx_eq_ok.1 hblock) hjump hsmall.1, edge, mem_cons_self, rfl⟩
      · exact hrest h
    · exact hrest h

theorem loopBackedge_ok (h : loopBackedge data id = .ok (some backedge)) :
    ComesBack data id backedge ∧ ∃ block, data.control.blocks[id]? = some block ∧
      ∃ edge ∈ block.terminator.edges, edge.target = backedge.target := by
  unfold loopBackedge at h
  obtain ⟨block, hblock, h⟩ := bind_eq_ok.1 h
  have hblock := idx_eq_ok.1 hblock
  dsimp only at h
  split at h
  · rename_i hany
    cases h
    obtain ⟨edge, hedge, htarget⟩ := List.any_eq_true.1 hany
    exact ⟨.direct, block, hblock, edge, hedge, beq_iff_eq.1 htarget⟩
  · rename_i hnone
    have hother : ∀ edge ∈ block.terminator.edges, edge.target ≠ id := by
      intro edge hedge htarget
      exact hnone (List.any_eq_true.2 ⟨edge, hedge, beq_iff_eq.2 htarget⟩)
    obtain ⟨hback, edge, hedge, htarget⟩ := latchEdge_ok hother h
    exact ⟨hback, block, hblock, edge, hedge, htarget⟩

/-- The body of a certificate: its polls, and its purity. -/
structure Body (data : MirData) (l : List InstId) (batch : Batch) : Prop where
  one : ∀ p ∈ pollsOf data (l.drop batch.start), p.cost = 1
  cost : batch.cost = (pollsOf data (l.drop batch.start)).length
  bound : batch.cost ≤ maxPolls
  pure : batch.pure = true → ∀ i ∈ l.drop batch.start, observes data i = .ok false

variable {batch : Batch} {block : Block}

theorem body_ok {l : List InstId} {start : Nat} (h : body data l start = .ok (some batch)) :
    Body data l batch ∧ batch.start = start ∧ batch.backedge = none := by
  unfold body at h
  split at h
  · cases h
  obtain ⟨result, hcredits, h⟩ := bind_eq_ok.1 h
  split at h
  · cases h
  rename_i cost pure
  split at h
  · rename_i hrange
    cases h
    obtain ⟨hone, hcost, hpure⟩ := credits_ok hcredits
    rw [Nat.zero_add] at hcost
    exact ⟨⟨hone, hcost, hrange.2, fun hp => (hpure hp).2⟩, rfl, rfl⟩
  · cases h

theorem suffixCertificate_ok (h : suffixCertificate data block = .ok (some batch)) :
    Body data block.instructions batch ∧ batch.backedge = none := by
  unfold suffixCertificate at h
  obtain ⟨observer, -, h⟩ := bind_eq_ok.1 h
  dsimp only at h
  obtain ⟨first, -, h⟩ := bind_eq_ok.1 h
  split at h
  · cases h
  · obtain ⟨hbody, -, hnone⟩ := body_ok h
    exact ⟨hbody, hnone⟩

theorem loopCertificate_ok (hb : data.control.blocks[id]? = some block)
    (h : loopCertificate data id block = .ok (some batch)) :
    Body data block.instructions batch ∧ batch.start = 0 ∧
      ∃ backedge, batch.backedge = some backedge ∧ ComesBack data id backedge ∧
        (∃ edge ∈ block.terminator.edges, edge.target = backedge.target) ∧
        batch.cost + block.budgetCost + backedge.cost ≤ 32 := by
  unfold loopCertificate at h
  obtain ⟨result, hback, h⟩ := bind_eq_ok.1 h
  split at h
  · cases h
  rename_i backedge
  obtain ⟨found, hbody, h⟩ := bind_eq_ok.1 h
  obtain ⟨inner, rfl, hinner⟩ := Option.bind_eq_some_iff.1 (Except.ok.inj h)
  split at hinner
  · rename_i hbound
    cases hinner
    obtain ⟨hpolls, hstart, -⟩ := body_ok hbody
    obtain ⟨hcomes, block', hb', hedge⟩ := loopBackedge_ok hback
    cases hb.symm.trans hb'
    exact ⟨⟨hpolls.one, hpolls.cost, hpolls.bound, hpolls.pure⟩, hstart, backedge, rfl, hcomes,
      hedge, hbound⟩
  · cases hinner

end

/-! ## Exact certificates -/

/-- What a certificate of block `id` promises of every run. -/
structure Batch.Exact (data : MirData) (id : BlockId) (block : Block) (batch : Batch) : Prop where
  /-- The rest of the block passes `cost` polls, of one credit each. -/
  passes : ∀ {σ : Type} {m : Machine σ} {a a' : Activation σ} {polls : List Nat},
    Executes m data (block.instructions.drop batch.start) a polls a' →
      polls = List.replicate batch.cost 1 ∧ a.remaining = batch.cost + a'.remaining
  /-- A certificate with a way back is about the whole block, and the way back is an edge. -/
  whole : ∀ backedge ∈ batch.backedge, batch.start = 0 ∧
    ∃ edge ∈ block.terminator.edges, edge.target = backedge.target
  /-- A visit that comes back directly is a trip around the loop. -/
  direct : ∀ backedge ∈ batch.backedge, backedge.target = id →
    ∀ {σ : Type} {m : Machine σ} {a a' : Activation σ} {polls : List Nat},
      Visits m data id a polls id a' →
        a.remaining = batch.cost + 1 + backedge.cost + a'.remaining
  /-- After a latch control is at the block again, and the two visits are a trip. -/
  latch : ∀ backedge ∈ batch.backedge, backedge.target ≠ id →
    ∀ {σ : Type} {m : Machine σ} {a₀ a₁ a₂ : Activation σ} {polls polls' : List Nat}
      {next : BlockId}, Visits m data id a₀ polls backedge.target a₁ →
      Visits m data backedge.target a₁ polls' next a₂ →
        next = id ∧ a₁.remaining = backedge.cost + a₂.remaining ∧
        a₀.remaining = batch.cost + 1 + backedge.cost + a₂.remaining
  /-- No instruction of a pure body accesses memory, calls a helper or reads through an import. -/
  pure : batch.pure = true → ∀ i ∈ block.instructions.drop batch.start,
    planAt data.memory i = none ∧ planAt data.effects i = none ∧ planAt data.calls i = none ∧
      ((∃ p, data.action i = some (.poll p)) ∨
        ∃ v, data.action i = some (.value v) ∧ ∀ step ∈ v.steps, step.readsImport = false)
  /-- The credits of the block, of the body and of the way back. -/
  total : block.budgetCost + batch.cost + (batch.backedge.elim 0 (·.cost)) ≤ 32

section
variable {data : MirData} {id : BlockId} {block : Block} {batch : Batch}

/-- The polls of a body cost as much as the certificate says. -/
theorem Body.costs {l : List InstId} (h : Body data l batch) :
    (pollsOf data (l.drop batch.start)).map (·.cost) = List.replicate batch.cost 1 := by
  rw [h.cost]
  exact List.map_eq_replicate_iff.2 h.one

/-- A certificate without a way back. -/
theorem Body.exact_suffix (h : Body data block.instructions batch) (hone : block.budgetCost = 1)
    (hnone : batch.backedge = none) : Batch.Exact data id block batch where
  passes hrun := by
    obtain ⟨hpolls, hpaid⟩ := hrun.paid
    rw [h.costs] at hpolls
    rw [hpolls, sum_replicate_nat, Nat.mul_one] at hpaid
    exact ⟨hpolls, hpaid⟩
  whole backedge hb := by rw [hnone] at hb; cases hb
  direct backedge hb := by rw [hnone] at hb; cases hb
  latch backedge hb := by rw [hnone] at hb; cases hb
  pure hp i hi := observes_false (h.pure hp i hi)
  total := by
    have hbound : batch.cost ≤ 31 := h.bound
    rw [hnone, hone]
    change 1 + batch.cost + 0 ≤ 32
    omega

/-- A certificate of a loop: `block` is block `id`. -/
theorem Body.exact_loop {backedge : LoopBackedge} (h : Body data block.instructions batch)
    (hb : data.control.blocks[id]? = some block) (hone : block.budgetCost = 1)
    (hstart : batch.start = 0) (hsome : batch.backedge = some backedge)
    (hcomes : ComesBack data id backedge)
    (hedge : ∃ edge ∈ block.terminator.edges, edge.target = backedge.target)
    (htotal : batch.cost + block.budgetCost + backedge.cost ≤ 32) :
    Batch.Exact data id block batch := by
  have hcosts : ((pollsOf data block.instructions).map (·.cost)).sum = batch.cost := by
    have hc := h.costs
    rw [hstart, drop_zero] at hc
    rw [hc, sum_replicate_nat, Nat.mul_one]
  refine ⟨fun hrun => ?_, fun e he => ?_, fun e he htarget _ _ _ _ _ hvisit => ?_,
    fun e he hother _ _ _ _ _ _ _ _ hvisit hlatch => ?_,
    fun hp i hi => observes_false (h.pure hp i hi), ?_⟩
  · obtain ⟨hpolls, hpaid⟩ := hrun.paid
    rw [h.costs] at hpolls
    rw [hpolls, sum_replicate_nat, Nat.mul_one] at hpaid
    exact ⟨hpolls, hpaid⟩
  · cases hsome.symm.trans he
    exact ⟨hstart, hedge⟩
  · cases hsome.symm.trans he
    obtain ⟨hpaid, -⟩ := hvisit.paid hb
    cases hcomes with
    | direct =>
      dsimp only
      omega
    | latch hne _ _ _ => exact absurd htarget hne
  · cases hsome.symm.trans he
    obtain ⟨hpaid, -⟩ := hvisit.paid hb
    cases hcomes with
    | direct => exact absurd rfl hother
    | @latch target lblock back _ hlb hjump hback =>
      obtain ⟨hpaid', edge, hedge', hnext⟩ := hlatch.paid hlb
      rw [hjump, Terminator.edges, mem_singleton] at hedge'
      subst hedge'
      dsimp only at hpaid' ⊢
      exact ⟨hnext.symm.trans hback, by omega, by omega⟩
  · rw [hsome, hone]
    change 1 + batch.cost + backedge.cost ≤ 32
    omega

theorem certificate_ok (h : certificate data id = .ok (some batch)) :
    ∃ block, data.control.blocks[id]? = some block ∧ Batch.Exact data id block batch := by
  unfold certificate at h
  obtain ⟨block, hblock, h⟩ := bind_eq_ok.1 h
  have hb := idx_eq_ok.1 hblock
  split at h
  · cases h
  rename_i hcost
  rw [not_or, not_not] at hcost
  obtain ⟨found, hloop, h⟩ := bind_eq_ok.1 h
  refine ⟨block, hb, ?_⟩
  cases found with
  | some found =>
    cases h
    obtain ⟨hbody, hstart, backedge, hsome, hcomes, hedge, htotal⟩ := loopCertificate_ok hb hloop
    exact hbody.exact_loop hb hcost.1 hstart hsome hcomes hedge htotal
  | none =>
    obtain ⟨hbody, hnone⟩ := suffixCertificate_ok h
    exact hbody.exact_suffix hcost.1 hnone

/-- The certificates of a list of blocks are theirs. -/
theorem certify_ok {ids : List BlockId} {count n : Nat} {batches : List (Option Batch)}
    (h : certify data ids count = .ok (batches, n)) {k : Nat}
    (hk : batches[k]? = some (some batch)) :
    ∃ id, ids[k]? = some id ∧ certificate data id = .ok (some batch) := by
  induction ids generalizing count batches k with
  | nil =>
    cases h
    cases hk
  | cons id rest ih =>
    rw [certify] at h
    split at h
    · cases h
      rw [List.getElem?_replicate] at hk
      split at hk <;> cases hk
    obtain ⟨first, hfirst, h⟩ := bind_eq_ok.1 h
    obtain ⟨⟨others, m⟩, hrest, h⟩ := bind_eq_ok.1 h
    cases h
    cases k with
    | zero =>
      cases Option.some.inj hk
      exact ⟨id, rfl, hfirst⟩
    | succ k => exact ih hrest hk

end

/-- A certificate that `enable` gives is exact, and a refused request leaves the data as it was. -/
theorem budget_batches_exact (data : MirData) (workLimit : Nat) :
    (∀ count, (enable data workLimit).1 = .ok count → ∀ b batch,
      planAt (enable data workLimit).2.pollBatches b = some batch →
        ∃ block, data.control.blocks[b]? = some block ∧ Batch.Exact data b block batch) ∧
    ∀ e, (enable data workLimit).1 = .error e → (enable data workLimit).2 = data := by
  unfold enable
  cases hbatches : batches data workLimit with
  | error e => exact ⟨nofun, fun _ _ => rfl⟩
  | ok result =>
    obtain ⟨found, n⟩ := result
    refine ⟨fun _ _ b batch hbatch => ?_, nofun⟩
    unfold batches at hbatches
    obtain ⟨_, -, hbatches⟩ := bind_eq_ok.1 hbatches
    obtain ⟨_, -, hbatches⟩ := bind_eq_ok.1 hbatches
    have hget : found[b]? = some (some batch) := by
      have hplan : planAt found b = some batch := hbatch
      rw [planAt] at hplan
      exact Option.join_eq_some_iff.1 hplan
    obtain ⟨id, hid, hcertificate⟩ := certify_ok hbatches hget
    obtain ⟨hlt, rfl⟩ := List.getElem?_eq_some_iff.1 hid
    rw [getElem_range] at hcertificate
    exact certificate_ok hcertificate

/-- A block that counts, polls twice and jumps to itself through a latch that polls once. -/
def countingLoop : MirData where
  valueTypes := [.i32]
  valueBlocks := [some 0]
  valueDefinitions := [some 0]
  helpers := []
  memory := [none, none, none, none]
  effects := [none, none, none, none]
  calls := [none, none, none, none]
  control :=
    { entries := [0]
      blocks := [⟨[0, 1, 2], some 0, 1, .jump ⟨1, [], []⟩⟩, ⟨[3], some 1, 1, .jump ⟨0, [], []⟩⟩]
      polls := [none, some ⟨0, 1⟩, some ⟨0, 1⟩, some ⟨1, 1⟩] }
  pollBatches := [none, none]
  values := [some ⟨0, [.i32 1]⟩, none, none, none]

/-- A trip around the counting loop takes two credits in the body, one for the block and two in the
latch. -/
theorem budget_batches_exact_counting : ∃ block, countingLoop.control.blocks[0]? = some block ∧
      Batch.Exact countingLoop 0 block ⟨0, 2, true, some ⟨1, 2⟩⟩ :=
  (budget_batches_exact countingLoop 1000).1 1 (by decide) 0 _ (by decide)

end V86.Ir.Mir.Budget
