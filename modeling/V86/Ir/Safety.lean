import V86.Ir.Passes.Rewrite

/-!
# What accepted regions promise

What the verifier gives to what runs a region. Along every run (`Region.Ran`: the states of
`Region.At` with the values assigned on the way) everything that is referred to next is there
(`Region.Ready`). An ordered operation takes the effect token that was made last, and the ticket of
an RMW load goes to its store with no ordered operation in between (`Paired`).
-/

namespace V86.Ir

open Exec Verify List

/-- The states between two instructions with the values that the run has assigned, in this order. -/
inductive Region.Ran (r : Region) : BlockId → List InstId → Env → List ValueId → Prop
  | entry {b : BlockId} {init : Nat → Val} : b ∈ r.entries →
      r.Ran b [] (r.startEnv b init) (r.params b)
  | inst {b : BlockId} {pre post : List InstId} {id : InstId} {e : Env} {assigned : List ValueId}
      {blk : Block} {inst : Instruction} {choice : Nat → Val} :
      r.Ran b pre e assigned → r.blocks[b]? = some blk → blk.instructions = pre ++ id :: post →
      r.instructions[id]? = some inst →
      r.Ran b (pre ++ [id]) (e.setAll inst.results (r.resultVals inst e choice))
        (assigned ++ inst.results)
  | edge {b : BlockId} {e : Env} {assigned : List ValueId} {blk : Block} {term : Terminator}
      {edge : Edge} :
      r.Ran b blk.instructions e assigned → r.blocks[b]? = some blk →
      blk.terminator = some term → term.taken e = some edge →
      r.Ran edge.target [] (e.setAll (r.params edge.target) (edge.args.map e))
        (assigned ++ r.params edge.target)

/-- The values were assigned and have their types. -/
def Region.Readable (r : Region) (e : Env) (assigned vs : List ValueId) : Prop :=
  ∀ v ∈ vs, v ∈ assigned ∧ (r.ty v).Fits (e v)

/-- The recovery map, if any, is there and its values can be read. -/
def Region.Recovers (r : Region) (e : Env) (assigned : List ValueId) (s : Option StateId) : Prop :=
  ∀ id, s = some id → ∃ map, r.states[id]? = some map ∧ r.Readable e assigned map.values

/-- What is referred to next is there: on entering the block, by the next instruction and at the
end of the block. -/
structure Region.Ready (r : Region) (b : BlockId) (pre : List InstId) (e : Env)
    (assigned : List ValueId) (blk : Block) (term : Terminator) : Prop where
  block : r.blocks[b]? = some blk
  point : pre <+: blk.instructions
  terminator : blk.terminator = some term
  enter : pre = [] → r.Recovers e assigned blk.entryState
  next : ∀ id post, blk.instructions = pre ++ id :: post → ∃ inst,
    r.instructions[id]? = some inst ∧ r.Readable e assigned inst.args ∧
    r.Recovers e assigned inst.state ∧ r.Recovers e assigned inst.commit
  condition : pre = blk.instructions → ∀ c t f, term = .condBranch c t f →
    r.ty c = .i1 ∧ r.Readable e assigned [c]
  exit : pre = blk.instructions → ∀ id, term = .exit id → r.Recovers e assigned (some id)
  edges : pre = blk.instructions → ∀ edge ∈ term.edges, r.Readable e assigned edge.args ∧
    ∃ target, r.blocks[edge.target]? = some target ∧
      edge.args.map r.ty = target.params.map r.ty

section
variable {r : Region} {b : BlockId} {blk : Block} {pre post : List InstId} {id : InstId}
  {inst : Instruction} {e : Env} {assigned : List ValueId} {c : Chain}

theorem Region.Ran.reached (hran : r.Ran b pre e assigned) : r.At b pre e := by
  induction hran with
  | entry hentry => exact .entry hentry
  | inst _ hb hsplit hinst ih => exact .inst ih hb hsplit hinst
  | edge _ hb hterm htaken ih => exact .edge ih hb hterm htaken

/-- An available value was assigned. -/
theorem Region.Ran.mem (h : WF r) (hran : r.Ran b pre e assigned) :
    ∀ {v : ValueId}, Avail r b pre v → v ∈ assigned := by
  induction hran with
  | @entry b init hentry =>
    intro v hv
    have hb := List.getElem?_eq_getElem (h.cfg.entry_lt b hentry)
    rw [Region.params_of_get hb]
    exact hv.of_entry hb hentry
  | inst _ hb hsplit hinst ih =>
    intro v hv
    rcases hv.of_snoc hinst with hv | hv
    · exact mem_append_left _ (ih hv)
    · exact mem_append_right _ hv
  | @edge b e assigned blk term edge _ hb hterm htaken ih =>
    intro v hv
    have hedge := Terminator.mem_edges_of_taken htaken
    obtain ⟨effect, _, hends⟩ := (h.block hb).chain
    obtain ⟨target, htarget⟩ := (hends term hterm).edges edge hedge
    by_cases hparam : v ∈ target.params
    · rw [Region.params_of_get htarget.get]
      exact mem_append_right _ hparam
    · refine mem_append_left _ (ih (hv.of_edge hb htarget.get ?_ hparam))
      rw [Region.succs_of_blocks hb, Block.succs, hterm]
      exact mem_map_of_mem hedge

theorem Region.Ran.readable (h : WF r) (hran : r.Ran b pre e assigned) {vs : List ValueId}
    (hvs : ∀ v ∈ vs, Avail r b pre v) : r.Readable e assigned vs :=
  fun v hv => ⟨hran.mem h (hvs v hv), (hran.reached.sound h).2.fits (hvs v hv)⟩

theorem Region.Ran.recovers (h : WF r) (hran : r.Ran b pre e assigned) {s : Option StateId}
    (hs : ∀ id, s = some id → ∃ map, StateOk r b pre id map) : r.Recovers e assigned s := by
  intro id hid
  obtain ⟨map, hmap⟩ := hs id hid
  exact ⟨map, hmap.get, hran.readable h hmap.avail⟩

/-- No run of an accepted region gets stuck or reads what it has not written. -/
theorem ready_of_verify (hok : verify r = .ok ()) (hran : r.Ran b pre e assigned) :
    ∃ blk term, r.Ready b pre e assigned blk term := by
  have h := verify_eq_ok.1 hok
  obtain ⟨blk, hb, hpoint⟩ := (hran.reached.sound h).1
  obtain ⟨term, hterm⟩ := h.cfg.terminated b blk hb
  obtain ⟨effect, _, hends⟩ := (h.block hb).chain
  have hend := hends term hterm
  refine ⟨blk, term, hb, hpoint, hterm, ?_, fun id post hsplit => ?_, ?_, ?_, ?_⟩
  · rintro rfl
    exact hran.recovers h (h.block hb).entryState
  · obtain ⟨inst, hinst, _⟩ := h.inst hb (show id ∈ blk.instructions by simp [hsplit])
    obtain ⟨c, c', _, hinstOk⟩ := h.instOk hb hsplit hinst
    refine ⟨inst, hinst, hran.readable h hinstOk.args, hran.recovers h hinstOk.state,
      hran.recovers h fun s hs => ?_⟩
    obtain ⟨_, _, after, hafter, _⟩ := hinstOk.commit s hs
    exact ⟨after, hafter⟩
  · rintro rfl c t f hcond
    obtain ⟨hav, hty⟩ := hend.cond c t f hcond
    exact ⟨hty, hran.readable h fun v hv => List.mem_singleton.1 hv ▸ hav⟩
  · rintro rfl id rfl
    exact hran.recovers h fun s hs => hend.exit s (by rw [Option.some.inj hs])
  · rintro rfl edge hedge
    obtain ⟨target, htarget⟩ := hend.edges edge hedge
    have harg : ∀ i (h₁ : i < edge.args.length) (h₂ : i < target.params.length),
        Avail r b blk.instructions edge.args[i] ∧ r.ty edge.args[i] = r.ty target.params[i] := by
      intro i h₁ h₂
      obtain ⟨hav, hty, _⟩ := htarget.args (edge.args[i], target.params[i])
        (List.mem_iff_getElem.2 ⟨i, by simp [h₁, h₂], by simp⟩)
      exact ⟨hav, hty⟩
    refine ⟨hran.readable h fun v hv => ?_, target, htarget.get,
      ext_getElem (by simp [htarget.arity]) fun i h₁ h₂ => ?_⟩
    · obtain ⟨i, hi, rfl⟩ := getElem_of_mem hv
      exact (harg i hi (htarget.arity ▸ hi)).1
    · rw [getElem_map, getElem_map]
      exact (harg i (by simpa using h₁) (by simpa using h₂)).2

end

/-! ## Effect tokens -/

/-- The effect token that the run has made last. -/
def Region.lastToken (r : Region) (assigned : List ValueId) : Option ValueId :=
  (assigned.filter (r.ty · = .effect)).getLast?

section
variable {r : Region} {b : BlockId} {blk : Block} {pre : List InstId} {e : Env}
  {assigned : List ValueId} {c : Chain}

/-- A block begins with the token of its parameter. -/
theorem Region.lastToken_params (h : WF r) (hb : r.blocks[b]? = some blk) {t : ValueId}
    (hc : Chained r b blk [] c) (ht : c.effect = some t) :
    r.lastToken (assigned ++ r.params b) = some t := by
  generalize hl : [] = l at hc
  cases hc with
  | snoc => simp at hl
  | nil =>
    have heffects : effects r blk = [t] := by
      obtain ⟨ts, hts⟩ := List.head?_eq_some_iff.1 ht
      have hroots := (h.block hb).roots
      rw [hts] at hroots ⊢
      simpa using hroots
    have hparams : blk.params.filter (r.ty · = .effect) = effects r blk := by
      refine filter_congr fun v hv => ?_
      obtain ⟨ty, i, _, hslot⟩ := h.toDefsOk.param_slot hb hv
      simp [Region.ty, hslot]
    rw [lastToken, filter_append, Region.params_of_get hb, hparams, heffects]
    simp

/-- The token of the chain is the one made last. -/
theorem Region.Ran.token (h : WF r) (hran : r.Ran b pre e assigned) :
    ∀ {blk : Block} {c : Chain}, r.blocks[b]? = some blk → Chained r b blk pre c →
      ∀ t, c.effect = some t → r.lastToken assigned = some t := by
  induction hran with
  | @entry b init hentry =>
    intro blk c hb hc t ht
    rw [← nil_append (r.params b)]
    exact Region.lastToken_params h hb hc ht
  | @inst b pre post id e assigned blk inst choice _ _ _ hinst ih =>
    intro blk c hb hc t ht
    generalize hl : pre ++ [id] = l at hc
    cases hc with
    | nil => simp at hl
    | snoc hc hinst' hok =>
      obtain ⟨rfl, hid⟩ := append_inj' hl rfl
      cases hid
      cases hinst.symm.trans hinst'
      rw [Region.lastToken, filter_append]
      cases hordered : inst.op.ordered with
      | true =>
        obtain ⟨_, _, _, _, hty, hlast, _⟩ := hok.ordered hordered
        obtain ⟨ts, hts⟩ := List.getLast?_eq_some_iff.1 (hlast.symm.trans ht)
        have htoken : r.ty t = .effect := by simpa [hts] using hty
        simp [hts, htoken]
      | false =>
        obtain ⟨_, hresults, hsame⟩ := hok.unordered hordered
        have hnone : inst.results.filter (r.ty · = .effect) = [] := by
          refine List.filter_eq_nil_iff.2 fun v hv hty => ?_
          exact hresults (List.mem_map.2 ⟨v, hv, of_decide_eq_true hty⟩)
        rw [hnone, append_nil]
        exact ih hb hc t (hsame ▸ ht)
  | edge _ _ _ _ _ =>
    intro blk c hb hc t ht
    exact Region.lastToken_params h hb hc ht

/-- In every run of an accepted region the ordered operations form one chain: each takes the token
made last, and so do the effect parameters of a block. -/
theorem token_of_verify (hok : verify r = .ok ()) (hran : r.Ran b pre e assigned)
    (hb : r.blocks[b]? = some blk) :
    (∀ id post inst, blk.instructions = pre ++ id :: post → r.instructions[id]? = some inst →
      inst.op.ordered = true →
      inst.args.getLast? = r.lastToken assigned ∧ (r.lastToken assigned).isSome = true) ∧
    ∀ term, pre = blk.instructions → blk.terminator = some term → ∀ edge ∈ term.edges,
      ∃ target, r.blocks[edge.target]? = some target ∧ ∀ p ∈ edge.args.zip target.params,
        r.ty p.2 = .effect → r.lastToken assigned = some p.1 := by
  have h := verify_eq_ok.1 hok
  constructor
  · intro id post inst hsplit hinst hordered
    obtain ⟨c, c', hc, hinstOk⟩ := h.instOk hb hsplit hinst
    obtain ⟨_, hsome, hlast, _⟩ := hinstOk.ordered hordered
    obtain ⟨t, ht⟩ := Option.isSome_iff_exists.1 hsome
    rw [hlast, hran.token h hb hc t ht]
    exact ⟨ht, rfl⟩
  · rintro term rfl hterm edge hedge
    obtain ⟨effect, hc, hends⟩ := (h.block hb).chain
    obtain ⟨target, htarget⟩ := (hends term hterm).edges edge hedge
    exact ⟨target, htarget.get, fun p hp hty =>
      hran.token h hb hc p.1 ((htarget.args p hp).2.2 hty).symm⟩

end

/-! ## RMW tickets -/

/-- The instruction is an RMW load that makes the ticket. -/
def Region.Loads (r : Region) (id : InstId) (t : Ticket) : Prop :=
  ∃ inst, r.instructions[id]? = some inst ∧ inst.op = .rmwLoad t.2.1 t.2.2.1 ∧
    inst.results[1]? = some t.1 ∧ inst.state = t.2.2.2

/-- The instruction is an RMW store that takes the ticket, of the same width, order and recovery
map. -/
def Region.Stores (r : Region) (id : InstId) (t : Ticket) : Prop :=
  ∃ inst, r.instructions[id]? = some inst ∧ inst.op = .rmwStore t.2.1 t.2.2.1 ∧
    inst.args[0]? = some t.1 ∧ inst.state = t.2.2.2

/-- None of the instructions is an ordered operation. -/
def Region.Unordered (r : Region) (ids : List InstId) : Prop :=
  ∀ id ∈ ids, ∃ inst, r.instructions[id]? = some inst ∧ inst.op.ordered = false

/-- The instructions of a list where the ticket of every RMW load goes to a store, with nothing
ordered in between. -/
inductive Paired (r : Region) : List InstId → Prop
  | nil : Paired r []
  | one {l : List InstId} {id : InstId} {inst : Instruction} : Paired r l →
      r.instructions[id]? = some inst → isRmwLoad inst.op = false → isRmwStore inst.op = false →
      Paired r (l ++ [id])
  | pair {l mid : List InstId} {id id' : InstId} {t : Ticket} : Paired r l → r.Loads id t →
      r.Unordered mid → r.Stores id' t → Paired r (l ++ id :: mid ++ [id'])

section
variable {r : Region} {b : BlockId} {blk : Block} {pre l : List InstId} {id : InstId}
  {inst : Instruction} {c c' : Chain}

/-- What an instruction does to the ticket. -/
theorem InstOk.rmw_cases (hok : InstOk r b blk pre inst c c')
    (hinst : r.instructions[id]? = some inst) :
    (∃ t, r.Loads id t ∧ c.rmw = none ∧ c'.rmw = some t) ∨
    (∃ t, r.Stores id t ∧ c.rmw = some t ∧ c'.rmw = none) ∨
    (isRmwLoad inst.op = false ∧ isRmwStore inst.op = false ∧ c'.rmw = c.rmw ∧
      (c.rmw ≠ none → inst.op.ordered = false)) := by
  have h := hok.rmw
  have hordered := hok.ordered
  unfold checkRmw at h
  split at h
  · next hop =>
    simp only [bind_eq_ok, idx_eq_ok] at h
    obtain ⟨ticket, hticket, hrmw⟩ := h
    rw [hop] at hordered
    obtain ⟨hfree, _⟩ := hordered rfl
    exact .inl ⟨_, ⟨inst, hinst, hop, hticket, rfl⟩, by simpa [isRmwStore] using hfree,
      (Except.ok.inj hrmw).symm⟩
  · next hop =>
    simp only [bind_eq_ok, idx_eq_ok, require_eq_ok, decide_eq_true_eq] at h
    obtain ⟨ticket, hticket, _, hrmw, hnone⟩ := h
    exact .inr (.inl ⟨_, ⟨inst, hinst, hop, hticket, rfl⟩, hrmw, (Except.ok.inj hnone).symm⟩)
  · next hload hstore =>
    have hs : isRmwStore inst.op = false := by
      unfold isRmwStore
      split
      · next hop => exact absurd hop (hstore _ _)
      · rfl
    refine .inr (.inr ⟨?_, hs, (Except.ok.inj h).symm, fun hpending => ?_⟩)
    · unfold isRmwLoad
      split
      · next hop => exact absurd hop (hload _ _)
      · rfl
    · by_contra hord
      obtain ⟨hfree, _⟩ := hordered (Bool.not_eq_false _ ▸ hord)
      rw [hs, Bool.or_false, Option.isNone_iff_eq_none] at hfree
      exact hpending hfree

/-- Behind a load whose ticket is pending there is nothing ordered. -/
theorem Chained.paired (h : Chained r b blk l c) : (c.rmw = none → Paired r l) ∧
    ∀ t, c.rmw = some t → ∃ l' id mid, l = l' ++ id :: mid ∧ Paired r l' ∧ r.Loads id t ∧
      r.Unordered mid := by
  induction h with
  | nil => exact ⟨fun _ => .nil, fun _ ht => by cases ht⟩
  | @snoc l id inst c c' _ hinst hok ih =>
    rcases hok.rmw_cases hinst with ⟨t, hloads, hnone, hsome⟩ | ⟨t, hstores, hsome, hnone⟩ |
      ⟨hload, hstore, hsame, hfree⟩
    · rw [hsome]
      refine ⟨fun h => (by cases h), fun t ht => ?_⟩
      cases ht
      exact ⟨l, id, [], rfl, ih.1 hnone, hloads, fun i hi => by cases hi⟩
    · rw [hnone]
      refine ⟨fun _ => ?_, fun t ht => by cases ht⟩
      obtain ⟨_, _, _, rfl, hl, hloads, hmid⟩ := ih.2 t hsome
      exact .pair hl hloads hmid hstores
    · rw [hsame]
      refine ⟨fun h => .one (ih.1 h) hinst hload hstore, fun t ht => ?_⟩
      obtain ⟨l', i, mid, rfl, hl, hloads, hmid⟩ := ih.2 t ht
      refine ⟨l', i, mid ++ [id], by rw [append_assoc, cons_append], hl, hloads, ?_⟩
      intro j hj
      rcases List.mem_append.1 hj with hj | hj
      · exact hmid j hj
      · rw [List.mem_singleton.1 hj]
        exact ⟨inst, hinst, hfree (by rw [ht]; simp)⟩

/-- In an accepted region every RMW load of a block has its store. -/
theorem paired_of_verify (hok : verify r = .ok ()) (hb : r.blocks[b]? = some blk) :
    Paired r blk.instructions := by
  obtain ⟨effect, hchain, _⟩ := ((verify_eq_ok.1 hok).block hb).chain
  exact hchain.paired.1 rfl

end

/-- A locked addition to memory, and a block that gets the token and the sum. -/
def increment : Region where
  entries := [0]
  blocks := [⟨none, [0, 1, 2, 3], [0, 1, 2], some (.branch ⟨1, [8, 7]⟩), 0⟩,
    ⟨none, [10, 9], [], some (.exit 2), 0⟩]
  values := [⟨.effect, .parameter 0 0⟩, ⟨.linearAddress, .parameter 0 1⟩, ⟨.i32, .parameter 0 2⟩,
    ⟨.i1, .parameter 0 3⟩, ⟨.i32, .instruction 0 0⟩, ⟨.rmwTicket, .instruction 0 1⟩,
    ⟨.effect, .instruction 0 2⟩, ⟨.i32, .instruction 1 0⟩, ⟨.effect, .instruction 2 0⟩,
    ⟨.i32, .parameter 1 1⟩, ⟨.effect, .parameter 1 0⟩]
  instructions := [⟨0, .rmwLoad 4 .locked, [1, 0], [4, 5, 6], some 0, none, false, false⟩,
    .simple 0 (.binary .add) [4, 2] 7,
    ⟨0, .rmwStore 4 .locked, [5, 7, 6], [8], some 0, some 1, false, false⟩]
  states := [.uniform 2 3, { StateMap.uniform 2 3 with resume := .afterInstruction }, .uniform 9 3]
  helpers := []

/-- The old value is loaded, and the sum is made. -/
theorem increment_added : ∃ e, increment.Ran 0 [0, 1] e [0, 1, 2, 3, 4, 5, 6, 7] :=
  ⟨_, @Region.Ran.inst increment 0 [0] [2] 1 _ _ _ _ (fun _ => 0)
    (@Region.Ran.inst increment 0 [] [1, 2] 0 _ _ _ _ (fun _ => 5)
      (@Region.Ran.entry increment 0 (fun _ => 0) (by decide)) rfl rfl rfl) rfl rfl rfl⟩

theorem increment_stored : ∃ e, increment.Ran 0 [0, 1, 2] e [0, 1, 2, 3, 4, 5, 6, 7, 8] := by
  obtain ⟨e, h⟩ := increment_added
  exact ⟨_, @Region.Ran.inst increment 0 [0, 1] [] 2 _ _ _ _ (fun _ => 0) h rfl rfl rfl⟩

theorem increment_left : ∃ e, increment.Ran 1 [] e [0, 1, 2, 3, 4, 5, 6, 7, 8, 10, 9] := by
  obtain ⟨e, h⟩ := increment_stored
  exact ⟨_, @Region.Ran.edge increment 0 _ _ _ _ ⟨1, [8, 7]⟩ h rfl rfl rfl⟩

/-- Behind two instructions, and behind the edge. -/
theorem ready_of_verify_increment :
    (∃ e blk term, increment.Ready 0 [0, 1] e [0, 1, 2, 3, 4, 5, 6, 7] blk term) ∧
    ∃ e blk term, increment.Ready 1 [] e [0, 1, 2, 3, 4, 5, 6, 7, 8, 10, 9] blk term := by
  obtain ⟨e, h⟩ := increment_added
  obtain ⟨e', h'⟩ := increment_left
  exact ⟨⟨e, ready_of_verify rfl h⟩, e', ready_of_verify rfl h'⟩

/-- The store takes the load's token, and the edge the store's. -/
theorem token_of_verify_increment : increment.lastToken [0, 1, 2, 3, 4, 5, 6, 7] = some 6 ∧
    increment.lastToken [0, 1, 2, 3, 4, 5, 6, 7, 8] = some 8 := by
  obtain ⟨e, h⟩ := increment_added
  obtain ⟨e', h'⟩ := increment_stored
  refine ⟨((token_of_verify rfl h rfl).1 2 [] _ rfl rfl rfl).1.symm, ?_⟩
  obtain ⟨target, htarget, hparams⟩ := (token_of_verify rfl h' rfl).2 _ rfl rfl ⟨1, [8, 7]⟩
    (mem_singleton_self _)
  cases htarget
  exact hparams (8, 10) (by decide) rfl

theorem paired_of_verify_increment : Paired increment [0, 1, 2] :=
  have hb : increment.blocks[0]? = some increment.blocks[0] := rfl
  paired_of_verify rfl hb

end V86.Ir
