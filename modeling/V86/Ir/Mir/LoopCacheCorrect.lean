import V86.Ir.Mir.ForwardingCorrect

/-!
# Loads that share a slot of a loop read the same bytes

A natural loop that gets slots can be entered through its preheader only (`Closed`), its
instructions leave RAM alone (`Safe`), and the addresses of its candidates are computed from values
that the loop does not assign (`Invariant`). The plan keeps for every slot the loop, the key and the
width it was made for (`Planned`).

So a run that does not reset a slot and ends in its loop has stayed in the loop (`stays_inside`), RAM
is as it was, and an address that is available at two points of the run is the same at both
(`Invariant.same`).
-/

namespace V86.Ir.Mir

open Exec List BitVec

namespace Forwarding

/-! ## Invariant values -/

/-- The value does not change while a loop runs: it is assigned outside, or computed from such values
alone. -/
inductive Invariant (data : MirData) (members : BitVec 64) : ValueId → Prop
  | outside {v : ValueId} {b : BlockId} : planAt data.valueBlocks v = some b →
      inSet members b = false → Invariant data members v
  | computed {v : ValueId} {plan : ValuePlan} : valuePlan data v = some plan →
      (∀ cpu standalone, .read cpu standalone ∉ plan.steps) →
      (∀ w ∈ expression plan.steps, Invariant data members w) → Invariant data members v

section
variable {data : MirData} {members : BitVec 64}

variable {invariant : ValueId → Nat → Exec (Bool × Nat)} {left left' : Nat} {v : ValueId}

theorem stepInvariant_ok
    (hinv : ∀ {v left left'}, invariant v left = .ok (true, left') → Invariant data members v)
    {step : Step} (h : stepInvariant invariant left step = .ok (true, left')) :
    (∀ cpu standalone, step ≠ .read cpu standalone) ∧
      ∀ w ∈ expression [step], Invariant data members w := by
  refine ⟨fun cpu standalone heq => ?_, fun w hw => ?_⟩
  · subst heq
    cases h
  · cases step with
    | value v =>
      rw [List.mem_singleton.1 hw]
      exact hinv h
    | packed destination source plan =>
      obtain ⟨⟨first, work⟩, hfirst, h⟩ := bind_eq_ok.1 h
      dsimp only at h
      split at h
      · rename_i htrue
        subst htrue
        rcases List.mem_cons.1 hw with rfl | hw
        · exact hinv hfirst
        · rw [List.mem_singleton.1 hw]
          exact hinv h
      · cases h
    | _ => cases hw

theorem stepsInvariant_ok
    (hinv : ∀ {v left left'}, invariant v left = .ok (true, left') → Invariant data members v)
    {steps : List Step} (h : stepsInvariant invariant steps left = .ok (true, left')) :
    (∀ cpu standalone, .read cpu standalone ∉ steps) ∧
      ∀ w ∈ expression steps, Invariant data members w := by
  induction steps generalizing left with
  | nil => exact ⟨fun _ _ => not_mem_nil, nofun⟩
  | cons step rest ih =>
    rw [stepsInvariant] at h
    obtain ⟨work, -, h⟩ := bind_eq_ok.1 h
    obtain ⟨⟨ok, work'⟩, hstep, h⟩ := bind_eq_ok.1 h
    dsimp only at h
    split at h
    · rename_i hok
      subst hok
      obtain ⟨hread, hoperands⟩ := stepInvariant_ok hinv hstep
      obtain ⟨hreads, hvalues⟩ := ih h
      refine ⟨fun cpu standalone hmem => ?_, fun w hw => ?_⟩
      · rcases List.mem_cons.1 hmem with heq | hmem
        · exact hread cpu standalone heq.symm
        · exact hreads cpu standalone hmem
      · have hsplit : expression (step :: rest) = expression [step] ++ expression rest := by
          rw [expression, expression, flatMap_cons, flatMap_cons, flatMap_nil, append_nil]
          rfl
        rw [hsplit] at hw
        rcases List.mem_append.1 hw with hw | hw
        · exact hoperands w hw
        · exact hvalues w hw
    · cases h

/-- A constant is computed from nothing. -/
theorem Invariant.of_constant {n : BitVec 32} (h : constantI32 data v = some n) :
    Invariant data members v := by
  obtain ⟨plan, hplan, hsome⟩ := Option.bind_eq_some_iff.1 h
  split at hsome
  · rename_i m hsteps
    refine .computed hplan (fun cpu standalone hmem => ?_) fun w hw => ?_
    · rw [hsteps] at hmem
      cases List.mem_singleton.1 hmem
    · rw [hsteps] at hw
      cases hw
  · cases hsome

theorem valueInvariant_ok {depth : Nat} {visiting : List Bool}
    (h : valueInvariant data members depth visiting v left = .ok (true, left')) :
    Invariant data members v := by
  induction depth generalizing visiting v left left' with
  | zero => cases h
  | succ depth ih =>
    rw [valueInvariant] at h
    obtain ⟨work, -, h⟩ := bind_eq_ok.1 h
    obtain ⟨block, hblock, h⟩ := bind_eq_ok.1 h
    split at h
    · exact .outside (okOr_eq_ok.1 hblock) ‹_›
    split at h
    · rename_i hconstant
      obtain ⟨n, hn⟩ := Option.isSome_iff_exists.1 hconstant
      exact .of_constant hn
    obtain ⟨seen, -, h⟩ := bind_eq_ok.1 h
    split at h
    · cases h
    split at h
    · rename_i plan hplan
      obtain ⟨hreads, hvalues⟩ := stepsInvariant_ok ih h
      exact .computed hplan hreads hvalues
    · cases h

theorem invariantAddress_ok {key : AddressKey}
    (h : invariantAddress data members key left = .ok (true, left')) :
    Invariant data members (keyValue key) := by
  cases key with
  | value v | segment base nullByte offset => exact valueInvariant_ok h

end

/-! ## Natural loops -/

/-- The block belongs to the loop. -/
def NaturalLoop.Mem (data : MirData) (l : NaturalLoop) (b : BlockId) : Prop :=
  b < data.control.blocks.length ∧ inSet l.members b = true

/-- Control enters the loop through its preheader, which does nothing but jump to the header. -/
structure Closed (data : MirData) (l : NaturalLoop) : Prop where
  entry : ∀ b ∈ data.control.entries, ¬ l.Mem data b
  edge : ∀ {a b : BlockId}, data.flow.edge a b → l.Mem data b →
    l.Mem data a ∨ b = l.header ∧ a = l.preheader
  preheader : ¬ l.Mem data l.preheader
  jump : ∃ block edge, data.control.blocks[l.preheader]? = some block ∧
    block.terminator = .jump edge ∧ edge.target = l.header

section
variable {data : MirData} {preds : List (List BlockId)}

variable {left left' : Nat} {b : BlockId} {rows : List (BitVec 64)}

theorem predecessors_ok (h : predecessors data left = .ok (preds, left')) {a : BlockId}
    (hab : data.flow.edge a b) : b < data.control.blocks.length ∧ a ∈ preds.getD b [] := by
  obtain ⟨block, hblock, edge, hedge, rfl⟩ := hab
  -- the lists of predecessors grow
  let Grows (s s' : List (List BlockId)) : Prop :=
    s'.length = s.length ∧ ∀ t p, p ∈ s.getD t [] → p ∈ s'.getD t []
  have hrefl : ∀ s, Grows s s := fun s => ⟨rfl, fun _ _ h => h⟩
  have htrans : ∀ s s' s'', Grows s s' → Grows s' s'' → Grows s s'' := fun s s' s'' h h' =>
    ⟨h'.1.trans h.1, fun t p hp => h'.2 t p (h.2 t p hp)⟩
  have hall := foldlM_each (R := fun s s' : List (List BlockId) × Nat => Grows s.1 s'.1)
    (Q := fun (p : Block × Nat) s => ∀ edge ∈ p.1.terminator.edges,
      edge.target < data.control.blocks.length ∧ p.2 ∈ s.1.getD edge.target [])
    (fun s => hrefl s.1) (fun s s' s'' => htrans s.1 s'.1 s''.1)
    (fun p s s' hgrows hp edge hedge => ⟨(hp edge hedge).1, hgrows.2 _ _ (hp edge hedge).2⟩)
    (fun p s s' hstep => ?_) h
  · refine hall.2 (block, a) ?_ edge hedge
    exact List.mk_mem_zipIdx_iff_getElem?.2 hblock
  · obtain ⟨work, -, hstep⟩ := bind_eq_ok.1 hstep
    obtain ⟨next, hinner, hstep⟩ := bind_eq_ok.1 hstep
    cases hstep
    refine foldlM_each (R := Grows)
      (Q := fun (edge : Edge) s => edge.target < data.control.blocks.length ∧
        p.2 ∈ s.getD edge.target [])
      hrefl htrans (fun edge s s' hgrows hq => ⟨hq.1, hgrows.2 _ _ hq.2⟩)
      (fun edge s s' hturn => ?_) hinner
    obtain ⟨u, hlt, hturn⟩ := bind_eq_ok.1 hturn
    obtain ⟨known, hknown, hturn⟩ := bind_eq_ok.1 hturn
    have hlt := of_decide_eq_true (require_eq_ok.1 hlt)
    have hget : s.getD edge.target [] = known := by
      rw [getD_eq_getElem?_getD, idx_eq_ok.1 hknown]
      rfl
    split at hturn
    · rename_i hcontains
      cases hturn
      exact ⟨hrefl s, hlt, hget ▸ List.contains_iff_mem.1 hcontains⟩
    · obtain ⟨hlen, rfl⟩ := setAt_eq_ok.1 hturn
      have hself : (s.set edge.target (known ++ [p.2])).getD edge.target [] = known ++ [p.2] := by
        rw [getD_eq_getElem?_getD, List.getElem?_set_self hlen]
        rfl
      refine ⟨⟨length_set, fun t q hq => ?_⟩, hlt, ?_⟩
      · by_cases ht : edge.target = t
        · subst ht
          rw [hget] at hq
          rw [hself]
          exact mem_append_left _ hq
        · rw [getD_eq_getElem?_getD] at hq ⊢
          rwa [List.getElem?_set_ne ht]
      · rw [hself]
        exact mem_append_right _ mem_cons_self

/-- The row of a root is the root alone. -/
def Rooted (data : MirData) (preds : List (List BlockId)) (rows : List (BitVec 64)) : Prop :=
  ∀ b < data.control.blocks.length, isRoot data preds b = true → rows.getD b 0 = bit b

theorem dominanceRound_ok {s : List (BitVec 64) × Nat} {changed : Bool}
    (h : dominanceRound data preds s = .ok (rows, left, changed))
    (hs : Rooted data preds s.1) : Rooted data preds rows := by
  refine foldlM_ok (I := fun _ t => Rooted data preds t.1) (fun pre b post t t' _ ht hstep => ?_)
    hs h
  obtain ⟨work, -, hstep⟩ := bind_eq_ok.1 hstep
  split at hstep
  · cases hstep
    exact ht
  · rename_i hroot
    obtain ⟨⟨next, work'⟩, -, hstep⟩ := bind_eq_ok.1 hstep
    obtain ⟨old, -, hstep⟩ := bind_eq_ok.1 hstep
    split at hstep
    · cases hstep
      exact ht
    · cases hstep
      intro c hc hcroot
      have hne : b ≠ c := by
        rintro rfl
        exact hroot hcroot
      rw [getD_eq_getElem?_getD, List.getElem?_set_ne hne, ← getD_eq_getElem?_getD]
      exact ht c hc hcroot

theorem dominators_ok
    (h : dominators data preds left = .ok (rows, left')) : Rooted data preds rows := by
  have hround : ∀ {s r}, Rooted data preds s.1 →
      (dominanceRound data preds s >>= fun t =>
        .ok (if t.2.2 = true then .inl (t.1, t.2.1) else .inr (t.1, t.2.1))) =
        (.ok r : Exec ((List (BitVec 64) × Nat) ⊕ (List (BitVec 64) × Nat))) →
      Rooted data preds (r.elim (·.1) (·.1)) := by
    intro s r hs hr
    obtain ⟨⟨rows, work, changed⟩, hrows, hr⟩ := bind_eq_ok.1 hr
    have hrooted := dominanceRound_ok hrows hs
    cases hr
    cases changed with
    | true => exact hrooted
    | false => exact hrooted
  have hstart : Rooted data preds ((List.range data.control.blocks.length).map fun b =>
      if isRoot data preds b then bit b else allBlocks data) := by
    intro b hb hroot
    rw [getD_eq_getElem?_getD, List.getElem?_map, List.getElem?_range hb, Option.map_some,
      Option.getD_some, if_pos hroot]
  obtain ⟨s, hs, hlast⟩ := loop_ok (I := fun s => Rooted data preds s.1)
    (fun s s' hs hstep => hround hs hstep) hstart h
  exact hround hs hlast

/-- Blocks of a small region are in no set of one other block. -/
theorem inSet_bit {c : BlockId} (hb : b < 64) (hc : c < 64) (h : inSet (bit b) c = true) :
    b = c := by
  by_contra hne
  unfold inSet bit at h
  rw [Nat.mod_eq_of_lt hb, Nat.mod_eq_of_lt hc, ← twoPow_eq, ← twoPow_eq] at h
  have hzero : BitVec.twoPow 64 b &&& BitVec.twoPow 64 c = 0#64 := by
    refine eq_of_getLsbD_eq fun i hi => ?_
    rw [getLsbD_and, getLsbD_twoPow, getLsbD_twoPow, getLsbD_zero]
    by_cases hib : b = i
    · have hic : c ≠ i := fun hc => hne (hib.trans hc.symm)
      rw [decide_eq_false hic, Bool.and_false, Bool.and_false]
    · rw [decide_eq_false hib, Bool.and_false, Bool.false_and]
  rw [hzero] at h
  cases h

theorem findLoop_ok {header : Nat} {l : NaturalLoop} (hsize : data.control.blocks.length ≤ 64)
    (hheader : header < data.control.blocks.length)
    (hpreds : ∀ {a b : BlockId}, data.flow.edge a b → a ∈ preds.getD b [])
    (hrows : Rooted data preds rows)
    (h : findLoop data preds rows header left = .ok (some l, left')) : Closed data l := by
  unfold findLoop at h
  obtain ⟨work, -, h⟩ := bind_eq_ok.1 h
  split at h
  · cases h
  rename_i hentry
  dsimp only at h
  split at h
  · cases h
  obtain ⟨⟨members, work'⟩, -, h⟩ := bind_eq_ok.1 h
  dsimp only at h
  split at h
  swap
  · cases h
  rename_i hvalid
  split at h
  swap
  · cases h
  rename_i preheader houtside
  obtain ⟨block, hblock, h⟩ := bind_eq_ok.1 h
  have hblock := idx_eq_ok.1 hblock
  split at h
  swap
  · cases h
  rename_i edge hjump
  split at h
  swap
  · cases h
  rename_i htarget
  cases h
  -- what holds of every member
  have hmember : ∀ b, NaturalLoop.Mem data ⟨members, preheader, header⟩ b →
      inSet (rows.getD b 0) header = true ∧
        (b = header ∨ ∀ p ∈ preds.getD b [], inSet members p = true) := by
    intro b hb
    have hbelow := List.all_eq_true.1 hvalid b
      (List.mem_filter.2 ⟨List.mem_range.2 hb.1, hb.2⟩)
    rw [Bool.and_eq_true, Bool.or_eq_true, beq_iff_eq, all_eq_true] at hbelow
    exact hbelow
  have houter : ∀ p, p ∈ preds.getD header [] → inSet members p = false → p = preheader := by
    intro p hp hout
    have hmem : p ∈ (preds.getD header []).filter fun p => !inSet members p :=
      List.mem_filter.2 ⟨hp, by rw [hout]; rfl⟩
    rw [houtside] at hmem
    exact List.mem_singleton.1 hmem
  refine ⟨fun b hb hmem => ?_, fun {a b} hab hmem => ?_, fun hmem => ?_, block, edge, hblock, hjump,
    htarget⟩
  · -- a header that dominates an entry is that entry
    have hroot : isRoot data preds b = true := by
      rw [isRoot, List.contains_iff_mem.2 hb, Bool.true_or]
    have habove := (hmember b hmem).1
    rw [hrows b hmem.1 hroot] at habove
    have heq := inSet_bit (Nat.lt_of_lt_of_le hmem.1 hsize) (Nat.lt_of_lt_of_le hheader hsize) habove
    exact hentry (List.contains_iff_mem.2 (heq ▸ hb))
  · have ha : a < data.control.blocks.length := by
      obtain ⟨block, hblock, -⟩ := hab
      exact (List.getElem?_eq_some_iff.1 hblock).1
    rcases (hmember b hmem).2 with rfl | hall
    · cases hset : inSet members a with
      | true => exact .inl ⟨ha, hset⟩
      | false => exact .inr ⟨rfl, houter a (hpreds hab) hset⟩
    · exact .inl ⟨ha, hall a (hpreds hab)⟩
  · have hfilter : preheader ∈ (preds.getD header []).filter fun p => !inSet members p := by
      rw [houtside]
      exact mem_cons_self
    have hnot := (List.mem_filter.1 hfilter).2
    rw [hmem.2] at hnot
    cases hnot

theorem findLoops_ok {loops : List NaturalLoop} (hsize : data.control.blocks.length ≤ 64)
    (hpreds : ∀ {a b : BlockId}, data.flow.edge a b → a ∈ preds.getD b [])
    (hrows : Rooted data preds rows)
    (h : findLoops data preds rows left = .ok (loops, left')) : ∀ l ∈ loops, Closed data l := by
  refine foldlM_ok (I := fun _ s => ∀ l ∈ s.1, Closed data l)
    (fun pre header post s s' hsplit hs hstep => ?_) (fun _ hl => absurd hl not_mem_nil) h
  obtain ⟨⟨found, work⟩, hfound, hstep⟩ := bind_eq_ok.1 hstep
  cases hstep
  have hheader : header < data.control.blocks.length := by
    refine List.mem_range.1 ?_
    rw [hsplit]
    exact mem_append_right _ mem_cons_self
  intro l hl
  rcases List.mem_append.1 hl with hl | hl
  · exact hs l hl
  · obtain rfl := Option.mem_toList.1 hl
    exact findLoop_ok hsize hheader hpreds hrows hfound

end

/-! ## Slots -/

/-- The instruction leaves RAM and the mappings alone. -/
structure Harmless (data : MirData) (id : InstId) : Prop where
  call : planAt data.calls id = none
  effect : ∀ {e : EffectPlan}, planAt data.effects id = some e → (segment e).isSome = true
  poll : ∀ {q : Poll}, planAt data.control.polls id = some q → q.cost ≠ 0
  memory : ∀ {m : MemoryPlan}, planAt data.memory id = some m → eligibleLoad m = true

/-- What a slot stands for: its loop, and the key and the width of its loads. -/
structure Slot where
  loop : NaturalLoop
  key : AddressKey
  bytes : Nat

/-- The instruction is a load of the slot's loop, with its key and width. -/
structure Slot.Reads (data : MirData) (addresses : List (Option AddressKey)) (g : Slot)
    (id : InstId) : Prop where
  mem : id ∈ loopInstructions data g.loop.members
  plan : ∃ m, planAt data.memory id = some m ∧ eligibleLoad m = true ∧
    keyFor addresses m = g.key ∧ m.guard.bytes = g.bytes

/-- The loop of a slot is closed and harmless, and its key is invariant. -/
structure Slot.Good (data : MirData) (g : Slot) : Prop where
  closed : Closed data g.loop
  harmless : ∀ id ∈ loopInstructions data g.loop.members, Harmless data id
  invariant : Invariant data g.loop.members (keyValue g.key)

section
variable {data : MirData} {addresses : List (Option AddressKey)} {l : NaturalLoop}

variable {s : List Candidate × Nat} {candidates : List Candidate} {left : Nat}
  {plan plan' : LoopPlan}

theorem scanInst_ok {id : InstId}
    (h : scanInst data addresses l.members s id = .ok (some candidates, left)) :
    Harmless data id ∧ ∀ c ∈ candidates, c ∈ s.1 ∨ c.id = id ∧
      Invariant data l.members (keyValue c.key) ∧ ∃ m, planAt data.memory id = some m ∧
        eligibleLoad m = true ∧ keyFor addresses m = c.key ∧ m.guard.bytes = c.bytes := by
  unfold scanInst at h
  obtain ⟨work, -, h⟩ := bind_eq_ok.1 h
  obtain ⟨call, hcall, h⟩ := bind_eq_ok.1 h
  split at h
  · cases h
  rename_i hnone
  obtain ⟨effect, heffect, h⟩ := bind_eq_ok.1 h
  split at h
  · cases h
  rename_i hsegment
  obtain ⟨poll, hpoll, h⟩ := bind_eq_ok.1 h
  split at h
  · cases h
  rename_i hcost
  obtain ⟨memory, hmemory, h⟩ := bind_eq_ok.1 h
  have hcall : planAt data.calls id = none := by
    rw [planAt_of_get (idx_eq_ok.1 hcall)]
    exact Option.not_isSome_iff_eq_none.1 hnone
  have heffect : ∀ {e}, planAt data.effects id = some e → (segment e).isSome = true := by
    intro e he
    rw [planAt_of_get (idx_eq_ok.1 heffect)] at he
    subst he
    exact Option.isSome_iff_ne_none.2 fun heq => hsegment (Option.isNone_iff_eq_none.2 heq)
  have hpoll : ∀ {q}, planAt data.control.polls id = some q → q.cost ≠ 0 := by
    intro q hq hzero
    rw [planAt_of_get (idx_eq_ok.1 hpoll)] at hq
    subst hq
    exact hcost (beq_iff_eq.2 hzero)
  have hmemory := planAt_of_get (idx_eq_ok.1 hmemory)
  cases memory with
  | none =>
    cases h
    exact ⟨⟨hcall, heffect, hpoll, fun {m} hm => by cases hmemory.symm.trans hm⟩, fun c hc => .inl hc⟩
  | some memory =>
    dsimp only at h
    split at h
    swap
    · cases h
    rename_i hload
    obtain ⟨⟨invariant, work'⟩, hinvariant, h⟩ := bind_eq_ok.1 h
    have hharmless : Harmless data id := by
      refine ⟨hcall, heffect, hpoll, fun {m} hm => ?_⟩
      cases hmemory.symm.trans hm
      exact hload
    refine ⟨hharmless, fun c hc => ?_⟩
    cases invariant with
    | false =>
      cases h
      exact .inl hc
    | true =>
      cases h
      rcases List.mem_append.1 hc with hc | hc
      · exact .inl hc
      · obtain rfl := List.mem_singleton.1 hc
        exact .inr ⟨rfl, invariantAddress_ok hinvariant, memory, hmemory, hload, rfl, rfl⟩

theorem scanLoop_ok {ids : List InstId}
    (h : scanLoop data addresses l.members ids s = .ok (some candidates, left)) :
    (∀ id ∈ ids, Harmless data id) ∧ ∀ c ∈ candidates, c ∈ s.1 ∨ c.id ∈ ids ∧
      Invariant data l.members (keyValue c.key) ∧ ∃ m, planAt data.memory c.id = some m ∧
        eligibleLoad m = true ∧ keyFor addresses m = c.key ∧ m.guard.bytes = c.bytes := by
  induction ids generalizing s with
  | nil =>
    cases h
    exact ⟨nofun, fun c hc => .inl hc⟩
  | cons id rest ih =>
    rw [scanLoop] at h
    obtain ⟨⟨found, work⟩, hscan, h⟩ := bind_eq_ok.1 h
    cases found with
    | none => cases h
    | some found =>
      obtain ⟨hid, hfound⟩ := scanInst_ok hscan
      obtain ⟨hrest, hcandidates⟩ := ih h
      refine ⟨List.forall_mem_cons.2 ⟨hid, hrest⟩, fun c hc => ?_⟩
      rcases hcandidates c hc with hc | ⟨hmem, hplan⟩
      · rcases hfound c hc with hc | ⟨rfl, hplan⟩
        · exact .inl hc
        · exact .inr ⟨mem_cons_self, hplan⟩
      · exact .inr ⟨mem_cons_of_mem _ hmem, hplan⟩

/-- The plan keeps what its slots stand for. -/
structure Planned (data : MirData) (addresses : List (Option AddressKey)) (plan : LoopPlan)
    (slots : List Slot) : Prop where
  length : slots.length = plan.slots
  good : ∀ g ∈ slots, g.Good data
  resets : ∀ {k : Nat} {g : Slot}, slots[k]? = some g → k ∈ plan.resets.getD g.loop.preheader []
  reads : ∀ {i : InstId} {k : Nat}, planAt plan.instructions i = some k →
    ∃ g, slots[k]? = some g ∧ g.Reads data addresses i

/-- The groups of a loop are slots of it. -/
def Grouped (l : NaturalLoop) (slots : List Slot) (groups : List (AddressKey × Nat × Nat)) : Prop :=
  ∀ g ∈ groups, slots[g.2.2]? = some ⟨l, g.1, g.2.1⟩

theorem assign_ok {groups groups' : List (AddressKey × Nat × Nat)} {slots : List Slot}
    {c : Candidate} (hplanned : Planned data addresses plan slots)
    (hgroups : Grouped l slots groups) (hgood : Slot.Good data ⟨l, c.key, c.bytes⟩)
    (hreads : Slot.Reads data addresses ⟨l, c.key, c.bytes⟩ c.id)
    (h : assign data l.preheader (plan, groups) c = .ok (plan', groups')) :
    ∃ slots', Planned data addresses plan' slots' ∧ Grouped l slots' groups' := by
  unfold assign at h
  obtain ⟨owned, -, h⟩ := bind_eq_ok.1 h
  split at h
  · cases h
    exact ⟨slots, hplanned, hgroups⟩
  split at h
  · -- the slot of a group with the same key
    rename_i g hfind
    obtain ⟨instructions, hset, h⟩ := bind_eq_ok.1 h
    cases h
    obtain ⟨hlt, rfl⟩ := setAt_eq_ok.1 hset
    have hmem := hgroups g (List.mem_of_find?_eq_some hfind)
    have hexact := List.find?_some hfind
    obtain ⟨hkey, hbytes⟩ := aliasProof_eq_exact.1 (beq_iff_eq.1 hexact)
    rw [hkey, hbytes] at hmem
    refine ⟨slots, ⟨hplanned.length, hplanned.good, hplanned.resets, fun {i k} hi => ?_⟩, hgroups⟩
    rw [planAt_set hlt] at hi
    split at hi
    · rename_i heq
      cases hi
      exact ⟨_, hmem, heq ▸ hreads⟩
    · exact hplanned.reads hi
  · -- a new slot
    obtain ⟨resets, hresets, h⟩ := bind_eq_ok.1 h
    obtain ⟨resets', hset, h⟩ := bind_eq_ok.1 h
    obtain ⟨instructions, hset', h⟩ := bind_eq_ok.1 h
    cases h
    obtain ⟨hlt, rfl⟩ := setAt_eq_ok.1 hset
    obtain ⟨hlt', rfl⟩ := setAt_eq_ok.1 hset'
    have hold : ∀ {k : Nat} {g : Slot}, slots[k]? = some g →
        (slots ++ [⟨l, c.key, c.bytes⟩])[k]? = some g := fun hk => by
      rw [List.getElem?_append_left (List.getElem?_eq_some_iff.1 hk).1]
      exact hk
    have hnew : (slots ++ [⟨l, c.key, c.bytes⟩])[plan.slots]? = some ⟨l, c.key, c.bytes⟩ := by
      rw [← hplanned.length, List.getElem?_concat_length]
    refine ⟨slots ++ [⟨l, c.key, c.bytes⟩], ⟨?_, fun g hg => ?_, fun {k g} hk => ?_,
      fun {i k} hi => ?_⟩, fun g hg => ?_⟩
    · rw [length_append, hplanned.length]
      rfl
    · rcases List.mem_append.1 hg with hg | hg
      · exact hplanned.good g hg
      · exact List.mem_singleton.1 hg ▸ hgood
    · have hself : (plan.resets.set l.preheader (resets ++ [plan.slots])).getD l.preheader [] =
          resets ++ [plan.slots] := by
        rw [getD_eq_getElem?_getD, List.getElem?_set_self hlt]
        rfl
      have hkept : ∀ {b : BlockId}, k ∈ plan.resets.getD b [] →
          k ∈ (plan.resets.set l.preheader (resets ++ [plan.slots])).getD b [] := by
        intro b hb
        by_cases hbl : l.preheader = b
        · subst hbl
          rw [getD_eq_getElem?_getD, idx_eq_ok.1 hresets] at hb
          rw [hself]
          exact mem_append_left _ hb
        · rw [getD_eq_getElem?_getD] at hb ⊢
          rwa [List.getElem?_set_ne hbl]
      rcases Nat.lt_or_ge k slots.length with hkl | hkl
      · rw [List.getElem?_append_left hkl] at hk
        exact hkept (hplanned.resets hk)
      · have hkeq : k = slots.length := by
          have hbound := (List.getElem?_eq_some_iff.1 hk).1
          rw [length_append, length_singleton] at hbound
          omega
        rw [hkeq, List.getElem?_concat_length] at hk
        cases hk
        rw [hself, hkeq, hplanned.length]
        exact mem_append_right _ mem_cons_self
    · dsimp only at hi
      rw [planAt_set hlt'] at hi
      split at hi
      · rename_i heq
        cases hi
        exact ⟨_, hnew, heq ▸ hreads⟩
      · obtain ⟨g, hg, hgreads⟩ := hplanned.reads hi
        exact ⟨g, hold hg, hgreads⟩
    · rcases List.mem_append.1 hg with hg | hg
      · exact hold (hgroups g hg)
      · obtain rfl := List.mem_singleton.1 hg
        exact hnew

theorem cacheLoop_ok {left' : Nat} (hclosed : Closed data l)
    (h : cacheLoop data addresses (plan, left) l = .ok (plan', left'))
    (hplanned : ∃ slots, Planned data addresses plan slots) :
    ∃ slots, Planned data addresses plan' slots := by
  unfold cacheLoop at h
  obtain ⟨⟨found, work⟩, hscan, h⟩ := bind_eq_ok.1 h
  cases found with
  | none =>
    cases h
    exact hplanned
  | some candidates =>
    obtain ⟨⟨next, groups⟩, hfold, h⟩ := bind_eq_ok.1 h
    cases h
    obtain ⟨hharmless, hcandidates⟩ := scanLoop_ok hscan
    obtain ⟨slots, hslots⟩ := hplanned
    obtain ⟨slots', hslots', -⟩ := foldlM_ok
      (I := fun _ s => ∃ slots, Planned data addresses s.1 slots ∧ Grouped l slots s.2)
      (fun pre c post s s' hsplit hs hstep => by
        obtain ⟨slots, hplanned, hgroups⟩ := hs
        have hc : c ∈ candidates := by
          rw [hsplit]
          exact mem_append_right _ mem_cons_self
        obtain ⟨hmem, hinvariant, hplan⟩ := (hcandidates c hc).resolve_left not_mem_nil
        exact assign_ok hplanned hgroups ⟨hclosed, hharmless, hinvariant⟩ ⟨hmem, hplan⟩ hstep)
      ⟨slots, hslots, fun g hg => absurd hg not_mem_nil⟩ hfold
    exact ⟨slots', hslots'⟩

end

section
variable {data : MirData}

theorem planned_disabled (addresses : List (Option AddressKey)) (blocks : Nat) :
    Planned data addresses (.disabled data.memory.length blocks) [] where
  length := rfl
  good _ hg := absurd hg not_mem_nil
  resets hk := by cases hk
  reads {i k} hi := by
    rw [planAt, LoopPlan.disabled, List.getElem?_replicate] at hi
    split at hi <;> cases hi

/-- The certificates of `loop_plan`. -/
theorem loopPlan_ok {workLimit : Nat} {plan : LoopPlan} (h : loopPlan data workLimit = .ok plan) :
    ∃ addresses slots, (slots ≠ [] → Keyed data addresses) ∧ Planned data addresses plan slots := by
  unfold loopPlan at h
  obtain ⟨-, -, h⟩ := bind_eq_ok.1 h
  dsimp only at h
  split at h
  · cases h
    exact ⟨[], [], fun hne => absurd rfl hne, planned_disabled [] _⟩
  rename_i hsize
  obtain ⟨work, -, h⟩ := bind_eq_ok.1 h
  obtain ⟨⟨addresses, work⟩, haddresses, h⟩ := bind_eq_ok.1 h
  obtain ⟨⟨preds, work⟩, hpreds, h⟩ := bind_eq_ok.1 h
  obtain ⟨⟨rows, work⟩, hrows, h⟩ := bind_eq_ok.1 h
  obtain ⟨⟨loops, work⟩, hloops, h⟩ := bind_eq_ok.1 h
  obtain ⟨⟨plan', work⟩, hfold, h⟩ := bind_eq_ok.1 h
  cases h
  have hclosed := findLoops_ok (by omega) (fun hab => (predecessors_ok hpreds hab).2)
    (dominators_ok hrows) hloops
  obtain ⟨slots, hslots⟩ := foldlM_ok (I := fun _ s => ∃ slots, Planned data addresses s.1 slots)
    (fun pre l post s s' hsplit hs hstep => by
      have hl : l ∈ loops.mergeSort NaturalLoop.before := by
        rw [hsplit]
        exact mem_append_right _ mem_cons_self
      exact cacheLoop_ok (hclosed l (List.mem_mergeSort.1 hl)) hstep hs)
    ⟨[], planned_disabled addresses _⟩ hfold
  refine ⟨addresses, slots, fun _ => addressKeys_ok haddresses, hslots.length, hslots.good,
    fun {k g} hk => ?_, hslots.reads⟩
  -- sorting the resets keeps them
  have hmem := hslots.resets hk
  rw [getD_eq_getElem?_getD] at hmem ⊢
  rw [List.getElem?_map]
  cases hget : plan'.resets[g.loop.preheader]? with
  | none =>
    rw [hget] at hmem
    cases hmem
  | some resets =>
    rw [hget] at hmem
    exact List.mem_eraseDups.2 (List.mem_mergeSort.2 hmem)

end

/-! ## Runs of a loop -/

/-- The action neither writes RAM nor calls a helper nor has an effect other than a segment
address. -/
def Passive : Action → Prop
  | .poll q => q.cost ≠ 0
  | .memory m => eligibleLoad m = true
  | .effect e => (segment e).isSome = true
  | .call _ => False
  | .value _ => True

section
variable {data : MirData} {p : Platform} {action : Action} {native : Bool} {s s' : NativeState}

theorem Harmless.passive {id : InstId} (h : Harmless data id) (haction : data.action id = some action) :
    Passive action := by
  have hplan := MirData.planAt_of_action haction
  cases action with
  | poll q => exact h.poll hplan
  | memory m => exact h.memory hplan
  | effect e => exact h.effect hplan
  | call c => cases h.call.symm.trans hplan
  | value v => trivial

/-- A passive action leaves RAM alone, when its load is native. -/
theorem Passive.ram (h : Passive action) (hdoes : Does p action native s s')
    (hnative : ∀ m, action = .memory m → native = true) : s'.ram = s.ram := by
  cases action with
  | poll q =>
    cases hdoes with
    | poll => rfl
    | other hopen _ => exact hopen.elim
  | call c => exact h.elim
  | value v =>
    cases hdoes with
    | value _ => rfl
    | other hopen _ => exact hopen.elim
  | effect e =>
    have hsegment : (segment e).isSome = true := h
    unfold segment at hsegment
    split at hsegment
    · cases hdoes with
      | address => rfl
      | other hopen _ => exact hopen.elim
    · cases hsegment
  | memory m =>
    obtain rfl := hnative m rfl
    obtain ⟨result, hm⟩ := eligibleLoad_spec h
    cases hdoes with
    | load _ _ => rfl
    | rmwLoad _ _ => rfl
    | store hn _ => cases hm.symm.trans hn

end

section
variable {data : MirData} {p : Platform} {l : NaturalLoop} {x y : Point} {e : Event}
  {events : List Event}

theorem mem_loopInstructions {id : InstId} :
    id ∈ loopInstructions data l.members ↔ ∃ b, l.Mem data b ∧ id ∈ data.body b := by
  unfold loopInstructions
  rw [mem_flatMap]
  refine exists_congr fun b => and_congr_left fun _ => ?_
  rw [mem_filter, mem_range]
  exact Iff.rfl

/-- What a run does stays within the loop. -/
def NaturalLoop.Inside (data : MirData) (l : NaturalLoop) : Event → Prop
  | .enter b => l.Mem data b
  | .exec id _ => id ∈ loopInstructions data l.members

/-- A run that ends in a loop and does not enter the preheader has stayed in the loop, or it started
in the preheader. -/
theorem Closed.inside_or (hclosed : Closed data l) (h : Travels p data x events y)
    (hy : l.Mem data y.block) (hreset : .enter l.preheader ∉ events) :
    (l.Mem data x.block ∧ ∀ e ∈ events, l.Inside data e) ∨ x.block = l.preheader := by
  induction h with
  | nil x => exact .inl ⟨hy, fun _ he => absurd he not_mem_nil⟩
  | @cons x y z e events hmove _ ih =>
    have hback := ih hy fun hmem => hreset (mem_cons_of_mem _ hmem)
    cases hmove with
    | @exec b pre post id s s' action native hsplit _ _ =>
      refine hback.imp_left fun hin => ⟨hin.1, List.forall_mem_cons.2 ⟨?_, hin.2⟩⟩
      refine mem_loopInstructions.2 ⟨b, hin.1, ?_⟩
      rw [hsplit]
      exact mem_append_right _ mem_cons_self
    | @enter b t s s' hedge _ =>
      rcases hback with ⟨ht, hevents⟩ | rfl
      · rcases hclosed.edge hedge ht with hb | ⟨-, rfl⟩
        · exact .inl ⟨hb, List.forall_mem_cons.2 ⟨ht, hevents⟩⟩
        · exact .inr rfl
      · exact absurd mem_cons_self hreset

theorem Closed.inside (hclosed : Closed data l) (h : Travels p data x events y)
    (hx : l.Mem data x.block) (hy : l.Mem data y.block) (hreset : .enter l.preheader ∉ events) :
    ∀ e ∈ events, l.Inside data e := by
  rcases hclosed.inside_or h hy hreset with hin | hout
  · exact hin.2
  · exact absurd (hout ▸ hx) hclosed.preheader

/-- The loads among the events that belong to the loop are native. -/
def NaturalLoop.Native (data : MirData) (l : NaturalLoop) (events : List Event) : Prop :=
  ∀ id native, .exec id native ∈ events → id ∈ loopInstructions data l.members →
    (planAt data.memory id).isSome = true → native = true

/-- A run within a loop of harmless instructions keeps RAM and what is assigned outside. -/
theorem travels_kept (h : data.Verified)
    (hharmless : ∀ id ∈ loopInstructions data l.members, Harmless data id)
    (hrun : Travels p data x events y) (hin : ∀ e ∈ events, l.Inside data e)
    (hnative : l.Native data events) :
    y.state.ram = x.state.ram ∧ ∀ v b, planAt data.valueBlocks v = some b →
      inSet l.members b = false → y.state.env v = x.state.env v := by
  induction hrun with
  | nil x => exact ⟨rfl, fun _ _ _ _ => rfl⟩
  | @cons x y z e events hmove _ ih =>
    obtain ⟨hram, henv⟩ := ih (fun e he => hin e (mem_cons_of_mem _ he))
      fun id native he => hnative id native (mem_cons_of_mem _ he)
    have hstep := hin e mem_cons_self
    -- one step assigns no value of a block outside
    have hone : y.state.ram = x.state.ram ∧ ∀ v b, planAt data.valueBlocks v = some b →
        inSet l.members b = false → y.state.env v = x.state.env v := by
      cases hmove with
      | @exec b pre post id s s' action native hsplit haction hdoes =>
        have hid : id ∈ data.body b := by
          rw [hsplit]
          exact mem_append_right _ mem_cons_self
        refine ⟨?_, fun v c hv hc => hdoes.frame fun hdef => ?_⟩
        · refine ((hharmless id hstep).passive haction).ram hdoes fun m hm => ?_
          subst hm
          refine hnative id native mem_cons_self hstep ?_
          rw [MirData.planAt_of_action haction]
          rfl
        · rw [← defs_of_action haction] at hdef
          obtain ⟨b', hb', hid'⟩ := mem_loopInstructions.1 hstep
          rw [planAt, h.owner hid' hdef] at hv
          cases hv
          rw [hb'.2] at hc
          cases hc
      | @enter b t s s' hedge hcopy =>
        refine ⟨hcopy.1, fun v c hv hc => hcopy.2 v fun hparam => ?_⟩
        rw [planAt, hparam.1] at hv
        cases hv
        have ht : l.Mem data t := hstep
        rw [ht.2] at hc
        cases hc
    exact ⟨hram.trans hone.1, fun v b hv hb => (henv v b hv hb).trans (hone.2 v b hv hb)⟩

end

section
variable {data : MirData} {p : Platform} {members : BitVec 64} {v : ValueId} {x y : Point}

/-- The value an available result was computed to. -/
theorem eval_of_avail {b : BlockId} {pre : List InstId} {s : NativeState} (h : data.Verified)
    (hat : (data.interp p).At b pre s) (hv : data.ssa.Avail b pre v) {plan : ValuePlan}
    (hplan : valuePlan data v = some plan) :
    (∃ reads, p.eval reads s.env plan.steps [] = some [s.env v]) ∧
      ∀ w ∈ expression plan.steps, data.ssa.Avail b pre w := by
  obtain ⟨d, hd, hvalue⟩ := Option.bind_eq_some_iff.1 hplan
  have haction := h.value hvalue
  obtain ⟨hdef, b', hmem⟩ := defined_of_avail h hat hv hd
  refine ⟨?_, fun w hw => hv.use h.valid hat.prefix hmem hdef ?_⟩
  · rw [defs_of_action haction] at hdef
    rw [List.mem_singleton.1 hdef]
    exact holds_of_avail h hat hv hd haction
  · change w ∈ data.uses d
    rw [uses_of_action haction]
    exact hw

/-- Without reads a program computes the same from the same operands, whatever the CPU state. -/
theorem eval_of_pure {reads reads' : Reading → BitVec 128} {e : ValueId → BitVec 128}
    {steps : List Step} {stack : List (BitVec 128)}
    (h : ∀ cpu standalone, .read cpu standalone ∉ steps) :
    p.eval reads e steps stack = p.eval reads' e steps stack := by
  induction steps generalizing stack with
  | nil => rfl
  | cons step rest ih =>
    have hrest : ∀ cpu standalone, .read cpu standalone ∉ rest := fun cpu standalone hmem =>
      h cpu standalone (mem_cons_of_mem _ hmem)
    cases step with
    | value | i32 | i64 =>
      rw [Platform.eval, Platform.eval, ih hrest]
    | read cpu standalone => exact absurd mem_cons_self (h cpu standalone)
    | packed | scalar | simd | lane | shuffle =>
      unfold Platform.eval
      exact Option.bind_congr fun pushed _ => ih hrest

/-- An invariant value that is available at two points of a run through the loop is the same. -/
theorem Invariant.same (h : data.Verified) (hx : x.Reached p data) (hy : y.Reached p data)
    (hkept : ∀ v b, planAt data.valueBlocks v = some b → inSet members b = false →
      y.state.env v = x.state.env v)
    (hinv : Invariant data members v) (hvx : data.ssa.Avail x.block x.done v)
    (hvy : data.ssa.Avail y.block y.done v) : y.state.env v = x.state.env v := by
  induction hinv with
  | outside hv hb => exact hkept _ _ hv hb
  | @computed v plan hplan hpure _ ih =>
    obtain ⟨⟨reads, hevalx⟩, husesx⟩ := eval_of_avail h hx hvx hplan
    obtain ⟨⟨reads', hevaly⟩, husesy⟩ := eval_of_avail h hy hvy hplan
    have hsame : ∀ w ∈ expression plan.steps, y.state.env w = x.state.env w := fun w hw =>
      ih w hw (husesx w hw) (husesy w hw)
    rw [Platform.eval_congr hsame, eval_of_pure hpure, hevalx] at hevaly
    exact (head_eq_of_cons_eq (Option.some.inj hevaly)).symm

end

/-- What the loads of a slot have in common. A slot belongs to a closed loop whose preheader resets
it. On a run from one load of the slot to another that does not reset it, with all loads of the loop
on their native paths, no action in between writes RAM, calls a helper or has an effect other than a
segment address, and the second load reads the address, the width and so the value of the first. -/
theorem loop_cache_sound (data : MirData) (h : data.Verified) (workLimit : Nat) (plan : LoopPlan)
    (hplan : loopPlan data workLimit = .ok plan) (k : Nat) (i₀ : InstId)
    (hi₀ : planAt plan.instructions i₀ = some k) :
    ∃ l : NaturalLoop, Closed data l ∧ k ∈ plan.resets.getD l.preheader [] ∧
      (∀ i, planAt plan.instructions i = some k → i ∈ loopInstructions data l.members) ∧
      ∀ (p : Platform) (i j : InstId) (x y : Point) (native : Bool) (events : List Event)
        (post post' : List InstId),
        planAt plan.instructions i = some k → planAt plan.instructions j = some k →
        x.Reached p data → data.body x.block = x.done ++ i :: post →
        data.body y.block = y.done ++ j :: post' → Travels p data x (.exec i native :: events) y →
        (∀ t, .enter t ∈ events → k ∉ plan.resets.getD t []) →
        l.Native data (.exec i native :: events) →
          (∀ id native, .exec id native ∈ events → ∃ action, data.action id = some action ∧
            Passive action) ∧
          ∃ m m', planAt data.memory i = some m ∧ planAt data.memory j = some m' ∧
            word (y.state.env m'.address) = word (x.state.env m.address) ∧
            m'.guard.bytes = m.guard.bytes ∧ loaded p y.state m'.address m'.guard.bytes =
              loaded p x.state m.address m.guard.bytes := by
  obtain ⟨addresses, slots, hkeys, hplanned⟩ := loopPlan_ok hplan
  obtain ⟨g, hg, -⟩ := hplanned.reads hi₀
  have hmem := mem_of_getElem? hg
  have hkeys := hkeys (ne_nil_of_mem hmem)
  obtain ⟨hclosed, hharmless, hinvariant⟩ := hplanned.good g hmem
  have hreads : ∀ i, planAt plan.instructions i = some k → g.Reads data addresses i := by
    intro i hi
    obtain ⟨g', hg', hread⟩ := hplanned.reads hi
    cases hg.symm.trans hg'
    exact hread
  refine ⟨g.loop, hclosed, hplanned.resets hg, fun i hi => (hreads i hi).mem,
    fun p i j x y native events post post' hi hj hx hsplit hsplit' hrun hreset hnative => ?_⟩
  obtain ⟨himem, m, hm, hload, hkey, hbytes⟩ := hreads i hi
  obtain ⟨hjmem, m', hm', hload', hkey', hbytes'⟩ := hreads j hj
  -- the run stays in the loop
  have hblock : ∀ {b : BlockId} {pre post : List InstId} {id : InstId},
      id ∈ loopInstructions data g.loop.members → data.body b = pre ++ id :: post →
      g.loop.Mem data b := by
    intro b pre post id hid hbody
    obtain ⟨b', hb', hid'⟩ := mem_loopInstructions.1 hid
    have hhere : id ∈ data.body b := by
      rw [hbody]
      exact mem_append_right _ mem_cons_self
    exact h.block hid' hhere ▸ hb'
  have hnoreset : .enter g.loop.preheader ∉ (.exec i native :: events : List Event) := by
    intro he
    rcases List.mem_cons.1 he with he | he
    · cases he
    · exact hreset _ he (hplanned.resets hg)
  have hin := hclosed.inside hrun (hblock himem hsplit) (hblock hjmem hsplit') hnoreset
  obtain ⟨hram, henv⟩ := travels_kept h hharmless hrun hin hnative
  -- the two loads have the address of the slot's key
  have haddress : ∀ {z : Point} {post : List InstId} {id : InstId} {m : MemoryPlan},
      z.Reached p data → data.body z.block = z.done ++ id :: post →
      planAt data.memory id = some m → keyFor addresses m = g.key →
      keyAddress p z.state.env g.key = word (z.state.env m.address) ∧
        data.ssa.Avail z.block z.done (keyValue g.key) := by
    intro z post id m hz hbody hm hkey
    rw [← hkey]
    refine address_of_avail h hkeys hz (h.uses hbody ?_)
    rw [uses_of_action (h.memory hm)]
    exact m.address_mem_uses
  obtain ⟨hword, hav⟩ := haddress hx hsplit hm hkey
  obtain ⟨hword', hav'⟩ := haddress (hrun.reached hx) hsplit' hm' hkey'
  have hsame := hinvariant.same h hx (hrun.reached hx) henv hav hav'
  have heq : word (y.state.env m'.address) = word (x.state.env m.address) := by
    rw [← hword, ← hword', keyAddress_congr hsame]
  refine ⟨fun id flag he => ?_, m, m', hm, hm', heq, hbytes'.trans hbytes.symm, ?_⟩
  · have hid : id ∈ loopInstructions data g.loop.members :=
      hin _ (mem_cons_of_mem _ he)
    obtain ⟨action, haction⟩ := hrun.action_of_mem (mem_cons_of_mem _ he)
    exact ⟨action, haction, (hharmless id hid).passive haction⟩
  · rw [loaded, loaded, hram, heq, hbytes', hbytes]

/-- One turn of the loop. -/
theorem polling_turn : Travels flat polling ⟨1, [], addressed⟩
    [.exec 1 true, .exec 2 true, .enter 1] ⟨1, [], loadedTwice⟩ :=
  .cons (.exec (rfl : polling.body 1 = [] ++ 1 :: [2]) rfl (.load rfl (by change _ < _; decide)))
    (.cons (.exec (rfl : polling.body 1 = [1] ++ 2 :: []) rfl (.load rfl (by change _ < _; decide)))
      (.cons (.enter (polling_edge Nat.one_lt_two) ⟨rfl, fun _ _ => rfl⟩) (.nil _)))

/-- The first load of a turn reads what that of the turn before has read. -/
theorem loop_cache_sound_polling : ∃ l : NaturalLoop, Closed polling l ∧
    loaded flat loadedTwice 0 4 = loaded flat addressed 0 4 := by
  obtain ⟨l, hclosed, -, -, hruns⟩ := loop_cache_sound polling polling_verified 1000
    ⟨[none, some 0, some 0], [[0], [], []], 1⟩ (by decide +kernel) 0 1 rfl
  refine ⟨l, hclosed, ?_⟩
  obtain ⟨-, m, m', hm, hm', -, -, hloaded⟩ := hruns flat 1 1 ⟨1, [], addressed⟩
    ⟨1, [], loadedTwice⟩ true [.exec 2 true, .enter 1] [2] [2] rfl rfl polling_at rfl rfl polling_turn
    (fun t ht => by
      obtain rfl : t = 1 := by simpa using ht
      decide)
    (fun id native he _ _ => by
      rcases List.mem_cons.1 he with he | he
      · cases he
        rfl
      · rcases List.mem_cons.1 he with he | he
        · cases he
          rfl
        · cases List.mem_singleton.1 he)
  cases hm
  cases hm'
  exact hloaded

end Forwarding

end V86.Ir.Mir
