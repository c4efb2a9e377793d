import V86.Ir.Mir.Forwarding
import V86.Ir.Mir.Native

/-!
# A forwarded load gives what its source read or wrote

`planWithLoops` goes through a block and keeps the last access that may be a source. One turn of it
(`Turn`) forgets the source, passes over an instruction that leaves the bytes of the source alone
(`Quiet`), or makes the instruction the source, of a reuse as well when its address is the same. So
between a source and a load that reuses it there are only quiet instructions (`Reused`).

Equal keys are equal linear addresses at every point a run reaches (`address_of_avail`), and keys
that are proven disjoint have no physical byte in common under any page translation
(`disjoint_of_alias`), so that quiet instructions keep the bytes (`quiet_run`) and the load finds
what the source left (`ram_forwarding_sound`).
-/

namespace V86.Ir.Mir

open Exec List

namespace Forwarding

/-! ## The certificates -/

section
variable (data : MirData) (addresses : List (Option AddressKey))

/-- The instruction accesses the bytes of a key and leaves a value there. -/
inductive Source : InstId → AddressKey → Nat → Prop
  | load {id : InstId} {m : MemoryPlan} : planAt data.memory id = some m → eligibleLoad m = true →
      Source id (keyFor addresses m) m.guard.bytes
  | store {id : InstId} {m : MemoryPlan} : planAt data.memory id = some m →
      eligibleStore m = true → Source id (keyFor addresses m) m.guard.bytes
  | rmw {id : InstId} {effect : EffectPlan} {address : ValueId} {bytes : Nat} :
      planAt data.effects id = some effect → committedRmw data effect = some (address, bytes) →
      Source id ((planAt addresses address).getD (.value address)) bytes

/-- The instruction leaves the bytes of a key alone. -/
inductive Quiet (key : AddressKey) (bytes : Nat) : InstId → Prop
  | poll {id : InstId} {q : Poll} : planAt data.control.polls id = some q → Quiet key bytes id
  | value {id : InstId} {v : ValuePlan} : planAt data.values id = some v → Quiet key bytes id
  | segment {id : InstId} {effect : EffectPlan} : planAt data.effects id = some effect →
      (segment effect).isSome = true → Quiet key bytes id
  | store {id : InstId} {m : MemoryPlan} : planAt data.memory id = some m →
      eligibleStore m = true →
      aliasProof data key bytes (keyFor addresses m) m.guard.bytes = .disjoint → Quiet key bytes id

/-- What one turn of `plan_with_loops` does with an instruction. -/
inductive Turn (s : Scan) (id : InstId) (s' : Scan) : Prop
  | forget : s'.result = s.result → s'.previous = none → Turn s id s'
  | pass : s'.result = s.result → s'.previous = s.previous →
      (∀ key bytes old, s.previous = some (key, bytes, old) → Quiet data addresses key bytes id) →
      Turn s id s'
  | source {key : AddressKey} {bytes : Nat} : s'.result = s.result →
      s'.previous = some (key, bytes, id) → Source data addresses id key bytes → Turn s id s'
  | reuse {m : MemoryPlan} {old : InstId} : planAt data.memory id = some m →
      eligibleLoad m = true → s.previous = some (keyFor addresses m, m.guard.bytes, old) →
      chain s.result old id = .ok s'.result →
      s'.previous = some (keyFor addresses m, m.guard.bytes, id) → Turn s id s'

end

section
variable {data : MirData} {addresses : List (Option AddressKey)} {s s' : Scan} {id : InstId}
  {m : MemoryPlan}

theorem aliasProof_eq_exact {a b : AddressKey} {m n : Nat} :
    aliasProof data a m b n = .exact ↔ a = b ∧ m = n := by
  unfold aliasProof
  split
  · rename_i h
    exact ⟨fun _ => h, fun _ => rfl⟩
  · rename_i h
    refine ⟨fun hexact => ?_, fun hsame => absurd hsame h⟩
    split at hexact
    · split at hexact <;> cases hexact
    · cases hexact

theorem planLoad_turn (hm : planAt data.memory id = some m) (hload : eligibleLoad m = true)
    (h : planLoad data addresses s id m = .ok s') : Turn data addresses s id s' := by
  unfold planLoad at h
  dsimp only at h
  obtain ⟨result, hresult, h⟩ := bind_eq_ok.1 h
  cases h
  unfold reuseSource at hresult
  split at hresult
  · rename_i oldKey bytes old hprevious
    split at hresult
    · rename_i hexact
      obtain ⟨rfl, rfl⟩ := aliasProof_eq_exact.1 hexact
      exact .reuse hm hload hprevious hresult rfl
    · cases hresult
      exact .source rfl rfl (.load hm hload)
  · cases hresult
    exact .source rfl rfl (.load hm hload)

theorem planStore_turn (hm : planAt data.memory id = some m) (hstore : eligibleStore m = true) :
    Turn data addresses s id (planStore data addresses s id m) := by
  unfold planStore
  dsimp only
  split
  · rename_i oldKey oldBytes old hprevious
    split
    · rename_i hdisjoint
      refine .pass rfl rfl fun key bytes old' hp => ?_
      cases hprevious.symm.trans hp
      exact .store hm hstore hdisjoint
    · exact .source rfl rfl (.store hm hstore)
  · exact .source rfl rfl (.store hm hstore)

theorem planEffect_turn {effect : EffectPlan} (he : planAt data.effects id = some effect)
    (h : planEffect data addresses s id effect = .ok s') : Turn data addresses s id s' := by
  unfold planEffect at h
  split at h
  · rename_i hsegment
    cases h
    exact .pass rfl rfl fun _ _ _ _ => .segment he hsegment
  · split at h
    · rename_i address bytes hrmw
      obtain ⟨key, hkey, h⟩ := bind_eq_ok.1 h
      cases h
      have hplan : planAt addresses address = key := planAt_of_get (idx_eq_ok.1 hkey)
      exact .source rfl rfl (hplan ▸ .rmw he hrmw)
    · cases h
      exact .forget rfl rfl

theorem planValue_turn (h : planValue data s id = .ok s') : Turn data addresses s id s' := by
  unfold planValue at h
  obtain ⟨call, -, h⟩ := bind_eq_ok.1 h
  split at h
  · cases h
    exact .forget rfl rfl
  obtain ⟨value, hvalue, h⟩ := bind_eq_ok.1 h
  split at h
  · cases h
    exact .forget rfl rfl
  · rename_i value
    obtain ⟨left, -, h⟩ := bind_eq_ok.1 h
    dsimp only at h
    split at h
    · cases h
      exact .forget rfl rfl
    · cases h
      exact .pass rfl rfl fun _ _ _ _ => .value (planAt_of_get (idx_eq_ok.1 hvalue))

/-- One turn of `plan_with_loops`. -/
theorem planInst_turn {loops : LoopPlan} (h : planInst data addresses loops s id = .ok s') :
    Turn data addresses s id s' := by
  unfold planInst at h
  obtain ⟨left, -, h⟩ := bind_eq_ok.1 h
  dsimp only at h
  obtain ⟨slot, -, h⟩ := bind_eq_ok.1 h
  split at h
  · cases h
    exact .forget rfl rfl
  obtain ⟨memory, hmemory, h⟩ := bind_eq_ok.1 h
  have hmemory := planAt_of_get (okOr_eq_ok.1 hmemory)
  obtain ⟨poll, hpoll, h⟩ := bind_eq_ok.1 h
  have hpoll := planAt_of_get (idx_eq_ok.1 hpoll)
  -- the turn of the state with the work taken is one of the state
  have hturn : ∀ {t : Scan}, Turn data addresses { s with left := left } id t →
      Turn data addresses s id t := by
    intro t ht
    cases ht with
    | forget h1 h2 => exact .forget h1 h2
    | pass h1 h2 h3 => exact .pass h1 h2 h3
    | source h1 h2 h3 => exact .source h1 h2 h3
    | reuse h1 h2 h3 h4 h5 => exact .reuse h1 h2 h3 h4 h5
  cases poll with
  | some q =>
    cases h
    by_cases hcost : 1 ≤ q.cost
    · exact .pass rfl (if_pos hcost) fun _ _ _ _ => .poll hpoll
    · exact .forget rfl (if_neg hcost)
  | none =>
    cases memory with
    | some m =>
      dsimp only at h
      split at h
      · rename_i hload
        exact hturn (planLoad_turn hmemory hload h)
      · split at h
        · rename_i hstore
          cases h
          exact hturn (planStore_turn hmemory hstore)
        · cases h
          exact .forget rfl rfl
    | none =>
      obtain ⟨effect, heffect, h⟩ := bind_eq_ok.1 h
      cases effect with
      | some effect =>
        exact hturn (planEffect_turn (planAt_of_get (idx_eq_ok.1 heffect)) h)
      | none => exact hturn (planValue_turn h)

end

/-! ## Between a source and its reuse -/

section
variable (data : MirData) (addresses : List (Option AddressKey))

/-- Behind the source of a scan there are only quiet instructions. -/
def Chained (pre : List InstId) (s : Scan) : Prop :=
  ∀ key bytes old, s.previous = some (key, bytes, old) → Source data addresses old key bytes ∧
    ∃ pre₁ mid, pre = pre₁ ++ old :: mid ∧ ∀ j ∈ mid, Quiet data addresses key bytes j

/-- A load that reuses a source is behind it in its block, with the same key and width and only
quiet instructions in between. -/
def Reused (result : List (Option Forwarding)) : Prop :=
  ∀ i q, planAt result i = some (.reuse q) → ∃ block ∈ data.control.blocks, ∃ pre mid post m,
    block.instructions = pre ++ q :: mid ++ i :: post ∧ planAt data.memory i = some m ∧
      eligibleLoad m = true ∧ Source data addresses q (keyFor addresses m) m.guard.bytes ∧
      ∀ j ∈ mid, Quiet data addresses (keyFor addresses m) m.guard.bytes j

/-- The recorded keys are those of segment address plans. -/
def Keyed : Prop :=
  ∀ v key, planAt addresses v = some key → ∃ id effect, planAt data.effects id = some effect ∧
    segment effect = some (v, key)

end

section
variable {data : MirData} {addresses : List (Option AddressKey)}

theorem planAt_set {α : Type} {arena : List (Option α)} {i j : Nat} {x : Option α}
    (hi : i < arena.length) : planAt (arena.set i x) j = if i = j then x else planAt arena j := by
  unfold planAt
  rw [List.getElem?_set]
  by_cases heq : i = j
  · subst heq
    rw [if_pos rfl, if_pos rfl, if_pos hi, Option.join_some]
  · rw [if_neg heq, if_neg heq]

theorem chain_ok {result result' : List (Option Forwarding)} {old id : InstId}
    (h : chain result old id = .ok result') {i q : InstId}
    (hi : planAt result' i = some (.reuse q)) :
    planAt result i = some (.reuse q) ∨ i = id ∧ q = old := by
  unfold chain at h
  obtain ⟨started, hstarted, h⟩ := bind_eq_ok.1 h
  obtain ⟨hlt, rfl⟩ := setAt_eq_ok.1 h
  unfold begun at hstarted
  obtain ⟨first, hfirst, hstarted⟩ := bind_eq_ok.1 hstarted
  rw [planAt_set hlt] at hi
  split at hi
  · rename_i heq
    cases hi
    exact .inr ⟨heq.symm, rfl⟩
  · cases first with
    | some f =>
      cases hstarted
      exact .inl hi
    | none =>
      obtain ⟨hold, rfl⟩ := setAt_eq_ok.1 hstarted
      rw [planAt_set hold] at hi
      split at hi
      · cases hi
      · exact .inl hi

/-- A turn keeps what is known of the source and of the reuses. -/
theorem Turn.keeps {block : Block} {pre post : List InstId} {s s' : Scan} {id : InstId}
    (h : Turn data addresses s id s') (hblock : block ∈ data.control.blocks)
    (hsplit : block.instructions = pre ++ id :: post) (hchained : Chained data addresses pre s)
    (hreused : Reused data addresses s.result) :
    Chained data addresses (pre ++ [id]) s' ∧ Reused data addresses s'.result := by
  -- a fresh source has nothing behind it
  have hfresh : ∀ {key : AddressKey} {bytes : Nat}, s'.previous = some (key, bytes, id) →
      Source data addresses id key bytes → Chained data addresses (pre ++ [id]) s' := by
    intro key bytes hprevious hsource key' bytes' old hold
    cases hprevious.symm.trans hold
    exact ⟨hsource, pre, [], rfl, nofun⟩
  cases h with
  | forget hresult hnone =>
    rw [hresult]
    refine ⟨fun key bytes old hold => ?_, hreused⟩
    rw [hnone] at hold
    cases hold
  | pass hresult hsame hquiet =>
    rw [hresult]
    refine ⟨fun key bytes old hold => ?_, hreused⟩
    rw [hsame] at hold
    obtain ⟨hsource, pre₁, mid, rfl, hmid⟩ := hchained key bytes old hold
    refine ⟨hsource, pre₁, mid ++ [id], by rw [append_assoc, cons_append], ?_⟩
    intro j hj
    rcases List.mem_append.1 hj with hj | hj
    · exact hmid j hj
    · rw [List.mem_singleton.1 hj]
      exact hquiet key bytes old hold
  | source hresult hprevious hsource =>
    rw [hresult]
    exact ⟨hfresh hprevious hsource, hreused⟩
  | @reuse m old hm hload hold hchain hprevious =>
    refine ⟨hfresh hprevious (.load hm hload), fun i q hi => ?_⟩
    rcases chain_ok hchain hi with hi | ⟨rfl, rfl⟩
    · exact hreused i q hi
    · obtain ⟨hsource, pre₁, mid, rfl, hmid⟩ := hchained _ _ _ hold
      exact ⟨block, hblock, pre₁, mid, post, m, by rw [hsplit], hm, hload, hsource, hmid⟩

theorem addressKeys_ok {left left' : Nat} (h : addressKeys data left = .ok (addresses, left')) :
    Keyed data addresses := by
  unfold addressKeys at h
  refine foldlM_ok (I := fun _ s => Keyed data s.1) (fun pre effect post s s' hl hs hstep => ?_) ?_ h
  · obtain ⟨work, -, hstep⟩ := bind_eq_ok.1 hstep
    split at hstep
    · cases hstep
      exact hs
    · rename_i value key hsegment
      split at hstep
      · rename_i hlt
        cases hstep
        intro v key' hv
        dsimp only at hv
        rw [planAt_set hlt] at hv
        split at hv
        · rename_i heq
          cases hv
          have hmem : effect ∈ data.effects.reduceOption := by
            rw [hl]
            exact mem_append_right _ mem_cons_self
          obtain ⟨k, hk⟩ := mem_iff_getElem?.1 (List.reduceOption_mem_iff.1 hmem)
          exact ⟨k, effect, planAt_of_get hk, heq ▸ hsegment⟩
        · exact hs v key' hv
      · cases hstep
  · intro v key hv
    rw [planAt] at hv
    cases hget : (List.replicate data.valueTypes.length (none : Option AddressKey))[v]? with
    | none => rw [hget] at hv; cases hv
    | some o =>
      rw [List.getElem?_replicate] at hget
      split at hget <;> cases hget
      rw [List.getElem?_replicate, if_pos ‹_›] at hv
      cases hv

end

section
variable {data : MirData}

/-- A block starts without a source. -/
theorem reused_of_block {addresses : List (Option AddressKey)} {loops : LoopPlan} {block : Block}
    {s s' : Scan} (hmem : block ∈ data.control.blocks) (hnone : s.previous = none)
    (hreused : Reused data addresses s.result)
    (h : block.instructions.foldlM (planInst data addresses loops) s = .ok s') :
    Reused data addresses s'.result := by
  have hchained : Chained data addresses [] s := by
    intro key bytes old hold
    rw [hnone] at hold
    cases hold
  have hall := foldlM_ok (I := fun pre s => Chained data addresses pre s ∧
    Reused data addresses s.result) (fun pre id post s s' hsplit hkept hstep =>
      (planInst_turn hstep).keeps hmem hsplit hkept.1 hkept.2) ⟨hchained, hreused⟩ h
  exact hall.2

/-- The certificates of `plan_with_loops`. -/
theorem planWithLoops_ok {loops : LoopPlan} {workLimit : Nat} {result : List (Option Forwarding)}
    (h : planWithLoops data loops workLimit = .ok result) :
    ∃ addresses, Keyed data addresses ∧ Reused data addresses result := by
  unfold planWithLoops at h
  obtain ⟨-, -, h⟩ := bind_eq_ok.1 h
  dsimp only at h
  obtain ⟨-, -, h⟩ := bind_eq_ok.1 h
  obtain ⟨left, -, h⟩ := bind_eq_ok.1 h
  obtain ⟨⟨addresses, left'⟩, hkeys, h⟩ := bind_eq_ok.1 h
  obtain ⟨s, hs, h⟩ := bind_eq_ok.1 h
  cases h
  refine ⟨addresses, addressKeys_ok hkeys, ?_⟩
  refine foldlM_ok (I := fun _ s => Reused data addresses s.result)
    (fun done block rest s s' hblocks hreused hblock => ?_) (fun i q hi => ?_) hs
  · have hmem : block ∈ data.control.blocks := by
      rw [hblocks]
      exact mem_append_right _ mem_cons_self
    exact reused_of_block (s := { s with previous := none }) hmem rfl hreused hblock
  · exfalso
    rw [planAt, List.getElem?_replicate] at hi
    split at hi <;> cases hi

/-! ## Addresses -/

/-- The value a key is about. -/
def keyValue : AddressKey → ValueId
  | .value v => v
  | .segment _ _ offset => offset

/-- The linear address of a key. -/
def keyAddress (p : Platform) (e : ValueId → BitVec 128) : AddressKey → BitVec 32
  | .value v => word (e v)
  | .segment base _ offset => p.base base + word (e offset)

variable {addresses : List (Option AddressKey)} {p : Platform} {b : BlockId}
  {pre post mid : List InstId} {id : InstId} {s s' : NativeState} {v : ValueId}

variable {d : InstId} {action : Action}

/-- An available value with a recorded definition was defined by it. -/
theorem defined_of_avail (h : data.Verified) (hat : (data.interp p).At b pre s)
    (hv : data.ssa.Avail b pre v) (hd : planAt data.valueDefinitions v = some d) :
    v ∈ data.defs d ∧ ∃ b', d ∈ data.body b' := by
  have hget := Option.join_eq_some_iff.1 hd
  -- the definition a use sees is the recorded one
  have hsame : ∀ {id : InstId}, v ∈ data.defs id → id = d := fun hdef => by
    have hsome := (h.definition hdef).symm.trans hget
    exact Option.some.inj (Option.some.inj hsome)
  cases hv with
  | param hparam _ =>
    have hnone := hparam.2.symm.trans hget
    cases Option.some.inj hnone
  | above hid hdef _ _ => exact hsame hdef ▸ ⟨hdef, _, hid⟩
  | here hid hdef => exact hsame hdef ▸ ⟨hdef, b, hat.prefix.subset hid⟩

/-- The equation of an available value. -/
theorem holds_of_avail (h : data.Verified) (hat : (data.interp p).At b pre s)
    (hv : data.ssa.Avail b pre v) (hd : planAt data.valueDefinitions v = some d)
    (haction : data.action d = some action) : action.Holds p s.env := by
  obtain ⟨hdef, b', hmem⟩ := defined_of_avail h hat hv hd
  have hholds := hat.settled_of_avail h.valid (data.equations p) hmem hdef hv
  change (data.action d).elim True _ at hholds
  rw [haction] at hholds
  exact hholds

theorem defs_of_action (haction : data.action id = some action) : data.defs id = action.defs := by
  rw [MirData.defs, haction]
  rfl

theorem uses_of_action (haction : data.action id = some action) : data.uses id = action.uses := by
  rw [MirData.uses, haction]
  rfl

/-- An available constant has its value. -/
theorem constant_of_avail (h : data.Verified) (hat : (data.interp p).At b pre s)
    (hv : data.ssa.Avail b pre v) {n : BitVec 32} (hn : constantI32 data v = some n) :
    word (s.env v) = n := by
  unfold constantI32 valuePlan at hn
  obtain ⟨plan, hplan, hsome⟩ := Option.bind_eq_some_iff.1 hn
  obtain ⟨d, hd, hvalue⟩ := Option.bind_eq_some_iff.1 hplan
  have haction := h.value hvalue
  obtain ⟨hdef, -⟩ := defined_of_avail h hat hv hd
  rw [defs_of_action haction] at hdef
  obtain rfl : v = plan.result := List.mem_singleton.1 hdef
  obtain ⟨reads, heval⟩ := holds_of_avail h hat hv hd haction
  split at hsome
  · rename_i m hsteps
    cases hsome
    rw [hsteps] at heval
    rw [← head_eq_of_cons_eq (Option.some.inj heval), word_setWidth]
  · cases hsome

/-- The key of an available address gives the address, and its value is available. -/
theorem address_of_avail (h : data.Verified) (hkeys : Keyed data addresses)
    (hat : (data.interp p).At b pre s) (hv : data.ssa.Avail b pre v) :
    keyAddress p s.env ((planAt addresses v).getD (.value v)) = word (s.env v) ∧
      data.ssa.Avail b pre (keyValue ((planAt addresses v).getD (.value v))) := by
  cases hkey : planAt addresses v with
  | none => exact ⟨rfl, hv⟩
  | some key =>
    obtain ⟨d, effect, heffect, hsegment⟩ := hkeys v key hkey
    have haction := h.effect heffect
    unfold segment at hsegment
    split at hsegment
    · rename_i nullByte base offset result before call
      split at hsegment
      · cases hsegment
        have hdef : v ∈ data.defs d := by
          rw [defs_of_action haction]
          exact mem_cons_self
        have hd : planAt data.valueDefinitions v = some d :=
          Option.join_eq_some_iff.2 (h.definition hdef)
        have hholds := holds_of_avail h hat hv hd haction
        obtain ⟨-, b', hmem⟩ := defined_of_avail h hat hv hd
        refine ⟨hholds.symm, hv.use h.valid hat.prefix hmem hdef ?_⟩
        change offset ∈ data.uses d
        rw [uses_of_action haction]
        exact mem_append_right _ mem_cons_self
      · cases hsegment
    · cases hsegment

end

/-! ## Disjoint accesses -/

section
variable {data : MirData} {p : Platform}

theorem append_mod (x : BitVec 20) (y : BitVec 12) : (x ++ y).toNat % 4096 = y.toNat := by
  rw [BitVec.toNat_append, ← Nat.shiftLeft_add_eq_or_of_lt y.isLt, Nat.shiftLeft_eq]
  have hy := y.isLt
  omega

theorem physical_mod (p : Platform) (a : BitVec 32) :
    (p.physical a).toNat % 4096 = a.toNat % 4096 := by
  have happend := append_mod (p.frame (a.extractLsb' 12 20)) (a.extractLsb' 0 12)
  rw [BitVec.extractLsb'_toNat, Nat.shiftRight_zero] at happend
  exact happend

theorem add_mod_page (a b : BitVec 32) : (a + b).toNat % 4096 = (a.toNat + b.toNat) % 4096 := by
  rw [BitVec.toNat_add]
  exact Nat.mod_mod_of_dvd _ (by decide)

theorem toNat_and_page (a : BitVec 32) : (a &&& 4095).toNat = a.toNat % 4096 := by
  have hmask : (4095 : BitVec 32).toNat = 2 ^ 12 - 1 := by decide
  rw [BitVec.toNat_and, hmask, Nat.and_two_pow_sub_one_eq_mod]

variable {a b : AddressKey} {m n i j : Nat}

/-- Offsets that are disjoint within a page are so behind any base and any page translation. -/
theorem disjoint_of_offsets {a b base : BitVec 32} (h : nativeOffsetsDisjoint a m b n = true)
    (hi : i < m) (hj : j < n) :
    p.physical (base + a) + BitVec.ofNat 32 i ≠ p.physical (base + b) + BitVec.ofNat 32 j := by
  intro heq
  have hne := List.all_eq_true.1 (List.all_eq_true.1 h i (List.mem_range.2 hi)) j
    (List.mem_range.2 hj)
  rw [bne_iff_ne] at hne
  refine hne (BitVec.eq_of_toNat_eq ?_)
  rw [toNat_and_page, toNat_and_page, add_mod_page, add_mod_page]
  have hpage := congrArg (fun x : BitVec 32 => x.toNat % 4096) heq
  have ha := physical_mod p (base + a)
  have hb := physical_mod p (base + b)
  rw [add_mod_page, add_mod_page] at hpage
  rw [add_mod_page] at ha hb
  generalize (BitVec.ofNat 32 i).toNat = x at hpage ⊢
  generalize (BitVec.ofNat 32 j).toNat = y at hpage ⊢
  omega

/-- The constants of two keys are offsets from one base. -/
theorem constants_spec {x y : BitVec 32} (h : constants data a b = some (x, y)) :
    constantI32 data (keyValue a) = some x ∧ constantI32 data (keyValue b) = some y ∧
      ∃ base, ∀ e, keyAddress p e a = base + word (e (keyValue a)) ∧
        keyAddress p e b = base + word (e (keyValue b)) := by
  cases a with
  | value a =>
    cases b with
    | segment => cases h
    | value b =>
      obtain ⟨x', hx, h⟩ := Option.bind_eq_some_iff.1 h
      obtain ⟨y', hy, h⟩ := Option.map_eq_some_iff.1 h
      cases h
      exact ⟨hx, hy, 0#32, fun e => ⟨(BitVec.zero_add _).symm, (BitVec.zero_add _).symm⟩⟩
  | segment base nullByte offset =>
    cases b with
    | value => cases h
    | segment base' nullByte' offset' =>
      unfold constants at h
      dsimp only at h
      split at h
      · rename_i hbase
        obtain ⟨rfl, rfl⟩ := hbase
        obtain ⟨x', hx, h⟩ := Option.bind_eq_some_iff.1 h
        obtain ⟨y', hy, h⟩ := Option.map_eq_some_iff.1 h
        cases h
        exact ⟨hx, hy, p.base base, fun e => ⟨rfl, rfl⟩⟩
      · cases h

/-- Accesses that are proven disjoint have no physical byte in common. -/
theorem disjoint_of_alias {e : ValueId → BitVec 128} (h : aliasProof data a m b n = .disjoint)
    (ha : ∀ x, constantI32 data (keyValue a) = some x → word (e (keyValue a)) = x)
    (hb : ∀ x, constantI32 data (keyValue b) = some x → word (e (keyValue b)) = x) (hi : i < m)
    (hj : j < n) : p.physical (keyAddress p e a) + BitVec.ofNat 32 i ≠
      p.physical (keyAddress p e b) + BitVec.ofNat 32 j := by
  unfold aliasProof at h
  split at h
  · cases h
  split at h
  · rename_i x y hconstants
    split at h
    · rename_i hoffsets
      obtain ⟨hx, hy, base, haddress⟩ := constants_spec (p := p) hconstants
      rw [(haddress e).1, (haddress e).2, ha x hx, hb y hy]
      exact disjoint_of_offsets hoffsets hi hj
    · cases h
  · cases h

end

/-! ## Native runs -/

/-- The value an access leaves at its address: what a load gives, what a store or the commit of a
read-modify-write writes. -/
def carried (data : MirData) (id : InstId) (s s' : NativeState) : Option (BitVec 128) :=
  match data.action id with
  | some (.memory m) => match m.native with
    | .scalarLoad result none => some (s'.env result)
    | .scalarStore value _ =>
      some (BitVec.ofNat 128 ((s.env value).toNat % 256 ^ m.guard.bytes))
    | _ => none
  | some (.effect (.rmwCommit bytes _ value _ _ _)) =>
    some (BitVec.ofNat 128 ((s.env value).toNat % 256 ^ bytes))
  | _ => none

section
variable {data : MirData} {addresses : List (Option AddressKey)} {p : Platform} {b : BlockId}
  {pre post mid : List InstId} {id : InstId} {s s' : NativeState} {v : ValueId}
  {key : AddressKey} {bytes : Nat}

variable {m : MemoryPlan} {action : Action}

theorem eligibleLoad_spec (h : eligibleLoad m = true) :
    ∃ result, m.native = .scalarLoad result none := by
  unfold eligibleLoad at h
  split at h
  · exact ⟨_, ‹_›⟩
  · cases h

theorem eligibleStore_spec (h : eligibleStore m = true) :
    (∃ value commit, m.native = .scalarStore value commit) ∧ m.guard.bytes ≤ 4 := by
  unfold eligibleStore at h
  split at h
  · obtain ⟨hbytes, -⟩ := of_decide_eq_true h
    exact ⟨⟨_, _, ‹_›⟩, by omega⟩
  · cases h

theorem committedRmw_spec {effect : EffectPlan} {address : ValueId}
    (h : committedRmw data effect = some (address, bytes)) :
    ∃ ticket value observe commit call d read result,
      effect = .rmwCommit bytes ticket value observe commit call ∧
      planAt data.valueDefinitions ticket = some d ∧ planAt data.memory d = some read ∧
      read.native = .scalarLoad result (some ticket) ∧ read.address = address := by
  unfold committedRmw at h
  split at h
  · rename_i ticket value observe commit call
    obtain ⟨d, hd, h⟩ := Option.bind_eq_some_iff.1 h
    obtain ⟨read, hread, h⟩ := Option.bind_eq_some_iff.1 h
    split at h
    · rename_i result t hnative
      split at h
      · rename_i hguard
        obtain ⟨rfl, rfl⟩ := Prod.mk.injEq .. ▸ Option.some.inj h
        rw [hguard.1] at hnative
        exact ⟨ticket, value, observe, commit, call, d, read, result, rfl, hd, hread, hnative, rfl⟩
      · cases h
    · cases h
  · cases h

/-- A native step leads to the next point and keeps the available values. -/
theorem native_step (h : data.Verified) (hat : (data.interp p).At b pre s)
    (hsplit : data.body b = pre ++ id :: post) (haction : data.action id = some action)
    (hdoes : Does p action true s s') : (data.interp p).At b (pre ++ [id]) s' ∧
      ∀ v, data.ssa.Avail b pre v → s'.env v = s.env v := by
  have hstep : (data.interp p).step id s s' := ⟨action, true, haction, hdoes⟩
  exact ⟨.step hat hsplit hstep, fun v hv =>
    (data.interp p).step_frame hstep (hv.not_mem_defs h.valid hsplit)⟩

/-- A key whose value is kept keeps its address. -/
theorem keyAddress_congr {e e' : ValueId → BitVec 128} (h : e' (keyValue key) = e (keyValue key)) :
    keyAddress p e' key = keyAddress p e key := by
  cases key with
  | value v => exact congrArg word h
  | segment base nullByte offset => exact congrArg (fun x => p.base base + word x) h

/-- A quiet instruction keeps the bytes of the key. -/
theorem Quiet.step (h : data.Verified) (hkeys : Keyed data addresses)
    (hquiet : Quiet data addresses key bytes id) (hat : (data.interp p).At b pre s)
    (hsplit : data.body b = pre ++ id :: post) (hkey : data.ssa.Avail b pre (keyValue key))
    (haction : data.action id = some action) (hdoes : Does p action true s s') :
    load s'.ram (p.physical (keyAddress p s.env key)) bytes =
      load s.ram (p.physical (keyAddress p s.env key)) bytes := by
  cases hquiet with
  | @poll q hq =>
    have hsame : data.action id = some (.poll q) := by rw [MirData.action, hq]
    cases hsame.symm.trans haction
    cases hdoes with
    | poll => rfl
  | value hv =>
    cases (h.value hv).symm.trans haction
    cases hdoes with
    | value _ => rfl
  | @segment effect heffect hsegment =>
    cases (h.effect heffect).symm.trans haction
    unfold Forwarding.segment at hsegment
    split at hsegment
    · cases hdoes with
      | address => rfl
    · cases hsegment
  | @store m hm hstore halias =>
    cases (h.memory hm).symm.trans haction
    obtain ⟨⟨value, commit, hnative⟩, -⟩ := eligibleStore_spec hstore
    cases hdoes with
    | load hn _ | rmwLoad hn _ => cases hnative.symm.trans hn
    | store hn _ =>
      have huse : m.address ∈ data.uses id := by
        rw [uses_of_action haction]
        exact m.address_mem_uses
      obtain ⟨haddress, havail⟩ := address_of_avail h hkeys hat (h.uses hsplit huse)
      change keyAddress p s.env (keyFor addresses m) = _ at haddress
      rw [← haddress]
      refine load_store_of_disjoint fun i hi j hj => (disjoint_of_alias halias ?_ ?_ hj hi).symm
      · exact fun x hx => constant_of_avail h hat hkey hx
      · exact fun x hx => constant_of_avail h hat havail hx

/-- A run of quiet instructions keeps the bytes of the key. -/
theorem quiet_run (h : data.Verified) (hkeys : Keyed data addresses)
    (hrun : NativeRun p data mid s s') :
    ∀ {pre : List InstId}, (data.interp p).At b pre s → data.body b = pre ++ mid ++ post →
      (∀ j ∈ mid, Quiet data addresses key bytes j) → data.ssa.Avail b pre (keyValue key) →
      (data.interp p).At b (pre ++ mid) s' ∧ (∀ v, data.ssa.Avail b pre v → s'.env v = s.env v) ∧
        load s'.ram (p.physical (keyAddress p s.env key)) bytes =
          load s.ram (p.physical (keyAddress p s.env key)) bytes := by
  induction hrun with
  | nil s =>
    intro pre hat _ _ _
    rw [append_nil]
    exact ⟨hat, fun _ _ => rfl, rfl⟩
  | @cons id rest s s₁ s₂ action haction hdoes hrest ih =>
    intro pre hat hsplit hquiet hkey
    have hsplit' : data.body b = pre ++ id :: (rest ++ post) := by
      rw [hsplit, append_assoc, cons_append]
    obtain ⟨hat₁, henv₁⟩ := native_step h hat hsplit' haction hdoes
    have hload₁ := (hquiet id mem_cons_self).step h hkeys hat hsplit' hkey haction hdoes
    have hsplit₁ : data.body b = pre ++ [id] ++ rest ++ post := by
      rw [hsplit, append_assoc pre [id], singleton_append]
    have hmono : ∀ v, data.ssa.Avail b pre v → data.ssa.Avail b (pre ++ [id]) v := fun v hv =>
      hv.mono (subset_append_left _ _)
    obtain ⟨hat₂, henv₂, hload₂⟩ := ih hat₁ hsplit₁
      (fun j hj => hquiet j (mem_cons_of_mem _ hj)) (hmono _ hkey)
    rw [keyAddress_congr (henv₁ _ hkey)] at hload₂
    refine ⟨?_, fun v hv => (henv₂ v (hmono v hv)).trans (henv₁ v hv), hload₂.trans hload₁⟩
    rwa [append_assoc, singleton_append] at hat₂

/-- A source leaves the value it carries at the address of its key, which stays available. -/
theorem Source.leaves (h : data.Verified) (hkeys : Keyed data addresses)
    (hsource : Source data addresses id key bytes) (hat : (data.interp p).At b pre s)
    (hsplit : data.body b = pre ++ id :: post) (haction : data.action id = some action)
    (hdoes : Does p action true s s') : data.ssa.Avail b pre (keyValue key) ∧ carried data id s s' =
      some (BitVec.ofNat 128 (Mir.load s'.ram (p.physical (keyAddress p s.env key)) bytes)) := by
  -- the address a plan uses is that of its key
  have huse : ∀ {m : MemoryPlan}, data.action id = some (.memory m) →
      keyAddress p s.env (keyFor addresses m) = word (s.env m.address) ∧
        data.ssa.Avail b pre (keyValue (keyFor addresses m)) := by
    intro m hm
    refine address_of_avail h hkeys hat (h.uses hsplit ?_)
    rw [uses_of_action hm]
    exact m.address_mem_uses
  cases hsource with
  | @load m hm hload =>
    obtain ⟨haddress, havail⟩ := huse (h.memory hm)
    cases (h.memory hm).symm.trans haction
    obtain ⟨result, hnative⟩ := eligibleLoad_spec hload
    refine ⟨havail, ?_⟩
    rw [carried, haction, haddress]
    cases hdoes with
    | load hn _ =>
      cases hnative.symm.trans hn
      dsimp only
      rw [hnative]
      dsimp only
      rw [NativeState.set_self, NativeState.set_ram]
      rfl
    | rmwLoad hn _ | store hn _ => cases hnative.symm.trans hn
  | @store m hm hstore =>
    obtain ⟨haddress, havail⟩ := huse (h.memory hm)
    cases (h.memory hm).symm.trans haction
    obtain ⟨⟨value, commit, hnative⟩, hbytes⟩ := eligibleStore_spec hstore
    refine ⟨havail, ?_⟩
    rw [carried, haction, haddress]
    cases hdoes with
    | load hn _ | rmwLoad hn _ => cases hnative.symm.trans hn
    | store hn _ =>
      cases hnative.symm.trans hn
      dsimp only
      rw [hnative]
      dsimp only
      rw [load_store (by omega)]
  | @rmw effect address _ heffect hrmw =>
    obtain ⟨ticket, value, observe, commit, call, d, read, result, rfl, hd, hread, hnative, rfl⟩ :=
      committedRmw_spec hrmw
    have hticket : data.ssa.Avail b pre ticket := by
      refine h.uses hsplit ?_
      rw [uses_of_action (h.effect heffect)]
      exact mem_append_right _ mem_cons_self
    have hreads := h.memory hread
    obtain ⟨hdef, b', hmem⟩ := defined_of_avail h hat hticket hd
    have hread : data.ssa.Avail b pre read.address := by
      refine hticket.use h.valid hat.prefix hmem hdef ?_
      change read.address ∈ data.uses d
      rw [uses_of_action hreads]
      exact read.address_mem_uses
    obtain ⟨haddress, havail⟩ := address_of_avail h hkeys hat hread
    refine ⟨havail, ?_⟩
    have hholds := Action.holds_memory.1 (holds_of_avail h hat hticket hd hreads) result ticket
      hnative
    cases (h.effect heffect).symm.trans haction
    rw [carried, haction, haddress]
    cases hdoes with
    | rmwCommit hlt hbytes =>
      have hle : bytes ≤ 2 ^ 32 := by omega
      dsimp only
      rw [← hholds hlt, load_store hle]

end

/-- A load that reuses an access is behind it in its block. In every run that passes the source, the
instructions in between and the load on their native paths, the load gives what the source read or
wrote. Accesses that are proven disjoint have no physical byte in common. -/
theorem ram_forwarding_sound (data : MirData) (h : data.Verified) (loops : LoopPlan)
    (workLimit : Nat) (result : List (Option Forwarding))
    (hplan : planWithLoops data loops workLimit = .ok result) :
    (∀ i q, planAt result i = some (.reuse q) → ∃ b pre mid post,
      data.body b = pre ++ q :: mid ++ i :: post ∧
      ∀ (p : Platform) (s s₁ s₂ s₃ : NativeState), (data.interp p).At b pre s →
        NativeRun p data [q] s s₁ → NativeRun p data mid s₁ s₂ → NativeRun p data [i] s₂ s₃ →
          ∃ x, carried data q s s₁ = some x ∧ carried data i s₂ s₃ = some x) ∧
    ∀ (p : Platform) (b : BlockId) (pre : List InstId) (s : NativeState),
      (data.interp p).At b pre s → ∀ key₁ bytes₁ key₂ bytes₂,
        aliasProof data key₁ bytes₁ key₂ bytes₂ = .disjoint →
        data.ssa.Avail b pre (keyValue key₁) → data.ssa.Avail b pre (keyValue key₂) →
        ∀ i < bytes₁, ∀ j < bytes₂, p.physical (keyAddress p s.env key₁) + BitVec.ofNat 32 i ≠
            p.physical (keyAddress p s.env key₂) + BitVec.ofNat 32 j := by
  refine ⟨fun i q hi => ?_, fun p b pre s hat key₁ bytes₁ key₂ bytes₂ halias h₁ h₂ i hi j hj => ?_⟩
  · obtain ⟨addresses, hkeys, hreused⟩ := planWithLoops_ok hplan
    obtain ⟨block, hblock, pre, mid, post, m, hbody, hm, hload, hsource, hquiet⟩ := hreused i q hi
    obtain ⟨b, hb⟩ := mem_iff_getElem?.1 hblock
    have hsplit : data.body b = pre ++ q :: mid ++ i :: post := by
      rw [MirData.body, hb]
      exact hbody
    refine ⟨b, pre, mid, post, hsplit, fun p s s₁ s₂ s₃ hat hrun₁ hrun₂ hrun₃ => ?_⟩
    obtain ⟨action₁, haction₁, hdoes₁⟩ := hrun₁.single
    obtain ⟨action₃, haction₃, hdoes₃⟩ := hrun₃.single
    -- the source leaves its value in RAM
    have hsplit₁ : data.body b = pre ++ q :: (mid ++ i :: post) := by
      rw [hsplit, append_assoc, cons_append]
    obtain ⟨havail, hcarried⟩ := hsource.leaves h hkeys hat hsplit₁ haction₁ hdoes₁
    obtain ⟨hat₁, henv₁⟩ := native_step h hat hsplit₁ haction₁ hdoes₁
    -- the instructions in between keep it
    have hsplit₂ : data.body b = pre ++ [q] ++ mid ++ i :: post := by
      rw [hsplit, append_assoc pre [q], singleton_append]
    have hmono : ∀ v, data.ssa.Avail b pre v → data.ssa.Avail b (pre ++ [q]) v := fun v hv =>
      hv.mono (subset_append_left _ _)
    obtain ⟨hat₂, henv₂, hkept⟩ :=
      quiet_run h hkeys hrun₂ hat₁ hsplit₂ hquiet (hmono _ havail)
    -- and the load reads it at the same address
    have hsource₃ : Source data addresses i (keyFor addresses m) m.guard.bytes := .load hm hload
    obtain ⟨-, hcarried₃⟩ := hsource₃.leaves h hkeys hat₂ hsplit₂ haction₃ hdoes₃
    have hram : s₃.ram = s₂.ram := by
      cases (h.memory hm).symm.trans haction₃
      obtain ⟨r, hnative⟩ := eligibleLoad_spec hload
      cases hdoes₃ with
      | load _ _ => rfl
      | rmwLoad _ _ => rfl
      | store hn _ => cases hnative.symm.trans hn
    rw [keyAddress_congr (henv₁ _ havail)] at hkept
    rw [hram, keyAddress_congr (henv₂ _ (hmono _ havail)), keyAddress_congr (henv₁ _ havail),
      hkept] at hcarried₃
    exact ⟨_, hcarried, hcarried₃⟩
  · refine disjoint_of_alias halias (fun x hx => ?_) (fun x hx => ?_) hi hj
    · exact constant_of_avail h hat h₁ hx
    · exact constant_of_avail h hat h₂ hx

/-- A scalar load of four bytes. -/
def readPlan (address result : ValueId) : MemoryPlan where
  address := address
  before := 0
  guard := .ofAccess 4 false
  native := .scalarLoad result none
  call := ⟨"ir_memory_read", [.value address, .i32 4]⟩
  result := .packed result false

/-- A loop that loads one address twice in each turn. -/
def polling : MirData where
  valueTypes := [.i32, .i32, .i32]
  valueBlocks := [some 0, some 1, some 1]
  valueDefinitions := [some 0, some 1, some 2]
  helpers := []
  memory := [none, some (readPlan 0 1), some (readPlan 0 2)]
  effects := [none, none, none]
  calls := [none, none, none]
  control := ⟨[0], [⟨[0], some 0, 1, .jump ⟨1, [], []⟩⟩,
    ⟨[1, 2], some 0, 1, .branch 1 ⟨1, [], []⟩ ⟨2, [], []⟩⟩, ⟨[], some 0, 1, .exit 0⟩],
    [none, none, none]⟩
  pollBatches := [none, none, none]
  values := [some ⟨0, [.i32 0x1000]⟩, none, none]

variable {b : BlockId} {id : InstId} {v : ValueId}

theorem polling_body (h : polling.body b ≠ []) : b = 0 ∨ b = 1 := by
  rcases b with _ | _ | _ | b
  · exact .inl rfl
  · exact .inr rfl
  · exact absurd rfl h
  · exact absurd rfl h

theorem polling_block (h : id ∈ polling.body b) : b = min id 1 ∧ id < 3 := by
  rcases polling_body (ne_nil_of_mem h) with rfl | rfl
  · have hid : id ∈ [0] := h
    rw [List.mem_singleton.1 hid]
    decide
  · have hid : id ∈ [1, 2] := h
    rcases List.mem_cons.1 hid with rfl | hid
    · decide
    · rw [List.mem_singleton.1 hid]
      decide

/-- An instruction defines the value of its own number. -/
theorem polling_defs (h : v ∈ polling.defs id) : v = id ∧ id < 3 := by
  rcases id with _ | _ | _ | id
  · have hv : v ∈ [0] := h
    exact ⟨List.mem_singleton.1 hv, by decide⟩
  · have hv : v ∈ [1, 1] := h
    exact ⟨by simpa using hv, by decide⟩
  · have hv : v ∈ [2, 2] := h
    exact ⟨by simpa using hv, by decide⟩
  · cases h

theorem polling_uses (h : v ∈ polling.uses id) : v = 0 ∧ id ≠ 0 := by
  rcases id with _ | _ | _ | id
  · cases h
  · have hv : v ∈ [0, 0] := h
    exact ⟨by simpa using hv, by decide⟩
  · have hv : v ∈ [0, 0] := h
    exact ⟨by simpa using hv, by decide⟩
  · cases h

theorem polling_verified : polling.Verified where
  reach {b} h := by
    have hentry : polling.flow.Reach 0 := .entry mem_cons_self
    rcases polling_body h with rfl | rfl
    · exact hentry
    · exact hentry.step ⟨_, rfl, _, mem_cons_self, rfl⟩
  nodup b := by
    rcases b with _ | _ | _ | b
    · decide
    · decide
    · exact nodup_nil
    · exact nodup_nil
  block hid hid' := (polling_block hid).1.trans (polling_block hid').1.symm
  memory {id m} h := by
    rcases id with _ | _ | _ | id <;> cases h <;> rfl
  effect {id e} h := by
    rcases id with _ | _ | _ | id <;> cases h
  value {id v} h := by
    rcases id with _ | _ | _ | id <;> cases h
    rfl
  definition {id v} h := by
    obtain ⟨rfl, hlt⟩ := polling_defs h
    rcases v with _ | _ | _ | v
    · rfl
    · rfl
    · rfl
    · exact absurd hlt (Nat.not_lt.2 (Nat.le_add_left 3 v))
  owner {b id v} hid h := by
    obtain ⟨rfl, hlt⟩ := polling_defs h
    rw [(polling_block hid).1]
    rcases v with _ | _ | _ | v
    · rfl
    · rfl
    · rfl
    · exact absurd hlt (Nat.not_lt.2 (Nat.le_add_left 3 v))
  uses {b pre post id v} hsplit h := by
    -- the address is the result of the preheader's instruction
    obtain ⟨rfl, hne⟩ := polling_uses h
    have hid : id ∈ polling.body b := by
      rw [hsplit]
      exact mem_append_right _ mem_cons_self
    have hb : b = 1 := (polling_block hid).1.trans (Nat.min_eq_right (Nat.pos_of_ne_zero hne))
    subst hb
    have hdom : polling.flow.Dom 0 1 := .of_sole_entry (fun a ha => List.mem_singleton.1 ha) 1
    exact .above (show 0 ∈ polling.body 0 from mem_cons_self) mem_cons_self (by decide) hdom

/-- Every page is at its own address. -/
def flat : Platform := ⟨fun frame => frame, fun _ => 0, fun _ stack => some stack⟩

/-- Every byte of RAM is 7, and the address is there. -/
def addressed : NativeState := NativeState.set ⟨fun _ => 0, fun _ => 7⟩ 0 0x1000

def loadedOnce : NativeState := addressed.set 1 (loaded flat addressed 0 4)

def loadedTwice : NativeState := loadedOnce.set 2 (loaded flat loadedOnce 0 4)

theorem polling_edge (h : b < 2) : polling.flow.edge b 1 := by
  rcases b with _ | _ | b
  · exact ⟨_, rfl, _, mem_cons_self, rfl⟩
  · exact ⟨_, rfl, _, mem_cons_self, rfl⟩
  · exact absurd h (Nat.not_lt.2 (Nat.le_add_left 2 b))

theorem polling_at : (polling.interp flat).At 1 [] addressed := by
  have hdone : (polling.interp flat).At 0 [0] addressed :=
    .step (.entry mem_cons_self) (rfl : polling.body 0 = [] ++ 0 :: [])
      ⟨_, true, rfl, @Does.value flat _ true _ (fun _ => 0) _ rfl⟩
  exact .edge hdone (polling_edge Nat.two_pos) ⟨rfl, fun _ _ => rfl⟩

/-- The second load reuses the first, and gives the same in a run. -/
theorem ram_forwarding_sound_two_loads : ∃ x, carried polling 1 addressed loadedOnce = some x ∧
      carried polling 2 loadedOnce loadedTwice = some x := by
  obtain ⟨b, pre, mid, post, hsplit, hall⟩ :=
    (ram_forwarding_sound polling polling_verified (.disabled 3 3) 1000
      [none, some .start, some (.reuse 1)] (by decide)).1 2 1 (by decide)
  have hmem : 1 ∈ polling.body b := by
    rw [hsplit, append_assoc]
    exact mem_append_right _ mem_cons_self
  obtain rfl : b = 1 := (polling_block hmem).1
  have hbody : [1, 2] = pre ++ 1 :: mid ++ 2 :: post := hsplit
  rcases pre with _ | ⟨a, _ | ⟨a', pre⟩⟩
  · rcases mid with _ | ⟨c, mid⟩
    · cases hbody
      exact hall flat addressed loadedOnce loadedOnce loadedTwice polling_at
        (.cons rfl (.load rfl (by change _ < _; decide)) (.nil _)) (.nil _)
        (.cons rfl (.load rfl (by change _ < _; decide)) (.nil _))
    · simp at hbody
  · simp at hbody
  · simp at hbody

end Forwarding

end V86.Ir.Mir
