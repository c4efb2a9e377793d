import V86.Cpu.PicCorrect

/-!
# Special mask mode

Which input a chip should deliver: the first one that is requested and enabled, unless an input of
its priority or of a higher one is in service and blocks it. In special mask mode an input that is
masked does not block. `Pic0.getIrq` looks at the first input in service only, and if that one is
masked it delivers nothing at all.
-/

namespace V86.Cpu

open Bits

/-- Input `j` is in service and blocks its priority and the lower ones. -/
def Pic0.Blocks (d : Pic0) (j : Nat) : Prop :=
  d.isr.getLsbD j = true ∧ (d.specialMaskMode = true → d.irqMask.getLsbD j = true)

/-- What is delivered is the first request that nothing blocks. -/
def Pic0.Resolves (d : Pic0) : Prop :=
  ∀ i, d.getIrq = some i ↔ IsLowest (d.irr &&& d.irqMask) i ∧ ∀ j ≤ i, ¬d.Blocks j

/-- In special mask mode, the first input in service is enabled, or the first request is blocked by
another one. -/
def Pic0.Unmasked (d : Pic0) : Prop :=
  d.specialMaskMode = true → ∀ k, IsLowest d.isr k → d.irqMask.getLsbD k = false →
    ∀ i, IsLowest (d.irr &&& d.irqMask) i → ∃ j ≤ i, d.Blocks j

theorem exists_isLowest {x : BitVec 8} (h : x ≠ 0) : ∃ k, IsLowest x k := by
  obtain ⟨k, _, _, hk⟩ := lowest_spec h
  exact ⟨k, hk⟩

section
variable {d : Pic0} {i k : Nat}

/-- Nothing before the first input in service blocks. -/
theorem Pic0.not_blocks (hk : IsLowest d.isr k) (h : i < k) : ∀ j ≤ i, ¬d.Blocks j := by
  intro j hj hblocks
  have := hk.2 j (Nat.lt_of_le_of_lt hj h)
  rw [hblocks.1] at this
  cases this

/-- If the first input in service is one that blocks, it decides. -/
theorem Pic0.Serving.blocks_iff (hk : d.Serving k) : (∀ j ≤ i, ¬d.Blocks j) ↔ i < k := by
  constructor
  · intro h
    by_contra hle
    exact h k (Nat.le_of_not_lt hle) ⟨hk.1.1, hk.2⟩
  · exact not_blocks hk.1

/-- A chip delivers the first request that nothing blocks exactly if it does not come upon a masked
input in service that hides one. -/
theorem Pic0.resolves_iff (d : Pic0) : d.Resolves ↔ d.Unmasked := by
  by_cases h0 : d.isr = 0
  · -- nothing is in service
    have hnone : ∀ j, ¬d.Blocks j := by
      rintro j ⟨hj, -⟩
      rw [h0] at hj
      simp at hj
    have hresolves : d.Resolves := by
      intro i
      rw [getIrq_eq_some]
      exact ⟨fun h => ⟨h.1, fun j _ => hnone j⟩, fun h => ⟨h.1, .inl h0⟩⟩
    refine iff_of_true hresolves fun _ k hk => ?_
    exact absurd h0 hk.ne_zero
  · obtain ⟨k, hk⟩ := exists_isLowest h0
    by_cases hserving : d.Serving k
    · have hresolves : d.Resolves := by
        intro i
        rw [getIrq_eq_some, hserving.blocks_iff]
        refine and_congr_right fun _ => ⟨?_, fun h => .inr ⟨k, hserving, h⟩⟩
        rintro (hzero | ⟨k', hk', hlt⟩)
        · exact absurd hzero h0
        · rwa [hk.unique hk'.1]
      refine iff_of_true hresolves fun hmode k' hk' hmasked => ?_
      rw [hk'.unique hk, hserving.2 hmode] at hmasked
      cases hmasked
    · -- the first input in service is masked: nothing is delivered
      have hnone : d.getIrq = none := by
        rw [Option.eq_none_iff_forall_ne_some]
        intro i hi
        rcases (getIrq_eq_some.1 hi).2 with hzero | ⟨k', hk', -⟩
        · exact h0 hzero
        · exact hserving (hk'.1.unique hk ▸ hk')
      have hmasked : d.specialMaskMode = true ∧ d.irqMask.getLsbD k = false := by
        cases hmode : d.specialMaskMode with
        | false => exact absurd ⟨hk, fun h => by rw [hmode] at h; cases h⟩ hserving
        | true =>
          cases hbit : d.irqMask.getLsbD k with
          | false => exact ⟨rfl, rfl⟩
          | true => exact absurd ⟨hk, fun _ => hbit⟩ hserving
      constructor
      · intro hresolves hmode k' hk' _ i hi
        by_contra hno
        have := (hresolves i).2 ⟨hi, fun j hj hb => hno ⟨j, hj, hb⟩⟩
        rw [hnone] at this
        cases this
      · intro hunmasked i
        rw [hnone]
        refine ⟨nofun, fun ⟨hi, hfree⟩ => ?_⟩
        obtain ⟨j, hj, hb⟩ := hunmasked hmasked.1 k hk hmasked.2 i hi
        exact absurd hb (hfree j hj)

end

/-! ## Runs -/

/-- What can happen to the controllers: an operation, a write to an edge/level register, a reset. -/
inductive Pic.Event
  | op (o : Pic.Op)
  | elcrWrite (c : Pic.Chip) (v : BitVec 8)
  | reset

/-- One event; `port4D0_write` and `port4D1_write` set the edge/level registers. -/
def Pic.handle (p : Pic) : Pic.Event → Pic
  | .op o => p.step o
  | .elcrWrite .master v => { p with master.elcr := v }
  | .elcrWrite .slave v => { p with slave.elcr := v }
  | .reset => ⟨.reset, .reset⟩

/-- In every state of the run that `events` makes from `p`, `P` holds of both chips. -/
def Pic.Always (P : Pic0 → Prop) (p : Pic) (events : List Pic.Event) : Prop :=
  ∀ n c, P (((events.take n).foldl Pic.handle p).dev c)

/-- In every run from any state, both chips deliver the first request that nothing blocks in every
state reached, exactly if in none of these states a masked input in service hides one. -/
theorem Pic.always_resolves_iff (p : Pic) (events : List Pic.Event) :
    p.Always Pic0.Resolves events ↔ p.Always Pic0.Unmasked events :=
  forall₂_congr fun _ _ => Pic0.resolves_iff _

/-- The handler of input 0 masks it in special mask mode; input 1 is requested then, and not
delivered. -/
theorem Pic.masked_blocks : ¬∀ events : List Pic.Event, Pic.booted.Always Pic0.Resolves events := by
  intro h
  have hmaster := h [.op (.setIrq 0), .op .acknowledge, .op (.port1Write .master 0x01),
    .op (.port0Write .master 0x68), .op (.setIrq 1)] 5 .master 1
  have hfree : ∀ d : Pic0, d.isr = 1 → d.irqMask = 0xFE → d.specialMaskMode = true →
      d.irr &&& d.irqMask = 2 →
      IsLowest (d.irr &&& d.irqMask) 1 ∧ ∀ j ≤ 1, ¬d.Blocks j := by
    intro d hisr hmask hmode hreq
    rw [hreq]
    refine ⟨by unfold IsLowest; decide, fun j hj hb => ?_⟩
    have hbit := hb.2 hmode
    have hser := hb.1
    rw [hmask] at hbit
    rw [hisr] at hser
    rcases Nat.le_one_iff_eq_zero_or_eq_one.1 hj with rfl | rfl
    · revert hbit
      decide
    · revert hser
      decide
  have hirq := hmaster.2 (hfree _ (by decide +kernel) (by decide +kernel) (by decide +kernel)
    (by decide +kernel))
  revert hirq
  decide +kernel

end V86.Cpu
