import Mathlib.Tactic.ByContra
import V86.Cpu.Pic

/-!
# The cascade of the interrupt controllers

What `Pic0.getIrq` selects, in terms of bits, and the invariant that ties input 2 of the master to
the output of the slave. An acknowledge keeps it except where the slave has nothing to deliver, or
ends its interrupts by itself and has more to deliver (`Pic.Served`).
-/

namespace V86.Cpu

open Bits
open BitVec hiding not_not

/-! ## The selected input -/

/-- Bit `i` is the lowest one of a word. -/
def IsLowest (x : BitVec 8) (i : Nat) : Prop :=
  x.getLsbD i = true ∧ ∀ j < i, x.getLsbD j = false

theorem IsLowest.unique {x : BitVec 8} {i j : Nat} (hi : IsLowest x i) (hj : IsLowest x j) :
    i = j := by
  rcases Nat.lt_trichotomy i j with h | h | h
  · cases (hj.2 i h).symm.trans hi.1
  · exact h
  · cases (hi.2 j h).symm.trans hj.1

theorem IsLowest.ne_zero {x : BitVec 8} {i : Nat} (h : IsLowest x i) : x ≠ 0 := by
  rintro rfl
  simp [IsLowest] at h

theorem lowest_spec : ∀ {x : BitVec 8}, x ≠ 0 →
    ∃ i < 8, lowest x = bit 8 i ∧ x.getLsbD i = true ∧ ∀ j < i, x.getLsbD j = false := by
  decide +kernel

theorem log2_bit : ∀ {i : Nat}, i < 8 → (bit 8 i).toNat.log2 = i := by
  decide +kernel

theorem bit_le_bit : ∀ {i : Nat}, i < 8 → ∀ {j : Nat}, j < 8 → (bit 8 i ≤ bit 8 j ↔ i ≤ j) := by
  decide +kernel

theorem getLsbD_full : ∀ {i : Nat}, i < 8 → (0xFF : BitVec 8).getLsbD i = true := by
  decide

/-- The input in service that has to end first. -/
def Pic0.Serving (d : Pic0) (k : Nat) : Prop :=
  IsLowest d.isr k ∧ (d.specialMaskMode = true → d.irqMask.getLsbD k = true)

/-- An input is selected when it is the first one that is requested and enabled, and nothing of its
priority or of a higher one is in service. -/
theorem Pic0.getIrq_eq_some {d : Pic0} {i : Nat} : d.getIrq = some i ↔
    IsLowest (d.irr &&& d.irqMask) i ∧ (d.isr = 0 ∨ ∃ k, d.Serving k ∧ i < k) := by
  unfold getIrq
  by_cases h0 : d.irr &&& d.irqMask = 0
  · simp only [h0, if_true]
    exact ⟨nofun, fun h => absurd rfl h.1.ne_zero⟩
  obtain ⟨m, hm, hlow, hmin⟩ := lowest_spec h0
  have hm' : IsLowest (d.irr &&& d.irqMask) m := hmin
  simp only [h0, if_false, hlow, log2_bit hm]
  by_cases h1 : d.isr = 0
  · simp only [h1, ne_eq, not_true_eq_false, false_and, if_false, true_or, and_true, Option.some.injEq]
    exact ⟨fun h => h ▸ hm', fun h => hm'.unique h⟩
  obtain ⟨k, hk, hlowk, hmink⟩ := lowest_spec h1
  have hwait : lowest d.isr &&& (if d.specialMaskMode then d.irqMask else 0xFF) ≤ bit 8 m ↔
      ¬(d.Serving k ∧ m < k) := by
    rw [hlowk, bit_and]
    have hserving : d.Serving k ↔ (d.specialMaskMode = true → d.irqMask.getLsbD k = true) :=
      ⟨fun h => h.2, fun h => ⟨hmink, h⟩⟩
    rw [hserving]
    cases hs : d.specialMaskMode with
    | false => simp only [Bool.false_eq_true, if_false, getLsbD_full hk, if_true, bit_le_bit hk hm, false_implies,
        true_and, Nat.not_lt]
    | true =>
      cases hbit : d.irqMask.getLsbD k with
      | false => simp only [if_true, hbit, Bool.false_eq_true, if_false, true_implies, false_and,
          not_false_eq_true, le_def, ofNat_eq_ofNat, toNat_ofNat, Nat.zero_mod, Nat.zero_le]
      | true => simp only [if_true, hbit, bit_le_bit hk hm, true_implies, true_and, Nat.not_lt]
  by_cases h2 : d.Serving k ∧ m < k
  · rw [if_neg fun h => hwait.1 h.2 h2, Option.some.injEq]
    exact ⟨fun h => h ▸ ⟨hm', .inr ⟨k, h2⟩⟩, fun h => hm'.unique h.1⟩
  · rw [if_pos ⟨h1, hwait.2 h2⟩]
    refine ⟨nofun, ?_⟩
    rintro ⟨hi, hzero | ⟨k', hk', hlt⟩⟩
    · exact absurd hzero h1
    · obtain rfl := hm'.unique hi
      obtain rfl := hk'.1.unique hmink
      exact absurd ⟨hk', hlt⟩ h2

section
variable {d : Pic0} {i j : Nat}

theorem Pic0.getIrq_irr (h : d.getIrq = some i) : d.irr.getLsbD i = true := by
  have := (getIrq_eq_some.1 h).1.1
  rw [getLsbD_and, Bool.and_eq_true] at this
  exact this.1

theorem Pic0.getIrq_lt (h : d.getIrq = some i) : i < 8 :=
  lt_of_getLsbD (getIrq_irr h)

/-- A chip that waits for the end of interrupts selects nothing after it accepts an input. -/
theorem Pic0.getIrq_accept (h : d.getIrq = some i) (hauto : d.autoEoi = false) :
    (d.accept i).getIrq = none := by
  rw [Option.eq_none_iff_forall_ne_some]
  intro j hj
  have hi := Pic0.getIrq_lt h
  obtain ⟨hlow, hisr⟩ := getIrq_eq_some.1 h
  obtain ⟨hlow', hisr'⟩ := getIrq_eq_some.1 hj
  have hacc : (d.accept i).isr = d.isr ||| bit 8 i := by
    unfold accept
    dsimp only
    split <;> simp [hauto]
  -- the accepted input is the first one in service
  have hfirst : IsLowest (d.accept i).isr i := by
    rw [hacc]
    refine ⟨by rw [getLsbD_set hi]; simp, fun k hk => ?_⟩
    rw [getLsbD_set hi]
    rcases hisr with h0 | ⟨k', hk', hlt⟩
    · simp [h0, Nat.ne_of_gt hk]
    · simp [hk'.1.2 k (Nat.lt_trans hk hlt), Nat.ne_of_gt hk]
  have hmono : ∀ k, ((d.accept i).irr &&& (d.accept i).irqMask).getLsbD k = true →
      (d.irr &&& d.irqMask).getLsbD k = true := by
    intro k
    unfold accept
    dsimp only
    split <;> split <;> simp +contextual [getLsbD_and]
  rcases hisr' with h0 | ⟨k, hk, hlt⟩
  · exact hfirst.ne_zero h0
  · obtain rfl := hk.1.unique hfirst
    have := hmono j hlow'.1
    rw [hlow.2 j hlt] at this
    cases this

theorem Pic0.getIrq_of_isr (h : d.isr = 0) : d.getIrq = none ↔ d.irr &&& d.irqMask = 0 := by
  constructor
  · intro hnone
    by_contra h0
    obtain ⟨i, _, _, hmin⟩ := lowest_spec h0
    rw [getIrq_eq_some.2 ⟨hmin, .inl h⟩] at hnone
    cases hnone
  · intro h0
    simp [getIrq, h0]

/-- A chip that ends its interrupts by itself selects nothing after it accepts its only request,
if that is not one of a level. -/
theorem Pic0.getIrq_accept_auto (h : d.getIrq = some i) (hauto : d.autoEoi = true)
    (hisr : d.isr = 0) : (d.accept i).getIrq = none ↔
      d.elcr.getLsbD i = false ∧ d.irr &&& d.irqMask = bit 8 i := by
  have hi := Pic0.getIrq_lt h
  have hlow := (getIrq_eq_some.1 h).1
  have hacc : d.accept i =
      if d.elcr &&& bit 8 i = 0 then { d with irr := d.irr &&& ~~~bit 8 i } else d := by
    unfold accept
    dsimp only
    split <;> simp [hauto]
  rw [hacc]
  split
  · next helcr =>
    rw [and_bit_eq_zero hi] at helcr
    refine (getIrq_of_isr (d := { d with irr := d.irr &&& ~~~bit 8 i }) hisr).trans ?_
    simp only [helcr, true_and]
    constructor
    · intro h0
      apply eq_of_getLsbD_eq
      intro k hk
      have hk0 : (d.irr &&& ~~~bit 8 i &&& d.irqMask).getLsbD k = false := by rw [h0]; simp
      rw [getLsbD_and, getLsbD_clear] at hk0
      rw [getLsbD_bit]
      by_cases hik : i = k
      · subst hik
        rw [hlow.1]
        simp [hi]
      · simpa [hik, hk, getLsbD_and] using hk0
    · intro h1
      apply eq_of_getLsbD_eq
      intro k hk
      have hk1 : (d.irr &&& d.irqMask).getLsbD k = decide (i = k ∧ k < 8) := by
        rw [h1, getLsbD_bit]
      rw [getLsbD_and] at hk1
      rw [getLsbD_and, getLsbD_clear]
      by_cases hik : i = k
      · simp [hik]
      · simp only [hik, false_and, decide_false] at hk1
        simp [hik, hk1]
  · next helcr =>
    rw [and_bit_eq_zero hi] at helcr
    simp [h, helcr]

end

/-! ## The invariant -/

/-- Input 2 of a chip follows the output `out` of another one: it has its level, a high level was
latched, and a level triggered input is requested only while it is high. -/
structure Pic0.Follows (d : Pic0) (out : Bool) : Prop where
  value : d.irqValue.getLsbD 2 = out
  latched : out = true → d.irr.getLsbD 2 = true
  level : d.elcr.getLsbD 2 = true → d.irr.getLsbD 2 = true → out = true

/-- A chip that was initialised: its second port takes the mask, and nothing is in service if it
ends its interrupts by itself. -/
structure Pic0.Ready (d : Pic0) : Prop where
  state : d.state = 0
  expectIcw4 : d.expectIcw4 = false
  auto : d.autoEoi = true → d.isr = 0

/-- The invariant of the cascade. -/
structure Pic.Inv (p : Pic) : Prop where
  follows : p.master.Follows p.slave.getIrq.isSome
  master : p.master.Ready
  slave : p.slave.Ready

section
variable {d : Pic0} {p : Pic} {i : Nat} {out : Bool}

theorem Pic0.raises_eq (hi : i < 8) :
    d.raises (bit 8 i) = (!d.irqValue.getLsbD i || d.elcr.getLsbD i) := by
  unfold raises
  simp only [and_bit_eq_zero hi, ne_eq]
  cases d.irqValue.getLsbD i <;> cases d.elcr.getLsbD i <;> rfl

theorem Pic0.Follows.raise (h : d.Follows out) : (d.raise (bit 8 2)).Follows true := by
  unfold Pic0.raise
  split
  · exact ⟨getLsbD_set_self (by decide), fun _ => getLsbD_set_self (by decide), fun _ _ => rfl⟩
  · next hr =>
    rw [Pic0.raises_eq (by decide)] at hr
    have hv : d.irqValue.getLsbD 2 = true := by
      cases hv : d.irqValue.getLsbD 2 with
      | false => exact absurd (by rw [hv]; rfl) hr
      | true => rfl
    exact ⟨hv, fun _ => h.latched (h.value ▸ hv), fun _ _ => rfl⟩

theorem Pic0.follows_lower (d : Pic0) : (d.lower (bit 8 2)).Follows false := by
  unfold Pic0.lower
  dsimp only
  split
  · exact ⟨getLsbD_clear_self, nofun, fun _ h => by cases getLsbD_clear_self.symm.trans h⟩
  · next helcr =>
    refine ⟨getLsbD_clear_self, nofun, fun h _ => ?_⟩
    rw [ne_eq, not_not, and_bit_eq_zero (by decide)] at helcr
    rw [helcr] at h
    cases h

/-- The other inputs do not matter. -/
theorem Pic0.Follows.of_eq {d' : Pic0} (h : d.Follows out)
    (hirr : d'.irr.getLsbD 2 = d.irr.getLsbD 2) (helcr : d'.elcr = d.elcr)
    (hvalue : d'.irqValue.getLsbD 2 = d.irqValue.getLsbD 2) : d'.Follows out :=
  ⟨hvalue.trans h.value, fun ho => hirr.trans (h.latched ho), fun he hr =>
    h.level (helcr ▸ he) (hirr.symm.trans hr)⟩

theorem Pic0.Follows.raise_other (h : d.Follows out) (hne : i ≠ 2) :
    (d.raise (bit 8 i)).Follows out := by
  unfold Pic0.raise
  split
  · exact h.of_eq (getLsbD_set_ne hne) rfl (getLsbD_set_ne hne)
  · exact h

theorem Pic0.Follows.lower_other (h : d.Follows out) (hne : i ≠ 2) :
    (d.lower (bit 8 i)).Follows out := by
  unfold Pic0.lower
  dsimp only
  split
  · exact h.of_eq (getLsbD_clear_ne hne) rfl (getLsbD_clear_ne hne)
  · exact h.of_eq rfl rfl (getLsbD_clear_ne hne)

theorem Pic0.Follows.accept_other (h : d.Follows out) (hne : i ≠ 2) : (d.accept i).Follows out := by
  unfold Pic0.accept
  dsimp only
  split
  · split <;> exact h.of_eq (getLsbD_clear_ne hne) rfl rfl
  · split <;> exact h.of_eq rfl rfl rfl

theorem Pic0.Ready.raise (h : d.Ready) (mask : BitVec 8) : (d.raise mask).Ready := by
  unfold Pic0.raise
  split <;> exact ⟨h.state, h.expectIcw4, h.auto⟩

theorem Pic0.Ready.lower (h : d.Ready) (mask : BitVec 8) : (d.lower mask).Ready := by
  unfold Pic0.lower
  dsimp only
  split <;> exact ⟨h.state, h.expectIcw4, h.auto⟩

theorem Pic0.Ready.accept (h : d.Ready) (i : Nat) : (d.accept i).Ready := by
  unfold Pic0.accept
  dsimp only
  split <;> split
  iterate 2
    · exact ⟨h.state, h.expectIcw4, h.auto⟩
    · next hauto => exact ⟨h.state, h.expectIcw4, fun ha => absurd ha hauto⟩

/-- The end of an interrupt leaves the requests as they are. -/
theorem Pic0.ocw2_eq (d : Pic0) (v : BitVec 8) : ∃ mask, d.ocw2 v = { d with isr := d.isr &&& mask } := by
  unfold ocw2
  dsimp only
  split
  · exact ⟨_, rfl⟩
  split
  · exact ⟨_, rfl⟩
  split
  · exact ⟨BitVec.allOnes 8, by rw [and_allOnes]⟩
  · exact ⟨_, rfl⟩

theorem Pic0.Ready.ocw2 (h : d.Ready) (v : BitVec 8) : (d.ocw2 v).Ready := by
  obtain ⟨mask, heq⟩ := d.ocw2_eq v
  rw [heq]
  exact ⟨h.state, h.expectIcw4, fun ha => by rw [h.auto ha]; simp⟩

/-- The output of the slave is passed on. -/
theorem Pic.Inv.check (hf : p.master.Follows out) (hm : p.master.Ready) (hs : p.slave.Ready) :
    p.checkIrqsSlave.Inv := by
  unfold Pic.checkIrqsSlave
  split
  · next h => exact ⟨h ▸ hf.raise, hm.raise _, hs⟩
  · next h =>
    have hout : p.slave.getIrq.isSome = false := by simpa using h
    exact ⟨hout ▸ p.master.follows_lower, hm.lower _, hs⟩

theorem Pic.Inv.setIrq (h : p.Inv) (hi : i < 16 ∧ i ≠ 2) : (p.setIrq i).Inv := by
  unfold Pic.setIrq
  dsimp only
  split
  · next hlt =>
    rw [Nat.mod_eq_of_lt hlt]
    exact ⟨h.follows.raise_other hi.2, h.master.raise _, h.slave⟩
  · split
    · exact .check h.follows h.master (h.slave.raise _)
    · exact h

theorem Pic0.getIrq_lower_edge (helcr : d.elcr &&& bit 8 i = 0) :
    (d.lower (bit 8 i)).getIrq = d.getIrq := by
  simp [Pic0.lower, helcr, Pic0.getIrq]

theorem Pic.Inv.clearIrq (h : p.Inv) (hi : i < 16 ∧ i ≠ 2) : (p.clearIrq i).Inv := by
  unfold Pic.clearIrq
  dsimp only
  split
  · next hlt =>
    rw [Nat.mod_eq_of_lt hlt]
    exact ⟨h.follows.lower_other hi.2, h.master.lower _, h.slave⟩
  · split
    · exact .check h.follows h.master (h.slave.lower _)
    · next helcr =>
      -- the level of an edge triggered input does not change what is requested
      have helcr' : p.slave.elcr &&& bit 8 (i % 8) = 0 := by
        unfold Pic0.lower at helcr
        dsimp only at helcr
        split at helcr <;> simpa using helcr
      refine ⟨?_, h.master, h.slave.lower _⟩
      rw [Pic0.getIrq_lower_edge helcr']
      exact h.follows

theorem Pic.Inv.port0Write (h : p.Inv) (c : Pic.Chip) {v : BitVec 8} (hv : v &&& 0x18 = 0) :
    (p.port0Write c v).Inv := by
  have hbits : ∀ v : BitVec 8, v &&& 0x18 = 0 → v &&& 0x10 = 0 ∧ v &&& 8 = 0 := by
    decide +kernel
  obtain ⟨h1, h2⟩ := hbits v hv
  unfold Pic.port0Write
  rw [if_neg (not_not.2 h1), if_neg (not_not.2 h2)]
  cases c with
  | master =>
    refine ⟨?_, h.master.ocw2 v, h.slave⟩
    change (p.master.ocw2 v).Follows _
    obtain ⟨mask, heq⟩ := p.master.ocw2_eq v
    rw [heq]
    exact h.follows.of_eq rfl rfl rfl
  | slave => exact .check h.follows h.master (h.slave.ocw2 v)

theorem Pic.Inv.port1Write (h : p.Inv) (c : Pic.Chip) (v : BitVec 8) : (p.port1Write c v).Inv := by
  unfold Pic.port1Write
  dsimp only
  cases c with
  | master =>
    rw [if_pos (show (p.dev .master).state = 0 from h.master.state), if_neg (by simp [Pic.dev, h.master.expectIcw4])]
    exact ⟨h.follows.of_eq rfl rfl rfl, ⟨h.master.state, h.master.expectIcw4, h.master.auto⟩, h.slave⟩
  | slave =>
    rw [if_pos (show (p.dev .slave).state = 0 from h.slave.state), if_neg (by simp [Pic.dev, h.slave.expectIcw4])]
    exact .check h.follows h.master ⟨h.slave.state, h.slave.expectIcw4, h.slave.auto⟩

/-! ## Acknowledges -/

/-- When the master selects its input 2, the slave has an input to deliver. If the slave ends its
interrupts by itself, that input is edge triggered and the only one that is requested and
enabled. -/
def Pic.Served (p : Pic) : Prop :=
  p.master.getIrq = some 2 → ∃ j, p.slave.getIrq = some j ∧ (p.slave.autoEoi = true →
    p.slave.elcr.getLsbD j = false ∧ p.slave.irr &&& p.slave.irqMask = bit 8 j)

theorem Pic0.irr_ne_zero (h : d.getIrq = some i) : d.irr ≠ 0 := by
  intro h0
  have := Pic0.getIrq_irr h
  rw [h0] at this
  simp at this

theorem Pic.acknowledgeIrq_none (h : p.master.getIrq = none) : p.acknowledgeIrq = (none, p) := by
  simp [Pic.acknowledgeIrq, h]

theorem Pic.acknowledgeIrq_other (h : p.master.getIrq = some i) (hi : i ≠ 2) :
    p.acknowledgeIrq =
      (some (p.master.vector i), { p with master := p.master.accept i }) := by
  have hmap : ∀ d : Pic0, (d.accept i).irqMap = d.irqMap := by
    intro d
    unfold Pic0.accept
    dsimp only
    split <;> split <;> rfl
  simp only [Pic.acknowledgeIrq, h, if_neg (Pic0.irr_ne_zero h), if_neg hi, Pic0.vector, hmap]

/-- The slave has nothing to deliver. -/
theorem Pic.acknowledgeIrq_empty (h : p.master.getIrq = some 2) (hs : p.slave.getIrq = none) :
    p.acknowledgeIrq = (none, { p with master := p.master.accept 2 }) := by
  simp only [Pic.acknowledgeIrq, h, if_neg (Pic0.irr_ne_zero h), if_true, Pic.acknowledgeIrqSlave, hs]

theorem Pic.acknowledgeIrq_slave {j : Nat} (h : p.master.getIrq = some 2)
    (hs : p.slave.getIrq = some j) : p.acknowledgeIrq = (some ((p.slave.accept j).vector j),
        ⟨(p.master.accept 2).lower (bit 8 2), p.slave.accept j⟩) := by
  simp only [Pic.acknowledgeIrq, h, if_neg (Pic0.irr_ne_zero h), if_true, Pic.acknowledgeIrqSlave, hs,
    if_neg (Pic0.irr_ne_zero hs), Pic.clearIrq]
  rfl

/-- An acknowledge where the slave serves the master keeps the invariant. -/
theorem Pic.Inv.acknowledge (h : p.Inv) (hserved : p.Served) : p.acknowledgeIrq.2.Inv := by
  cases hirq : p.master.getIrq with
  | none =>
    rw [Pic.acknowledgeIrq_none hirq]
    exact h
  | some i =>
    by_cases hi : i = 2
    · subst hi
      obtain ⟨j, hj, hauto⟩ := hserved hirq
      rw [Pic.acknowledgeIrq_slave hirq hj]
      have hnone : (p.slave.accept j).getIrq = none := by
        cases ha : p.slave.autoEoi with
        | false => exact Pic0.getIrq_accept hj ha
        | true => exact (Pic0.getIrq_accept_auto hj ha (h.slave.auto ha)).2 (hauto ha)
      refine ⟨?_, (h.master.accept 2).lower _, h.slave.accept j⟩
      simp only [hnone, Option.isSome_none]
      exact (p.master.accept 2).follows_lower
    · rw [Pic.acknowledgeIrq_other hirq hi]
      exact ⟨h.follows.accept_other hi, h.master.accept i, h.slave⟩

/-- The output of the slave is requested at the master. -/
def Pic.Cascaded (p : Pic) : Prop := p.slave.getIrq.isSome = true → p.master.irr.getLsbD 2 = true

/-- An acknowledge that gives no vector changes nothing; in particular it takes nothing into
service. -/
def Pic.Quiet (p : Pic) : Prop := p.acknowledgeIrq.1 = none → p.acknowledgeIrq.2 = p

theorem Pic.Inv.cascaded (h : p.Inv) : p.Cascaded := h.follows.latched

theorem Pic.Served.quiet (h : p.Served) : p.Quiet := by
  intro hnone
  cases hirq : p.master.getIrq with
  | none => rw [Pic.acknowledgeIrq_none hirq]
  | some i =>
    by_cases hi : i = 2
    · subst hi
      obtain ⟨j, hj, _⟩ := h hirq
      rw [Pic.acknowledgeIrq_slave hirq hj] at hnone
      cases hnone
    · rw [Pic.acknowledgeIrq_other hirq hi] at hnone
      cases hnone

theorem Pic0.accept_irr (helcr : d.elcr.getLsbD i = false) (hi : i < 8) :
    (d.accept i).irr.getLsbD i = false := by
  rw [← and_bit_eq_zero hi] at helcr
  simp only [Pic0.accept, helcr, if_true]
  split <;> exact getLsbD_clear_self

theorem Pic0.lower_accept_irr (d : Pic0) (hi : i < 8) :
    ((d.accept i).lower (bit 8 i)).irr.getLsbD i = false := by
  have helcr : (d.accept i).elcr = d.elcr := by
    unfold Pic0.accept
    dsimp only
    split <;> split <;> rfl
  cases hbit : d.elcr.getLsbD i with
  | true =>
    have hne : (d.accept i).elcr &&& bit 8 i ≠ 0 := by
      rw [helcr, ne_eq, and_bit_eq_zero hi, hbit]
      exact Bool.noConfusion
    simp only [Pic0.lower, if_pos hne]
    exact getLsbD_clear_self
  | false =>
    have heq : (d.accept i).elcr &&& bit 8 i = 0 := by rwa [helcr, and_bit_eq_zero hi]
    simp only [Pic0.lower, heq, ne_eq, not_true_eq_false, if_false]
    exact Pic0.accept_irr hbit hi

/-- The condition is necessary: an acknowledge where the slave does not serve the master changes the
state without a vector, or leaves a request of the slave behind. -/
theorem Pic.Inv.served (h : p.Inv) (hquiet : p.Quiet) (hcascaded : p.acknowledgeIrq.2.Cascaded) :
    p.Served := by
  intro hirq
  have hirr := Pic0.getIrq_irr hirq
  cases hs : p.slave.getIrq with
  | none =>
    -- the request of an edge triggered input is dropped
    have helcr : p.master.elcr.getLsbD 2 = false := by
      cases he : p.master.elcr.getLsbD 2 with
      | false => rfl
      | true =>
        have := h.follows.level he hirr
        rw [hs] at this
        cases this
    rw [Pic.Quiet, Pic.acknowledgeIrq_empty hirq hs] at hquiet
    have hp : ({ p with master := p.master.accept 2 } : Pic) = p := hquiet rfl
    have hdropped := Pic0.accept_irr helcr (by decide)
    rw [show p.master.accept 2 = p.master from congrArg Pic.master hp, hirr] at hdropped
    cases hdropped
  | some j =>
    refine ⟨j, rfl, fun ha => ?_⟩
    rw [← Pic0.getIrq_accept_auto hs ha (h.slave.auto ha)]
    rw [Pic.acknowledgeIrq_slave hirq hs] at hcascaded
    by_contra hsome
    have := hcascaded (Option.isSome_iff_ne_none.2 hsome)
    rw [Pic0.lower_accept_irr _ (by decide)] at this
    cases this

end

/-! ## Runs -/

/-- The condition of a step. -/
def Pic.StepServed (p : Pic) (o : Pic.Op) : Prop := o = .acknowledge → p.Served

/-- What is required of a step: the slave's output is requested at the master afterwards, and an
acknowledge without a vector changes nothing. -/
def Pic.StepOk (p : Pic) (o : Pic.Op) : Prop :=
  (p.step o).Cascaded ∧ (o = .acknowledge → p.Quiet)

theorem Pic.Inv.step {p : Pic} (h : p.Inv) {o : Pic.Op} (ho : o.Allowed) (hs : p.StepServed o) :
    (p.step o).Inv := by
  cases o with
  | setIrq i => exact h.setIrq ho
  | clearIrq i => exact h.clearIrq ho
  | port0Write c v => exact h.port0Write c ho
  | port1Write c v => exact h.port1Write c v
  | acknowledge => exact h.acknowledge (hs rfl)

/-- The controllers after both were initialised. -/
theorem Pic.inv_of_initialised {p : Pic} (hm : p.master.Initialised) (hs : p.slave.Initialised) :
    p.Inv := by
  have hnone : p.slave.getIrq = none := by
    rw [Pic0.getIrq_of_isr hs.isr, hs.irr]
    simp
  refine ⟨?_, ⟨hm.state, hm.expectIcw4, fun _ => hm.isr⟩, ⟨hs.state, hs.expectIcw4, fun _ => hs.isr⟩⟩
  rw [hnone]
  refine ⟨by rw [hm.irqValue]; rfl, nofun, fun _ h => ?_⟩
  rw [hm.irr] at h
  cases h

/-- After both chips were initialised, in every run in which the devices drive the inputs other than
2 and the ports are written to end and to mask interrupts: every request that the slave can deliver
is requested at the master, and every acknowledge without a vector leaves the controllers as they
were, exactly when at every acknowledge that selects input 2 the slave serves the master. -/
theorem Pic.cascade_iff {p : Pic} (hm : p.master.Initialised) (hs : p.slave.Initialised)
    (ops : List Pic.Op) (hops : ∀ o ∈ ops, o.Allowed) :
    p.Cascaded ∧ Runs.Each Pic.step Pic.StepOk p ops ↔ Runs.Each Pic.step Pic.StepServed p ops := by
  have hinv := Pic.inv_of_initialised hm hs
  rw [and_iff_right hinv.cascaded]
  refine Runs.each_iff (I := Pic.Inv) (fun p o ho hp hserved => ?_) (fun p o ho hp hok => ?_) hops hinv
  · have hp' := hp.step ho hserved
    exact ⟨hp', hp'.cascaded, fun heq => (hserved heq).quiet⟩
  · rintro rfl
    exact hp.served (hok.2 rfl) hok.1

/-- The controllers after the usual initialisation: no automatic end of interrupts, vectors from
0x08 and 0x70 on. -/
def Pic.booted : Pic :=
  Pic.initialise (Pic.initialise ⟨.reset, .reset⟩ .master 0x11 0x08 0x04 0x01) .slave 0x11 0x70 0x02 0x01

theorem Pic.booted_initialised : Pic.booted.master.Initialised ∧ Pic.booted.slave.Initialised :=
  ⟨⟨rfl, rfl, rfl, rfl, rfl, rfl⟩, ⟨rfl, rfl, rfl, rfl, rfl, rfl⟩⟩

/-- Input 8 is requested, acknowledged and ended. -/
theorem Pic.cascade_booted : Runs.Each Pic.step Pic.StepOk Pic.booted
    [.setIrq 8, .acknowledge, .port0Write .slave 0x20, .port0Write .master 0x20] := by
  have hirq : (Pic.booted.setIrq 8).slave.getIrq = some 0 := by decide +kernel
  have hauto : (Pic.booted.setIrq 8).slave.autoEoi ≠ true := by decide +kernel
  have hserved : Runs.Each Pic.step Pic.StepServed Pic.booted
      [.setIrq 8, .acknowledge, .port0Write .slave 0x20, .port0Write .master 0x20] :=
    ⟨nofun, fun _ _ => ⟨0, hirq, fun h => absurd h hauto⟩, nofun, nofun, trivial⟩
  exact ((Pic.cascade_iff booted_initialised.1 booted_initialised.2 _ (by
    simp [Pic.Op.Allowed])).2 hserved).2

/-- A request of the slave that is masked before it is acknowledged: the acknowledge takes input 2
of the master into service and gives no vector. -/
theorem Pic.cascade_masked : ¬∀ ops : List Pic.Op, (∀ o ∈ ops, o.Allowed) →
    Pic.booted.Cascaded ∧ Runs.Each Pic.step Pic.StepOk Pic.booted ops := by
  intro h
  obtain ⟨_, _, _, ⟨_, hquiet⟩, _⟩ := h [.setIrq 8, .port1Write .slave 0xff, .acknowledge] (by
    simp [Pic.Op.Allowed])
  have hisr := congrArg (fun p : Pic => p.master.isr) (hquiet rfl (by decide +kernel))
  revert hisr
  decide +kernel

end V86.Cpu
