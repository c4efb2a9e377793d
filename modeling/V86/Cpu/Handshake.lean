import V86.Cpu.RemoteIrr

/-!
# Every wait for an end is held

Runs of the IOAPIC and of the local APICs whose redirection table is not rewritten. In every state
that is reached, each entry with `REMOTE_IRR` set has a core that holds its vector with trigger mode
level, provided that no accepted interrupt of such an entry meets only cores that have requested the
vector with trigger mode edge (`Machine.Joined`).
-/

namespace V86.Cpu

open Bits List

/-! ## One check of an entry -/

section
variable {m m' : Machine} {i : Nat}

/-- The entry waits for the end of its interrupts and is not masked. -/
structure Tracked (config : BitVec 32) : Prop where
  level : isLevel config = true
  ordinary : isOrdinary config = true
  masked : isMasked config = false

theorem Tracked.same {c c' : BitVec 32} (h : Tracked c) (hc : SameEntry c c') : Tracked c' :=
  ⟨hc.level ▸ h.level, hc.ordinary ▸ h.ordinary, hc.masked ▸ h.masked⟩

/-- What `check_irq` does for an entry that does not wait. -/
structure Machine.Delivered (m m' : Machine) (i : Nat) : Prop where
  checked : m.Checked m' i
  sender : m'.sender = m.sender
  destination : m'.ioapic.ioredtblDestination = m.ioapic.ioredtblDestination
  grows : List.Forall₂ Core.Grows m.cores m'.cores
  growsLevel : Tracked (m.ioapic.config i) →
    List.Forall₂ (Core.GrowsLevel (lowByte (m.ioapic.config i))) m.cores m'.cores
  waits : hasRemoteIrr (m'.ioapic.config i) = true → Tracked (m.ioapic.config i) ∧
    m.ioapic.irr.getLsbD i = true ∧ m.recipientsOf i ≠ []
  held : Tracked (m.ioapic.config i) → m.ioapic.irr.getLsbD i = true →
    (∃ n ∈ m.recipientsOf i, ¬ClashesAt m.cores (lowByte (m.ioapic.config i)) n) →
    Held m'.cores (lowByte (m.ioapic.config i))
  attempts : Tracked (m.ioapic.config i) → m.ioapic.irr.getLsbD i = true →
    m'.attempts = (i, hasRemoteIrr (m'.ioapic.config i)) :: m.attempts
  older : ∃ new, m'.attempts = new ++ m.attempts

theorem Machine.mayRoute_of_tracked (h : Tracked (m.ioapic.config i))
    (hirr : m.ioapic.irr.getLsbD i = true) (hrem : hasRemoteIrr (m.ioapic.config i) = false) :
    m.mayRoute i = true := by
  rw [Machine.mayRoute, hirr, h.masked, hrem, routes_of_isOrdinary h.ordinary]
  simp

theorem Machine.checkIrq_delivered (hi : i < 32) (hlen : i < m.ioapic.ioredtblConfig.length)
    (hrem : hasRemoteIrr (m.ioapic.config i) = false) : m.Delivered (m.checkIrq i) i := by
  have hchecked := m.checkIrq_checked hi hlen
  rw [m.checkIrq_eq hi] at hchecked ⊢
  split at hchecked
  · next hmay =>
    rw [if_pos hmay]
    have hr := m.routeIrq_routed hlen
    have htrack : ∀ h : Tracked (m.ioapic.config i), tracksEoi (m.ioapic.config i) = true := by
      intro h
      rw [tracksEoi_eq, h.level, h.ordinary]
      rfl
    have hremote : Tracked (m.ioapic.config i) →
        hasRemoteIrr ((m.routeIrq i).ioapic.config i) = (m.routed i).1 := by
      intro h
      rw [hr.remoteIrr, hrem, htrack h, Bool.false_or, Bool.and_true]
    refine ⟨hchecked, hr.sender, hr.destination, ?_, fun h => ?_, fun h => ?_, fun h _ hn => ?_,
      fun h _ => ?_, ⟨[_], hr.attempt⟩⟩
    · rw [hr.cores]
      exact m.routed_grows i
    · rw [hr.cores]
      exact Machine.routed_growsLevel h.level h.ordinary
    · rw [hr.remoteIrr, hrem, Bool.false_or, Bool.and_eq_true, tracksEoi_eq, Bool.and_eq_true] at h
      obtain ⟨hacc, hl, ho⟩ := h
      simp only [Machine.mayRoute, Bool.and_eq_true, Bool.not_eq_true'] at hmay
      exact ⟨⟨hl, ho, hmay.1.1.2⟩, hmay.1.1.1, (Machine.routed_level hl ho).1.1 hacc⟩
    · rw [hr.cores]
      exact (Machine.routed_level h.level h.ordinary).2 hn
    · rw [hr.attempt, hremote h]
  · next hmay =>
    rw [if_neg hmay]
    have hno : Tracked (m.ioapic.config i) → m.ioapic.irr.getLsbD i = true → False :=
      fun h hirr => hmay (Machine.mayRoute_of_tracked h hirr hrem)
    refine ⟨hchecked, rfl, rfl, List.forall₂_same.2 fun c _ => .refl c,
      fun _ => List.forall₂_same.2 fun c _ => .refl _ c, fun h => ?_,
      fun h hirr => (hno h hirr).elim, fun h hirr => (hno h hirr).elim, ⟨[], rfl⟩⟩
    rw [hrem] at h
    cases h

theorem Machine.recipientsOf_congr (hg : List.Forall₂ Core.Grows m.cores m'.cores)
    (hd : m'.ioapic.ioredtblDestination = m.ioapic.ioredtblDestination)
    (he : SameEntry (m.ioapic.config i) (m'.ioapic.config i)) :
    m'.recipientsOf i = m.recipientsOf i := by
  unfold Machine.recipientsOf Ioapic.destination
  rw [hd, ← he.vector, ← he.mode, ← he.logical, destinationCores_of_grows hg,
    recipients_of_grows hg]

theorem remoteIrr_ne_zero (c : BitVec 32) : c &&& configRemoteIrr ≠ 0 ↔ hasRemoteIrr c = true := by
  rw [configRemoteIrr, ne_eq, and_bit_eq_zero (by decide), Bool.not_eq_false, hasRemoteIrr]

end

/-! ## The end of an interrupt -/

/-- The interrupts of vector `v` of the given entries: if one of them is accepted, then the vector is
held already or one of them meets a core that has not requested it with trigger mode edge. -/
def Machine.Joins (m : Machine) (v : BitVec 8) (entries : Nat → Prop) : Prop :=
  (∃ i, entries i ∧ m.recipientsOf i ≠ []) →
    Held m.cores v ∨ ∃ i, entries i ∧ ∃ n ∈ m.recipientsOf i, ¬ClashesAt m.cores v n

/-- The entries whose interrupt is routed again at the end of vector `v`. -/
def Machine.Redelivers (m : Machine) (v : BitVec 8) (i : Nat) : Prop :=
  i < ioapicIrqCount ∧ lowByte (m.ioapic.config i) = v ∧
    hasRemoteIrr (m.ioapic.config i) = true ∧ m.ioapic.irr.getLsbD i = true

/-- The loop of `remote_eoi` before entry `k`, from `m₁` on. -/
structure Machine.Ending (m₁ : Machine) (v : BitVec 8) (k : Nat) (m : Machine) : Prop where
  length : m.ioapic.ioredtblConfig.length = ioapicIrqCount
  destination : m.ioapic.ioredtblDestination = m₁.ioapic.ioredtblDestination
  value : m.ioapic.irqValue = m₁.ioapic.irqValue
  grows : List.Forall₂ (Core.GrowsLevel v) m₁.cores m.cores
  entry : ∀ i, SameEntry (m₁.ioapic.config i) (m.ioapic.config i)
  fresh : ∀ i, k ≤ i → m.ioapic.config i = m₁.ioapic.config i
  other : ∀ i, lowByte (m₁.ioapic.config i) ≠ v → m.ioapic.config i = m₁.ioapic.config i
  irr : ∀ i, isLevel (m₁.ioapic.config i) = true →
    m.ioapic.irr.getLsbD i = m₁.ioapic.irr.getLsbD i
  waits : ∀ i < k, lowByte (m₁.ioapic.config i) = v → hasRemoteIrr (m.ioapic.config i) = true →
    m₁.Redelivers v i ∧ m₁.recipientsOf i ≠ []
  held : ∀ i < k, m₁.Redelivers v i → (∃ n ∈ m₁.recipientsOf i, ¬ClashesAt m₁.cores v n) →
    Held m.cores v
  attempts : ∃ new, m.attempts = new ++ m₁.attempts ∧
    ∀ i < k, m₁.Redelivers v i → (i, hasRemoteIrr (m.ioapic.config i)) ∈ new

/-- The entry no longer waits. -/
def Machine.clearRemoteIrr (m : Machine) (i : Nat) : Machine :=
  { m with ioapic := m.ioapic.setConfig i (m.ioapic.config i &&& ~~~configRemoteIrr) }

/-- The body of the loop of `remote_eoi`. -/
def Machine.endEntry (v : BitVec 8) (m : Machine) (i : Nat) : Machine :=
  if lowByte (m.ioapic.config i) = v ∧ m.ioapic.config i &&& configRemoteIrr ≠ 0 then
    (m.clearRemoteIrr i).checkIrq i
  else m

section
variable {m m₁ : Machine} {v : BitVec 8} {k : Nat}

theorem Machine.Ending.skip (h : m₁.Ending v k m)
    (hno : ¬(lowByte (m₁.ioapic.config k) = v ∧ hasRemoteIrr (m₁.ioapic.config k) = true)) :
    m₁.Ending v (k + 1) m := by
  obtain ⟨new, hnew, hin⟩ := h.attempts
  refine ⟨h.length, h.destination, h.value, h.grows, h.entry, fun i hi => h.fresh i (by omega),
    h.other, h.irr, fun i hi hv hr => ?_, fun i hi hre => ?_, ⟨new, hnew, fun i hi hre => ?_⟩⟩
  · rcases Nat.lt_succ_iff_lt_or_eq.1 hi with hlt | rfl
    · exact h.waits i hlt hv hr
    · rw [h.fresh i (Nat.le_refl i)] at hr
      exact absurd ⟨hv, hr⟩ hno
  · rcases Nat.lt_succ_iff_lt_or_eq.1 hi with hlt | rfl
    · exact h.held i hlt hre
    · exact absurd ⟨hre.2.1, hre.2.2.1⟩ hno
  · rcases Nat.lt_succ_iff_lt_or_eq.1 hi with hlt | rfl
    · exact hin i hlt hre
    · exact absurd ⟨hre.2.1, hre.2.2.1⟩ hno

/-- `m'` is the machine with the remote IRR of one entry cleared. -/
structure Machine.Cleared (m m' : Machine) (k : Nat) : Prop where
  self : m'.ioapic.config k = m.ioapic.config k &&& ~~~configRemoteIrr
  other : ∀ i, i ≠ k → m'.ioapic.config i = m.ioapic.config i
  length : m'.ioapic.ioredtblConfig.length = m.ioapic.ioredtblConfig.length
  destination : m'.ioapic.ioredtblDestination = m.ioapic.ioredtblDestination
  irr : m'.ioapic.irr = m.ioapic.irr
  value : m'.ioapic.irqValue = m.ioapic.irqValue
  cores : m'.cores = m.cores
  attempts : m'.attempts = m.attempts

theorem Machine.cleared (hk : k < m.ioapic.ioredtblConfig.length) :
    m.Cleared (m.clearRemoteIrr k) k where
  self := (Ioapic.config_setConfig hk _ k).trans (if_pos rfl)
  other i hi := (Ioapic.config_setConfig hk _ i).trans (if_neg (Ne.symm hi))
  length := by simp [Machine.clearRemoteIrr, Ioapic.setConfig]
  destination := rfl
  irr := rfl
  value := rfl
  cores := rfl
  attempts := rfl

/-- An entry that is cleared may be delivered again at once, and changes nothing else. -/
theorem Machine.Ending.deliver (h : m₁.Ending v k m) (hk : k < ioapicIrqCount)
    (hv : lowByte (m₁.ioapic.config k) = v) (hrem : hasRemoteIrr (m₁.ioapic.config k) = true)
    (htrack : Tracked (m₁.ioapic.config k)) {m' : Machine}
    (hm' : m' = (m.clearRemoteIrr k).checkIrq k) : m₁.Ending v (k + 1) m' := by
  have hc : m.Cleared (m.clearRemoteIrr k) k := Machine.cleared (h.length ▸ hk)
  generalize m.clearRemoteIrr k = m₂ at hm' hc
  have hsame : SameEntry (m₁.ioapic.config k) (m₂.ioapic.config k) := by
    rw [hc.self]
    exact (h.entry k).trans (sameEntry_clear _)
  have hlen₂ : m₂.ioapic.ioredtblConfig.length = ioapicIrqCount := hc.length.trans h.length
  have hdest₂ : m₂.ioapic.ioredtblDestination = m₁.ioapic.ioredtblDestination :=
    hc.destination.trans h.destination
  have hd : m₂.Delivered m' k := by
    rw [hm']
    refine Machine.checkIrq_delivered (by unfold ioapicIrqCount at hk; omega)
      (hlen₂ ▸ hk) ?_
    rw [hc.self]
    exact getLsbD_clear_self
  have hrec : m₂.recipientsOf k = m₁.recipientsOf k :=
    Machine.recipientsOf_congr (hc.cores ▸ h.grows.imp fun _ _ h => h.grows) hdest₂ hsame
  have hirrk : m₂.ioapic.irr.getLsbD k = m₁.ioapic.irr.getLsbD k := by
    rw [hc.irr]
    exact h.irr k htrack.level
  have hgrows : List.Forall₂ (Core.GrowsLevel v) m.cores m'.cores := by
    have := hd.growsLevel (htrack.same hsame)
    rwa [hc.cores, ← hsame.vector, hv] at this
  have hother : ∀ i, i ≠ k → m'.ioapic.config i = m.ioapic.config i :=
    fun i hi => (hd.checked.only.config i hi).trans (hc.other i hi)
  obtain ⟨new, hnew, hin⟩ := h.attempts
  obtain ⟨more, hmore⟩ := hd.older
  refine ⟨hd.checked.only.length.trans hlen₂, hd.destination.trans hdest₂, ?_,
    forall₂_trans (fun _ _ _ h h' => h.trans h') h.grows hgrows, fun i => ?_,
    fun i hi => ?_, fun i hi => ?_, fun i hl => ?_, fun i hi hvi hr => ?_, fun i hi hre hn => ?_,
    ⟨more ++ new, by rw [hmore, hc.attempts, hnew, append_assoc], fun i hi hre => ?_⟩⟩
  · rw [hd.checked.value, hc.value]
    exact h.value
  · by_cases hik : i = k
    · subst hik
      exact hsame.trans hd.checked.entry
    · rw [hother i hik]
      exact h.entry i
  · rw [hother i (by omega)]
    exact h.fresh i (by omega)
  · rw [hother i (by rintro rfl; exact hi hv)]
    exact h.other i hi
  · by_cases hik : i = k
    · subst hik
      exact (hd.checked.irr (htrack.same hsame).level).trans hirrk
    · rw [hd.checked.only.irr i hik, hc.irr]
      exact h.irr i hl
  · by_cases hik : i = k
    · subst hik
      obtain ⟨_, hirr', hr'⟩ := hd.waits hr
      exact ⟨⟨hk, hv, hrem, hirrk ▸ hirr'⟩, hrec ▸ hr'⟩
    · rw [hother i hik] at hr
      exact h.waits i (by omega) hvi hr
  · by_cases hik : i = k
    · subst hik
      have hheld := hd.held (htrack.same hsame) (hirrk.trans hre.2.2.2)
      rw [hrec, hc.cores, ← hsame.vector, hv] at hheld
      obtain ⟨n, hn, hcl⟩ := hn
      exact hheld ⟨n, hn, clashesAt_of_growsLevel h.grows hcl⟩
    · exact (h.held i (by omega) hre hn).grows (hgrows.imp fun _ _ h => h.grows)
  · by_cases hik : i = k
    · subst hik
      have hhead := hd.attempts (htrack.same hsame) (hirrk.trans hre.2.2.2)
      rw [hmore] at hhead
      have hmore' : more = [(i, hasRemoteIrr (m'.ioapic.config i))] :=
        append_cancel_right (hhead.trans (singleton_append).symm)
      rw [hmore']
      exact mem_cons_self
    · rw [hother i hik]
      exact mem_append_right _ (hin i (by omega) hre)

/-- What `remote_eoi` does. -/
theorem Machine.remoteEoi_ending (hlen : m₁.ioapic.ioredtblConfig.length = ioapicIrqCount)
    (htrack : ∀ i < ioapicIrqCount, hasRemoteIrr (m₁.ioapic.config i) = true →
      Tracked (m₁.ioapic.config i)) (v : BitVec 8) :
    m₁.Ending v ioapicIrqCount (m₁.remoteEoi v) := by
  suffices hfold : ∀ k ≤ ioapicIrqCount,
      m₁.Ending v k ((List.range k).foldl (Machine.endEntry v) m₁) from hfold _ (Nat.le_refl _)
  intro k
  induction k with
  | zero =>
    intro _
    exact ⟨hlen, rfl, rfl, List.forall₂_same.2 fun c _ => .refl v c, fun _ => .refl _, fun _ _ => rfl,
      fun _ _ => rfl, fun _ _ => rfl, nofun, nofun, ⟨[], rfl, nofun⟩⟩
  | succ k ih =>
    intro hk
    have h := ih (by omega)
    rw [range_succ, foldl_append, foldl_cons, foldl_nil]
    generalize (List.range k).foldl (Machine.endEntry v) m₁ = m at h
    unfold Machine.endEntry
    have hfresh := h.fresh k (Nat.le_refl k)
    split
    · next htest =>
      rw [hfresh, remoteIrr_ne_zero] at htest
      exact h.deliver hk htest.1 htest.2 (htrack k hk htest.2) rfl
    · next htest =>
      rw [hfresh, remoteIrr_ne_zero] at htest
      exact h.skip htest

end

/-! ## Steps -/

/-- What happens to the IOAPIC and the local APICs, and who does it. -/
inductive Machine.Op
  | setIrq (sender : Sender) (i : Nat)
  | clearIrq (sender : Sender) (i : Nat)
  | acknowledgeIrq (sender : Sender)
  | writeEoi (sender : Sender)
  | writeIcr0 (sender : Sender) (value : BitVec 32)
  | writeIcr1 (sender : Sender) (value : BitVec 32)

def Machine.step (m : Machine) : Machine.Op → Machine
  | .setIrq sender i => Machine.setIrq { m with sender } i
  | .clearIrq sender i => Machine.clearIrq { m with sender } i
  | .acknowledgeIrq sender => Machine.acknowledgeIrq { m with sender }
  | .writeEoi sender => Machine.writeEoi { m with sender }
  | .writeIcr0 sender value => Machine.writeIcr0 { m with sender } value
  | .writeIcr1 sender value => Machine.writeIcr1 { m with sender } value

/-- An end of vector `v` by the current core is reported, and `cores` are the cores after it. -/
def Machine.Ends (m : Machine) (n : Nat) (v : BitVec 8) (cores : List Core) : Prop :=
  ∃ c, m.cores[n]? = some c ∧ c.aux.hardwareEnabled = true ∧ c.writeEoi.1 = some v ∧
    cores = m.cores.set n c.writeEoi.2

/-- The condition of a step: the interrupts that it routes for entries that will wait for their end
join a request that is held, or meet a core that has not requested the vector with trigger mode
edge. -/
def Machine.Joined (m : Machine) : Machine.Op → Prop
  | .setIrq _ i => i < ioapicIrqCount → m.ioapic.irqValue.getLsbD i = false →
    Tracked (m.ioapic.config i) → hasRemoteIrr (m.ioapic.config i) = false →
    m.Joins (lowByte (m.ioapic.config i)) (· = i)
  | .writeEoi sender => ∀ v cores, m.Ends sender.current v cores →
    Machine.Joins { m with cores } v (m.Redelivers v)
  | _ => True

/-- Each entry that waits has a core that holds its vector with trigger mode level. -/
def Machine.Waits (m : Machine) : Prop :=
  ∀ i < ioapicIrqCount, hasRemoteIrr (m.ioapic.config i) = true →
    Held m.cores (lowByte (m.ioapic.config i))

/-- The end of a vector that is reported ends the waiting of the entries with this vector: those
whose line is low do not wait any more, and the others are routed again and wait if a core
accepts. -/
def Machine.Released (m : Machine) : Machine.Op → Prop
  | .writeEoi sender => ∀ v cores, m.Ends sender.current v cores → ∀ i < ioapicIrqCount,
    lowByte (m.ioapic.config i) = v → hasRemoteIrr (m.ioapic.config i) = true →
    (m.ioapic.irqValue.getLsbD i = false →
      hasRemoteIrr ((m.step (.writeEoi sender)).ioapic.config i) = false) ∧
    (m.ioapic.irqValue.getLsbD i = true →
      ∃ new, (m.step (.writeEoi sender)).attempts = new ++ m.attempts ∧
        (i, hasRemoteIrr ((m.step (.writeEoi sender)).ioapic.config i)) ∈ new)
  | _ => True

/-- The invariant of the handshake. -/
structure Machine.Handshake (m : Machine) : Prop where
  length : m.ioapic.ioredtblConfig.length = ioapicIrqCount
  followed : ∀ i < ioapicIrqCount, m.Followed i
  tracked : ∀ i < ioapicIrqCount, hasRemoteIrr (m.ioapic.config i) = true →
    Tracked (m.ioapic.config i)
  waits : m.Waits

section
variable {m m' : Machine} {i n : Nat} {v : BitVec 8} {cores : List Core}

theorem Held.set (h : Held cores v) {c c' : Core} (hc : cores[n]? = some c)
    (hheld : c.Held v → c'.Held v) : Held (cores.set n c') v := by
  obtain ⟨d, hd, hv⟩ := h
  obtain ⟨k, hk⟩ := mem_iff_getElem?.1 hd
  by_cases hkn : n = k
  · subst hkn
    obtain rfl := Option.some.inj (hc.symm.trans hk)
    have hn := (List.getElem?_eq_some_iff.1 hc).1
    exact ⟨c', mem_iff_getElem?.2 ⟨n, List.getElem?_set_self hn⟩, hheld hv⟩
  · exact ⟨d, mem_iff_getElem?.2 ⟨k, by rw [List.getElem?_set_ne hkn, hk]⟩, hv⟩

/-- A change of the cores that keeps what they hold. -/
theorem Machine.Handshake.of_held (h : m.Handshake) (hio : m'.ioapic = m.ioapic)
    (hheld : ∀ v, Held m.cores v → Held m'.cores v) : m'.Handshake := by
  refine ⟨by rw [hio]; exact h.length, fun i hi => ?_, fun i hi => ?_, fun i hi => ?_⟩
  · unfold Machine.Followed
    rw [hio]
    exact h.followed i hi
  · rw [hio]
    exact h.tracked i hi
  · rw [hio]
    exact fun hr => hheld _ (h.waits i hi hr)

/-- The end of an interrupt keeps every vector that it does not report. -/
theorem Core.writeEoi_held {c : Core} (h : c.Held v) (hne : c.writeEoi.1 ≠ some v) :
    c.writeEoi.2.Held v := by
  unfold Core.writeEoi at hne ⊢
  split
  · exact h
  · next x hx =>
    simp only [hx] at hne
    unfold Core.Held
    simp only [Register.getBit_clearBit]
    rcases h with h | ⟨hs, ht⟩
    · exact .inl h
    · refine .inr ⟨?_, ht⟩
      rw [if_neg, hs]
      rintro rfl
      rw [if_pos ht] at hne
      exact hne rfl

/-- `check_irq` for one entry. -/
theorem Machine.Handshake.check (h : m.Handshake) (hi : i < ioapicIrqCount)
    (hjoin : Tracked (m.ioapic.config i) → hasRemoteIrr (m.ioapic.config i) = false →
      m.Joins (lowByte (m.ioapic.config i)) (· = i)) : (m.checkIrq i).Handshake := by
  have hi32 : i < 32 := by unfold ioapicIrqCount at hi; omega
  cases hrem : hasRemoteIrr (m.ioapic.config i) with
  | true =>
    -- the entry waits already
    have htr := h.tracked i hi hrem
    have hmay : m.mayRoute i = false := by
      rw [Machine.mayRoute, tracksEoi_eq, htr.level, htr.ordinary, hrem]
      simp
    rw [m.checkIrq_eq hi32, hmay]
    exact h
  | false =>
    have hd := Machine.checkIrq_delivered hi32 (h.length ▸ hi) hrem
    generalize m.checkIrq i = m' at hd ⊢
    refine ⟨hd.checked.only.length.trans h.length, fun j hj => ?_, fun j hj hr => ?_,
      fun j hj hr => ?_⟩
    · by_cases hij : j = i
      · subst hij
        intro hl
        rw [← hd.checked.entry.level] at hl
        rw [hd.checked.irr hl, hd.checked.value]
        exact h.followed j hj hl
      · exact hd.checked.only.followed hij (h.followed j hj)
    · by_cases hij : j = i
      · subst hij
        exact (hd.waits hr).1.same hd.checked.entry
      · rw [hd.checked.only.config j hij] at hr ⊢
        exact h.tracked j hj hr
    · by_cases hij : j = i
      · subst hij
        obtain ⟨htr, hirr, hrec⟩ := hd.waits hr
        rw [← hd.checked.entry.vector]
        rcases hjoin htr hrem ⟨j, rfl, hrec⟩ with hheld | ⟨_, rfl, hn⟩
        · exact hheld.grows hd.grows
        · exact hd.held htr hirr hn
      · rw [hd.checked.only.config j hij] at hr ⊢
        exact (h.waits j hj hr).grows hd.grows

theorem Machine.Handshake.setIrq (h : m.Handshake) {i : Nat}
    (hjoin : i < ioapicIrqCount → m.ioapic.irqValue.getLsbD i = false →
      Tracked (m.ioapic.config i) → hasRemoteIrr (m.ioapic.config i) = false →
      m.Joins (lowByte (m.ioapic.config i)) (· = i)) : (m.setIrq i).Handshake := by
  unfold Machine.setIrq
  split
  · exact h
  next hi =>
  have hi : i < ioapicIrqCount := Nat.lt_of_not_le hi
  have hi32 : i < 32 := by unfold ioapicIrqCount at hi; omega
  split
  swap
  · exact h
  next hlow =>
  rw [and_bit_eq_zero hi32] at hlow
  dsimp only
  split
  · next hedge =>
    -- an edge triggered input that is masked
    have hmask := (and_bits_eq_bit (by decide) (by decide) (by decide)).1 hedge
    refine ⟨h.length, fun j hj hl => ?_, h.tracked, h.waits⟩
    have hij : i ≠ j := by
      rintro rfl
      exact Bool.false_ne_true (hmask.1.symm.trans hl)
    exact (h.followed j hj hl).trans (getLsbD_set_ne hij).symm
  refine Machine.Handshake.check ⟨h.length, fun j hj hl => ?_, h.tracked, h.waits⟩ hi
    fun htr hr => hjoin hi hlow htr hr
  by_cases hij : i = j
  · subst hij
    exact (getLsbD_set_self hi32).trans (getLsbD_set_self hi32).symm
  · exact (getLsbD_set_ne hij).trans ((h.followed j hj hl).trans (getLsbD_set_ne hij).symm)

theorem Machine.Handshake.clearIrq (h : m.Handshake) (i : Nat) : (m.clearIrq i).Handshake := by
  unfold Machine.clearIrq
  split
  · exact h
  split
  swap
  · exact h
  dsimp only
  split
  · refine ⟨h.length, fun j hj hl => ?_, h.tracked, h.waits⟩
    change (_ &&& ~~~bit 32 i).getLsbD j = (_ &&& ~~~bit 32 i).getLsbD j
    rw [getLsbD_clear, getLsbD_clear, h.followed j hj hl]
  · next hedge =>
    refine ⟨h.length, fun j hj hl => ?_, h.tracked, h.waits⟩
    have hij : i ≠ j := by
      rintro rfl
      rw [ne_eq, not_not] at hedge
      exact Bool.false_ne_true (((and_bit_eq_zero (by decide)).1 hedge).symm.trans hl)
    exact (h.followed j hj hl).trans (getLsbD_clear_ne hij).symm

theorem Machine.Handshake.acknowledgeIrq (h : m.Handshake) : m.acknowledgeIrq.Handshake := by
  unfold Machine.acknowledgeIrq
  split
  · exact h
  · next c hc =>
    exact h.of_held rfl fun v hv => hv.set hc Core.acknowledge_held

/-- The write of a register of the current core. -/
theorem Machine.writeCore_cases {α : Type} (m : Machine) (f : Core → Option α × Core) :
    m.writeCore f = (none, m) ∨ ∃ c, m.cores[m.sender.current]? = some c ∧
      c.aux.hardwareEnabled = true ∧
      m.writeCore f = ((f c).1, { m with cores := m.cores.set m.sender.current (f c).2 }) := by
  unfold Machine.writeCore
  split
  · exact .inl rfl
  · next c hc =>
    split
    · exact .inl rfl
    · next hen => exact .inr ⟨c, hc, by simpa using hen, rfl⟩

theorem Core.writeIcr0_held {c : Core} {value : BitVec 32} (h : c.Held v) :
    (c.writeIcr0 value).2.Held v := by
  unfold Core.writeIcr0
  dsimp only
  split
  · exact h
  split
  · exact h
  split <;> exact h

theorem sendIpi_held {s : Sender} {source : Nat} {ipi : Ipi} (h : Held cores v) :
    Held (sendIpi s cores source ipi) v := by
  refine Held.grows ?_ (deliverToCores_grows ..)
  rw [List.modify_eq_set_getElem?]
  cases hc : cores[source]? with
  | none => exact h
  | some c => exact h.set hc fun h => h

theorem Machine.Handshake.writeIcr0 (h : m.Handshake) (value : BitVec 32) :
    (m.writeIcr0 value).Handshake := by
  unfold Machine.writeIcr0
  rcases m.writeCore_cases (Core.writeIcr0 · value) with heq | ⟨c, hc, _, heq⟩
  · rw [heq]
    exact h
  · rw [heq]
    have h' : Machine.Handshake { m with
        cores := m.cores.set m.sender.current (c.writeIcr0 value).2 } :=
      h.of_held rfl fun v hv => hv.set hc Core.writeIcr0_held
    cases (c.writeIcr0 value).1 with
    | none => exact h'
    | some ipi => exact h'.of_held rfl fun v hv => sendIpi_held hv

theorem Machine.Handshake.writeIcr1 (h : m.Handshake) (value : BitVec 32) :
    (m.writeIcr1 value).Handshake := by
  unfold Machine.writeIcr1
  rcases m.writeCore_cases (α := Unit) (fun c => (none, c.writeIcr1 value)) with
    heq | ⟨c, hc, _, heq⟩
  · rw [heq]
    exact h
  · rw [heq]
    exact h.of_held rfl fun v hv => hv.set hc fun h => h

/-- An end that is reported: the entries with the vector are released. -/
theorem Machine.Handshake.ended (h : m.Handshake) (hends : m.Ends n v cores)
    (hjoin : Machine.Joins { m with cores } v (m.Redelivers v)) {m₁ : Machine}
    (hm₁ : m₁ = { m with cores }) :
    (m₁.remoteEoi v).Handshake ∧ ∀ i < ioapicIrqCount, lowByte (m.ioapic.config i) = v →
      hasRemoteIrr (m.ioapic.config i) = true →
      (m.ioapic.irqValue.getLsbD i = false →
        hasRemoteIrr ((m₁.remoteEoi v).ioapic.config i) = false) ∧
      (m.ioapic.irqValue.getLsbD i = true → ∃ new, (m₁.remoteEoi v).attempts = new ++ m.attempts ∧
        (i, hasRemoteIrr ((m₁.remoteEoi v).ioapic.config i)) ∈ new) := by
  have hio : m₁.ioapic = m.ioapic := by rw [hm₁]
  have hatt : m₁.attempts = m.attempts := by rw [hm₁]
  have he : m₁.Ending v ioapicIrqCount (m₁.remoteEoi v) :=
    Machine.remoteEoi_ending (hio ▸ h.length) (hio ▸ h.tracked) v
  have hre : ∀ i, m₁.Redelivers v i ↔ m.Redelivers v i := by
    intro i
    unfold Machine.Redelivers
    rw [hio]
  have hheld : ∀ w, w ≠ v → Held m.cores w → Held (m₁.remoteEoi v).cores w := by
    intro w hw hheld
    obtain ⟨c, hc, _, hv, hcores⟩ := hends
    refine Held.grows ?_ (he.grows.imp fun _ _ h => h.grows)
    rw [hm₁, hcores]
    refine hheld.set hc fun hcw => Core.writeEoi_held hcw ?_
    rw [hv]
    exact fun heq => hw (Option.some.inj heq).symm
  rw [← hm₁] at hjoin
  generalize m₁.remoteEoi v = m' at he hheld ⊢
  have hentry : ∀ i, SameEntry (m.ioapic.config i) (m'.ioapic.config i) := fun i => hio ▸ he.entry i
  refine ⟨⟨he.length, fun i hi hl => ?_, fun i hi hr => ?_, fun i hi hr => ?_⟩,
    fun i hi hv hr => ⟨fun hlow => ?_, fun hhigh => ?_⟩⟩
  · rw [← (hentry i).level] at hl
    rw [he.irr i (hio ▸ hl), he.value, hio]
    exact h.followed i hi hl
  · by_cases hv : lowByte (m.ioapic.config i) = v
    · have hr' := ((hre i).1 (he.waits i hi (hio ▸ hv) hr).1).2.2.1
      exact (h.tracked i hi hr').same (hentry i)
    · have hsame : m'.ioapic.config i = m.ioapic.config i := hio ▸ he.other i (hio ▸ hv)
      rw [hsame] at hr ⊢
      exact h.tracked i hi hr
  · rw [← (hentry i).vector]
    by_cases hv : lowByte (m.ioapic.config i) = v
    · rw [hv]
      obtain ⟨hrei, hrec⟩ := he.waits i hi (hio ▸ hv) hr
      rcases hjoin ⟨i, (hre i).1 hrei, hrec⟩ with hold | ⟨j, hj, hn⟩
      · exact hold.grows (he.grows.imp fun _ _ h => h.grows)
      · exact he.held j hj.1 ((hre j).2 hj) hn
    · have hsame : m'.ioapic.config i = m.ioapic.config i := hio ▸ he.other i (hio ▸ hv)
      rw [hsame] at hr
      exact hheld _ hv (h.waits i hi hr)
  · have hirr := (h.followed i hi (h.tracked i hi hr).level).trans hlow
    rw [Bool.eq_false_iff]
    intro hr'
    have hrei := (hre i).1 (he.waits i hi (hio ▸ hv) hr').1
    exact Bool.false_ne_true (hirr.symm.trans hrei.2.2.2)
  · have hirr := (h.followed i hi (h.tracked i hi hr).level).trans hhigh
    obtain ⟨new, hnew, hin⟩ := he.attempts
    exact ⟨new, hatt ▸ hnew, hin i hi ((hre i).2 ⟨hi, hv, hr, hirr⟩)⟩

theorem Machine.Ends.unique {v' : BitVec 8} {cores' : List Core} (h : m.Ends n v cores)
    (h' : m.Ends n v' cores') : v' = v ∧ cores' = cores := by
  obtain ⟨c, hc, _, hv, hcores⟩ := h
  obtain ⟨c', hc', _, hv', hcores'⟩ := h'
  obtain rfl := Option.some.inj (hc.symm.trans hc')
  exact ⟨Option.some.inj (hv'.symm.trans hv), hcores'.trans hcores.symm⟩

theorem Machine.writeEoi_cases (m : Machine) :
    (∃ v cores, m.Ends m.sender.current v cores ∧
      m.writeEoi = Machine.remoteEoi { m with cores } v) ∨
    (∀ v cores, ¬m.Ends m.sender.current v cores) ∧ m.writeEoi.ioapic = m.ioapic ∧
      ∀ v, Held m.cores v → Held m.writeEoi.cores v := by
  unfold Machine.writeEoi Machine.writeCore
  cases hc : m.cores[m.sender.current]? with
  | none =>
    refine .inr ⟨?_, rfl, fun _ h => h⟩
    rintro v cores ⟨c, hc', _⟩
    cases hc.symm.trans hc'
  | some c =>
    by_cases hen : c.aux.hardwareEnabled = true
    · simp only [hen, Bool.not_true, Bool.false_eq_true, if_false]
      cases heoi : c.writeEoi.1 with
      | none =>
        refine .inr ⟨?_, by trivial, fun v hv => hv.set hc fun hcv => Core.writeEoi_held hcv ?_⟩
        · rintro v cores ⟨c', hc', _, hv, _⟩
          obtain rfl := Option.some.inj (hc.symm.trans hc')
          cases heoi.symm.trans hv
        · rw [heoi]
          exact nofun
      | some v => exact .inl ⟨v, _, ⟨c, hc, hen, heoi, rfl⟩, rfl⟩
    · simp only [Bool.not_eq_true] at hen
      simp only [hen, Bool.not_false, if_true]
      refine .inr ⟨?_, by trivial, fun _ h => h⟩
      rintro v cores ⟨c', hc', hen', _⟩
      obtain rfl := Option.some.inj (hc.symm.trans hc')
      cases hen.symm.trans hen'

theorem Machine.Handshake.step (h : m.Handshake) (o : Machine.Op) (ho : m.Joined o) :
    (m.step o).Handshake ∧ m.Released o := by
  have hs : ∀ sender, Machine.Handshake { m with sender } :=
    fun sender => h.of_held rfl fun _ hv => hv
  cases o with
  | setIrq sender i => exact ⟨(hs sender).setIrq ho, trivial⟩
  | clearIrq sender i => exact ⟨(hs sender).clearIrq i, trivial⟩
  | acknowledgeIrq sender => exact ⟨(hs sender).acknowledgeIrq, trivial⟩
  | writeIcr0 sender value => exact ⟨(hs sender).writeIcr0 value, trivial⟩
  | writeIcr1 sender value => exact ⟨(hs sender).writeIcr1 value, trivial⟩
  | writeEoi sender =>
    unfold Machine.Released Machine.step
    dsimp only
    rcases Machine.writeEoi_cases { m with sender } with ⟨v, cores, hends, heq⟩ | ⟨hno, hio, hheld⟩
    · rw [heq]
      obtain ⟨h1, h2⟩ := (hs sender).ended hends (ho v cores hends) rfl
      refine ⟨h1, fun v' cores' hends' => ?_⟩
      obtain ⟨rfl, rfl⟩ := hends.unique hends'
      exact h2
    · exact ⟨(hs sender).of_held hio hheld, fun v cores hends => (hno v cores hends).elim⟩

end

/-! ## Runs -/

/-- A machine whose redirection table is programmed: no entry waits, and the requests of the level
triggered inputs follow their lines. -/
structure Machine.Programmed (m : Machine) : Prop where
  length : m.ioapic.ioredtblConfig.length = ioapicIrqCount
  followed : ∀ i < ioapicIrqCount, m.Followed i
  idle : ∀ i < ioapicIrqCount, hasRemoteIrr (m.ioapic.config i) = false

theorem Machine.Programmed.handshake {m : Machine} (h : m.Programmed) : m.Handshake := by
  have hno : ∀ {p : Prop} (i : Nat), i < ioapicIrqCount →
      hasRemoteIrr (m.ioapic.config i) = true → p := by
    intro p i hi hr
    cases (h.idle i hi).symm.trans hr
  exact ⟨h.length, h.followed, fun i hi hr => hno i hi hr, fun i hi hr => hno i hi hr⟩

/-- In every state of a run whose steps meet the condition, each entry that waits has a core that
holds its vector with trigger mode level, and the end of this vector releases the entry. -/
theorem Machine.remote_irr_held {m : Machine} (hm : m.Programmed) {ops : List Machine.Op}
    (hops : Runs.Each Machine.step Machine.Joined m ops) :
    m.Waits ∧ Runs.Each Machine.step (fun m o => (m.step o).Waits ∧ m.Released o) m ops := by
  refine ⟨hm.handshake.waits, ?_⟩
  refine Runs.each_of (A := fun _ => True) (I := Machine.Handshake) (fun m o _ hinv ho => ?_)
    (fun _ _ => trivial) hm.handshake hops
  obtain ⟨h1, h2⟩ := hinv.step o ho
  exact ⟨h1, h1.waits, h2⟩

/-- A core with an enabled local APIC and nothing to do. -/
def Core.idle : Core where
  apic := ⟨0, 0, 0, 0, 0, 0, 0, 0x1FF, 0xFFFFFFFF, 0, 0⟩
  aux := ⟨true, false, 0, 0, 0⟩
  coreEvents := 0
  nmiPending := false
  smiPending := false

/-- One idle core, and input 3 is level triggered, fixed and not masked, with vector 0x51. -/
def Machine.programmed : Machine where
  sender := ⟨0, false⟩
  cores := [Core.idle]
  ioapic := Ioapic.reset.setConfig 3 0x8051
  attempts := []

theorem Machine.programmed_programmed : Machine.programmed.Programmed := by
  refine ⟨rfl, fun i _ _ => ?_, by decide +kernel⟩
  rfl

/-- The line rises, the interrupt is acknowledged, the line falls and the interrupt ends. -/
theorem Machine.remote_irr_held_once : Machine.programmed.Waits ∧
    Runs.Each Machine.step (fun m o => (m.step o).Waits ∧ m.Released o) Machine.programmed
      [.setIrq ⟨0, false⟩ 3, .acknowledgeIrq ⟨0, false⟩, .clearIrq ⟨0, false⟩ 3,
        .writeEoi ⟨0, false⟩] := by
  refine Machine.remote_irr_held Machine.programmed_programmed ⟨?_, trivial, trivial, ?_, trivial⟩
  · -- the core has not requested the vector
    intro _ _ _ _ _
    refine .inr ⟨3, rfl, 0, by decide +kernel, ?_⟩
    rintro ⟨c, hc, hirr, _⟩
    obtain rfl := Option.some.inj hc
    revert hirr
    decide +kernel
  · -- the input is not requested any more
    rintro v cores _ ⟨i, ⟨_, _, _, hirr⟩, _⟩
    have hzero : (((Machine.programmed.step (.setIrq ⟨0, false⟩ 3)).step
        (.acknowledgeIrq ⟨0, false⟩)).step (.clearIrq ⟨0, false⟩ 3)).ioapic.irr = 0 := by
      decide +kernel
    rw [hzero] at hirr
    simp at hirr

/-- The core sends vector 0x51 to itself, and then the line rises: the core accepts the interrupt,
but its trigger mode is lost, and the end of the vector is not reported. -/
theorem Machine.remote_irr_lost : Machine.programmed.Programmed ∧
    ¬Runs.Each Machine.step (fun m o => (m.step o).Waits ∧ m.Released o) Machine.programmed
      [.writeIcr0 ⟨0, false⟩ 0x44051, .setIrq ⟨0, false⟩ 3] := by
  refine ⟨Machine.programmed_programmed, ?_⟩
  rintro ⟨_, ⟨hwaits, _⟩, _⟩
  have hheld := hwaits 3 (by decide) (by decide +kernel)
  revert hheld
  decide +kernel

end V86.Cpu
