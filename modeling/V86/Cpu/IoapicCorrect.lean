import Mathlib.Tactic.Common
import V86.Cpu.Ioapic
import V86.Lib.Runs

/-!
# Requests of level triggered inputs

The request of a level triggered input follows its line (`Machine.Followed`), and after
`Machine.checkIrq` an input that may be routed is either waiting for the end of its interrupt or no
core accepted it (`Machine.Settled`). The only step that may break the first is a write that turns
an edge triggered entry into a level triggered one.
-/

namespace V86.Cpu

open Bits
open BitVec hiding not_not

/-! ## Entries -/

/-- The trigger mode of an entry. -/
def isLevel (config : BitVec 32) : Bool := config.getLsbD 15

def isMasked (config : BitVec 32) : Bool := config.getLsbD 16

def hasRemoteIrr (config : BitVec 32) : Bool := config.getLsbD 14

/-- The delivery modes whose interrupts have an end. -/
def isOrdinary (config : BitVec 32) : Bool :=
  DeliveryMode.ofWord config = .fixed || DeliveryMode.ofWord config = .lowestPriority

section
variable {c c' : BitVec 32}

theorem ofWord_congr (h : ∀ j < 3, c.getLsbD (8 + j) = c'.getLsbD (8 + j)) :
    DeliveryMode.ofWord c = DeliveryMode.ofWord c' := by
  have hmask : ∀ j < 32, 3 ≤ j → (7 : BitVec 32).getLsbD j = false := by decide
  have hbits : c >>> 8 &&& (7 : BitVec 32) = c' >>> 8 &&& (7 : BitVec 32) := by
    apply eq_of_getLsbD_eq
    intro j hj
    rw [getLsbD_and, getLsbD_and, getLsbD_ushiftRight, getLsbD_ushiftRight]
    by_cases hj3 : j < 3
    · rw [h j hj3]
    · rw [hmask j hj (Nat.le_of_not_lt hj3), Bool.and_false, Bool.and_false]
  unfold DeliveryMode.ofWord
  rw [hbits]

theorem lowByte_congr (h : ∀ j < 8, c.getLsbD j = c'.getLsbD j) : lowByte c = lowByte c' := by
  apply eq_of_getLsbD_eq
  intro j hj
  rw [lowByte, lowByte, getLsbD_setWidth, getLsbD_setWidth, h j hj]

theorem tracksEoi_eq (c : BitVec 32) : tracksEoi c = (isLevel c && isOrdinary c) := by
  have : decide (c &&& configLevel = configLevel) = isLevel c := by
    unfold isLevel configLevel
    rw [Bool.eq_iff_iff, decide_eq_true_eq, and_bit_eq_bit (by decide)]
  rw [tracksEoi, this, isOrdinary]

theorem routes_of_isOrdinary (h : isOrdinary c = true) : routes c = true := by
  simp only [isOrdinary, Bool.or_eq_true, decide_eq_true_eq] at h
  rcases h with h | h <;> simp [routes, h]

/-- The entries differ only in the status bits 12 and 14. -/
structure SameEntry (c c' : BitVec 32) : Prop where
  level : isLevel c = isLevel c'
  masked : isMasked c = isMasked c'
  mode : DeliveryMode.ofWord c = DeliveryMode.ofWord c'
  vector : lowByte c = lowByte c'
  logical : c.getLsbD 11 = c'.getLsbD 11

theorem SameEntry.refl (c : BitVec 32) : SameEntry c c := ⟨rfl, rfl, rfl, rfl, rfl⟩

theorem SameEntry.trans {c'' : BitVec 32} (h : SameEntry c c') (h' : SameEntry c' c'') :
    SameEntry c c'' :=
  ⟨h.level.trans h'.level, h.masked.trans h'.masked, h.mode.trans h'.mode,
    h.vector.trans h'.vector, h.logical.trans h'.logical⟩

theorem SameEntry.of_bits (h : ∀ j, j ≠ 12 → j ≠ 14 → c.getLsbD j = c'.getLsbD j) :
    SameEntry c c' :=
  ⟨h 15 (by decide) (by decide), h 16 (by decide) (by decide),
    ofWord_congr fun j hj => h (8 + j) (by omega) (by omega),
    lowByte_congr fun j hj => h j (by omega) (by omega), h 11 (by decide) (by decide)⟩

theorem SameEntry.ordinary (h : SameEntry c c') : isOrdinary c = isOrdinary c' := by
  rw [isOrdinary, isOrdinary, h.mode]

theorem sameEntry_set (c : BitVec 32) : SameEntry c (c ||| configRemoteIrr) :=
  .of_bits fun _ _ h => (getLsbD_set_ne (Ne.symm h)).symm

theorem sameEntry_clear (c : BitVec 32) : SameEntry c (c &&& ~~~configRemoteIrr) :=
  .of_bits fun _ _ h => (getLsbD_clear_ne (Ne.symm h)).symm

theorem sameEntry_delivs (c : BitVec 32) : SameEntry c (c &&& ~~~configDelivs) :=
  .of_bits fun _ h _ => (getLsbD_clear_ne (Ne.symm h)).symm

end

/-! ## One input -/

/-- The latest attempt to route an input: was it accepted? -/
def Machine.lastAttempt (m : Machine) (i : Nat) : Option Bool :=
  (m.attempts.find? (·.1 = i)).map (·.2)

/-- The request of a level triggered input follows its line. -/
def Machine.Followed (m : Machine) (i : Nat) : Prop :=
  isLevel (m.ioapic.config i) = true → m.ioapic.irr.getLsbD i = m.ioapic.irqValue.getLsbD i

/-- An input that is requested and may be routed waits for the end of its interrupt, or no core
accepted it. -/
def Machine.Settled (m : Machine) (i : Nat) : Prop :=
  m.ioapic.irr.getLsbD i = true → isMasked (m.ioapic.config i) = false →
    isLevel (m.ioapic.config i) = true → isOrdinary (m.ioapic.config i) = true →
    hasRemoteIrr (m.ioapic.config i) = true ∨ m.lastAttempt i = some false

section
variable {m : Machine} {i j : Nat}

theorem Ioapic.config_setConfig {io : Ioapic} {i : Nat} (hi : i < io.ioredtblConfig.length)
    (c : BitVec 32) (j : Nat) : (io.setConfig i c).config j = if i = j then c else io.config j := by
  unfold setConfig config
  by_cases h : i = j
  · subst h
    simp [hi]
  · simp [List.getD, List.getElem?_set_ne h, h]

/-- What a change of one input may do. -/
structure Machine.ChangesOnly (m m' : Machine) (i : Nat) : Prop where
  length : m'.ioapic.ioredtblConfig.length = m.ioapic.ioredtblConfig.length
  value : ∀ j, j ≠ i → m'.ioapic.irqValue.getLsbD j = m.ioapic.irqValue.getLsbD j
  config : ∀ j, j ≠ i → m'.ioapic.config j = m.ioapic.config j
  irr : ∀ j, j ≠ i → m'.ioapic.irr.getLsbD j = m.ioapic.irr.getLsbD j
  attempt : ∀ j, j ≠ i → m'.lastAttempt j = m.lastAttempt j

theorem Machine.ChangesOnly.followed {m' : Machine} (h : m.ChangesOnly m' i) (hj : j ≠ i)
    (hf : m.Followed j) : m'.Followed j := by
  unfold Machine.Followed at hf ⊢
  rw [h.config j hj, h.irr j hj, h.value j hj]
  exact hf

theorem Machine.ChangesOnly.settled {m' : Machine} (h : m.ChangesOnly m' i) (hj : j ≠ i)
    (hs : m.Settled j) : m'.Settled j := by
  unfold Machine.Settled at hs ⊢
  rw [h.config j hj, h.irr j hj, h.attempt j hj]
  exact hs

theorem Machine.ChangesOnly.refl (m : Machine) (i : Nat) : m.ChangesOnly m i :=
  ⟨rfl, fun _ _ => rfl, fun _ _ => rfl, fun _ _ => rfl, fun _ _ => rfl⟩

theorem Machine.ChangesOnly.trans {m' m'' : Machine} (h : m.ChangesOnly m' i)
    (h' : m'.ChangesOnly m'' i) : m.ChangesOnly m'' i :=
  ⟨h'.length.trans h.length, fun j hj => (h'.value j hj).trans (h.value j hj),
    fun j hj => (h'.config j hj).trans (h.config j hj),
    fun j hj => (h'.irr j hj).trans (h.irr j hj),
    fun j hj => (h'.attempt j hj).trans (h.attempt j hj)⟩

/-- The cores after an input was routed, and whether one of them accepted. -/
def Machine.routed (m : Machine) (i : Nat) : Bool × List Core :=
  route m.sender m.cores (lowByte (m.ioapic.config i)) (.ofWord (m.ioapic.config i))
    (isLevel (m.ioapic.config i)) (highByte (m.ioapic.destination i))
    ((m.ioapic.config i).getLsbD 11)

/-- What routing an input does. -/
structure Machine.Routed (m m' : Machine) (i : Nat) : Prop where
  only : m.ChangesOnly m' i
  value : m'.ioapic.irqValue = m.ioapic.irqValue
  sender : m'.sender = m.sender
  destination : m'.ioapic.ioredtblDestination = m.ioapic.ioredtblDestination
  cores : m'.cores = (m.routed i).2
  entry : SameEntry (m.ioapic.config i) (m'.ioapic.config i)
  remoteIrr : hasRemoteIrr (m'.ioapic.config i) =
    (hasRemoteIrr (m.ioapic.config i) || (m.routed i).1 && tracksEoi (m.ioapic.config i))
  irr : m'.ioapic.irr.getLsbD i = (isLevel (m.ioapic.config i) && m.ioapic.irr.getLsbD i)
  attempt : m'.attempts = (i, (m.routed i).1) :: m.attempts

theorem decide_level (c : BitVec 32) : decide (c &&& configLevel = configLevel) = isLevel c := by
  unfold isLevel configLevel
  rw [Bool.eq_iff_iff, decide_eq_true_eq, and_bit_eq_bit (by decide)]

theorem Machine.routeIrq_routed (m : Machine) (hi : i < m.ioapic.ioredtblConfig.length) :
    m.Routed (m.routeIrq i) i := by
  have hattempt : ∀ {b : Bool} {j : Nat}, j ≠ i →
      (((i, b) :: m.attempts).find? (·.1 = j)).map (·.2) = (m.attempts.find? (·.1 = j)).map (·.2) := by
    intro b j hj
    rw [List.find?_cons_of_neg (by simpa using Ne.symm hj)]
  unfold Machine.routeIrq
  simp only [decide_level]
  generalize hr : route m.sender m.cores (lowByte (m.ioapic.config i)) (.ofWord (m.ioapic.config i))
    (isLevel (m.ioapic.config i)) (highByte (m.ioapic.destination i))
    ((m.ioapic.config i).getLsbD 11) = r
  have hr' : m.routed i = r := hr
  obtain ⟨accepted, cores⟩ := r
  -- the request of an edge triggered input is dropped
  generalize hio : (if isLevel (m.ioapic.config i) = true then m.ioapic
    else { m.ioapic with irr := m.ioapic.irr &&& ~~~bit 32 i }) = io
  have hconfig : ∀ j, io.config j = m.ioapic.config j := by
    intro j
    rw [← hio]
    split <;> rfl
  have hlen : io.ioredtblConfig.length = m.ioapic.ioredtblConfig.length := by
    rw [← hio]
    split <;> rfl
  have hirr : ∀ j, io.irr.getLsbD j = (m.ioapic.irr.getLsbD j && (isLevel (m.ioapic.config i) || j ≠ i)) := by
    intro j
    rw [← hio]
    split
    · next h => simp [h]
    · next h =>
      by_cases hj : i = j
      · subst hj
        rw [getLsbD_clear_self]
        simp [h]
      · rw [getLsbD_clear_ne hj]
        simp [Ne.symm hj]
  have hvalue : io.irqValue = m.ioapic.irqValue ∧
      io.ioredtblDestination = m.ioapic.ioredtblDestination := by
    rw [← hio]
    split <;> exact ⟨rfl, rfl⟩
  generalize hc : (if (accepted && tracksEoi (m.ioapic.config i)) = true then
    m.ioapic.config i ||| configRemoteIrr else m.ioapic.config i) = c
  have hentry : SameEntry (m.ioapic.config i) c := by
    rw [← hc]
    split
    · exact sameEntry_set _
    · exact .refl _
  have hremote : hasRemoteIrr c =
      (hasRemoteIrr (m.ioapic.config i) || accepted && tracksEoi (m.ioapic.config i)) := by
    rw [← hc]
    split
    · next h =>
      rw [h, Bool.or_true]
      exact getLsbD_set_self (by decide)
    · next h => rw [Bool.eq_false_iff.2 h, Bool.or_false]
  -- both writes of the entry at once
  have hset : ∀ io', (if (accepted && tracksEoi (m.ioapic.config i)) = true then
      io.setConfig i (io.config i ||| configRemoteIrr) else io) = io' →
      io'.config i = c ∧ (∀ d, io'.setConfig i d = io.setConfig i d) := by
    rintro io' rfl
    rw [← hc]
    split
    · refine ⟨?_, fun d => ?_⟩
      · rw [Ioapic.config_setConfig (hlen ▸ hi), if_pos rfl, hconfig]
      · simp [Ioapic.setConfig]
    · exact ⟨hconfig i, fun _ => rfl⟩
  obtain ⟨hci, hset⟩ := hset _ rfl
  simp only [hset, hci]
  have hfinal : ∀ j, (io.setConfig i (c &&& ~~~configDelivs)).config j =
      if i = j then c &&& ~~~configDelivs else m.ioapic.config j := by
    intro j
    rw [Ioapic.config_setConfig (hlen ▸ hi), hconfig]
  refine ⟨⟨?_, fun j _ => congrArg (BitVec.getLsbD · j) hvalue.1, fun j hj => ?_, fun j hj => ?_,
    fun j hj => ?_⟩, hvalue.1, rfl, hvalue.2, ?_, ?_, ?_, ?_, ?_⟩
  · simpa [Ioapic.setConfig] using hlen
  · rw [hfinal, if_neg (Ne.symm hj)]
  · exact (hirr j).trans (by simp [hj])
  · exact hattempt hj
  · rw [hr']
  · rw [hfinal, if_pos rfl]
    exact hentry.trans (sameEntry_delivs c)
  · rw [hfinal, if_pos rfl, hr', ← hremote]
    exact getLsbD_clear_ne (by decide)
  · refine (hirr i).trans ?_
    cases isLevel (m.ioapic.config i) <;> simp
  · rw [hr']

/-- `check_irq` routes the input when it is requested, not masked, not waiting and has a delivery
mode. -/
def Machine.mayRoute (m : Machine) (i : Nat) : Bool :=
  m.ioapic.irr.getLsbD i && !isMasked (m.ioapic.config i) &&
    !(tracksEoi (m.ioapic.config i) && hasRemoteIrr (m.ioapic.config i)) &&
    routes (m.ioapic.config i)

theorem Machine.checkIrq_eq (m : Machine) (hi : i < 32) :
    m.checkIrq i = if m.mayRoute i then m.routeIrq i else m := by
  have hmasked : m.ioapic.config i &&& configMasked ≠ 0 ↔ isMasked (m.ioapic.config i) = true := by
    rw [configMasked, ne_eq, and_bit_eq_zero (by decide), Bool.not_eq_false, isMasked]
  have hremote : decide (m.ioapic.config i &&& configRemoteIrr ≠ 0) =
      hasRemoteIrr (m.ioapic.config i) := by
    rw [Bool.eq_iff_iff, decide_eq_true_eq, configRemoteIrr, ne_eq, and_bit_eq_zero (by decide),
      Bool.not_eq_false, hasRemoteIrr]
  unfold Machine.checkIrq Machine.mayRoute
  simp only [and_bit_eq_zero hi, hmasked, hremote]
  cases m.ioapic.irr.getLsbD i with
  | false => rfl
  | true =>
    cases isMasked (m.ioapic.config i) with
    | true => rfl
    | false =>
      cases tracksEoi (m.ioapic.config i) && hasRemoteIrr (m.ioapic.config i) with
      | true => rfl
      | false => cases routes (m.ioapic.config i) <;> rfl

/-- What `check_irq` does to the IOAPIC. -/
structure Machine.Checked (m m' : Machine) (i : Nat) : Prop where
  only : m.ChangesOnly m' i
  value : m'.ioapic.irqValue = m.ioapic.irqValue
  entry : SameEntry (m.ioapic.config i) (m'.ioapic.config i)
  irr : isLevel (m.ioapic.config i) = true →
    m'.ioapic.irr.getLsbD i = m.ioapic.irr.getLsbD i
  settled : m'.Settled i

theorem Machine.checkIrq_checked (m : Machine) (hi : i < 32)
    (hlen : i < m.ioapic.ioredtblConfig.length) : m.Checked (m.checkIrq i) i := by
  rw [m.checkIrq_eq hi]
  split
  · have hr := m.routeIrq_routed hlen
    refine ⟨hr.only, hr.value, hr.entry, fun hl => by rw [hr.irr, hl, Bool.true_and], ?_⟩
    intro _ _ hl ho
    rw [← hr.entry.level] at hl
    rw [← hr.entry.ordinary] at ho
    cases hacc : (m.routed i).1 with
    | true =>
      left
      rw [hr.remoteIrr, hacc, tracksEoi_eq, hl, ho]
      simp
    | false =>
      right
      rw [Machine.lastAttempt, hr.attempt, hacc]
      simp
  · next hmay =>
    refine ⟨.refl m i, rfl, .refl _, fun _ => rfl, fun h1 h2 h3 h4 => ?_⟩
    left
    simp only [Machine.mayRoute, h1, h2, tracksEoi_eq, h3, h4, routes_of_isOrdinary h4] at hmay
    simpa using hmay

end

/-! ## Steps -/

/-- What happens to the IOAPIC. In between, the local APICs may change in any way. -/
inductive Machine.IoOp
  | setIrq (i : Nat)
  | clearIrq (i : Nat)
  | write32 (addr value : BitVec 32)
  | remoteEoi (vector : BitVec 8)
  | lapics (sender : Sender) (cores : List Core)

def Machine.ioStep (m : Machine) : Machine.IoOp → Machine
  | .setIrq i => m.setIrq i
  | .clearIrq i => m.clearIrq i
  | .write32 addr value => m.write32 addr value
  | .remoteEoi vector => m.remoteEoi vector
  | .lapics sender cores => { m with sender, cores }

/-- A write turns the entry of input `i` from edge into level triggered. -/
def Machine.TurnsLevel (m : Machine) (o : Machine.IoOp) (i : Nat) : Prop :=
  ∃ value, o = .write32 0x10 value ∧ m.ioapic.ioregsel = BitVec.ofNat 32 (0x10 + 2 * i) ∧
    isLevel (m.ioapic.config i) = false ∧ isLevel value = true

/-- The invariant, but for the requests of level triggered inputs. -/
structure Machine.IoInv (m : Machine) : Prop where
  length : m.ioapic.ioredtblConfig.length = ioapicIrqCount
  settled : ∀ i < ioapicIrqCount, m.Settled i

section
variable {m : Machine} {i : Nat}

/-- A change of one input that ends with `check_irq`. -/
theorem Machine.IoInv.check {n : Machine} (h : m.IoInv) (hi : i < ioapicIrqCount)
    (hc : m.ChangesOnly n i) : (n.checkIrq i).IoInv ∧
      (∀ j < ioapicIrqCount, j ≠ i → m.Followed j → (n.checkIrq i).Followed j) ∧
      (n.Followed i ↔ (n.checkIrq i).Followed i) := by
  have hlen : i < n.ioapic.ioredtblConfig.length := by rw [hc.length, h.length]; exact hi
  have hk := n.checkIrq_checked (Nat.lt_trans hi (by decide)) hlen
  have hch := hc.trans hk.only
  refine ⟨⟨hch.length.trans h.length, fun j hj => ?_⟩, fun j _ hne hf => hch.followed hne hf, ?_⟩
  · by_cases hij : j = i
    · rw [hij]
      exact hk.settled
    · exact hch.settled hij (h.settled j hj)
  · unfold Machine.Followed
    rw [← hk.entry.level, hk.value]
    exact forall_congr' fun hl => by rw [hk.irr hl]

theorem lt_of_lt_count (hi : i < ioapicIrqCount) : i < 32 := Nat.lt_trans hi (by decide)

/-- What is shown of a step. -/
structure Machine.Stepped (m m' : Machine) (turns : Nat → Prop) : Prop where
  inv : m'.IoInv
  followed : ∀ i < ioapicIrqCount, m.Followed i → (m'.Followed i ↔
    (turns i → m.ioapic.irr.getLsbD i = m.ioapic.irqValue.getLsbD i))

variable {m' : Machine} {turns : Nat → Prop} {reg : BitVec 32}

/-- A step that does not change a trigger mode. -/
theorem Machine.Stepped.of_followed (h : m'.IoInv)
    (hf : ∀ i < ioapicIrqCount, m.Followed i → m'.Followed i)
    (hturns : ∀ i, ¬turns i) : m.Stepped m' turns :=
  ⟨h, fun i hi hfi => ⟨fun _ ht => absurd ht (hturns i), fun _ => hf i hi hfi⟩⟩

theorem Machine.IoInv.setIrq (h : m.IoInv) (i : Nat)
    (hturns : ∀ i, ¬turns i) : m.Stepped (m.setIrq i) turns := by
  unfold Machine.setIrq
  split
  · exact .of_followed h (fun _ _ hf => hf) hturns
  next hi =>
  have hi : i < ioapicIrqCount := Nat.lt_of_not_le hi
  have hi32 := lt_of_lt_count hi
  split
  swap
  · exact .of_followed h (fun _ _ hf => hf) hturns
  dsimp only
  split
  · next hedge =>
    rw [configLevel, configMasked, and_bits_eq_bit (by decide) (by decide) (by decide)] at hedge
    refine .of_followed ?_ (fun j hj hf hl => ?_) hturns
    · exact ⟨h.length, h.settled⟩
    · by_cases hij : i = j
      · subst hij
        cases hedge.1.symm.trans hl
      · exact (hf hl).trans (getLsbD_set_ne hij).symm
  · obtain ⟨h1, h2, h3⟩ := h.check (n := { m with ioapic := { m.ioapic with
      irqValue := m.ioapic.irqValue ||| bit 32 i, irr := m.ioapic.irr ||| bit 32 i } }) hi
      ⟨rfl, fun j hj => getLsbD_set_ne (Ne.symm hj), fun _ _ => rfl,
        fun j hj => getLsbD_set_ne (Ne.symm hj), fun _ _ => rfl⟩
    refine .of_followed h1 (fun j hj hf => ?_) hturns
    by_cases hij : j = i
    · subst hij
      exact h3.1 fun _ => (getLsbD_set_self hi32).trans (getLsbD_set_self hi32).symm
    · exact h2 j hj hij hf

theorem Machine.IoInv.clearIrq (h : m.IoInv) (i : Nat)
    (hturns : ∀ i, ¬turns i) : m.Stepped (m.clearIrq i) turns := by
  unfold Machine.clearIrq
  split
  · exact .of_followed h (fun _ _ hf => hf) hturns
  split
  swap
  · exact .of_followed h (fun _ _ hf => hf) hturns
  dsimp only
  split
  · -- a level triggered input is no longer requested
    refine .of_followed ?_ (fun j hj hf hl => ?_) hturns
    · refine ⟨h.length, fun j hj hirr => h.settled j hj ?_⟩
      rw [getLsbD_clear, Bool.and_eq_true] at hirr
      exact hirr.2
    · change (_ &&& ~~~bit 32 i).getLsbD j = (_ &&& ~~~bit 32 i).getLsbD j
      rw [getLsbD_clear, getLsbD_clear, hf hl]
  · next hedge =>
    refine .of_followed ?_ (fun j hj hf hl => ?_) hturns
    · exact ⟨h.length, h.settled⟩
    by_cases hij : i = j
    · subst hij
      have hl' : (m.ioapic.config i).getLsbD 15 = true := hl
      rw [ne_eq, not_not] at hedge
      have hedge' : m.ioapic.config i &&& bit 32 15 = 0 := hedge
      rw [and_bit_eq_zero (by decide), hl'] at hedge'
      cases hedge'
    · exact (hf hl).trans (getLsbD_clear_ne hij).symm

/-- The first part of a remote EOI for one entry. -/
theorem Machine.IoInv.eoiEntry (h : m.IoInv) (hi : i < ioapicIrqCount)
    (hm' : m' = { m with ioapic := m.ioapic.setConfig i (m.ioapic.config i &&& ~~~configRemoteIrr) }) :
    (m'.checkIrq i).IoInv ∧ ∀ j < ioapicIrqCount, m.Followed j → (m'.checkIrq i).Followed j := by
  have hlen : i < m.ioapic.ioredtblConfig.length := h.length ▸ hi
  have hconfig := Ioapic.config_setConfig hlen (m.ioapic.config i &&& ~~~configRemoteIrr)
  subst hm'
  obtain ⟨h1, h2, h3⟩ := h.check hi (n := { m with
    ioapic := m.ioapic.setConfig i (m.ioapic.config i &&& ~~~configRemoteIrr) })
    ⟨by simp [Ioapic.setConfig], fun _ _ => rfl, fun j hj => by rw [hconfig, if_neg (Ne.symm hj)],
      fun _ _ => rfl, fun _ _ => rfl⟩
  refine ⟨h1, fun j hj hf => ?_⟩
  by_cases hij : j = i
  · subst hij
    refine h3.1 fun hl => hf ?_
    rw [hconfig, if_pos rfl, ← (sameEntry_clear _).level] at hl
    exact hl
  · exact h2 j hj hij hf

theorem Machine.IoInv.remoteEoi (h : m.IoInv) (vector : BitVec 8)
    (hturns : ∀ i, ¬turns i) : m.Stepped (m.remoteEoi vector) turns := by
  suffices hfold : ∀ (is : List Nat), (∀ i ∈ is, i < ioapicIrqCount) → ∀ m : Machine, m.IoInv →
      let m' := is.foldl (fun m i =>
        let config := m.ioapic.config i
        if lowByte config = vector ∧ config &&& configRemoteIrr ≠ 0 then
          Machine.checkIrq { m with ioapic := m.ioapic.setConfig i (config &&& ~~~configRemoteIrr) } i
        else m) m
      m'.IoInv ∧ ∀ j < ioapicIrqCount, m.Followed j → m'.Followed j by
    obtain ⟨h1, h2⟩ := hfold (List.range ioapicIrqCount) (fun i hi => List.mem_range.1 hi) m h
    exact .of_followed h1 h2 hturns
  intro is
  induction is with
  | nil => exact fun _ m h => ⟨h, fun _ _ hf => hf⟩
  | cons i is ih =>
    intro his m h
    rw [List.foldl_cons]
    dsimp only
    have hrest := ih fun j hj => his j (List.mem_cons_of_mem _ hj)
    split
    · obtain ⟨h1, h2⟩ := h.eoiEntry (his i List.mem_cons_self) rfl
      obtain ⟨h3, h4⟩ := hrest _ h1
      exact ⟨h3, fun j hj hf => h4 j hj (h2 j hj hf)⟩
    · exact hrest m h

theorem isLevel_rewrittenConfig (old value : BitVec 32) :
    isLevel (rewrittenConfig old value) = isLevel value := by
  have hmask : configReadonlyMask.getLsbD 15 = false := by decide
  rw [isLevel, isLevel, rewrittenConfig, getLsbD_or, getLsbD_and, getLsbD_and, getLsbD_not, hmask]
  simp

/-- The input that a register of the redirection table belongs to. -/
theorem register_input (h : 0x10 ≤ reg ∧ reg < 0x10 + 2 * 24) :
    ((reg - 0x10) >>> 1).toNat < ioapicIrqCount ∧
      ∀ i < ioapicIrqCount, reg = BitVec.ofNat 32 (0x10 + 2 * i) ↔
        reg &&& 1 = 0 ∧ ((reg - 0x10) >>> 1).toNat = i := by
  have hlo : 16 ≤ reg.toNat := h.1
  have hhi : reg.toNat < 64 := h.2
  have hsub : ((reg - 0x10) >>> 1).toNat = (reg.toNat - 16) / 2 := by
    rw [toNat_ushiftRight, toNat_sub_of_le h.1, Nat.shiftRight_one]
    rfl
  have hodd : reg &&& 1 = 0 ↔ reg.toNat % 2 = 0 := by
    rw [← toNat_inj, toNat_and, show (1 : BitVec 32).toNat = 1 from rfl, Nat.and_one_is_mod]
    rfl
  rw [hsub, hodd]
  unfold ioapicIrqCount
  refine ⟨by omega, fun i hi => ?_⟩
  rw [← toNat_inj, toNat_ofNat, Nat.mod_eq_of_lt (by omega)]
  omega

theorem Machine.IoInv.writeRedirection (h : m.IoInv) (value : BitVec 32)
    (hreg : 0x10 ≤ reg ∧ reg < 0x10 + 2 * 24) :
    m.Stepped (m.writeRedirection reg value) fun i => reg = BitVec.ofNat 32 (0x10 + 2 * i) ∧
      isLevel (m.ioapic.config i) = false ∧ isLevel value = true := by
  obtain ⟨hi, hinput⟩ := register_input hreg
  unfold Machine.writeRedirection
  dsimp only
  generalize ((reg - 0x10) >>> 1).toNat = i at hi hinput ⊢
  split
  · next hodd =>
    -- the write of a destination
    obtain ⟨h1, h2, h3⟩ := h.check (n := { m with ioapic := { m.ioapic with
      ioredtblDestination := m.ioapic.ioredtblDestination.set i (value &&& 0xFF000000) } }) hi
      ⟨rfl, fun _ _ => rfl, fun _ _ => rfl, fun _ _ => rfl, fun _ _ => rfl⟩
    refine ⟨h1, fun j hj hf => ⟨fun _ ht => absurd ((hinput j hj).1 ht.1).1 hodd, fun _ => ?_⟩⟩
    by_cases hij : j = i
    · subst hij
      exact h3.1 hf
    · exact h2 j hj hij hf
  · next heven =>
    rw [ne_eq, not_not] at heven
    have hlen : i < m.ioapic.ioredtblConfig.length := h.length ▸ hi
    have hconfig := Ioapic.config_setConfig hlen (rewrittenConfig (m.ioapic.config i) value)
    obtain ⟨h1, h2, h3⟩ := h.check hi (n := { m with
      ioapic := m.ioapic.setConfig i (rewrittenConfig (m.ioapic.config i) value) })
      ⟨by simp [Ioapic.setConfig], fun _ _ => rfl, fun j hj => by rw [hconfig, if_neg (Ne.symm hj)],
        fun _ _ => rfl, fun _ _ => rfl⟩
    refine ⟨h1, fun j hj hf => ?_⟩
    by_cases hij : j = i
    · subst hij
      rw [← h3]
      unfold Machine.Followed at hf ⊢
      rw [hconfig, if_pos rfl, isLevel_rewrittenConfig]
      constructor
      · exact fun hnew ht => hnew ht.2.2
      · intro hturn hl
        cases hold : isLevel (m.ioapic.config j) with
        | true => exact hf hold
        | false => exact hturn ⟨(hinput j hj).2 ⟨heven, rfl⟩, hold, hl⟩
    · exact ⟨fun _ ht => absurd ((hinput j hj).1 ht.1).2.symm hij, fun _ => h2 j hj hij hf⟩

theorem Machine.IoInv.write32 (h : m.IoInv) (addr value : BitVec 32) :
    m.Stepped (m.write32 addr value) (m.TurnsLevel (.write32 addr value)) := by
  unfold Machine.write32
  split
  · next haddr =>
    refine .of_followed ?_ ?_ ?_
    · exact ⟨h.length, h.settled⟩
    · exact fun _ _ hf => hf
    · rintro i ⟨_, ho, _⟩
      rw [haddr] at ho
      cases ho
  split
  swap
  · next haddr =>
    exact .of_followed h (fun _ _ hf => hf) fun i ⟨_, ho, _⟩ => haddr (Machine.IoOp.write32.inj ho).1
  next haddr =>
  dsimp only
  have hout : ∀ i, ¬(0x10 ≤ m.ioapic.ioregsel ∧ m.ioapic.ioregsel < 0x10 + 2 * 24) →
      i < ioapicIrqCount → ¬m.TurnsLevel (.write32 addr value) i := by
    rintro i hreg hi ⟨_, _, hsel, _⟩
    have hrange : ∀ i < ioapicIrqCount, (0x10 : BitVec 32) ≤ BitVec.ofNat 32 (0x10 + 2 * i) ∧
        BitVec.ofNat 32 (0x10 + 2 * i) < (0x10 + 2 * 24 : BitVec 32) := by decide
    exact hreg (hsel ▸ hrange i hi)
  have hturns : ∀ i, m.TurnsLevel (.write32 addr value) i ↔
      m.ioapic.ioregsel = BitVec.ofNat 32 (0x10 + 2 * i) ∧ isLevel (m.ioapic.config i) = false ∧
        isLevel value = true := by
    intro i
    constructor
    · rintro ⟨value', ho, hrest⟩
      obtain ⟨_, rfl⟩ := Machine.IoOp.write32.inj ho
      exact hrest
    · exact fun hrest => ⟨value, by rw [haddr], hrest⟩
  split
  · next hreg =>
    refine ⟨⟨h.length, h.settled⟩, fun i hi hf => ⟨fun _ ht => absurd ht (hout i ?_ hi), fun _ => hf⟩⟩
    rw [hreg]
    decide
  split
  · next hreg =>
    refine ⟨h, fun i hi hf => ⟨fun _ ht => absurd ht (hout i ?_ hi), fun _ => hf⟩⟩
    rcases hreg with hreg | hreg <;> rw [hreg] <;> decide
  split
  · next hreg =>
    obtain ⟨h1, h2⟩ := h.writeRedirection value hreg
    exact ⟨h1, fun i hi hf => (h2 i hi hf).trans (by rw [hturns])⟩
  · next hreg =>
    exact ⟨h, fun i hi hf => ⟨fun _ ht => absurd ht (hout i hreg hi), fun _ => hf⟩⟩

end

/-! ## Runs -/

/-- An input with an asserted line is not lost: the request of a level triggered entry follows the
line, and if such an entry is not masked and its interrupts have an end, it waits for the end of one
or no core accepted the last one. -/
def Machine.Kept (m : Machine) (i : Nat) : Prop :=
  isLevel (m.ioapic.config i) = true →
    m.ioapic.irr.getLsbD i = m.ioapic.irqValue.getLsbD i ∧
    (isMasked (m.ioapic.config i) = false → isOrdinary (m.ioapic.config i) = true →
      m.ioapic.irqValue.getLsbD i = true →
      hasRemoteIrr (m.ioapic.config i) = true ∨ m.lastAttempt i = some false)

variable {m : Machine} {i : Nat}

theorem Machine.Kept.followed (h : m.Kept i) : m.Followed i :=
  fun hl => (h hl).1

theorem Machine.kept_of (hf : m.Followed i) (hs : m.Settled i) : m.Kept i :=
  fun hl => ⟨hf hl, fun hmask hord hline => hs ((hf hl).trans hline) hmask hl hord⟩

/-- The condition of a step: a write that turns an edge triggered entry into a level triggered one
finds the request bit of the input equal to its line. -/
def Machine.InStep (m : Machine) (o : Machine.IoOp) : Prop :=
  ∀ i < ioapicIrqCount, m.TurnsLevel o i →
    m.ioapic.irr.getLsbD i = m.ioapic.irqValue.getLsbD i

theorem Machine.IoInv.step (h : m.IoInv) (o : Machine.IoOp) :
    m.Stepped (m.ioStep o) (m.TurnsLevel o) := by
  cases o with
  | setIrq i => exact h.setIrq i fun _ ⟨_, ho, _⟩ => by cases ho
  | clearIrq i => exact h.clearIrq i fun _ ⟨_, ho, _⟩ => by cases ho
  | write32 addr value => exact h.write32 addr value
  | remoteEoi vector => exact h.remoteEoi vector fun _ ⟨_, ho, _⟩ => by cases ho
  | lapics sender cores =>
    refine .of_followed ?_ ?_ ?_
    · exact ⟨h.length, h.settled⟩
    · exact fun _ _ hf => hf
    · rintro _ ⟨_, ho, _⟩
      cases ho

theorem Machine.ioInv_reset (h : m.ioapic = .reset) :
    m.IoInv ∧ ∀ i < ioapicIrqCount, m.Followed i := by
  refine ⟨⟨by rw [h]; rfl, fun i _ hirr => ?_⟩, fun i _ _ => by rw [h]; rfl⟩
  rw [h] at hirr
  simp [Ioapic.reset] at hirr

/-- From reset on, whatever the local APICs do, every level triggered input is kept in every state
that is reached exactly when every write that turns an entry from edge into level triggered finds
its request equal to its line. -/
theorem Machine.level_kept_iff {m : Machine} (hm : m.ioapic = .reset) (ops : List Machine.IoOp) :
    Runs.Each Machine.ioStep (fun m o => ∀ i < ioapicIrqCount, (m.ioStep o).Kept i) m ops ↔
      Runs.Each Machine.ioStep Machine.InStep m ops := by
  refine Runs.each_iff (A := fun _ => True)
    (I := fun m => m.IoInv ∧ ∀ i < ioapicIrqCount, m.Followed i) (fun m o _ ⟨hinv, hf⟩ hin => ?_)
    (fun m o _ ⟨hinv, hf⟩ hkept i hi => ?_) (fun _ _ => trivial) (Machine.ioInv_reset hm)
  · obtain ⟨h1, h2⟩ := hinv.step o
    have hf' : ∀ i < ioapicIrqCount, (m.ioStep o).Followed i :=
      fun i hi => (h2 i hi (hf i hi)).2 (hin i hi)
    exact ⟨⟨h1, hf'⟩, fun i hi => Machine.kept_of (hf' i hi) (h1.settled i hi)⟩
  · exact ((hinv.step o).followed i hi (hf i hi)).1 (hkept i hi).followed

/-- A machine after reset, without cores. -/
def Machine.afterReset : Machine := ⟨⟨0, false⟩, [], .reset, []⟩

/-- An entry that is level triggered before its line rises. -/
theorem Machine.level_kept_programmed : Runs.Each Machine.ioStep
    (fun m o => ∀ i < ioapicIrqCount, (m.ioStep o).Kept i) Machine.afterReset
    [.write32 0 0x16, .write32 0x10 0x8051, .setIrq 3] := by
  refine (Machine.level_kept_iff rfl _).2 ⟨?_, ?_, ?_, trivial⟩
  · rintro i _ ⟨_, ho, _⟩
    cases ho
  · intro i _ _
    rfl
  · rintro i _ ⟨_, ho, _⟩
    cases ho

/-- An entry that is edge triggered and masked while its line rises, and level triggered and not
masked from then on: the request is missing although the line is high. -/
theorem Machine.level_lost : ¬Runs.Each Machine.ioStep
    (fun m o => ∀ i < ioapicIrqCount, (m.ioStep o).Kept i) Machine.afterReset
    [.setIrq 3, .write32 0 0x16, .write32 0x10 0x8051] := by
  rintro ⟨_, _, h, _⟩
  have hirr := (h 3 (by decide) (by decide +kernel)).1
  revert hirr
  decide +kernel

end V86.Cpu
