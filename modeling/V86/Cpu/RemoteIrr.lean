import Mathlib.Data.List.Forall2
import V86.Cpu.IoapicCorrect

/-!
# The handshake of the IOAPIC and the local APICs

An entry with `REMOTE_IRR` set waits for the end of its interrupt, which a core reports when it ends
a vector in service whose trigger mode is level. So some core must hold the vector with that mode,
requested or in service (`Held`). A core accepts a request of a vector that it has already requested
without taking over the trigger mode of the new request; `Core.Clashes` says when that mode is lost.
-/

namespace V86.Cpu

open Bits BitVec

/-! ## Registers -/

namespace Register

variable {v : Register} {a b : BitVec 8}

theorem toNat_lt (b : BitVec 8) : b.toNat < 256 := b.isLt

theorem getBit_update (v : Register) (a b : BitVec 8) (set : Bool) :
    (v.update a set).getBit b = if a = b then set else v.getBit b := by
  unfold update getBit
  by_cases h : a = b
  · subst h
    rw [if_pos rfl]
    cases set with
    | true => exact getLsbD_set_self (toNat_lt a)
    | false => exact getLsbD_clear_self
  · have hne : a.toNat ≠ b.toNat := fun heq => h (eq_of_toNat_eq heq)
    rw [if_neg h]
    cases set with
    | true => exact getLsbD_set_ne hne
    | false => exact getLsbD_clear_ne hne

theorem getBit_setBit (v : Register) (a b : BitVec 8) :
    (v.setBit a).getBit b = if a = b then true else v.getBit b :=
  getBit_update v a b true

theorem getBit_clearBit (v : Register) (a b : BitVec 8) :
    (v.clearBit a).getBit b = if a = b then false else v.getBit b :=
  getBit_update v a b false

theorem getLsbD_word (v : Register) {i k : Nat} (hk : k < 64) :
    (v.word i).getLsbD k = v.getLsbD (64 * i + k) := by
  rw [word, getLsbD_extractLsb', decide_eq_true hk, Bool.true_and]

/-- The highest bit is the highest bit of the last word that is not zero. -/
theorem getHighestBit_eq_some (h : v.getHighestBit = some a) :
    ∃ i < 4, v.word i ≠ 0 ∧ a.toNat = 64 * i + (v.word i).toNat.log2 ∧
      ∀ j < 4, i < j → v.word j = 0 := by
  unfold getHighestBit at h
  obtain ⟨i, hfind, ha⟩ := Option.map_eq_some_iff.1 h
  have hi : i < 4 ∧ v.word i ≠ 0 ∧ ∀ j < 4, i < j → v.word j = 0 := by
    rw [List.find?_eq_some_iff_append] at hfind
    obtain ⟨hne, pre, post, hsplit, hpre⟩ := hfind
    have hmem : i ∈ [3, 2, 1, 0] := by simp [hsplit]
    refine ⟨by simp at hmem; omega, by simpa using hne, fun j hj hij => ?_⟩
    have hj' : j ∈ pre := by
      have hall : j ∈ pre ++ i :: post := by
        rw [← hsplit]
        simp
        omega
      have hdesc : (pre ++ i :: post).Pairwise (· > ·) := by
        rw [← hsplit]
        decide
      rcases List.mem_append.1 hall with h | h
      · exact h
      · rcases List.mem_cons.1 h with h | h
        · omega
        · have := (List.pairwise_cons.1 (List.pairwise_append.1 hdesc).2.1).1 j h
          omega
    simpa using hpre j hj'
  refine ⟨i, hi.1, hi.2.1, ?_, hi.2.2⟩
  have hlog : (v.word i).toNat.log2 < 64 := by
    rw [Nat.log2_lt (by simpa [← toNat_inj] using hi.2.1)]
    exact (v.word i).isLt
  rw [← ha, toNat_ofNat, Nat.or_comm, ← Nat.shiftLeft_add_eq_or_of_lt hlog, Nat.shiftLeft_eq]
  omega

theorem getBit_getHighestBit (h : v.getHighestBit = some a) : v.getBit a = true := by
  obtain ⟨i, _, hne, ha, _⟩ := getHighestBit_eq_some h
  have hpos : (v.word i).toNat ≠ 0 := by simpa [← toNat_inj] using hne
  have hlog : (v.word i).toNat.log2 < 64 := by
    rw [Nat.log2_lt hpos]
    exact (v.word i).isLt
  rw [getBit, ha, ← getLsbD_word v hlog, ← testBit_toNat]
  exact Nat.testBit_log2 hpos

theorem le_getHighestBit (h : v.getHighestBit = some a) (hb : v.getBit b = true) : b ≤ a := by
  obtain ⟨i, hi, hne, ha, hlast⟩ := getHighestBit_eq_some h
  have hb256 := toNat_lt b
  have hword : (v.word (b.toNat / 64)).getLsbD (b.toNat % 64) = true := by
    rw [getLsbD_word v (Nat.mod_lt _ (by decide)), Nat.div_add_mod]
    exact hb
  have hle : b.toNat / 64 ≤ i := by
    by_contra hlt
    rw [hlast _ (by omega) (by omega)] at hword
    simp at hword
  rw [le_def, ha]
  rcases Nat.lt_or_eq_of_le hle with hlt | heq
  · omega
  · rw [heq, ← testBit_toNat] at hword
    have hpow := Nat.ge_two_pow_of_testBit hword
    have := (Nat.le_log2 (by simpa [← toNat_inj] using hne)).2 hpow
    omega

theorem getHighestBit_isSome (hb : v.getBit b = true) : ∃ a, v.getHighestBit = some a := by
  unfold getHighestBit
  have hb256 := toNat_lt b
  have hne : v.word (b.toNat / 64) ≠ 0 := by
    intro h0
    have hword : (v.word (b.toNat / 64)).getLsbD (b.toNat % 64) = true := by
      rw [getLsbD_word v (Nat.mod_lt _ (by decide)), Nat.div_add_mod]
      exact hb
    rw [h0] at hword
    simp at hword
  have hsome : ([3, 2, 1, 0].find? fun i => decide (v.word i ≠ 0)).isSome = true := by
    rw [List.find?_isSome]
    exact ⟨b.toNat / 64, by simp; omega, by simpa using hne⟩
  obtain ⟨i, hi⟩ := Option.isSome_iff_exists.1 hsome
  exact ⟨_, by rw [hi]; rfl⟩

end Register

/-! ## One core -/

/-- A core holds a vector with trigger mode level, requested or in service. -/
def Core.Held (c : Core) (v : BitVec 8) : Prop :=
  c.apic.irr.getBit v = true ∧ c.aux.pendingTmr.getBit v = true ∨
    c.apic.isr.getBit v = true ∧ c.apic.tmr.getBit v = true

instance (c : Core) (v : BitVec 8) : Decidable (c.Held v) := inferInstanceAs (Decidable (_ ∨ _))

/-- A core has requested a vector with trigger mode edge. -/
def Core.Clashes (c : Core) (v : BitVec 8) : Prop :=
  c.apic.irr.getBit v = true ∧ c.aux.pendingTmr.getBit v = false

/-- The cores are selected and ranked alike. -/
structure Core.SameRouting (c c' : Core) : Prop where
  apicId : c'.apic.apicId = c.apic.apicId
  tpr : c'.apic.tpr = c.apic.tpr
  isr : c'.apic.isr = c.apic.isr
  spuriousVector : c'.apic.spuriousVector = c.apic.spuriousVector
  destinationFormat : c'.apic.destinationFormat = c.apic.destinationFormat
  localDestination : c'.apic.localDestination = c.apic.localDestination
  hardwareEnabled : c'.aux.hardwareEnabled = c.aux.hardwareEnabled

section
variable {c c' c'' : Core} {v vector : BitVec 8} {level remote : Bool}

theorem Core.SameRouting.fixedEnabled (h : c.SameRouting c') : c'.fixedEnabled = c.fixedEnabled := by
  rw [Core.fixedEnabled, Core.fixedEnabled, h.hardwareEnabled, h.spuriousVector]

theorem Core.SameRouting.selected (h : c.SameRouting c') (d : BitVec 8) (logical : Bool) :
    c'.selected d logical = c.selected d logical := by
  unfold Core.selected
  rw [h.apicId, h.localDestination, h.destinationFormat]

theorem Core.SameRouting.rank (h : c.SameRouting c') : c'.rank = c.rank := by
  unfold Core.rank Apic.processorPriority
  rw [h.tpr, h.isr, h.apicId]

/-- What a message does to a core: it may only add to what the core holds. -/
structure Core.Grows (c c' : Core) : Prop where
  routing : c.SameRouting c'
  held : ∀ v, c.Held v → c'.Held v

theorem Core.Grows.refl (c : Core) : c.Grows c := ⟨⟨rfl, rfl, rfl, rfl, rfl, rfl, rfl⟩, fun _ h => h⟩

theorem Core.Grows.trans (h : c.Grows c') (h' : c'.Grows c'') : c.Grows c'' := by
  refine ⟨?_, fun v hv => h'.held v (h.held v hv)⟩
  have h1 := h.routing
  have h2 := h'.routing
  exact ⟨h2.apicId.trans h1.apicId, h2.tpr.trans h1.tpr, h2.isr.trans h1.isr,
    h2.spuriousVector.trans h1.spuriousVector, h2.destinationFormat.trans h1.destinationFormat,
    h2.localDestination.trans h1.localDestination, h2.hardwareEnabled.trans h1.hardwareEnabled⟩

theorem Core.request_irr (c : Core) (vector : BitVec 8) (level remote : Bool) :
    (c.request vector level remote).apic.irr = c.apic.irr.update vector true ∧
    (c.request vector level remote).aux.pendingTmr = c.aux.pendingTmr.update vector level ∧
    (c.request vector level remote).apic.tmr =
      if !remote && !c.apic.isr.getBit vector then c.apic.tmr.update vector level
      else c.apic.tmr := by
  unfold Core.request
  dsimp only
  split <;> exact ⟨rfl, rfl, rfl⟩

theorem Core.request_routing (c : Core) (vector : BitVec 8) (level remote : Bool) :
    c.SameRouting (c.request vector level remote) := by
  unfold Core.request
  dsimp only
  split <;> exact ⟨rfl, rfl, rfl, rfl, rfl, rfl, rfl⟩

/-- A new request of a vector leaves what the core holds. -/
theorem Core.request_grows (hirr : c.apic.irr.getBit vector = false) :
    c.Grows (c.request vector level remote) := by
  refine ⟨c.request_routing vector level remote, fun v hv => ?_⟩
  obtain ⟨h1, h2, h3⟩ := c.request_irr vector level remote
  unfold Core.Held
  rw [h1, h2, (c.request_routing vector level remote).isr, Register.getBit_update,
    Register.getBit_update]
  rcases hv with ⟨hr, hp⟩ | ⟨hs, ht⟩
  · have hne : vector ≠ v := by
      rintro rfl
      rw [hirr] at hr
      cases hr
    exact .inl ⟨by rw [if_neg hne, hr], by rw [if_neg hne, hp]⟩
  · refine .inr ⟨hs, ?_⟩
    rw [h3]
    split
    · next hcond =>
      rw [Register.getBit_update]
      split
      · next heq =>
        subst heq
        simp [hs] at hcond
      · exact ht
    · exact ht

theorem Core.deliver_grows (c : Core) (vector : BitVec 8) (level remote : Bool) :
    c.Grows (c.deliver vector level remote).2 := by
  unfold Core.deliver
  split
  · exact .refl c
  split
  · exact ⟨⟨rfl, rfl, rfl, rfl, rfl, rfl, rfl⟩, fun _ h => h⟩
  split
  · exact .refl c
  · next hirr => exact Core.request_grows (Bool.eq_false_iff.2 hirr)

theorem Core.deliver_accepted (c : Core) (vector : BitVec 8) (level remote : Bool) :
    (c.deliver vector level remote).1 = (c.fixedEnabled && !decide (vector < 0x10)) := by
  unfold Core.deliver
  cases c.fixedEnabled with
  | false => rfl
  | true =>
    by_cases hv : vector < 0x10
    · simp only [hv, Bool.not_true, Bool.false_eq_true, if_false, if_true, decide_true,
        Bool.and_false]
    · simp only [hv, Bool.not_true, Bool.false_eq_true, if_false, decide_false, Bool.not_false,
        Bool.and_true]
      split <;> rfl

/-- A level triggered request is held, unless the core has requested the vector with trigger mode
edge. -/
theorem Core.deliver_held (hen : c.fixedEnabled = true) (hv : ¬v < 0x10) (hc : ¬c.Clashes v) :
    (c.deliver v true remote).2.Held v := by
  unfold Core.deliver
  simp only [hen, Bool.not_true, Bool.false_eq_true, if_false, hv]
  split
  · next hirr =>
    refine .inl ⟨hirr, ?_⟩
    cases hp : c.aux.pendingTmr.getBit v with
    | true => rfl
    | false => exact absurd ⟨hirr, hp⟩ hc
  · obtain ⟨h1, h2, _⟩ := c.request_irr v true remote
    exact .inl ⟨by rw [h1, Register.getBit_update, if_pos rfl],
      by rw [h2, Register.getBit_update, if_pos rfl]⟩

theorem Core.deliver_clashes (hc : ¬c.Clashes v) : ¬(c.deliver v true remote).2.Clashes v := by
  unfold Core.deliver
  split
  · exact hc
  split
  · exact hc
  split
  · exact hc
  · rintro ⟨_, hp⟩
    rw [(c.request_irr v true remote).2.1, Register.getBit_update, if_pos rfl] at hp
    cases hp

theorem Core.counted_grows {isIpi : Bool} {r : Bool × Core} (h : c.Grows r.2) :
    c.Grows (Core.counted isIpi r).2 := by
  unfold Core.counted
  dsimp only
  split
  · exact h.trans ⟨⟨rfl, rfl, rfl, rfl, rfl, rfl, rfl⟩, fun _ h => h⟩
  · exact h

theorem Core.accept_grows (c : Core) (n : Nat) (vector : BitVec 8) (mode : DeliveryMode)
    (level remote : Bool) : c.Grows (c.accept n vector mode level remote).2 := by
  have hsame : ∀ {c' : Core}, c'.apic = c.apic → c'.aux.pendingTmr = c.aux.pendingTmr →
      c'.aux.hardwareEnabled = c.aux.hardwareEnabled → c.Grows c' := by
    intro c' h1 h2 h3
    refine ⟨⟨by rw [h1], by rw [h1], by rw [h1], by rw [h1], by rw [h1], by rw [h1], h3⟩, fun v hv => ?_⟩
    unfold Core.Held
    rw [h1, h2]
    exact hv
  cases mode with
  | init => exact hsame rfl rfl rfl
  | startup =>
    unfold Core.accept Core.sipiLatch
    dsimp only
    split
    · split <;> exact hsame rfl rfl rfl
    · exact .refl c
  | nmi => exact hsame rfl rfl rfl
  | smi => exact hsame rfl rfl rfl
  | extint =>
    unfold Core.accept
    dsimp only
    split <;> exact hsame rfl rfl rfl
  | fixed => exact c.deliver_grows vector level remote
  | lowestPriority => exact .refl c
  | reserved => exact .refl c

/-- The selected request is not in service. -/
theorem Core.pendingIrq_spec (h : c.pendingIrq = some v) :
    c.apic.irr.getBit v = true ∧ c.apic.isr.getBit v = false := by
  unfold Core.pendingIrq at h
  split at h
  · cases h
  split at h
  · cases h
  next highest hh =>
  split at h
  · cases h
  next hprio =>
  cases h
  refine ⟨Register.getBit_getHighestBit hh, ?_⟩
  cases hs : c.apic.isr.getBit v with
  | false => rfl
  | true =>
    exfalso
    obtain ⟨x, hx⟩ := Register.getHighestBit_isSome hs
    have hle := Register.le_getHighestBit hx hs
    have hclass : ∀ y : BitVec 8, (y &&& 0xF0).toNat = y.toNat / 16 * 16 := by decide +kernel
    apply hprio
    have hservice : v &&& 0xF0 ≤ x &&& 0xF0 := by
      rw [le_def, hclass, hclass]
      have := BitVec.le_def.1 hle
      omega
    unfold Apic.processorPriority
    simp only [hx, Option.getD_some]
    split
    · next h => exact BitVec.le_trans hservice h
    · have hidem : ∀ y : BitVec 8, y &&& 0xF0 &&& 0xF0 = y &&& 0xF0 := by decide +kernel
      rw [hidem]
      exact hservice

/-- An acknowledge keeps what the core holds: the trigger mode moves along. -/
theorem Core.acknowledge_held (hv : c.Held v) : c.acknowledgeIrq.2.Held v := by
  unfold Core.acknowledgeIrq
  cases hp : c.pendingIrq with
  | none => exact hv
  | some x =>
    obtain ⟨_, hisr⟩ := Core.pendingIrq_spec hp
    unfold Core.Held
    simp only [Register.getBit_update, Register.getBit_setBit]
    by_cases hxv : x = v
    · subst hxv
      rcases hv with ⟨_, hpend⟩ | ⟨hs, _⟩
      · exact .inr ⟨by simp, by simpa using hpend⟩
      · rw [hisr] at hs
        cases hs
    · simp only [if_neg hxv]
      exact hv

end

/-! ## All cores -/

/-- Some core holds the vector with trigger mode level. -/
def Held (cores : List Core) (v : BitVec 8) : Prop := ∃ c ∈ cores, c.Held v

instance (cores : List Core) (v : BitVec 8) : Decidable (Held cores v) :=
  inferInstanceAs (Decidable (∃ c ∈ cores, c.Held v))

/-- Core `n` has requested the vector with trigger mode edge. -/
def ClashesAt (cores : List Core) (v : BitVec 8) (n : Nat) : Prop :=
  ∃ c, cores[n]? = some c ∧ c.Clashes v

/-- The cores that accept a message of a vector to the given targets. -/
def recipients (cores : List Core) (targets : List Nat) (vector : BitVec 8) (mode : DeliveryMode) :
    List Nat :=
  if vector < 0x10 then []
  else
    match mode with
    | .lowestPriority => (arbitrate cores targets).toList
    | .fixed => targets.filter (enabledAt cores)
    | _ => []

section
variable {R : Core → Core → Prop} {cores cores' : List Core} {s : Sender} {v vector : BitVec 8}
  {mode : DeliveryMode} {level isIpi : Bool} {targets : List Nat}

theorem forall₂_trans (h : ∀ a b c, R a b → R b c → R a c) : ∀ {cores cores' cores'' : List Core},
    List.Forall₂ R cores cores' → List.Forall₂ R cores' cores'' → List.Forall₂ R cores cores''
  | _, _, _, .nil, .nil => .nil
  | _, _, _, .cons h1 t1, .cons h2 t2 => .cons (h _ _ _ h1 h2) (forall₂_trans h t1 t2)

theorem updateCore_forall₂ (hrefl : ∀ c, R c c) {f : Core → Bool × Core} (hf : ∀ c, R c (f c).2)
    (cores : List Core) (n : Nat) : List.Forall₂ R cores (updateCore cores n f).2 := by
  unfold updateCore
  split
  · exact List.forall₂_same.2 fun c _ => hrefl c
  · next c hc =>
    rw [List.forall₂_iff_get]
    refine ⟨by simp, fun k h1 h2 => ?_⟩
    simp only [List.get_eq_getElem, List.getElem_set]
    split
    · next hk =>
      subst hk
      obtain ⟨_, hget⟩ := List.getElem?_eq_some_iff.1 hc
      rw [hget]
      exact hf c
    · exact hrefl _

theorem deliverEach_forall₂ (hrefl : ∀ c, R c c) (htrans : ∀ a b c, R a b → R b c → R a c)
    (hf : ∀ c n, R c (Core.counted isIpi (c.accept n vector mode level (s.remote n))).2) :
    ∀ {targets : List Nat} {cores : List Core},
      List.Forall₂ R cores (deliverEach s vector mode level isIpi targets cores).2
  | [], cores => List.forall₂_same.2 fun c _ => hrefl c
  | n :: targets, cores => by
    unfold deliverEach
    split
    · exact deliverEach_forall₂ hrefl htrans hf
    have h1 := updateCore_forall₂ (R := R) hrefl (fun c => hf c n) cores n
    dsimp only
    split
    · exact h1
    · exact forall₂_trans htrans h1 (deliverEach_forall₂ hrefl htrans hf)

theorem Held.grows (hv : Held cores v) (h : List.Forall₂ Core.Grows cores cores') :
    Held cores' v := by
  obtain ⟨c, hc, hheld⟩ := hv
  obtain ⟨n, hn, rfl⟩ := List.mem_iff_getElem.1 hc
  have hn' : n < cores'.length := h.length_eq ▸ hn
  exact ⟨cores'[n], List.getElem_mem hn', (h.get hn hn').held v hheld⟩

theorem deliverToCores_grows (s : Sender) (cores : List Core) (targets : List Nat)
    (vector : BitVec 8) (mode : DeliveryMode) (level isIpi : Bool) : List.Forall₂ Core.Grows cores
      (deliverToCores s cores targets vector mode level isIpi).2 := by
  unfold deliverToCores
  split
  · split
    · exact List.forall₂_same.2 fun c _ => .refl c
    · exact updateCore_forall₂ Core.Grows.refl (fun c =>
        Core.counted_grows (c.deliver_grows vector level _)) cores _
  · exact deliverEach_forall₂ Core.Grows.refl (fun _ _ _ => Core.Grows.trans) fun c n =>
      Core.counted_grows (c.accept_grows n vector mode level _)

/-- What a level triggered message of a vector does to a core. -/
structure Core.GrowsLevel (v : BitVec 8) (c c' : Core) : Prop where
  grows : c.Grows c'
  clashes : ¬c.Clashes v → ¬c'.Clashes v

theorem Core.GrowsLevel.refl (v : BitVec 8) (c : Core) : c.GrowsLevel v c := ⟨.refl c, fun h => h⟩

variable {c : Core} {n : Nat}

theorem Core.GrowsLevel.trans {a b : Core} (h : a.GrowsLevel v b) (h' : b.GrowsLevel v c) :
    a.GrowsLevel v c :=
  ⟨h.grows.trans h'.grows, fun hc => h'.clashes (h.clashes hc)⟩

theorem Core.deliver_growsLevel (c : Core) (v : BitVec 8) (remote : Bool) :
    c.GrowsLevel v (c.deliver v true remote).2 :=
  ⟨c.deliver_grows v true remote, Core.deliver_clashes⟩

theorem enabledAt_of_grows (h : List.Forall₂ Core.Grows cores cores') (n : Nat) :
    enabledAt cores' n = enabledAt cores n := by
  unfold enabledAt
  by_cases hn : n < cores.length
  · have hn' : n < cores'.length := h.length_eq ▸ hn
    rw [List.getElem?_eq_getElem hn, List.getElem?_eq_getElem hn']
    exact (h.get hn hn').routing.fixedEnabled
  · rw [List.getElem?_eq_none (Nat.le_of_not_lt hn),
      List.getElem?_eq_none (h.length_eq ▸ Nat.le_of_not_lt hn)]

theorem enabledAt_iff : enabledAt cores n = true ↔
    ∃ c, cores[n]? = some c ∧ c.fixedEnabled = true := by
  unfold enabledAt
  cases cores[n]? <;> simp

/-- The outcome of a level triggered message to one core. -/
theorem updateCore_deliver (hc : cores[n]? = some c) (hen : c.fixedEnabled = true) (hv : ¬v < 0x10)
    (remote : Bool) :
    (updateCore cores n fun c => Core.counted false (c.deliver v true remote)).1 = true ∧
    (¬c.Clashes v → Held (updateCore cores n fun c =>
      Core.counted false (c.deliver v true remote)).2 v) := by
  simp only [updateCore, hc, Core.counted, Bool.and_false, Bool.false_eq_true, if_false]
  refine ⟨by rw [Core.deliver_accepted, hen, decide_eq_false hv]; rfl, fun hcl => ?_⟩
  have hn := (List.getElem?_eq_some_iff.1 hc).1
  refine ⟨(c.deliver v true remote).2, ?_, Core.deliver_held hen hv hcl⟩
  exact List.mem_iff_getElem?.2 ⟨n, List.getElem?_set_self hn⟩

theorem clashesAt_of_growsLevel (h : List.Forall₂ (Core.GrowsLevel v) cores cores')
    (hn : ¬ClashesAt cores v n) : ¬ClashesAt cores' v n := by
  rintro ⟨c', hc', hcl⟩
  obtain ⟨hlt', rfl⟩ := List.getElem?_eq_some_iff.1 hc'
  have hlt : n < cores.length := h.length_eq ▸ hlt'
  exact (h.get hlt hlt').clashes (fun hcl => hn ⟨_, List.getElem?_eq_getElem hlt, hcl⟩) hcl

/-- The loop over the targets of a level triggered message of mode fixed. -/
theorem deliverEach_fixed (hv : ¬v < 0x10) : ∀ (targets : List Nat) (cores : List Core),
    ((deliverEach s v .fixed true false targets cores).1 = true ↔
      ∃ n ∈ targets, enabledAt cores n = true) ∧
    ((∃ n ∈ targets, enabledAt cores n = true ∧ ¬ClashesAt cores v n) →
      Held (deliverEach s v .fixed true false targets cores).2 v)
  | [], cores => by simp [deliverEach]
  | n :: targets, cores => by
    unfold deliverEach
    split
    · next hoff =>
      -- a core that is disabled is not a recipient
      have hdis : enabledAt cores n = false := by
        unfold enabledAt
        cases hc : cores[n]? with
        | none => rfl
        | some c =>
          simp only [hc, Option.any_some, Bool.not_eq_true'] at hoff
          simp [Core.fixedEnabled, hoff]
      obtain ⟨h1, h2⟩ := deliverEach_fixed hv targets cores
      refine ⟨h1.trans (by simp [hdis]), fun ⟨k, hk, hen, hcl⟩ => h2 ⟨k, ?_, hen, hcl⟩⟩
      rcases List.mem_cons.1 hk with rfl | hk
      · rw [hdis] at hen
        cases hen
      · exact hk
    · simp only [Core.accept, reduceCtorEq, decide_false, Bool.and_false, Bool.false_eq_true, if_false]
      generalize hu : (updateCore cores n fun c =>
        Core.counted false (c.deliver v true (s.remote n))) = u
      have hgrows : List.Forall₂ (Core.GrowsLevel v) cores u.2 := by
        rw [← hu]
        refine updateCore_forall₂ (Core.GrowsLevel.refl v) (fun c => ?_) cores n
        simpa [Core.counted] using c.deliver_growsLevel v (s.remote n)
      have hen := enabledAt_of_grows (hgrows.imp fun _ _ h => h.grows)
      have hacc : u.1 = enabledAt cores n := by
        rw [← hu]
        unfold updateCore enabledAt
        cases cores[n]? with
        | none => rfl
        | some c => simp only [Core.counted, Core.deliver_accepted, decide_eq_false hv,
            Bool.not_false, Bool.and_true, Option.any_some]
      obtain ⟨h1, h2⟩ := deliverEach_fixed hv targets u.2
      simp only [hen] at h1 h2
      constructor
      · rw [Bool.or_eq_true, h1, hacc]
        simp
      · rintro ⟨k, hk, hkn, hcl⟩
        rcases List.mem_cons.1 hk with rfl | hk
        · obtain ⟨c, hc, hfix⟩ := enabledAt_iff.1 hkn
          have hheld := (updateCore_deliver hc hfix hv (s.remote k)).2 fun h =>
            hcl ⟨c, hc, h⟩
          rw [hu] at hheld
          refine hheld.grows (deliverEach_forall₂ Core.Grows.refl (fun _ _ _ => Core.Grows.trans)
            fun c n => ?_)
          exact Core.counted_grows (c.deliver_grows v true _)
        · exact h2 ⟨k, hk, hkn, clashesAt_of_growsLevel hgrows hcl⟩

theorem leastRank_mem (h : leastRank cores targets = some n) : n ∈ targets := by
  -- the best one so far is always a target
  have hbest : ∀ b, leastRank cores targets = some b → b ∈ targets := by
    unfold leastRank
    refine List.foldlRecOn (motive := fun best => ∀ b, best = some b → b ∈ targets) targets _ ?_ ?_
    · intro b hb
      cases hb
    · intro best hbest k hk b hb
      cases best with
      | none =>
        cases hb
        exact hk
      | some a =>
        have hcase : some a = some b ∨ some k = some b := by
          revert hb
          split <;> (try split) <;> (try split) <;> intro hb <;> simp_all
        rcases hcase with h | h
        · exact hbest b h
        · cases h
          exact hk
  exact hbest n h

theorem arbitrate_enabled (h : arbitrate cores targets = some n) : enabledAt cores n = true :=
  (List.mem_filter.1 (leastRank_mem h)).2

/-- A level triggered message whose interrupts have an end is accepted when it has a recipient, and
held when one of them does not clash. -/
theorem deliverToCores_level (hmode : mode = .fixed ∨ mode = .lowestPriority) :
    ((deliverToCores s cores targets v mode true false).1 = true ↔
      recipients cores targets v mode ≠ []) ∧
    ((∃ n ∈ recipients cores targets v mode, ¬ClashesAt cores v n) →
      Held (deliverToCores s cores targets v mode true false).2 v) := by
  unfold recipients
  by_cases hv : v < 0x10
  · -- an illegal vector is not accepted
    rw [if_pos hv]
    refine ⟨?_, by simp⟩
    have hno : ∀ (c : Core) (remote : Bool), (Core.counted false (c.deliver v true remote)).1 = false := by
      intro c remote
      rw [Core.counted, Core.deliver_accepted, decide_eq_true hv, Bool.not_true, Bool.and_false]
    have hupdate : ∀ (cores : List Core) (n : Nat), (updateCore cores n fun c =>
        Core.counted false (c.deliver v true (s.remote n))).1 = false := by
      intro cores n
      unfold updateCore
      split
      · rfl
      · exact hno _ _
    have heach : ∀ (targets : List Nat) (cores : List Core),
        (deliverEach s v .fixed true false targets cores).1 = false := by
      intro targets
      induction targets with
      | nil => exact fun _ => rfl
      | cons n targets ih =>
        intro cores
        unfold deliverEach
        split
        · exact ih cores
        · simp only [Core.accept, reduceCtorEq, decide_false, Bool.and_false, Bool.false_eq_true,
            if_false, ih, Bool.or_false]
          exact hupdate cores n
    have hfalse : (deliverToCores s cores targets v mode true false).1 = false := by
      rcases hmode with rfl | rfl
      · exact heach targets cores
      · unfold deliverToCores
        rw [if_pos rfl]
        split
        · rfl
        · exact hupdate cores _
    simp [hfalse]
  · rw [if_neg hv]
    rcases hmode with rfl | rfl
    · obtain ⟨h1, h2⟩ := deliverEach_fixed (s := s) hv targets cores
      refine ⟨h1.trans ?_, fun ⟨n, hn, hcl⟩ => h2 ⟨n, (List.mem_filter.1 hn).1,
        (List.mem_filter.1 hn).2, hcl⟩⟩
      simp [List.filter_eq_nil_iff]
    · unfold deliverToCores
      rw [if_pos rfl]
      cases ha : arbitrate cores targets with
      | none => simp
      | some n =>
        obtain ⟨c, hc, hfix⟩ := enabledAt_iff.1 (arbitrate_enabled ha)
        obtain ⟨h1, h2⟩ := updateCore_deliver hc hfix hv (s.remote n)
        refine ⟨iff_of_true h1 (by simp), ?_⟩
        rintro ⟨k, hk, hcl⟩
        obtain rfl : k = n := by simpa using hk
        exact h2 fun h => hcl ⟨c, hc, h⟩

theorem leastRank_of_grows (h : List.Forall₂ Core.Grows cores cores') (targets : List Nat) :
    leastRank cores' targets = leastRank cores targets := by
  have hrank : ∀ n : Nat, cores'[n]?.map Core.rank = cores[n]?.map Core.rank := by
    intro n
    by_cases hn : n < cores.length
    · have hn' : n < cores'.length := h.length_eq ▸ hn
      rw [List.getElem?_eq_getElem hn, List.getElem?_eq_getElem hn', Option.map_some,
        Option.map_some]
      exact congrArg some (h.get hn hn').routing.rank
    · rw [List.getElem?_eq_none (Nat.le_of_not_lt hn),
        List.getElem?_eq_none (h.length_eq ▸ Nat.le_of_not_lt hn)]
  unfold leastRank
  congr 1
  funext best n
  cases best with
  | none => rfl
  | some b =>
    have h1 := hrank n
    have h2 := hrank b
    cases hn : cores[n]? with
    | none =>
      rw [hn] at h1
      rw [Option.map_eq_none_iff.1 h1]
    | some c =>
      rw [hn] at h1
      obtain ⟨c', hc', hr⟩ := Option.map_eq_some_iff.1 h1
      rw [hc']
      cases hb : cores[b]? with
      | none =>
        rw [hb] at h2
        simp only [Option.map_eq_none_iff.1 h2, hb]
      | some d =>
        rw [hb] at h2
        obtain ⟨d', hd', hr'⟩ := Option.map_eq_some_iff.1 h2
        simp only [hd', hb, hr, hr']

theorem destinationCores_of_grows (h : List.Forall₂ Core.Grows cores cores') (d : BitVec 8)
    (logical : Bool) : destinationCores cores' d logical = destinationCores cores d logical := by
  unfold destinationCores
  rw [← h.length_eq]
  refine List.filter_congr fun n hn => ?_
  have hn := List.mem_range.1 hn
  have hn' : n < cores'.length := h.length_eq ▸ hn
  rw [List.getElem?_eq_getElem hn, List.getElem?_eq_getElem hn']
  exact (h.get hn hn').routing.selected d logical

theorem recipients_of_grows (h : List.Forall₂ Core.Grows cores cores') (targets : List Nat)
    (v : BitVec 8) (mode : DeliveryMode) :
    recipients cores' targets v mode = recipients cores targets v mode := by
  have hen : enabledAt cores' = enabledAt cores := funext (enabledAt_of_grows h)
  unfold recipients arbitrate
  simp only [hen, leastRank_of_grows h]

end

/-! ## Routing an entry -/

/-- The cores that accept the interrupt of an entry. -/
def Machine.recipientsOf (m : Machine) (i : Nat) : List Nat :=
  recipients m.cores (destinationCores m.cores (highByte (m.ioapic.destination i))
    ((m.ioapic.config i).getLsbD 11)) (lowByte (m.ioapic.config i)) (.ofWord (m.ioapic.config i))

section
variable {m : Machine} {i : Nat}

theorem ordinary_mode (h : isOrdinary (m.ioapic.config i) = true) :
    DeliveryMode.ofWord (m.ioapic.config i) = .fixed ∨
      DeliveryMode.ofWord (m.ioapic.config i) = .lowestPriority := by
  simpa [isOrdinary] using h

/-- The outcome of routing an entry that waits for the end of its interrupts. -/
theorem Machine.routed_level (hl : isLevel (m.ioapic.config i) = true)
    (ho : isOrdinary (m.ioapic.config i) = true) : ((m.routed i).1 = true ↔ m.recipientsOf i ≠ []) ∧
    ((∃ n ∈ m.recipientsOf i, ¬ClashesAt m.cores (lowByte (m.ioapic.config i)) n) →
      Held (m.routed i).2 (lowByte (m.ioapic.config i))) := by
  unfold Machine.routed route
  rw [hl]
  exact deliverToCores_level (ordinary_mode ho)

theorem Machine.routed_grows (m : Machine) (i : Nat) :
    List.Forall₂ Core.Grows m.cores (m.routed i).2 :=
  deliverToCores_grows ..

theorem Machine.routed_growsLevel (hl : isLevel (m.ioapic.config i) = true)
    (ho : isOrdinary (m.ioapic.config i) = true) :
    List.Forall₂ (Core.GrowsLevel (lowByte (m.ioapic.config i))) m.cores (m.routed i).2 := by
  unfold Machine.routed route deliverToCores
  rw [hl]
  have hstep : ∀ (c : Core) (remote : Bool), c.GrowsLevel (lowByte (m.ioapic.config i))
      (Core.counted false (c.deliver (lowByte (m.ioapic.config i)) true remote)).2 := by
    intro c remote
    simpa [Core.counted] using c.deliver_growsLevel (lowByte (m.ioapic.config i)) remote
  rcases ordinary_mode ho with hmode | hmode
  · rw [hmode, if_neg (by decide)]
    exact deliverEach_forall₂ (Core.GrowsLevel.refl _) (fun _ _ _ => Core.GrowsLevel.trans)
      fun c n => hstep c _
  · rw [hmode, if_pos rfl]
    split
    · exact List.forall₂_same.2 fun c _ => .refl _ c
    · exact updateCore_forall₂ (Core.GrowsLevel.refl _) (fun c => hstep c _) _ _

end

end V86.Cpu
