import V86.Lib.Bits

/-!
# Local APICs

`cpu/apic.rs`: the delivery of interrupts to the local APICs of the cores, their acknowledge and
their end. The registers of 256 bits (`irr`, `isr`, `tmr`, `pending_tmr`), eight words in the
source, are single words here. Timers, the local vector table and the registers that only software
reads are left out.
-/

namespace V86.Cpu

open Bits

/-- A register of 256 bits, one for each vector. -/
abbrev Register := BitVec 256

/-- `register_get_bit`. -/
def Register.getBit (v : Register) (b : BitVec 8) : Bool := v.getLsbD b.toNat

/-- `register_set_bit`. -/
def Register.setBit (v : Register) (b : BitVec 8) : Register := v ||| bit 256 b.toNat

/-- `register_clear_bit`. -/
def Register.clearBit (v : Register) (b : BitVec 8) : Register := v &&& ~~~bit 256 b.toNat

/-- `register_update`. -/
def Register.update (v : Register) (b : BitVec 8) (set : Bool) : Register :=
  if set then v.setBit b else v.clearBit b

/-- A word of 64 bits of a register. -/
def Register.word (v : Register) (i : Nat) : BitVec 64 := v.extractLsb' (64 * i) 64

/-- `register_get_highest_bit`. -/
def Register.getHighestBit (v : Register) : Option (BitVec 8) :=
  ([3, 2, 1, 0].find? fun i => v.word i ≠ 0).map fun i =>
    BitVec.ofNat 8 ((v.word i).toNat.log2 ||| i <<< 6)

/-- `Apic`, without timers, the local vector table and the registers that only software reads. -/
structure Apic where
  apicId : BitVec 32
  tpr : BitVec 32
  icr0 : BitVec 32
  icr1 : BitVec 32
  irr : Register
  isr : Register
  tmr : Register
  spuriousVector : BitVec 32
  destinationFormat : BitVec 32
  localDestination : BitVec 32
  error : BitVec 32
  deriving DecidableEq

/-- `ApicAux`. -/
structure ApicAux where
  hardwareEnabled : Bool
  extintPending : Bool
  pendingTmr : Register
  ipiSent : BitVec 32
  ipiReceived : BitVec 32
  deriving DecidableEq

/-- A core: its local APIC and the latches of `CORE_EVENTS`, `NMI_PENDING` and `SMI_PENDING`. -/
structure Core where
  apic : Apic
  aux : ApicAux
  coreEvents : BitVec 32
  nmiPending : Bool
  smiPending : Bool
  deriving DecidableEq

/-- `APIC_SOFTWARE_ENABLE`. -/
def apicSoftwareEnable : BitVec 32 := bit 32 8

/-- `ESR_SEND_ILLEGAL_VECTOR`. -/
def esrSendIllegalVector : BitVec 32 := bit 32 5

/-- `ESR_RECEIVE_ILLEGAL_VECTOR`. -/
def esrReceiveIllegalVector : BitVec 32 := bit 32 6

/-- `CORE_EVENT_INIT`. -/
def coreEventInit : BitVec 32 := 1

/-- `CORE_EVENT_SIPI`. -/
def coreEventSipi : BitVec 32 := 2

/-- The delivery modes of interrupt messages. -/
inductive DeliveryMode
  | fixed | lowestPriority | smi | reserved | nmi | init | startup | extint
  deriving DecidableEq

/-- The delivery mode in bits 8 to 10 of a word. -/
def DeliveryMode.ofWord (w : BitVec 32) : DeliveryMode :=
  match ((w >>> 8) &&& 7).toNat with
  | 0 => .fixed
  | 1 => .lowestPriority
  | 2 => .smi
  | 3 => .reserved
  | 4 => .nmi
  | 5 => .init
  | 6 => .startup
  | _ => .extint

/-- The low byte of a word. -/
def lowByte (w : BitVec 32) : BitVec 8 := w.setWidth 8

/-- The high byte of a word. -/
def highByte (w : BitVec 32) : BitVec 8 := (w >>> 24).setWidth 8

/-- `processor_priority`. -/
def Apic.processorPriority (a : Apic) : BitVec 8 :=
  let task := lowByte a.tpr
  let service := a.isr.getHighestBit.getD 0 &&& 0xF0
  if service ≤ task &&& 0xF0 then task else service

/-- `fixed_enabled`. -/
def Core.fixedEnabled (c : Core) : Bool :=
  c.aux.hardwareEnabled && c.apic.spuriousVector &&& apicSoftwareEnable ≠ 0

/-- A request of a vector is entered. The trigger mode of a vector in service stays, and so does
that of a core that runs elsewhere. -/
def Core.request (c : Core) (vector : BitVec 8) (isLevel remote : Bool) : Core :=
  let c := { c with
    aux := { c.aux with pendingTmr := c.aux.pendingTmr.update vector isLevel }
    apic := { c.apic with irr := c.apic.irr.update vector true } }
  if !remote && !c.apic.isr.getBit vector then
    { c with apic := { c.apic with tmr := c.apic.tmr.update vector isLevel } }
  else c

/-- `deliver`: accept a fixed interrupt. -/
def Core.deliver (c : Core) (vector : BitVec 8) (isLevel remote : Bool) : Bool × Core :=
  if !c.fixedEnabled then (false, c)
  else if vector < 0x10 then
    (false, { c with apic := { c.apic with error := c.apic.error ||| esrReceiveIllegalVector } })
  else if c.apic.irr.getBit vector then (true, c)
  else (true, c.request vector isLevel remote)

/-- `sipi_latch`. -/
def Core.sipiLatch (c : Core) (vector : BitVec 8) : Bool × Core :=
  if c.coreEvents &&& coreEventSipi ≠ 0 then (false, c)
  else
    let value := c.coreEvents ||| coreEventSipi ||| (vector.setWidth 32 <<< 8)
    (true, { c with coreEvents := value })

/-- `count_ipi`. -/
def Core.countIpi (c : Core) : Core :=
  { c with aux := { c.aux with ipiReceived := c.aux.ipiReceived + 1 } }

/-- What a message of a mode does to core `n`, without arbitration. -/
def Core.accept (c : Core) (n : Nat) (vector : BitVec 8) (mode : DeliveryMode)
    (isLevel remote : Bool) : Bool × Core :=
  match mode with
  | .init => (true, { c with
      coreEvents := coreEventInit
      nmiPending := false
      smiPending := false
      aux := { c.aux with extintPending := false } })
  | .startup => if n ≠ 0 then c.sipiLatch vector else (false, c)
  | .nmi => (true, { c with nmiPending := true })
  | .smi => (true, { c with smiPending := true })
  | .extint =>
    if c.fixedEnabled then (true, { c with aux := { c.aux with extintPending := true } })
    else (false, c)
  | .fixed => c.deliver vector isLevel remote
  | _ => (false, c)

/-- Count an interrupt that another core sent. -/
def Core.counted (isIpi : Bool) (r : Bool × Core) : Bool × Core :=
  (r.1, if r.1 && isIpi then r.2.countIpi else r.2)

/-- The key of the arbitration: the class of the priority of a core, then its id. -/
def Core.rank (c : Core) : Nat × Nat :=
  ((c.apic.processorPriority &&& 0xF0).toNat, (c.apic.apicId >>> 24).toNat)

/-- The first of the cores with the least rank (`min_by_key`). -/
def leastRank (cores : List Core) (targets : List Nat) : Option Nat :=
  targets.foldl (fun best n =>
    match best, cores[n]? with
    | none, _ => some n
    | some b, some c =>
      match cores[b]? with
      | some d => if c.rank.1 < d.rank.1 ∨ c.rank.1 = d.rank.1 ∧ c.rank.2 < d.rank.2 then some n
        else some b
      | none => some b
    | some b, none => some b) none

/-- Is the core a target of fixed interrupts? -/
def enabledAt (cores : List Core) (n : Nat) : Bool := cores[n]?.any (·.fixedEnabled)

/-- The recipient of an interrupt of lowest priority: a disabled core takes no part. -/
def arbitrate (cores : List Core) (targets : List Nat) : Option Nat :=
  leastRank cores (targets.filter (enabledAt cores))

/-- Who is sending: the core that runs, and whether the others run in workers. -/
structure Sender where
  current : Nat
  parallel : Bool

/-- `remote`. -/
def Sender.remote (s : Sender) (n : Nat) : Bool := s.parallel && n ≠ s.current

/-- The change of one core by a message. -/
def updateCore (cores : List Core) (n : Nat) (f : Core → Bool × Core) : Bool × List Core :=
  match cores[n]? with
  | none => (false, cores)
  | some c => ((f c).1, cores.set n (f c).2)

/-- The loop of `deliver_to_cores`. -/
def deliverEach (s : Sender) (vector : BitVec 8) (mode : DeliveryMode) (isLevel isIpi : Bool) :
    List Nat → List Core → Bool × List Core
  | [], cores => (false, cores)
  | n :: targets, cores =>
    if !cores[n]?.any (·.aux.hardwareEnabled) then
      deliverEach s vector mode isLevel isIpi targets cores
    else
      let (accepted, cores) := updateCore cores n fun c =>
        Core.counted isIpi (c.accept n vector mode isLevel (s.remote n))
      -- one acknowledge cycle of the shared interrupt controller
      if accepted && mode = .extint then (true, cores)
      else
        let (more, cores) := deliverEach s vector mode isLevel isIpi targets cores
        (accepted || more, cores)

/-- `deliver_to_cores`. -/
def deliverToCores (s : Sender) (cores : List Core) (targets : List Nat) (vector : BitVec 8)
    (mode : DeliveryMode) (isLevel isIpi : Bool) : Bool × List Core :=
  if mode = .lowestPriority then
    match arbitrate cores targets with
    | none => (false, cores)
    | some n => updateCore cores n fun c =>
        Core.counted isIpi (c.deliver vector isLevel (s.remote n))
  else deliverEach s vector mode isLevel isIpi targets cores

/-- Is a core selected by a destination? -/
def Core.selected (c : Core) (destination : BitVec 8) (logical : Bool) : Bool :=
  if destination = 0xFF && !logical then true
  else if !logical then highByte c.apic.apicId = destination
  else
    let ldr := highByte c.apic.localDestination
    let model := c.apic.destinationFormat >>> 28
    if model = 0xF then ldr &&& destination ≠ 0
    else if model = 0 then
      (destination >>> 4 = 0xF || ldr >>> 4 = destination >>> 4) && ldr &&& destination &&& 0xF ≠ 0
    else false

/-- `destination_cores`. -/
def destinationCores (cores : List Core) (destination : BitVec 8) (logical : Bool) : List Nat :=
  (List.range cores.length).filter fun n => cores[n]?.any (·.selected destination logical)

/-- `route`. -/
def route (s : Sender) (cores : List Core) (vector : BitVec 8) (mode : DeliveryMode)
    (isLevel : Bool) (destination : BitVec 8) (logical : Bool) : Bool × List Core :=
  deliverToCores s cores (destinationCores cores destination logical) vector mode isLevel false

/-- `pending_irq`. -/
def Core.pendingIrq (c : Core) : Option (BitVec 8) :=
  if !c.fixedEnabled then none
  else
    match c.apic.irr.getHighestBit with
    | none => none
    | some highest =>
      if highest &&& 0xF0 ≤ c.apic.processorPriority &&& 0xF0 then none else some highest

/-- `acknowledge_irq_internal`. -/
def Core.acknowledgeIrq (c : Core) : Option (BitVec 8) × Core :=
  match c.pendingIrq with
  | none => (none, c)
  | some highest =>
    (some highest, { c with
      apic := { c.apic with
        irr := c.apic.irr.update highest false
        isr := c.apic.isr.setBit highest
        tmr := c.apic.tmr.update highest (c.aux.pendingTmr.getBit highest) }
      aux := { c.aux with pendingTmr := c.aux.pendingTmr.update highest false } })

/-- The write of register 0xB0, the end of an interrupt: the vector to report, if any. -/
def Core.writeEoi (c : Core) : Option (BitVec 8) × Core :=
  match c.apic.isr.getHighestBit with
  | none => (none, c)
  | some highest =>
    (if c.apic.tmr.getBit highest then some highest else none,
      { c with apic := { c.apic with isr := c.apic.isr.clearBit highest } })

/-- An interrupt to send: the command and its destination. -/
structure Ipi where
  value : BitVec 32
  destination : BitVec 8

/-- The write of register 0x300, the low word of the interrupt command. -/
def Core.writeIcr0 (c : Core) (value : BitVec 32) : Option Ipi × Core :=
  let vector := lowByte value
  let mode := DeliveryMode.ofWord value
  let isLevel := value &&& bit 32 15 = bit 32 15
  let isAssert := value &&& bit 32 14 ≠ 0
  let c := { c with apic := { c.apic with icr0 := value &&& ~~~bit 32 12 } }
  if mode = .reserved ∨ mode = .extint then (none, c)
  else if (mode = .fixed ∨ mode = .lowestPriority) ∧ vector < 0x10 then
    (none, { c with apic := { c.apic with error := c.apic.error ||| esrSendIllegalVector } })
  else if mode = .init ∧ isLevel ∧ ¬isAssert then (none, c)
  else (some ⟨value, highByte c.apic.icr1⟩, c)

/-- The write of register 0x310, the high word of the interrupt command. -/
def Core.writeIcr1 (c : Core) (value : BitVec 32) : Core :=
  { c with apic := { c.apic with icr1 := value } }

/-- The targets of an interrupt that core `source` sends. -/
def ipiTargets (cores : List Core) (source : Nat) (ipi : Ipi) : List Nat :=
  match ((ipi.value >>> 18) &&& 3).toNat with
  | 0 => destinationCores cores ipi.destination (ipi.value.getLsbD 11)
  | 1 => [source]
  | 2 => List.range cores.length
  | _ => (List.range cores.length).filter (· ≠ source)

/-- The last part of `write32`: core `source` sends an interrupt. Interrupts between cores are edge
triggered. -/
def sendIpi (s : Sender) (cores : List Core) (source : Nat) (ipi : Ipi) : List Core :=
  let cores := cores.modify source fun c =>
    { c with aux := { c.aux with ipiSent := c.aux.ipiSent + 1 } }
  (deliverToCores s cores (ipiTargets cores source ipi) (lowByte ipi.value)
    (.ofWord ipi.value) false true).2

end V86.Cpu
