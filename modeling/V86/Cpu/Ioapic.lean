import V86.Cpu.Apic

/-!
# The IOAPIC

`cpu/ioapic.rs`: 24 inputs, each with an entry of the redirection table that says whether and how
its requests are routed to the local APICs. `irqValue` holds the levels of the inputs and `irr` the
requests that are not routed yet; the request of a level triggered input stays while the input is
high, and `REMOTE_IRR` marks an entry whose last interrupt was accepted and has not ended.
-/

namespace V86.Cpu

open Bits

/-- `IOAPIC_IRQ_COUNT`. -/
def ioapicIrqCount : Nat := 24

/-- `IOAPIC_CONFIG_TRIGGER_MODE_LEVEL`. -/
def configLevel : BitVec 32 := bit 32 15

/-- `IOAPIC_CONFIG_MASKED`. -/
def configMasked : BitVec 32 := bit 32 16

/-- `IOAPIC_CONFIG_DELIVS`. -/
def configDelivs : BitVec 32 := bit 32 12

/-- `IOAPIC_CONFIG_REMOTE_IRR`. -/
def configRemoteIrr : BitVec 32 := bit 32 14

/-- `IOAPIC_CONFIG_READONLY_MASK`. -/
def configReadonlyMask : BitVec 32 := configRemoteIrr ||| configDelivs ||| 0xFFFE0000

/-- `Ioapic`. -/
structure Ioapic where
  ioredtblConfig : List (BitVec 32)
  ioredtblDestination : List (BitVec 32)
  ioregsel : BitVec 32
  ioapicId : BitVec 32
  irr : BitVec 32
  irqValue : BitVec 32
  deriving DecidableEq

/-- `IOAPIC_RESET`. -/
def Ioapic.reset : Ioapic where
  ioredtblConfig := List.replicate ioapicIrqCount configMasked
  ioredtblDestination := List.replicate ioapicIrqCount 0
  ioregsel := 0
  ioapicId := 0
  irr := 0
  irqValue := 0

/-- The entry of an input. -/
def Ioapic.config (io : Ioapic) (i : Nat) : BitVec 32 := io.ioredtblConfig.getD i 0

/-- The destination of an input. -/
def Ioapic.destination (io : Ioapic) (i : Nat) : BitVec 32 := io.ioredtblDestination.getD i 0

def Ioapic.setConfig (io : Ioapic) (i : Nat) (config : BitVec 32) : Ioapic :=
  { io with ioredtblConfig := io.ioredtblConfig.set i config }

/-- The IOAPIC and the cores that it routes to. `attempts` is a history variable: the inputs that
were routed, the latest first, and whether a core accepted the interrupt. -/
structure Machine where
  sender : Sender
  cores : List Core
  ioapic : Ioapic
  attempts : List (Nat × Bool)

/-- Does an accepted interrupt of this entry wait for its end (`tracks_eoi`)? -/
def tracksEoi (config : BitVec 32) : Bool :=
  config &&& configLevel = configLevel &&
    (DeliveryMode.ofWord config = .fixed || DeliveryMode.ofWord config = .lowestPriority)

/-- The delivery modes that the IOAPIC routes: encodings 3 and 6 are reserved. -/
def routes (config : BitVec 32) : Bool :=
  DeliveryMode.ofWord config ≠ .reserved && DeliveryMode.ofWord config ≠ .startup

/-- Route the request of an input: the last part of `check_irq`. -/
def Machine.routeIrq (m : Machine) (i : Nat) : Machine :=
  let config := m.ioapic.config i
  let isLevel : Bool := config &&& configLevel = configLevel
  let (accepted, cores) := route m.sender m.cores (lowByte config) (.ofWord config) isLevel
    (highByte (m.ioapic.destination i)) (config.getLsbD 11)
  let io := m.ioapic
  let io := if isLevel then io else { io with irr := io.irr &&& ~~~bit 32 i }
  let io := if accepted && tracksEoi config then io.setConfig i (io.config i ||| configRemoteIrr)
    else io
  { m with
    cores
    ioapic := io.setConfig i (io.config i &&& ~~~configDelivs)
    attempts := (i, accepted) :: m.attempts }

/-- `check_irq`. -/
def Machine.checkIrq (m : Machine) (i : Nat) : Machine :=
  let config := m.ioapic.config i
  if m.ioapic.irr &&& bit 32 i = 0 then m
  else if config &&& configMasked ≠ 0 then m
  else if tracksEoi config && config &&& configRemoteIrr ≠ 0 then m
  else if !routes config then m
  else m.routeIrq i

/-- `remote_eoi_internal`. -/
def Machine.remoteEoi (m : Machine) (vector : BitVec 8) : Machine :=
  (List.range ioapicIrqCount).foldl (fun m i =>
    let config := m.ioapic.config i
    if lowByte config = vector ∧ config &&& configRemoteIrr ≠ 0 then
      Machine.checkIrq { m with ioapic := m.ioapic.setConfig i (config &&& ~~~configRemoteIrr) } i
    else m) m

/-- `set_irq_internal`. -/
def Machine.setIrq (m : Machine) (i : Nat) : Machine :=
  if ioapicIrqCount ≤ i then m
  else if m.ioapic.irqValue &&& bit 32 i = 0 then
    let m := { m with ioapic := { m.ioapic with irqValue := m.ioapic.irqValue ||| bit 32 i } }
    -- edge triggered and masked
    if m.ioapic.config i &&& (configLevel ||| configMasked) = configMasked then m
    else Machine.checkIrq
      { m with ioapic := { m.ioapic with irr := m.ioapic.irr ||| bit 32 i } } i
  else m

/-- `clear_irq_internal`. -/
def Machine.clearIrq (m : Machine) (i : Nat) : Machine :=
  if ioapicIrqCount ≤ i then m
  else if m.ioapic.irqValue &&& bit 32 i = bit 32 i then
    let io := { m.ioapic with irqValue := m.ioapic.irqValue &&& ~~~bit 32 i }
    let io := if io.config i &&& configLevel ≠ 0 then { io with irr := io.irr &&& ~~~bit 32 i } else io
    { m with ioapic := io }
  else m

/-- The entry that a write of `value` gives. -/
def rewrittenConfig (old value : BitVec 32) : BitVec 32 :=
  value &&& ~~~configReadonlyMask ||| old &&& configReadonlyMask

/-- The write of a register of the redirection table. -/
def Machine.writeRedirection (m : Machine) (reg value : BitVec 32) : Machine :=
  let i := ((reg - 0x10) >>> 1).toNat
  if reg &&& 1 ≠ 0 then
    Machine.checkIrq { m with ioapic := { m.ioapic with
      ioredtblDestination := m.ioapic.ioredtblDestination.set i (value &&& 0xFF000000) } } i
  else
    Machine.checkIrq
      { m with ioapic := m.ioapic.setConfig i (rewrittenConfig (m.ioapic.config i) value) } i

/-- `write32_internal`. -/
def Machine.write32 (m : Machine) (addr value : BitVec 32) : Machine :=
  if addr = 0 then { m with ioapic := { m.ioapic with ioregsel := value &&& 0xFF } }
  else if addr = 0x10 then
    let reg := m.ioapic.ioregsel
    if reg = 0 then { m with ioapic := { m.ioapic with ioapicId := (value >>> 24) &&& 0x0F } }
    else if reg = 1 ∨ reg = 2 then m
    else if 0x10 ≤ reg ∧ reg < 0x10 + 2 * 24 then m.writeRedirection reg value
    else m
  else m

/-! ## The local APIC of the current core -/

/-- The change of the current core by a write of a register, if its local APIC is enabled. -/
def Machine.writeCore {α : Type} (m : Machine) (f : Core → Option α × Core) : Option α × Machine :=
  match m.cores[m.sender.current]? with
  | none => (none, m)
  | some c =>
    if !c.aux.hardwareEnabled then (none, m)
    else ((f c).1, { m with cores := m.cores.set m.sender.current (f c).2 })

/-- `write32` of register 0xB0: an end that is reported reaches the IOAPIC. -/
def Machine.writeEoi (m : Machine) : Machine :=
  match m.writeCore Core.writeEoi with
  | (none, m) => m
  | (some vector, m) => m.remoteEoi vector

/-- `write32` of register 0x300: an interrupt is sent to other cores. -/
def Machine.writeIcr0 (m : Machine) (value : BitVec 32) : Machine :=
  match m.writeCore (Core.writeIcr0 · value) with
  | (none, m) => m
  | (some ipi, m) => { m with cores := sendIpi m.sender m.cores m.sender.current ipi }

/-- `write32` of register 0x310. -/
def Machine.writeIcr1 (m : Machine) (value : BitVec 32) : Machine :=
  (m.writeCore (α := Unit) fun c => (none, c.writeIcr1 value)).2

/-- `acknowledge_irq`. -/
def Machine.acknowledgeIrq (m : Machine) : Machine :=
  match m.cores[m.sender.current]? with
  | none => m
  | some c => { m with cores := m.cores.set m.sender.current c.acknowledgeIrq.2 }

end V86.Cpu
