import V86.Lib.Bits
import V86.Lib.Runs

/-!
# The cascaded interrupt controllers

`cpu/pic.rs`: two 8259 chips, the output of the second one wired to input 2 of the first one. A chip
holds its requests in `irr` and what is in service in `isr`; `irqValue` holds the levels of its
inputs, which are edge triggered unless `elcr` says otherwise. `irqMask` has a bit for every input
that is enabled.
-/

namespace V86.Cpu

open Bits

/-- `Pic0`, one chip, without the fields that only log messages and old state images read. -/
structure Pic0 where
  irqMask : BitVec 8
  irqMap : BitVec 8
  isr : BitVec 8
  irr : BitVec 8
  expectIcw4 : Bool
  state : Nat
  readIsr : Bool
  autoEoi : Bool
  elcr : BitVec 8
  irqValue : BitVec 8
  specialMaskMode : Bool
  deriving DecidableEq

/-- `Pic`. -/
structure Pic where
  master : Pic0
  slave : Pic0
  deriving DecidableEq

/-- The state of a chip in `PIC` and after `reset`. -/
def Pic0.reset : Pic0 :=
  ⟨0, 0, 0, 0, false, 0, false, false, 0, 0, false⟩

/-- The `index` of the port handlers. -/
inductive Pic.Chip
  | master | slave
  deriving DecidableEq

/-- The lowest bit of a word, `x & (!x + 1)`. -/
def lowest (x : BitVec 8) : BitVec 8 := x &&& (~~~x + 1)

/-- `Pic0::get_irq`: the input to deliver next. -/
def Pic0.getIrq (d : Pic0) : Option Nat :=
  let enabledIrr := d.irr &&& d.irqMask
  if enabledIrr = 0 then none
  else
    let irqMask := lowest enabledIrr
    let specialMask := if d.specialMaskMode then d.irqMask else 0xFF
    -- wait for the end of an interrupt of higher or same priority
    if d.isr ≠ 0 ∧ lowest d.isr &&& specialMask ≤ irqMask then none
    else some irqMask.toNat.log2

/-- The test of `set_irq` on a chip. -/
def Pic0.raises (d : Pic0) (mask : BitVec 8) : Bool :=
  d.irqValue &&& mask = 0 || d.elcr &&& mask ≠ 0

/-- The change of `set_irq` to a chip. -/
def Pic0.raise (d : Pic0) (mask : BitVec 8) : Pic0 :=
  if d.raises mask then { d with irr := d.irr ||| mask, irqValue := d.irqValue ||| mask } else d

/-- The change of `clear_irq` to a chip. -/
def Pic0.lower (d : Pic0) (mask : BitVec 8) : Pic0 :=
  let d := { d with irqValue := d.irqValue &&& ~~~mask }
  if d.elcr &&& mask ≠ 0 then { d with irr := d.irr &&& ~~~mask } else d

/-- `Pic::check_irqs_slave`: pass the output of the slave to input 2 of the master. -/
def Pic.checkIrqsSlave (p : Pic) : Pic :=
  if p.slave.getIrq.isSome then { p with master := p.master.raise (bit 8 2) }
  else { p with master := p.master.lower (bit 8 2) }

/-- `Pic::set_irq`. -/
def Pic.setIrq (p : Pic) (i : Nat) : Pic :=
  let mask := bit 8 (i % 8)
  if i < 8 then { p with master := p.master.raise mask }
  else if p.slave.raises mask then Pic.checkIrqsSlave { p with slave := p.slave.raise mask }
  else p

/-- `Pic::clear_irq`. -/
def Pic.clearIrq (p : Pic) (i : Nat) : Pic :=
  let mask := bit 8 (i % 8)
  if i < 8 then { p with master := p.master.lower mask }
  else
    let p := { p with slave := p.slave.lower mask }
    if p.slave.elcr &&& mask ≠ 0 then p.checkIrqsSlave else p

/-- `dev` of the port handlers. -/
def Pic.dev (p : Pic) : Pic.Chip → Pic0
  | .master => p.master
  | .slave => p.slave

/-- Change the `dev` of a port handler; the output of the slave may change with it. -/
def Pic.setDev (p : Pic) (check : Bool) (d : Pic0) : Pic.Chip → Pic
  | .master => { p with master := d }
  | .slave => if check then Pic.checkIrqsSlave { p with slave := d } else { p with slave := d }

/-- The chip after ICW1. -/
def Pic0.icw1 (d : Pic0) (v : BitVec 8) : Pic0 :=
  { d with
    isr := 0
    irr := 0
    irqMask := 0xff
    irqValue := 0
    autoEoi := true
    expectIcw4 := v &&& 1 ≠ 0
    state := 1 }

/-- The chip after OCW3. -/
def Pic0.ocw3 (d : Pic0) (v : BitVec 8) : Pic0 :=
  let d := if v &&& 2 ≠ 0 then { d with readIsr := v &&& 1 ≠ 0 } else d
  if v &&& 0x40 ≠ 0 then { d with specialMaskMode := v &&& 0x20 = 0x20 } else d

/-- The chip after OCW2, an end of interrupt. -/
def Pic0.ocw2 (d : Pic0) (v : BitVec 8) : Pic0 :=
  let eoiType := v >>> 5
  if eoiType = 1 then { d with isr := d.isr &&& (d.isr - 1) }
  else if eoiType = 3 then { d with isr := d.isr &&& ~~~bit 8 (v &&& 7).toNat }
  else if eoiType = 6 then d
  else { d with isr := d.isr &&& (d.isr - 1) }

/-- `Pic::port0_write`. -/
def Pic.port0Write (p : Pic) (c : Pic.Chip) (v : BitVec 8) : Pic :=
  if v &&& 0x10 ≠ 0 then p.setDev false ((p.dev c).icw1 v) c
  else if v &&& 8 ≠ 0 then p.setDev false ((p.dev c).ocw3 v) c
  else p.setDev true ((p.dev c).ocw2 v) c

/-- `Pic::port1_write`. -/
def Pic.port1Write (p : Pic) (c : Pic.Chip) (v : BitVec 8) : Pic :=
  let d := p.dev c
  if d.state = 0 then
    if d.expectIcw4 then
      p.setDev false { d with expectIcw4 := false, autoEoi := v &&& 2 ≠ 0 } c
    else p.setDev true { d with irqMask := ~~~v } c
  else if d.state = 1 then p.setDev false { d with irqMap := v, state := d.state + 1 } c
  else if d.state = 2 then p.setDev false { d with state := 0 } c
  else p

/-- Take an input into service. -/
def Pic0.accept (d : Pic0) (irq : Nat) : Pic0 :=
  let mask := bit 8 irq
  let d := if d.elcr &&& mask = 0 then { d with irr := d.irr &&& ~~~mask } else d
  if d.autoEoi then d else { d with isr := d.isr ||| mask }

/-- The vector of an input. -/
def Pic0.vector (d : Pic0) (irq : Nat) : BitVec 8 := d.irqMap ||| BitVec.ofNat 8 irq

/-- `acknowledge_irq_slave`. -/
def Pic.acknowledgeIrqSlave (p : Pic) : Option (BitVec 8) × Pic :=
  match p.slave.getIrq with
  | none => (none, p)
  | some irq =>
    if p.slave.irr = 0 then (none, p)
    else
      let p := Pic.clearIrq { p with slave := p.slave.accept irq } 2
      (some (p.slave.vector irq), p)

/-- `pic_acknowledge_irq`. -/
def Pic.acknowledgeIrq (p : Pic) : Option (BitVec 8) × Pic :=
  match p.master.getIrq with
  | none => (none, p)
  | some irq =>
    if p.master.irr = 0 then (none, p)
    else
      let p := { p with master := p.master.accept irq }
      if irq = 2 then p.acknowledgeIrqSlave else (some (p.master.vector irq), p)

/-! ## Runs -/

/-- What happens to the controllers. -/
inductive Pic.Op
  | setIrq (i : Nat)
  | clearIrq (i : Nat)
  | port0Write (c : Pic.Chip) (v : BitVec 8)
  | port1Write (c : Pic.Chip) (v : BitVec 8)
  | acknowledge

/-- The devices drive all inputs but the one of the cascade, and the ports are written to end
interrupts and to mask inputs. -/
def Pic.Op.Allowed : Pic.Op → Prop
  | .setIrq i | .clearIrq i => i < 16 ∧ i ≠ 2
  | .port0Write _ v => v &&& 0x18 = 0
  | .port1Write .. | .acknowledge => True

def Pic.step (p : Pic) : Pic.Op → Pic
  | .setIrq i => p.setIrq i
  | .clearIrq i => p.clearIrq i
  | .port0Write c v => p.port0Write c v
  | .port1Write c v => p.port1Write c v
  | .acknowledge => p.acknowledgeIrq.2

/-- Initialise a chip: ICW1 at its first port, ICW2 to ICW4 at its second one. -/
def Pic.initialise (p : Pic) (c : Pic.Chip) (icw1 icw2 icw3 icw4 : BitVec 8) : Pic :=
  (((p.port0Write c icw1).port1Write c icw2).port1Write c icw3).port1Write c icw4

/-- A chip after ICW1 to ICW4. -/
structure Pic0.Initialised (d : Pic0) : Prop where
  isr : d.isr = 0
  irr : d.irr = 0
  irqMask : d.irqMask = 0xff
  irqValue : d.irqValue = 0
  expectIcw4 : d.expectIcw4 = false
  state : d.state = 0

end V86.Cpu
