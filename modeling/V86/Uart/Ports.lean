import V86.Lib.Bits
import V86.Lib.Runs
import Mathlib.Logic.Function.Basic

/-!
# The serial ports

`src/uart.js`: four UARTs, two on each of the interrupt lines 4 and 3. A handler changes the pending
interrupts of its UART and then raises or lowers the line from what this UART has pending
(`CheckInterrupt`).
-/

namespace V86.Uart

open Bits

abbrev Byte := BitVec 8

def dlab : Byte := 0x80

def ierMsi : Byte := 0x08
def ierThri : Byte := 0x02
def ierRdi : Byte := 0x01

def iirMsi : Nat := 0x00
def iirNoInt : Nat := 0x01
def iirThri : Nat := 0x02
def iirRdi : Nat := 0x04
def iirCti : Nat := 0x0c

def mcrLoopback : Byte := 0x10

def lsrDataReady : Byte := 0x1
def lsrTxEmpty : Byte := 0x20
def lsrTransmitterEmpty : Byte := 0x40

/-- The lines of the modem, `UART_MSR_CTS` to `UART_MSR_DCD`. -/
inductive ModemLine where
  | cts
  | dsr
  | ri
  | dcd
  deriving DecidableEq

/-- The bit of a line in the modem status. -/
def ModemLine.bit : ModemLine → Nat
  | .cts => 4
  | .dsr => 5
  | .ri => 6
  | .dcd => 7

/-- `UART`, with the bytes it has sent, those it has received, and those of them that reads of the
data port have returned. -/
@[ext] structure UART where
  ints : BitVec 16
  baudRate : BitVec 16
  lineControl : Byte
  lsr : Byte
  fifoControl : Byte
  ier : Byte
  iir : Nat
  modemControl : Byte
  modemStatus : Byte
  scratchRegister : Byte
  irq : Nat
  input : List Byte
  output : List Byte
  received : List Byte
  returned : List Byte
  deriving DecidableEq

/-- `new UART` on an interrupt line. -/
def UART.init (irq : Nat) : UART where
  ints := bit 16 iirThri
  baudRate := 0
  lineControl := 0
  lsr := lsrTransmitterEmpty ||| lsrTxEmpty
  fifoControl := 0
  ier := 0
  iir := iirNoInt
  modemControl := 0
  modemStatus := 0
  scratchRegister := 0
  irq := irq
  input := []
  output := []
  received := []
  returned := []

/-- Whether an interrupt is pending, and enabled by the bits `mask` of `ier`. -/
def interrupts (ints : BitVec 16) (ier : Byte) (line : Nat) (mask : Byte) : Bool :=
  ints.getLsbD line && ier &&& mask ≠ 0

/-- A UART and the level of the interrupt line that it drives. -/
structure Port where
  uart : UART
  line : Bool

namespace Port

/-- `CheckInterrupt`. -/
def checkInterrupt (p : Port) : Port :=
  let u := p.uart
  if interrupts u.ints u.ier iirCti ierRdi then ⟨{ u with iir := iirCti }, true⟩
  else if interrupts u.ints u.ier iirRdi ierRdi then ⟨{ u with iir := iirRdi }, true⟩
  else if interrupts u.ints u.ier iirThri ierThri then ⟨{ u with iir := iirThri }, true⟩
  else if interrupts u.ints u.ier iirMsi ierMsi then ⟨{ u with iir := iirMsi }, true⟩
  else ⟨{ u with iir := iirNoInt }, false⟩

/-- `ThrowInterrupt`. -/
def throwInterrupt (line : Nat) (p : Port) : Port :=
  { p with uart.ints := p.uart.ints ||| bit 16 line }.checkInterrupt

/-- `ClearInterrupt`. -/
def clearInterrupt (line : Nat) (p : Port) : Port :=
  { p with uart.ints := p.uart.ints &&& ~~~bit 16 line }.checkInterrupt

/-- `data_received`. -/
def dataReceived (data : Byte) (p : Port) : Port :=
  let p := { p with
    uart.input := p.uart.input ++ [data]
    uart.received := p.uart.received ++ [data]
    uart.lsr := p.uart.lsr ||| lsrDataReady }
  if p.uart.fifoControl &&& 1 ≠ 0 then p.throwInterrupt iirCti else p.throwInterrupt iirRdi

/-- `write_data`. -/
def writeData (outByte : Byte) (p : Port) : Port :=
  if p.uart.lineControl &&& dlab ≠ 0 then
    { p with uart.baudRate := p.uart.baudRate &&& ~~~0xFF ||| outByte.setWidth 16 }
  else
    let p := p.throwInterrupt iirThri
    if p.uart.modemControl &&& mcrLoopback ≠ 0 then p.dataReceived outByte
    else { p with uart.output := p.uart.output ++ [outByte] }

/-- `set_modem_status_bit`. -/
def setModemStatusBit (l : ModemLine) (setBit : Bool) (p : Port) : Port :=
  let newModemStatus :=
    if setBit then p.uart.modemStatus ||| bit 8 l.bit
    else p.uart.modemStatus &&& ~~~bit 8 l.bit
  let newDeltaBits := (p.uart.modemStatus ^^^ newModemStatus) >>> 4
  let p := { p with uart.modemStatus := newModemStatus ||| newDeltaBits }
  if p.uart.modemStatus &&& 0x0F ≠ 0 then p.throwInterrupt iirMsi else p

/-- The write handler of `port | 1`. -/
def writeIer (outByte : Byte) (p : Port) : Port :=
  if p.uart.lineControl &&& dlab ≠ 0 then
    { p with uart.baudRate := p.uart.baudRate &&& 0xFF ||| outByte.setWidth 16 <<< 8 }
  else
    let p :=
      if p.uart.ier &&& ierThri = 0 ∧ outByte &&& ierThri ≠ 0 then p.throwInterrupt iirThri else p
    { p with uart.ier := outByte &&& 0xF }.checkInterrupt

/-- The read handler of `port`. -/
def readData (p : Port) : Byte × Port :=
  if p.uart.lineControl &&& dlab ≠ 0 then (p.uart.baudRate.setWidth 8, p)
  else
    let data := p.uart.input.headD 0
    let p := { p with
      uart.input := p.uart.input.tail
      uart.returned := p.uart.returned ++ p.uart.input.head?.toList }
    if p.uart.input = [] then
      (data, ({ p with uart.lsr := p.uart.lsr &&& ~~~lsrDataReady }.clearInterrupt
        iirCti).clearInterrupt iirRdi)
    else (data, p)

/-- The read handler of `port | 2`. -/
def readIir (p : Port) : Byte × Port :=
  let ret := BitVec.ofNat 8 p.uart.iir &&& 0xF
  let p' := if p.uart.iir = iirThri then p.clearInterrupt iirThri else p
  (if p.uart.fifoControl &&& 1 ≠ 0 then ret ||| 0xC0 else ret, p')

/-- The read handler of `port | 6`. -/
def readMsr (p : Port) : Byte × Port :=
  (p.uart.modemStatus,
    { p with uart.modemStatus := p.uart.modemStatus &&& 0xF0 }.clearInterrupt iirMsi)

/-- The read handlers of the eight ports. -/
def read (p : Port) : Fin 8 → Byte × Port
  | 0 => p.readData
  | 1 =>
    if p.uart.lineControl &&& dlab ≠ 0 then ((p.uart.baudRate >>> 8).setWidth 8, p)
    else (p.uart.ier &&& 0xF, p)
  | 2 => p.readIir
  | 3 => (p.uart.lineControl, p)
  | 4 => (p.uart.modemControl, p)
  | 5 => (p.uart.lsr, p)
  | 6 => p.readMsr
  | 7 => (p.uart.scratchRegister, p)

/-- The write handlers of the eight ports. -/
def write (p : Port) (outByte : Byte) : Fin 8 → Port
  | 0 => p.writeData outByte
  | 1 => p.writeIer outByte
  | 2 => { p with uart.fifoControl := outByte }
  | 3 => { p with uart.lineControl := outByte }
  | 4 => { p with uart.modemControl := outByte }
  | 5 | 6 => p
  | 7 => { p with uart.scratchRegister := outByte }

end Port

/-- What happens to a UART. -/
inductive Access where
  | received (data : Byte)
  | modem (l : ModemLine) (setBit : Bool)
  | read (port : Fin 8)
  | write (port : Fin 8) (outByte : Byte)
  /-- A 16-bit write to the data port. -/
  | writeWord (outWord : BitVec 16)
  deriving DecidableEq

/-- A UART and its line after an access. -/
def Port.access (p : Port) : Access → Port
  | .received data => p.dataReceived data
  | .modem l setBit => p.setModemStatusBit l setBit
  | .read port => (p.read port).2
  | .write port outByte => p.write outByte port
  | .writeWord outWord =>
    (p.writeData (outWord.setWidth 8)).writeData ((outWord >>> 8).setWidth 8)

/-! ## The machine -/

/-- The interrupt line of a port, by its number `com`. -/
def irqOf (com : Fin 4) : Nat := if com.val % 2 = 0 then 4 else 3

/-- The UARTs and the interrupt lines. One that the machine does not have is one that nothing
happens to. -/
structure Machine where
  uarts : Fin 4 → UART
  lines : Nat → Bool

/-- The machine at its start. -/
def Machine.init : Machine where
  uarts com := .init (irqOf com)
  lines _ := false

/-- `get_state` and `set_state`: a UART with the state saved of another one. Its queue stays, as do
the bytes sent and received. -/
def UART.setState (u saved : UART) : UART :=
  { saved with input := u.input, output := u.output, received := u.received, returned := u.returned }

/-- What happens to the machine: something to one of the UARTs, or a restore of the state saved of
a machine, with the interrupt lines. -/
inductive Action where
  | access (com : Fin 4) (a : Access)
  | restore (saved : Machine)

/-- The machine after an action. -/
def step (s : Machine) : Action → Machine
  | .access com a =>
    let p := Port.access ⟨s.uarts com, s.lines (s.uarts com).irq⟩ a
    { uarts := Function.update s.uarts com p.uart
      lines := Function.update s.lines (s.uarts com).irq p.line }
  | .restore saved =>
    { uarts := fun com => (s.uarts com).setState (saved.uarts com)
      lines := saved.lines }

end V86.Uart
