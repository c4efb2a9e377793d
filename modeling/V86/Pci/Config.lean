import V86.Lib.Bits
import V86.Lib.Sparse

/-!
# PCI configuration spaces

`pci.js`: the configuration space of a function and the writes to it. The header registers (below
`0x40`) keep what a guest may not change; the device specific part is plain storage. A board is what
`register_device` leaves: the functions by their `pci_id`, and the bridges that lead to the buses
behind bus 0.
-/

namespace V86.Pci

open Bits

/-- The number of `PCI_COMMAND_INTX_DISABLE` in the command register. -/
def commandIntxDisable : Nat := 10

/-- `PCI_COMMAND_WRITABLE`. -/
def commandWritable : BitVec 16 := 0x547

/-- The number of `PCI_STATUS_INTERRUPT` in dword 1, whose high half is the status register. -/
def statusInterrupt : Nat := 16 + 3

/-- `PCI_STATUS_RW1C`. -/
def statusRw1c : BitVec 16 := 0xF900

/-! ## Spaces -/

/-- An `Int32Array` of `byteLength / 4` dwords. -/
structure Space where
  dwords : Nat → BitVec 32
  byteLength : Nat

namespace Space

variable (space : Space)

def setDword (n : Nat) (value : BitVec 32) : Space :=
  { space with dwords := fun k => if k = n then value else space.dwords k }

/-- Byte `o` of the space, seen as a `Uint8Array`. -/
def byte (o : Nat) : BitVec 8 := (space.dwords (o / 4) >>> (8 * (o % 4))).setWidth 8

def setByte (o : Nat) (value : BitVec 8) : Space :=
  space.setDword (o / 4) (space.dwords (o / 4) &&& ~~~(0xFF#32 <<< (8 * (o % 4))) |||
    value.setWidth 32 <<< (8 * (o % 4)))

/-- The command register. -/
def command : BitVec 16 := (space.dwords 1).setWidth 16

/-- The guest set INTx Disable. -/
def disabled : Bool := space.command.getLsbD commandIntxDisable

/-- The interrupt status bit. -/
def interrupt : Bool := (space.dwords 1).getLsbD statusInterrupt

/-- `set(other)`, or of the part of `other` that fits. -/
def set (other : Space) : Space :=
  { space with dwords := fun n =>
      if 4 * n < min other.byteLength space.byteLength then other.dwords n else space.dwords n }

@[simp] theorem byteLength_set (other : Space) : (space.set other).byteLength = space.byteLength :=
  rfl

theorem dwords_setDword (n : Nat) (value : BitVec 32) (k : Nat) :
    (space.setDword n value).dwords k = if k = n then value else space.dwords k := rfl

theorem dwords_setDword_of_ne {n k : Nat} (value : BitVec 32) (h : k ≠ n) :
    (space.setDword n value).dwords k = space.dwords k := if_neg h

theorem dwords_setByte_of_ne {o n : Nat} (value : BitVec 8) (h : n ≠ o / 4) :
    (space.setByte o value).dwords n = space.dwords n := if_neg h

theorem getLsbD_byte (o : Nat) {j : Nat} (hj : j < 8) :
    (space.byte o).getLsbD j = (space.dwords (o / 4)).getLsbD (8 * (o % 4) + j) := by
  simp [byte, hj]

/-- Storing a byte changes its bits of its dword. -/
theorem getLsbD_setByte (o : Nat) (value : BitVec 8) (n : Nat) {j : Nat} (hj : j < 32) :
    ((space.setByte o value).dwords n).getLsbD j =
      if n = o / 4 ∧ j / 8 = o % 4 then value.getLsbD (j % 8) else (space.dwords n).getLsbD j := by
  unfold setByte
  rw [dwords_setDword]
  by_cases hn : n = o / 4
  · subst hn
    have hlow : (0xFF#32).getLsbD (j - 8 * (o % 4)) = decide (j - 8 * (o % 4) < 8) := by
      have : ∀ k < 32, (0xFF#32).getLsbD k = decide (k < 8) := by decide
      exact this _ (by omega)
    simp only [if_pos, true_and, BitVec.getLsbD_or, BitVec.getLsbD_and, BitVec.getLsbD_not,
      BitVec.getLsbD_shiftLeft, hj, decide_true, Bool.true_and, hlow, BitVec.getLsbD_setWidth]
    by_cases hbyte : j / 8 = o % 4
    · have hmod : j - 8 * (o % 4) = j % 8 := by omega
      have hge : ¬j < 8 * (o % 4) := by omega
      simp [hbyte, hmod, hge, Nat.mod_lt, show j % 8 < 32 by omega]
    · rw [if_neg hbyte]
      by_cases hlt : j < 8 * (o % 4)
      · simp [hlt]
      · have hge : ¬j - 8 * (o % 4) < 8 := by omega
        rw [BitVec.getLsbD_of_ge value _ (Nat.le_of_not_lt hge)]
        simp [hge]
  · rw [if_neg hn, if_neg fun h => hn h.1]

theorem disabled_eq : space.disabled = (space.dwords 1).getLsbD 10 := by
  simp [disabled, command, commandIntxDisable]

/-- Both bits are in dword 1. -/
theorem disabled_congr {space other : Space} (h : other.dwords 1 = space.dwords 1) :
    other.disabled = space.disabled := by
  rw [disabled_eq, disabled_eq, h]

theorem interrupt_congr {space other : Space} (h : other.dwords 1 = space.dwords 1) :
    other.interrupt = space.interrupt := by
  rw [interrupt, interrupt, h]

/-- Only byte 6 holds the interrupt status. -/
theorem interrupt_setByte {o : Nat} (value : BitVec 8) (h : o ≠ 6) :
    (space.setByte o value).interrupt = space.interrupt := by
  rw [interrupt, interrupt, getLsbD_setByte _ _ _ _ (by decide),
    if_neg (by unfold statusInterrupt; omega)]

end Space

/-! ## Functions -/

/-- A base address register, as far as the value of the register depends on it. -/
structure Bar where
  size : BitVec 32
  originalBar : BitVec 32
  /-- The device decodes the range itself (`on_move`). -/
  onMove : Bool
  fixed : Bool

/-- A function of the board. -/
structure Device where
  /-- The bus behind a bridge. -/
  pciSecondaryBus : Option Nat
  pciExpressDownstream : Bool
  pciBars : List (Option Bar)
  pciRomSize : BitVec 32
  pciRomAddress : BitVec 32
  /-- The configuration space at power-on. -/
  template : Space

/-- What `write_bar` leaves in the register. -/
def Bar.write (bar : Bar) (old written : BitVec 32) : BitVec 32 :=
  let type := old &&& 1
  let mask := bar.size - 1
  let probe := written ||| 3 ||| mask = BitVec.allOnes 32
  let written := if probe then ~~~mask ||| type else written
  if type = 0 then
    if probe then written ||| bar.originalBar &&& 0xF
    else if bar.onMove then written &&& ~~~mask &&& ~~~0xF ||| bar.originalBar &&& 0xF
    else bar.originalBar
  else if bar.onMove then written ||| 1
  else if bar.fixed then
    if written ||| 3 ||| mask = BitVec.allOnes 32 then ~~~mask ||| type else bar.originalBar
  else written ||| 1

namespace Device

variable (device : Device)

/-- `write_bar`. -/
def writeBar (space : Space) (offset : Nat) (written : BitVec 32) : Space :=
  let spaceAddr := offset / 4
  match device.pciBars[(offset - 0x10) / 4]?.join with
  | none => space.setDword spaceAddr 0
  | some bar => space.setDword spaceAddr (bar.write (space.dwords spaceAddr) written)

/-- `write_expansion_rom`. -/
def writeExpansionRom (space : Space) (written : BitVec 32) : Space :=
  space.setDword (0x30 / 4) <|
    if device.pciRomSize ≠ 0 then
      if written ||| 0x7FF = BitVec.allOnes 32 then -device.pciRomSize else device.pciRomAddress
    else 0

/-- `header_byte_writable`. -/
def headerByteWritable (offset : Nat) : Bool :=
  offset = 0x0C || offset = 0x0D || offset = 0x0F || offset = 0x3C

/-- `BRIDGE_HEADER_WRITABLE`. -/
def bridgeHeaderWritable (o : Nat) : BitVec 8 :=
  if 0x18 ≤ o ∧ o < 0x1C then 0xFF
  else if o = 0x1C ∨ o = 0x1D then 0xF0
  else if 0x20 ≤ o ∧ o < 0x28 then if o % 2 = 0 then 0xF0 else 0xFF
  else if 0x28 ≤ o ∧ o < 0x30 then 0xFF
  else if o = 0x3C then 0xFF
  else if o = 0x3E then 0x5F
  else 0

/-- One byte of `function_write`, and whether it was a plain byte of the header. -/
def writeByte (space : Space) (o : Nat) (byte : BitVec 8) : Space × Bool :=
  if 0x40 ≤ o then (space.setByte o byte, false)
  else if device.pciSecondaryBus.isSome ∧ 0x18 ≤ o then
    if o = 0x1E + 1 then
      -- the secondary status: write one to clear
      (space.setByte o (space.byte o &&& ~~~(byte &&& (statusRw1c >>> 8).setWidth 8)), false)
    else
      let mask := bridgeHeaderWritable o
      (space.setByte o (space.byte o &&& ~~~mask ||| byte &&& mask), false)
  else if o = 4 ∨ o = 5 then
    let mask : BitVec 8 := (commandWritable >>> (8 * (o - 4))).setWidth 8
    (space.setByte o (space.byte o &&& ~~~mask ||| byte &&& mask), false)
  else if o = 6 ∨ o = 7 then
    -- status: write one to clear
    (space.setByte o
      (space.byte o &&& ~~~(byte &&& (statusRw1c >>> (8 * (o - 6))).setWidth 8)), false)
  else if headerByteWritable o then (space.setByte o byte, true)
  else (space, false)

/-- The bytes `i` of the list, of a write at `offset`. -/
def writeBytes (offset : Nat) (value : BitVec 32) (is : List Nat) (space : Space) : Space × Bool :=
  is.foldl (fun (space, headerWritten) i =>
    let (space, plain) := device.writeByte space (offset + i) ((value >>> (8 * i)).setWidth 8)
    (space, headerWritten || plain)) (space, false)

/-- The registers that are written 32 bits at a time: BARs and the expansion ROM base. -/
def barOffset (offset : Nat) : Bool :=
  if device.pciSecondaryBus.isSome then 0x10 ≤ offset && offset < 0x18
  else 0x10 ≤ offset && offset < 0x28 || 0x30 ≤ offset && offset < 0x34

/-- A snapshot's space with the fixed BARs where the device has them. -/
def restoreBars (space : Space) : Space :=
  device.pciBars.zipIdx.foldl (fun space (bar, nr) =>
    match bar with
    | some bar => if bar.fixed then space.setDword (0x10 / 4 + nr) bar.originalBar else space
    | none => space) space

end Device

/-! ## Boards -/

inductive Chipset
  | i440fx
  | q35
  deriving DecidableEq

/-- The function with the PIRQ routing registers: the PIIX3 ISA bridge, or the ICH9 LPC bridge. -/
def Chipset.isaBridge : Chipset → Nat
  | .i440fx => 1 <<< 3
  | .q35 => 0x1F <<< 3

/-- The functions of a machine by `pci_id`, and the bridges between them. -/
structure Board where
  chipset : Chipset
  devices : Sparse Device
  /-- The bridge whose secondary side a bus is. -/
  bridgeForBus : Sparse Nat
  /-- The bridges on a bus. -/
  bridgesOn : Nat → List Nat
  /-- How many bridges are between a function and bus 0. -/
  depth : Nat → Nat
  /-- A bridge is registered before what is behind it. -/
  depth_lt : ∀ f bridge, bridgeForBus.get (f >>> 8) = some bridge → depth bridge < depth f
  /-- The spaces that `register_device` accepts. -/
  template_length : ∀ f device, devices.get f = some device →
    device.template.byteLength = 256 ∨ device.template.byteLength = 4096
  /-- The chipset registers its ISA bridge. -/
  isaBridge_isSome : (devices.get chipset.isaBridge).isSome
  /-- No function starts with a pending interrupt. -/
  template_quiet : ∀ f device, devices.get f = some device → device.template.interrupt = false

/-- `parent_bridge`. -/
def Board.parentBridge (b : Board) (f : Nat) : Option Nat :=
  if 256 ≤ f then b.bridgeForBus.get (f >>> 8) else none

theorem Board.depth_parentBridge {b : Board} {f bridge : Nat}
    (h : b.parentBridge f = some bridge) : b.depth bridge < b.depth f := by
  unfold parentBridge at h
  split at h
  · exact b.depth_lt _ _ h
  · cases h

end V86.Pci
