import Mathlib.Data.List.OfFn
import V86.Lib.Bytes

/-!
# What decodes an address

The parts of the memory map that the low bus looks at: the windows of `x64/physical.rs` that
relocated RAM, SMRAM and TSEG of `cpu/smm.rs`, the aperture of `x64/extended.rs` and the device
memory of `cpu/mmio_ram.rs`. Addresses are those of the 32-bit bus.
-/

namespace V86.Bus

abbrev Byte := UInt8

def pageSize : Nat := 4096

/-- An address of the 32-bit bus: sums wrap around. -/
def wrap (a : Nat) : Nat := a % 2 ^ 32

/-! ## Windows -/

/-- `WindowKind`. -/
inductive WindowKind where
  | ram
  | mmio
  | extended
  deriving DecidableEq

/-- `Window`. -/
structure Window where
  guestBase : BitVec 64
  backing : BitVec 32
  length : BitVec 32
  kind : WindowKind
  deriving DecidableEq

/-- The address is one of the backing of a window. -/
def Window.backs (w : Window) (a : Nat) : Prop :=
  w.backing.toNat ≤ a ∧ a < w.backing.toNat + w.length.toNat

instance (w : Window) (a : Nat) : Decidable (w.backs a) := inferInstanceAs (Decidable (_ ∧ _))

/-- `PhysicalBus`. -/
structure PhysicalBus where
  windows : Fin 16 → Option Window
  generation : Nat

/-- `self.windows.iter().flatten()`. -/
def PhysicalBus.list (bus : PhysicalBus) : List Window := (List.ofFn bus.windows).filterMap id

/-! ## The layout -/

/-- `Region` of device memory, without the memory. -/
structure Region where
  base : Nat
  size : Nat
  mapped : Bool

/-- What the memory map depends on. -/
structure Layout where
  memorySize : Nat
  ramFastLimit : Nat
  bus : PhysicalBus
  tsegBase : Nat
  tsegEnd : Nat
  smmActive : Bool
  smramControl : BitVec 8
  longMode : Bool
  /-- extended RAM -/
  base : Nat
  pages : Nat
  /-- `SLOT_PAGE` -/
  slotPage : Nat → Option Nat
  regions : List Region

def compatibleSmram : Nat := 0xA0000
def highSmram : Nat := 0xFEDA0000
def smramSize : Nat := 0x20000
def apertureBase : Nat := 0xFEF00000
/-- The slots of eight cores. -/
def apertureSize : Nat := 8 * 32 * pageSize
def apicMemAddress : Nat := 0xFEE00000
def apicMemSize : Nat := 0x1000
def ioapicMemAddress : Nat := 0xFEC00000
def ioapicMemSize : Nat := 32

/-- `aperture::contains`. -/
def apertureContains (a : Nat) : Bool := wrap (a + 2 ^ 32 - apertureBase) < apertureSize

namespace Layout

variable (m : Layout)

/-- `is_low_ram_hole`. -/
def isLowRamHole (a : Nat) : Bool := m.bus.list.any fun w => w.kind = .ram && w.backs a

/-- `in_tseg`. -/
def inTseg (a : Nat) : Bool := m.tsegBase ≤ a && a < m.tsegEnd

/-- `tseg_blackhole`. -/
def tsegBlackhole (a : Nat) : Bool := m.inTseg a && !m.smmActive

/-- `tseg_floor`. -/
def tsegFloor : Nat := if m.tsegBase < m.tsegEnd then m.tsegBase else 2 ^ 32 - 1

/-- `fast_limit`: the first relocated byte of RAM, or the first byte of TSEG, or the end of RAM. -/
def fastLimit : Nat :=
  let relocated := (m.bus.list.filter (·.kind = .ram)).map (·.backing.toNat)
  min (min (relocated.min?.getD m.memorySize) m.memorySize) m.tsegFloor

/-- `in_mapped_range`. -/
def inMappedRange (a : Nat) : Bool :=
  0xA0000 ≤ a && a < 0xC0000 ||
  m.ramFastLimit ≤ a && (m.memorySize ≤ a || m.isLowRamHole a || m.inTseg a)

/-- `low_ram_hole`. -/
def lowRamHole (a : Nat) : Bool :=
  m.ramFastLimit ≤ a && a < m.memorySize && (m.isLowRamHole a || m.tsegBlackhole a)

/-- `mapped_width`. -/
def mappedWidth (a bytes : Nat) : Bool :=
  m.inMappedRange a || a % 4096 > 4096 - bytes && m.inMappedRange (wrap (a + (bytes - 1)))

/-- `touches_low_hole`. -/
def touchesLowHole (a bytes : Nat) : Bool :=
  m.lowRamHole a || m.lowRamHole (wrap (a + (bytes - 1))) ||
  apertureContains a || apertureContains (wrap (a + (bytes - 1))) ||
  m.inTseg a || m.inTseg (wrap (a + (bytes - 1)))

/-- The bits of `SMRAM_CONTROL`. -/
def gSmrame : Bool := m.smramControl.getLsbD 0
def dOpen : Bool := m.smramControl.getLsbD 1
def hSmrame : Bool := m.smramControl.getLsbD 2
def dCls : Bool := m.smramControl.getLsbD 3

/-- Compatible SMRAM is accessible, in `smram_ram`. -/
def compatibleOpen (fetch : Bool) : Bool :=
  !m.hSmrame && (m.dOpen || m.gSmrame && m.smmActive && (fetch || !m.dCls))

/-- `smram_ram`. -/
def smramRam (a bytes : Nat) (fetch : Bool) : Option Nat :=
  let last := wrap (a + (bytes - 1))
  if compatibleSmram ≤ a ∧ last < compatibleSmram + smramSize then
    if m.compatibleOpen fetch then some a else none
  else if highSmram ≤ a ∧ last < highSmram + smramSize then
    if m.hSmrame && (m.dOpen || m.gSmrame && m.smmActive) then some (a - highSmram + compatibleSmram)
    else none
  else if m.inTseg a && m.inTseg last && m.smmActive then some a else none

/-- `extended::contains`. -/
def contains (address : Nat) : Bool :=
  (address + 2 ^ 64 - m.base) % 2 ^ 64 < m.pages * pageSize

/-- `aperture::guest`: the guest physical address behind an address of the aperture. -/
def apertureGuest (a : Nat) : Option Nat :=
  if apertureContains a then
    match m.slotPage ((a - apertureBase) / pageSize) with
    | some page => if m.contains page then some (page + a % pageSize) else none
    | none => none
  else none

end Layout

/-- The offset in a region, if it contains all of an access. -/
def Region.offset? (r : Region) (a bytes : Nat) : Option Nat :=
  let offset := wrap (a + 2 ^ 32 - r.base)
  if r.mapped && offset < r.size && bytes ≤ r.size - offset then some offset else none

/-- The loop of `mmio_ram::find` from the region `i` on: the region, and the offset in it. -/
def findFrom (a bytes : Nat) : Nat → List Region → Option (Nat × Nat)
  | _, [] => none
  | i, r :: rs =>
    match r.offset? a bytes with
    | some offset => some (i, offset)
    | none => findFrom a bytes (i + 1) rs

/-- `mmio_ram::find`. -/
def Layout.find (m : Layout) (a bytes : Nat) : Option (Nat × Nat) := findFrom a bytes 0 m.regions

end V86.Bus
