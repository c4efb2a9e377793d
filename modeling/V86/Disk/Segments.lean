import V86.Lib.Scatter

/-!
# Scatter-gather tables of the disk controllers

`src/ide.js`, `src/ahci.js`, and the physical accesses of `src/cpu.js`: the memory that a DMA
transfer goes to or comes from is described by a table in memory, one of bus-master IDE or one of an
AHCI command. Segments are found before any of the data is moved. Addresses are integers, as the
numbers of the source are.
-/

namespace V86.Disk

open Scatter

/-! ## Physical memory -/

/-- Physical memory as DMA sees it: what `x64_phys_resolve` finds for an address, and the bytes. What
is not mapped begins and ends at pages, but for the end of RAM: in a page, between two mapped bytes
are only mapped bytes. -/
structure Memory where
  mapped : Nat → Bool
  byte : Nat → BitVec 8
  convex : ∀ {a b c : Nat}, a ≤ b → b ≤ c → a / 4096 = c / 4096 → mapped a = true →
    mapped c = true → mapped b = true

/-- RAM from address 0 on. -/
def Memory.flat (size : Nat) (byte : Nat → BitVec 8) : Memory where
  mapped a := a < size
  byte := byte
  convex _ hbc _ _ hc := decide_eq_true (Nat.lt_of_le_of_lt hbc (of_decide_eq_true hc))

/-- The limit of the 36-bit bus. -/
def busLimit : Nat := 0x1000000000

/-- The loop of `validate_physical_range`, from an address to the end of the range. -/
def Memory.validatePages (mem : Memory) (at_ last : Nat) : Except String Unit :=
  if at_ < last then
    let next := min last ((at_ / 4096 + 1) * 4096)
    if !mem.mapped at_ || !mem.mapped (next - 1) then .error "Physical range is not mapped"
    else mem.validatePages next last
  else .ok ()
termination_by last - at_
decreasing_by omega

/-- `validate_physical_range`. -/
def Memory.validatePhysicalRange (mem : Memory) (address : Int) (length : Nat) :
    Except String Unit :=
  if address < 0 ∨ busLimit ≤ address ∨ busLimit < address + length then
    .error "Physical address exceeds the 36-bit bus"
  else mem.validatePages address.toNat (address.toNat + length)

/-- Some bytes as one number, the first the lowest, without a sign. -/
def Memory.read (mem : Memory) (address : Nat) : Nat → Nat
  | 0 => 0
  | width + 1 => (mem.byte address).toNat + 256 * mem.read (address + 1) width

/-! ## Bus-master IDE -/

/-- The entry of the table at an address, and whether it is the last one. -/
def prdEntry (mem : Memory) (table : Nat) : Entry where
  address := mem.read table 4
  count := if mem.read (table + 4) 2 = 0 then 0x10000 else mem.read (table + 4) 2
  pos := by
    split
    · decide
    · exact Nat.pos_of_ne_zero ‹_›

def prdEnd (mem : Memory) (table : Nat) : Bool := (mem.byte (table + 7)).getLsbD 7

/-- The loop of `IDEChannel.dma_segments`, from an entry and an offset. -/
def ideSegments (mem : Memory) (byteCount table offset : Nat) : Except String (List Segment) :=
  if offset < byteCount then do
    if 0x100000000 < table + 8 then
      throw "IDE PRDT exceeds 32-bit address width"
    mem.validatePhysicalRange table 8
    let address := (prdEntry mem table).address
    let length := min (prdEntry mem table).count (byteCount - offset)
    if 0x100000000 < address + length then
      throw "IDE DMA exceeds 32-bit address width"
    mem.validatePhysicalRange address length
    if prdEnd mem table ∧ offset + length < byteCount then
      throw "IDE PRDT ends before the requested transfer"
    let segments ← ideSegments mem byteCount (table + 8) (offset + length)
    return ⟨address, offset, length⟩ :: segments
  else return []
termination_by byteCount - offset
decreasing_by
  have hpos := (prdEntry mem table).pos
  omega

/-- `IDEChannel.dma_segments`. -/
def ideDmaSegments (mem : Memory) (prdtAddr : BitVec 32) (byteCount : Nat) :
    Except String (List Segment) :=
  ideSegments mem byteCount prdtAddr.toNat 0

/-! ## AHCI -/

/-- The command table's address and the number of its entries, of an AHCI command. -/
structure Command where
  table : Int
  prdtl : Nat

/-- The address in the 16 bytes of an entry, as the source computes it: the upper half is a signed
number. -/
def prdtAddress (mem : Memory) (s64a : Bool) (entry : Nat) : Int :=
  ((BitVec.ofNat 32 (mem.read entry 4) &&& ~~~1#32).toNat : Int) +
    if s64a then (BitVec.ofNat 32 (mem.read (entry + 4) 4)).toInt * 0x100000000 else 0

/-- The bytes of an entry, at least one. -/
def prdtCount (mem : Memory) (entry : Nat) : Nat := (mem.read (entry + 12) 3 &&& 0x3FFFFF) + 1

/-- The address of an entry of the table. -/
def Command.entry (command : Command) (i : Nat) : Int := command.table + 0x80 + i * 16

/-- The loop of `prdt_segments`, with some entries left from number `i` on, which is at a position:
the segments, and the position after the last entry. -/
def prdtWalk (mem : Memory) (s64a : Bool) (command : Command) (offset last : Nat) :
    Nat → Nat → Nat → Except String (List Segment × Nat)
  | 0, _, position => .ok ([], position)
  | left + 1, i, position => do
    if position < last then
      let entry := command.entry i
      mem.validatePhysicalRange entry 16
      let address := prdtAddress mem s64a entry.toNat
      let count := prdtCount mem entry.toNat
      let from_ := max position offset
      let to_ := min (position + count) last
      if from_ < to_ then
        let part := to_ - from_
        let at_ := address + ((from_ : Int) - position)
        mem.validatePhysicalRange at_ part
        let (segments, position) ←
          prdtWalk mem s64a command offset last left (i + 1) (position + count)
        return (⟨at_, from_ - offset, part⟩ :: segments, position)
      else prdtWalk mem s64a command offset last left (i + 1) (position + count)
    else return ([], position)

/-- `prdt_segments`. -/
def prdtSegments (mem : Memory) (s64a : Bool) (command : Command) (offset length : Nat) :
    Except String (List Segment) := do
  let last := offset + length
  let (segments, position) ← prdtWalk mem s64a command offset last command.prdtl 0 0
  if position < last then
    throw s!"AHCI PRDT ends before the transfer ({position} < {last})"
  return segments

/-! ## The base addresses of an AHCI port -/

/-- The numbers in the registers of a port that are its base addresses. -/
structure Port where
  clb : Int
  clbu : Int
  fb : Int
  fbu : Int

/-- The registers of a port. -/
inductive PortRegister where
  | clb
  | clbu
  | fb
  | fbu

namespace Port

/-- The port after it was powered on. -/
def init : Port := ⟨0, 0, 0, 0⟩

/-- `merge` of `write32`: some of the bytes of a register are written. -/
def merge (old : Int) (value mask : BitVec 32) : BitVec 32 :=
  BitVec.ofInt 32 old &&& ~~~mask ||| value

/-- `write32`: the operator `&` gives a signed number, and `merge` an unsigned one. -/
def write32 (port : Port) (s64a : Bool) (register : PortRegister) (value mask : BitVec 32) : Port :=
  match register with
  | .clb => { port with clb := (merge port.clb value mask &&& ~~~0x3FF).toInt }
  | .clbu => if s64a then { port with clbu := (merge port.clbu value mask).toNat } else port
  | .fb => { port with fb := (merge port.fb value mask &&& ~~~0xFF).toInt }
  | .fbu => if s64a then { port with fbu := (merge port.fbu value mask).toNat } else port

/-- `list_base`. -/
def listBase (port : Port) (s64a : Bool) : Int :=
  port.clb + if s64a then port.clbu * 0x100000000 else 0

/-- `fis_base`. -/
def fisBase (port : Port) (s64a : Bool) : Int :=
  port.fb + if s64a then port.fbu * 0x100000000 else 0

end Port

/-- A guest's write of some bytes of a register. -/
structure PortWrite where
  register : PortRegister
  value : BitVec 32
  mask : BitVec 32

/-- The port after some writes: the controller passes on the bytes that are written. -/
def portAfter (s64a : Bool) (writes : List PortWrite) : Port :=
  writes.foldl (fun port w => port.write32 s64a w.register (w.value &&& w.mask) w.mask) .init

end V86.Disk
