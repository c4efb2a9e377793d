import V86.Bus.Layout

/-!
# The low bus

`cpu/memory.rs`: reads and writes of 1 to 16 bytes at an address of the 32-bit bus. Values are
numbers, without the signs that the code gives them.
-/

namespace V86.Bus

open Bytes

/-! ## The contents -/

/-- What is behind the bus: RAM from `mem8` on, extended RAM by its guest physical addresses, the
memory of the regions with their bitmaps of written pages, and the devices. -/
structure Store (δ : Type) where
  ram : Nat → Byte
  extended : Nat → Byte
  regions : Nat → Nat → Byte
  written : Nat → Nat → Bool
  devices : δ

/-- What an access does. -/
abbrev Access (δ α : Type) := StateM (Store δ) α

/-- The devices: the memory map of the host, the local APIC and the IOAPIC. A write to these two is
followed by `handle_irqs`. -/
structure Devices (δ : Type) where
  mmapRead8 : Nat → Access δ Nat
  mmapRead32 : Nat → Access δ Nat
  mmapWrite8 : Nat → Nat → Access δ Unit
  mmapWrite16 : Nat → Nat → Access δ Unit
  mmapWrite32 : Nat → Nat → Access δ Unit
  mmapWrite64 : Nat → Nat → Access δ Unit
  mmapWrite128 : Nat → Nat → Access δ Unit
  apicRead32 : Nat → Access δ Nat
  apicWrite32 : Nat → Nat → Access δ Unit
  ioapicRead32 : Nat → Access δ Nat
  ioapicWrite32 : Nat → Nat → Access δ Unit

/-- A byte of a number. -/
def byteOf (value k : Nat) : Byte := UInt8.ofNat (value / 256 ^ k)

/-- Some bytes of a memory, as a number. -/
def word (memory : Nat → Byte) (n a : Nat) : Nat := ofLe ((List.range n).map fun k => memory (a + k))

/-- Store a number in some bytes of a memory. -/
def putWord (memory : Nat → Byte) (n a value : Nat) : Nat → Byte :=
  fun i => if a ≤ i ∧ i < a + n then byteOf value (i - a) else memory i

section
variable {δ : Type}

/-- `read8_no_mmap_check` and its like. -/
def load (n a : Nat) : Access δ Nat := do
  return word (← get).ram n a

/-- `write8_ram` and its like. -/
def store (n a value : Nat) : Access δ Unit :=
  modify fun s => { s with ram := putWord s.ram n a value }

/-- A read through `mmio_ram::read_host`. -/
def readHost (n : Nat) (host : Nat × Nat) : Access δ Nat := do
  return word ((← get).regions host.1) n host.2

/-- A write through `mmio_ram::write_host`, which marks the pages. -/
def writeHost (n : Nat) (host : Nat × Nat) (value : Nat) : Access δ Unit :=
  modify fun s =>
    { s with
      regions := Function.update s.regions host.1 (putWord (s.regions host.1) n host.2 value)
      written := Function.update s.written host.1 fun page =>
        decide (host.2 / pageSize ≤ page ∧ page ≤ (host.2 + max n 1 - 1) / pageSize) ||
          s.written host.1 page }

/-- `extended::read`. -/
def extendedRead (address n : Nat) : Access δ Nat := do
  return word (← get).extended n address

/-- `extended::write`. -/
def extendedWrite (address n value : Nat) : Access δ Unit :=
  modify fun s => { s with extended := putWord s.extended n address value }

end

/-! ## Accesses -/

namespace Layout

variable {δ : Type} (m : Layout) (dev : Devices δ)

/-- `aperture_read8`. -/
def apertureRead8 (a : Nat) : Access δ Nat :=
  if m.longMode then
    match m.apertureGuest a with
    | some guest => extendedRead guest 1
    | none => pure 0xFF
  else pure 0xFF

/-- `aperture_write8`. -/
def apertureWrite8 (a value : Nat) : Access δ Unit :=
  if m.longMode then
    match m.apertureGuest a with
    | some guest => extendedWrite guest 1 value
    | none => pure ()
  else pure ()

/-- `read8_mapped`. -/
def read8Mapped (a : Nat) : Access δ Nat :=
  match m.smramRam a 1 false with
  | some ram => load 1 ram
  | none =>
    if m.lowRamHole a then pure 0xFF
    else if apertureContains a then m.apertureRead8 a
    else
      match m.find a 1 with
      | some host => readHost 1 host
      | none =>
        if apicMemAddress ≤ a ∧ a < apicMemAddress + apicMemSize then do
          let dword ← dev.apicRead32 ((a - apicMemAddress) / 4 * 4)
          return dword >>> (8 * (a % 4)) % 256
        else if ioapicMemAddress ≤ a ∧ a < ioapicMemAddress + ioapicMemSize then do
          let dword ← dev.ioapicRead32 ((a - ioapicMemAddress) / 4 * 4)
          return dword >>> (8 * (a % 4)) % 256
        else dev.mmapRead8 a

/-- `read8`. -/
def read8 (a : Nat) : Access δ Nat :=
  if m.inMappedRange a then m.read8Mapped dev a else load 1 a

/-- `read16`. -/
def read16 (a : Nat) : Access δ Nat :=
  if m.mappedWidth a 2 then
    match m.smramRam a 2 false with
    | some ram => load 2 ram
    | none =>
      match m.find a 2 with
      | some host => readHost 2 host
      | none => do
        let b₀ ← m.read8 dev a
        let b₁ ← m.read8 dev (wrap (a + 1))
        return b₀ ||| b₁ <<< 8
  else load 2 a

/-- `read32s_mapped`. -/
def read32Mapped (a : Nat) : Access δ Nat :=
  match m.smramRam a 4 false with
  | some ram => load 4 ram
  | none =>
    if apertureContains a && a % 4 = 0 && m.longMode then
      match m.apertureGuest a with
      | some guest => extendedRead guest 4
      | none => pure 0xFFFFFFFF
    else if a % 4096 > 4092 || m.touchesLowHole a 4 then do
      let b₀ ← m.read8 dev a
      let b₁ ← m.read8 dev (wrap (a + 1))
      let b₂ ← m.read8 dev (wrap (a + 2))
      let b₃ ← m.read8 dev (wrap (a + 3))
      return b₀ ||| b₁ <<< 8 ||| b₂ <<< 16 ||| b₃ <<< 24
    else
      match m.find a 4 with
      | some host => readHost 4 host
      | none =>
        if apicMemAddress ≤ a ∧ a < apicMemAddress + apicMemSize then
          dev.apicRead32 (a - apicMemAddress)
        else if ioapicMemAddress ≤ a ∧ a < ioapicMemAddress + ioapicMemSize then
          dev.ioapicRead32 (a - ioapicMemAddress)
        else dev.mmapRead32 a

/-- `read32s`. -/
def read32 (a : Nat) : Access δ Nat :=
  if m.mappedWidth a 4 then m.read32Mapped dev a else load 4 a

/-- `read64s`. -/
def read64 (a : Nat) : Access δ Nat :=
  if m.mappedWidth a 8 then
    match m.smramRam a 8 false with
    | some ram => load 8 ram
    | none =>
      match m.find a 8 with
      | some host => readHost 8 host
      | none => do
        let low ← m.read32 dev a
        let high ← m.read32 dev (wrap (a + 4))
        return low ||| high <<< 32
  else load 8 a

/-- `read128`. -/
def read128 (a : Nat) : Access δ Nat :=
  if m.mappedWidth a 16 then
    match m.smramRam a 16 false with
    | some ram => load 16 ram
    | none =>
      match m.find a 16 with
      | some host => readHost 16 host
      | none => do
        let d₀ ← m.read32 dev a
        let d₁ ← m.read32 dev (wrap (a + 4))
        let d₂ ← m.read32 dev (wrap (a + 8))
        let d₃ ← m.read32 dev (wrap (a + 12))
        return d₀ ||| d₁ <<< 32 ||| d₂ <<< 64 ||| d₃ <<< 96
  else load 16 a

/-- `mmap_write8`. -/
def mmapWrite8 (a value : Nat) : Access δ Unit :=
  match m.smramRam a 1 false with
  | some ram => store 1 ram value
  | none =>
    if m.lowRamHole a then pure ()
    else if apertureContains a then m.apertureWrite8 a value
    else
      match m.find a 1 with
      | some host => writeHost 1 host value
      | none => dev.mmapWrite8 a value

/-- `write8`. -/
def write8 (a value : Nat) : Access δ Unit :=
  if m.inMappedRange a then m.mmapWrite8 dev a (value % 256) else store 1 a value

/-- A loop that writes the bytes of a value. -/
def writeEach (a : Nat) (indices : List Nat) (value : Nat) : Access δ Unit :=
  indices.forM fun index => m.write8 dev (wrap (a + index)) (value >>> (index * 8) % 256)

/-- `mmap_write16`. -/
def mmapWrite16 (a value : Nat) : Access δ Unit :=
  match m.smramRam a 2 false with
  | some ram => store 2 ram value
  | none =>
    if a % 4096 > 4094 || m.touchesLowHole a 2 then do
      m.write8 dev a (value % 256)
      m.write8 dev (wrap (a + 1)) (value >>> 8 % 256)
    else
      match m.find a 2 with
      | some host => writeHost 2 host value
      | none => dev.mmapWrite16 a value

/-- `write16`. -/
def write16 (a value : Nat) : Access δ Unit :=
  if m.mappedWidth a 2 then m.mmapWrite16 dev a (value % 2 ^ 16) else store 2 a value

/-- `mmap_write32`. -/
def mmapWrite32 (a value : Nat) : Access δ Unit :=
  match m.smramRam a 4 false with
  | some ram => store 4 ram value
  | none =>
    if apertureContains a && a % 4 = 0 && m.longMode then
      match m.apertureGuest a with
      | some guest => extendedWrite guest 4 value
      | none => pure ()
    else if a % 4096 > 4092 || m.touchesLowHole a 4 then m.writeEach dev a (List.range 4) value
    else
      match m.find a 4 with
      | some host => writeHost 4 host value
      | none =>
        if apicMemAddress ≤ a ∧ a < apicMemAddress + apicMemSize then
          dev.apicWrite32 (a - apicMemAddress) value
        else if ioapicMemAddress ≤ a ∧ a < ioapicMemAddress + ioapicMemSize then
          dev.ioapicWrite32 (a - ioapicMemAddress) value
        else dev.mmapWrite32 a value

/-- `write32`. -/
def write32 (a value : Nat) : Access δ Unit :=
  if m.mappedWidth a 4 then m.mmapWrite32 dev a value else store 4 a value

/-- `mmap_write64`. -/
def mmapWrite64 (a value : Nat) : Access δ Unit :=
  match m.smramRam a 8 false with
  | some ram => store 8 ram value
  | none =>
    if a % 4096 > 4088 || m.touchesLowHole a 8 then m.writeEach dev a (List.range 8) value
    else
      match m.find a 8 with
      | some host => writeHost 8 host value
      | none => dev.mmapWrite64 a value

/-- The physical part of `safe_write64`, of an access in one page: one that crosses its end is two
of half the width. -/
def write64 (a value : Nat) : Access δ Unit :=
  if m.inMappedRange a then m.mmapWrite64 dev a value else store 8 a value

/-- `mmap_write128`. The loops over the two halves are one over the bytes. -/
def mmapWrite128 (a value : Nat) : Access δ Unit :=
  match m.smramRam a 16 false with
  | some ram => store 16 ram value
  | none =>
    if a % 4096 > 4080 || m.touchesLowHole a 16 then m.writeEach dev a (List.range 16) value
    else
      match m.find a 16 with
      | some host => writeHost 16 host value
      | none => dev.mmapWrite128 a value

/-- The physical part of `safe_write128`, of an access in one page as well. -/
def write128 (a value : Nat) : Access δ Unit :=
  if m.inMappedRange a then m.mmapWrite128 dev a value else store 16 a value

end Layout

end V86.Bus
