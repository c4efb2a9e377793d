import Mathlib.Logic.Function.Basic

/-!
# The memory map

`src/io.js`: every block of 128 KiB of the physical address space has handlers, which a device
registers for whole blocks, or the block dispatches by address to the ranges in it, and what they
leave to its background. Handlers act on the state `σ` of the devices, and may fail.
-/

namespace V86.Mmio

variable {σ : Type}

abbrev Byte := BitVec 8
abbrev Dword := BitVec 32

/-- What an access does. -/
abbrev Access (σ α : Type) := StateT σ Option α

/-- `MMAP_BLOCK_SIZE`. -/
def blockSize : Nat := 0x20000

/-- `MMAP_MAX`. -/
def mmapMax : Nat := 0x100000000

/-- `addr >>> MMAP_BLOCK_BITS`. -/
def blockOf (addr : Nat) : Nat := addr / blockSize

/-! ## Accesses of four bytes -/

/-- A dword read as four bytes. -/
def readBytes (read8 : Nat → Access σ Byte) (addr : Nat) : Access σ Dword := do
  let b₀ ← read8 addr
  let b₁ ← read8 (addr + 1)
  let b₂ ← read8 (addr + 2)
  let b₃ ← read8 (addr + 3)
  return b₀.setWidth 32 ||| b₁.setWidth 32 <<< 8 ||| b₂.setWidth 32 <<< 16 |||
    b₃.setWidth 32 <<< 24

/-- A dword written as four bytes. -/
def writeBytes (write8 : Nat → Byte → Access σ Unit) (addr : Nat) (value : Dword) :
    Access σ Unit := do
  write8 addr (value.setWidth 8)
  write8 (addr + 1) ((value >>> 8).setWidth 8)
  write8 (addr + 2) ((value >>> 16).setWidth 8)
  write8 (addr + 3) ((value >>> 24).setWidth 8)

/-! ## The map -/

/-- Handlers as they are registered, the 32-bit ones optional. -/
structure Handlers (σ : Type) where
  read8 : Nat → Access σ Byte
  write8 : Nat → Byte → Access σ Unit
  read32 : Option (Nat → Access σ Dword)
  write32 : Option (Nat → Dword → Access σ Unit)

/-- A range of `mmap_register_range`. -/
structure Range (σ : Type) where
  start : Nat
  stop : Nat
  owner : Nat
  handlers : Handlers σ

/-- The address is in the range. -/
def Range.contains (r : Range σ) (addr : Nat) : Bool := r.start ≤ addr && addr < r.stop

/-- What a block with ranges shares with its handlers; its background is `none` where nothing was
registered. -/
structure Shared (σ : Type) where
  ranges : List (Range σ)
  background : Option (Handlers σ)

/-- The four entries of a block in `memory_map_read8`, `memory_map_write8`, `memory_map_read32` and
`memory_map_write32`: handlers, or the functions of `install_block_dispatch` over a `shared`. -/
inductive Entry (σ : Type) where
  | handlers (handlers : Option (Handlers σ))
  | dispatch (shared : Nat)

/-- The memory map, and the objects that `mmio_blocks` and the dispatching functions share. -/
structure Io (σ : Type) where
  memoryMap : Nat → Entry σ
  mmioBlocks : Nat → Option Nat
  shareds : Nat → Shared σ
  fresh : Nat

namespace Shared

variable (shared : Shared σ)

/-- `find`. -/
def find (addr : Nat) : Option (Range σ) := shared.ranges.find? (·.contains addr)

/-- `read8`. -/
def read8 (addr : Nat) : Access σ Byte :=
  match shared.find addr with
  | some range => range.handlers.read8 addr
  | none =>
    match shared.background with
    | some background => background.read8 addr
    | none => failure

/-- `write8`. -/
def write8 (addr : Nat) (value : Byte) : Access σ Unit :=
  match shared.find addr with
  | some range => range.handlers.write8 addr value
  | none =>
    match shared.background with
    | some background => background.write8 addr value
    | none => failure

end Shared

namespace Io

variable (io : Io σ)

/-- `memory_map_read8[block]`. -/
def mapRead8 (block addr : Nat) : Access σ Byte :=
  match io.memoryMap block with
  | .handlers none => failure
  | .handlers (some handlers) => handlers.read8 addr
  | .dispatch ref => (io.shareds ref).read8 addr

/-- `memory_map_write8[block]`. -/
def mapWrite8 (block addr : Nat) (value : Byte) : Access σ Unit :=
  match io.memoryMap block with
  | .handlers none => failure
  | .handlers (some handlers) => handlers.write8 addr value
  | .dispatch ref => (io.shareds ref).write8 addr value

/-- `mmap_read32_shim`. -/
def mmapRead32Shim (addr : Nat) : Access σ Dword := readBytes (io.mapRead8 (blockOf addr)) addr

/-- `mmap_write32_shim`. -/
def mmapWrite32Shim (addr : Nat) (value : Dword) : Access σ Unit :=
  writeBytes (io.mapWrite8 (blockOf addr)) addr value

/-- The 32-bit read of handlers of a whole block. -/
def blockRead32 (handlers : Option (Handlers σ)) (addr : Nat) : Access σ Dword :=
  match handlers with
  | none => failure
  | some handlers =>
    match handlers.read32 with
    | some read32 => read32 addr
    | none => io.mmapRead32Shim addr

/-- The 32-bit write of handlers of a whole block. -/
def blockWrite32 (handlers : Option (Handlers σ)) (addr : Nat) (value : Dword) : Access σ Unit :=
  match handlers with
  | none => failure
  | some handlers =>
    match handlers.write32 with
    | some write32 => write32 addr value
    | none => io.mmapWrite32Shim addr value

/-- `read32` of `install_block_dispatch`. -/
def sharedRead32 (shared : Shared σ) (addr : Nat) : Access σ Dword :=
  match shared.find addr with
  | some range =>
    if addr + 4 ≤ range.stop ∧ addr % 4 = 0 then
      match range.handlers.read32 with
      | some read32 => read32 addr
      | none => readBytes shared.read8 addr
    else readBytes shared.read8 addr
  | none =>
    if (shared.find (addr + 3)).isNone ∧ (shared.find (addr + 1)).isNone ∧
        (shared.find (addr + 2)).isNone then
      io.blockRead32 shared.background addr
    else readBytes shared.read8 addr

/-- `write32` of `install_block_dispatch`. -/
def sharedWrite32 (shared : Shared σ) (addr : Nat) (value : Dword) : Access σ Unit :=
  match shared.find addr with
  | some range =>
    if addr + 4 ≤ range.stop ∧ addr % 4 = 0 then
      match range.handlers.write32 with
      | some write32 => write32 addr value
      | none => writeBytes shared.write8 addr value
    else writeBytes shared.write8 addr value
  | none =>
    if (shared.find (addr + 3)).isNone ∧ (shared.find (addr + 1)).isNone ∧
        (shared.find (addr + 2)).isNone then
      io.blockWrite32 shared.background addr value
    else writeBytes shared.write8 addr value

/-! ## Accesses -/

/-- `mmap_read8`. -/
def mmapRead8 (addr : Nat) : Access σ Byte := io.mapRead8 (blockOf addr) addr

/-- `mmap_write8`. -/
def mmapWrite8 (addr : Nat) (value : Byte) : Access σ Unit := io.mapWrite8 (blockOf addr) addr value

/-- `mmap_read32`. -/
def mmapRead32 (addr : Nat) : Access σ Dword :=
  match io.memoryMap (blockOf addr) with
  | .handlers handlers => io.blockRead32 handlers addr
  | .dispatch ref => io.sharedRead32 (io.shareds ref) addr

/-- `mmap_write32`. -/
def mmapWrite32 (addr : Nat) (value : Dword) : Access σ Unit :=
  match io.memoryMap (blockOf addr) with
  | .handlers handlers => io.blockWrite32 handlers addr value
  | .dispatch ref => io.sharedWrite32 (io.shareds ref) addr value

/-! ## Registration -/

/-- The blocks of whole blocks from an address on. -/
def wholeBlocks (addr size : Nat) : List Nat :=
  List.range' (blockOf addr) ((size + blockSize - 1) / blockSize)

/-- The blocks that a range touches. -/
def touchedBlocks (addr size : Nat) : List Nat :=
  List.range' (blockOf addr) (blockOf (addr + size - 1) + 1 - blockOf addr)

/-- A round of the loop of `mmap_register`. -/
def registerBlock (handlers : Handlers σ) (io : Io σ) (block : Nat) : Io σ :=
  match io.mmioBlocks block with
  | some ref =>
    -- a block with exact ranges: this becomes what the rest of it decodes
    { io with shareds :=
        Function.update io.shareds ref { io.shareds ref with background := some handlers } }
  | none =>
    { io with memoryMap := Function.update io.memoryMap block (.handlers (some handlers)) }

/-- `mmap_register`. -/
def mmapRegister (addr size : Nat) (handlers : Handlers σ) : Io σ :=
  (wholeBlocks addr size).foldl (registerBlock handlers) io

/-- The handlers of a block that does not dispatch. -/
def plain (block : Nat) : Option (Handlers σ) :=
  match io.memoryMap block with
  | .handlers handlers => handlers
  -- a block that dispatches has a `shared`, so this is not reached
  | .dispatch _ => none

/-- The block dispatches from now on. -/
def installShared (block : Nat) : Io σ :=
  { memoryMap := Function.update io.memoryMap block (.dispatch io.fresh)
    mmioBlocks := Function.update io.mmioBlocks block (some io.fresh)
    shareds := Function.update io.shareds io.fresh ⟨[], io.plain block⟩
    fresh := io.fresh + 1 }

/-- `shared.ranges` of a block changes. -/
def setRanges (ref : Nat) (ranges : List (Range σ)) : Io σ :=
  { io with shareds := Function.update io.shareds ref { io.shareds ref with ranges := ranges } }

/-- A round of the loop of `mmap_register_range`. -/
def registerRangeBlock (range : Range σ) (io : Io σ) (block : Nat) : Io σ :=
  match io.mmioBlocks block with
  | some ref => io.setRanges ref ((io.shareds ref).ranges ++ [range])
  | none =>
    let io' := io.installShared block
    io'.setRanges io.fresh ((io'.shareds io.fresh).ranges ++ [range])

/-- `mmap_register_range`. -/
def mmapRegisterRange (addr size owner : Nat) (handlers : Handlers σ) : Io σ :=
  (touchedBlocks addr size).foldl (registerRangeBlock ⟨addr, addr + size, owner, handlers⟩) io

/-- A round of the loop of `mmap_unregister_range`. -/
def unregisterRangeBlock (addr owner : Nat) (io : Io σ) (block : Nat) : Io σ :=
  match io.mmioBlocks block with
  | none => io
  | some ref =>
    let ranges := (io.shareds ref).ranges.filter fun r => r.owner ≠ owner || r.start ≠ addr
    if ranges.isEmpty then
      -- back to the plain block
      { io.setRanges ref ranges with
        memoryMap := Function.update io.memoryMap block (.handlers (io.shareds ref).background)
        mmioBlocks := Function.update io.mmioBlocks block none }
    else io.setRanges ref ranges

/-- `mmap_unregister_range`. -/
def mmapUnregisterRange (addr size owner : Nat) : Io σ :=
  (touchedBlocks addr size).foldl (unregisterRangeBlock addr owner) io

/-- `unmapped`. -/
def unmapped : Handlers σ where
  read8 := fun _ => pure 0xFF
  write8 := fun _ _ => pure ()
  read32 := some fun _ => pure 0xFFFFFFFF
  write32 := some fun _ _ => pure ()

/-- `mmap_unregister`. -/
def mmapUnregister (addr size : Nat) : Io σ := io.mmapRegister addr size unmapped

/-- The constructor: nothing is registered below `memory_size`. -/
def new (memorySize : Nat) : Io σ :=
  mmapRegister
    { memoryMap := fun _ => .handlers none
      mmioBlocks := fun _ => none
      shareds := fun _ => ⟨[], none⟩
      fresh := 0 } memorySize (mmapMax - memorySize) unmapped

end Io

end V86.Mmio
