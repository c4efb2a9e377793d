import V86.Bus.Memory

/-!
# The physical bus of long mode

`x64/physical.rs`: the 36-bit bus over RAM and the low bus. Windows above 4 GiB relocate RAM, which
leaves a hole at its own address, or show devices of the low bus; extended RAM is behind them.
-/

namespace V86.Bus

def physicalLimit : Nat := 2 ^ 36
def highMemoryBase : Nat := 2 ^ 32
def maxWindows : Nat := 16

inductive PhysicalError where
  | addressWidth
  | unmapped
  | invalidWindow
  | overlap
  | sideEffecting
  | busy
  | generationExhausted
  deriving DecidableEq

structure Resolved where
  backing : Nat
  kind : WindowKind
  deriving DecidableEq

/-- `checked_range`. -/
def checkedRange (address length : Nat) : Except PhysicalError Unit :=
  if length = 0 ∨ physicalLimit ≤ address ∨ physicalLimit ≤ address + (length - 1) then
    .error .addressWidth
  else .ok ()

/-- `overlaps`. -/
def overlaps (start stop otherStart otherStop : Nat) : Prop := start < otherStop ∧ otherStart < stop

instance (a b c d : Nat) : Decidable (overlaps a b c d) := inferInstanceAs (Decidable (_ ∧ _))

/-- `same_page`. -/
def samePage (address width : Nat) : Bool := address % 4096 + width ≤ 4096

namespace Window

variable (w : Window)

def guestEnd : Nat := w.guestBase.toNat + w.length.toNat
def backingEnd : Nat := w.backing.toNat + w.length.toNat

/-- The address is one of the guest addresses of a window. -/
def decodes (address : Nat) : Prop :=
  w.guestBase.toNat ≤ address ∧ address - w.guestBase.toNat < w.length.toNat

instance (address : Nat) : Decidable (w.decodes address) := inferInstanceAs (Decidable (_ ∧ _))

/-- The fields of a window are in order, with `invalid_window` if not. -/
def wellFormed : Prop :=
  w.length.toNat ≠ 0 ∧ highMemoryBase ≤ w.guestBase.toNat ∧
    (w.guestBase.toNat ||| w.backing.toNat ||| w.length.toNat) % 4096 = 0

instance : Decidable w.wellFormed := inferInstanceAs (Decidable (_ ∧ _))

/-- The backing is what the kind of the window needs. -/
def backed (ramSize : Nat) : Prop :=
  match w.kind with
  | .ram => w.backingEnd ≤ ramSize ∧ ¬overlaps w.backing.toNat w.backingEnd 0xA0000 0xC0000
  | .mmio => ramSize ≤ w.backing.toNat ∨ 0xA0000 ≤ w.backing.toNat ∧ w.backingEnd ≤ 0xC0000
  | .extended => False

instance (ramSize : Nat) : Decidable (w.backed ramSize) := by
  unfold backed
  cases w.kind with
  | ram => exact inferInstanceAs (Decidable (_ ∧ _))
  | mmio => exact inferInstanceAs (Decidable (_ ∨ _))
  | extended => exact inferInstanceAs (Decidable False)

/-- Two windows are not compatible. -/
def conflicts (other : Window) : Prop :=
  overlaps w.guestBase.toNat w.guestEnd other.guestBase.toNat other.guestEnd ∨
    w.kind = .ram ∧ other.kind = .ram ∧
      overlaps w.backing.toNat w.backingEnd other.backing.toNat other.backingEnd

instance (other : Window) : Decidable (w.conflicts other) := inferInstanceAs (Decidable (_ ∨ _))

end Window

namespace PhysicalBus

variable (bus : PhysicalBus)

/-- `PhysicalBus::new`. -/
def new : PhysicalBus := ⟨fun _ => none, 1⟩

/-- The other windows of the loop of `validate`. -/
def others (slot : Fin 16) : List Window :=
  ((List.finRange 16).filter (· ≠ slot)).filterMap bus.windows

/-- `validate`, for a range of extended RAM. -/
def validate (extended : Option (Nat × Nat)) (slot : Fin 16) (w : Window) (ramSize : Nat) :
    Except PhysicalError Unit := do
  if ¬w.wellFormed then throw .invalidWindow
  checkedRange w.guestBase.toNat w.length.toNat
  if highMemoryBase < w.backingEnd then throw .invalidWindow
  if ¬w.backed ramSize then throw .invalidWindow
  if let some (start, stop) := extended then
    if overlaps w.guestBase.toNat w.guestEnd start stop then throw .overlap
  if (bus.others slot).any fun other => w.conflicts other then throw .overlap

/-- `replace`: the bus, and whether it has changed. -/
def replace (extended : Option (Nat × Nat)) (slot : Nat) (window : Option Window) (ramSize : Nat) :
    Except PhysicalError (PhysicalBus × Bool) :=
  if hslot : slot < maxWindows then do
    if let some w := window then bus.validate extended ⟨slot, hslot⟩ w ramSize
    if bus.windows ⟨slot, hslot⟩ = window then return (bus, false)
    if bus.generation + 1 = 2 ^ 64 then throw .generationExhausted
    return (⟨Function.update bus.windows ⟨slot, hslot⟩ window, bus.generation + 1⟩, true)
  else throw .invalidWindow

end PhysicalBus

namespace Layout

variable (m : Layout)

/-- `extended::range`. -/
def extendedRange : Option (Nat × Nat) :=
  if m.pages ≠ 0 then some (m.base, m.base + m.pages * pageSize) else none

/-- `resolve`. -/
def resolve (address : Nat) : Except PhysicalError Resolved := do
  checkedRange address 1
  if address < highMemoryBase then
    if apertureContains address then throw .unmapped
    if m.isLowRamHole address then throw .unmapped
    return ⟨address,
      if m.memorySize ≤ address ∨ 0xA0000 ≤ address ∧ address < 0xC0000 ∨ m.tsegBlackhole address
      then .mmio else .ram⟩
  match m.bus.list.find? fun w => w.decodes address with
  | some w => return ⟨wrap (w.backing.toNat + (address - w.guestBase.toNat)), w.kind⟩
  | none => if m.contains address then return ⟨0, .extended⟩ else throw .unmapped

/-- The bytes of an access, each resolved. -/
def resolveAll (address width : Nat) : Except PhysicalError (List Resolved) :=
  (List.range width).mapM fun offset => m.resolve (address + offset)

/-- `plain_ram`. -/
def plainRam (address width : Nat) : Bool :=
  let stop := (address + width) % 2 ^ 64
  address ≤ stop && stop ≤ m.ramFastLimit && (stop ≤ 0xA0000 || 0xC0000 ≤ address)

/-- `probe`: the quick answers, and then the loop of `PhysicalBus::probe`. -/
def probe (address size : Nat) : Except PhysicalError Unit :=
  if size ≠ 0 ∧ size ≤ 16 ∧
      (m.plainRam address size ∨ m.contains address ∧ samePage address size) then
    .ok ()
  else if size = 0 ∨ 16 < size then .error .invalidWindow
  else do
    checkedRange address size
    discard (m.resolveAll address size)

/-- `access`. -/
def access (address width : Nat) : Except PhysicalError (List Resolved) :=
  if width ∈ [1, 2, 4, 8] then do
    checkedRange address width
    m.resolveAll address width
  else .error .invalidWindow

end Layout

/-- `contiguous`. -/
def contiguous (bytes : List Resolved) : Bool :=
  match bytes with
  | [] => false
  | first :: _ =>
    first.kind ≠ .extended && bytes.zipIdx.all fun (byte, offset) =>
      first.backing + offset < 2 ^ 32 && first.backing + offset = byte.backing &&
        first.kind = byte.kind &&
        (first.kind = .ram || first.backing / 4096 = byte.backing / 4096)

/-! ## Accesses -/

/-- The widths of the accesses of the physical bus. -/
inductive Size where
  | byte
  | word
  | dword
  | qword
  deriving DecidableEq

def Size.bytes : Size → Nat
  | .byte => 1
  | .word => 2
  | .dword => 4
  | .qword => 8

namespace Layout

variable {δ : Type} (m : Layout) (dev : Devices δ)

/-- A read of the low bus. -/
def readMmio (size : Size) (a : Nat) : Access δ Nat :=
  match size with
  | .byte => do return (← m.read8 dev a) % 2 ^ 8
  | .word => do return (← m.read16 dev a) % 2 ^ 16
  | .dword => do return (← m.read32 dev a) % 2 ^ 32
  | .qword => do return (← m.read64 dev a) % 2 ^ 64

/-- A write of the low bus: one of 8 bytes is two. -/
def writeMmio (size : Size) (a value : Nat) : Access δ Unit :=
  match size with
  | .byte => m.write8 dev a (value % 2 ^ 8)
  | .word => m.write16 dev a (value % 2 ^ 16)
  | .dword => m.write32 dev a (value % 2 ^ 32)
  | .qword => do
    m.write32 dev a (value % 2 ^ 32)
    m.write32 dev (wrap (a + 4)) (value >>> 32 % 2 ^ 32)

/-- The loop of `read_allowed`, from an address and an offset on. -/
def readParts (address : Nat) : Nat → List Resolved → Nat → Access δ Nat
  | _, [], value => pure value
  | offset, byte :: bytes, value => do
    let part ← match byte.kind with
      | .ram => load 1 byte.backing
      | .mmio => m.read8 dev byte.backing
      | .extended => extendedRead (address + offset) 1
    readParts address (offset + 1) bytes (value ||| (part % 256) <<< (offset * 8))

/-- The loop of `write`. -/
def writeParts (address value : Nat) : Nat → List Resolved → Access δ Unit
  | _, [] => pure ()
  | offset, byte :: bytes => do
    let part := value >>> (offset * 8) % 256
    match byte.kind with
      | .ram => store 1 byte.backing part
      | .mmio => m.write8 dev byte.backing part
      | .extended => extendedWrite (address + offset) 1 part
    writeParts address value (offset + 1) bytes

/-- `read_allowed`. -/
def readAllowed (address : Nat) (size : Size) (allowMmio : Bool) :
    Access δ (Except PhysicalError Nat) :=
  let width := size.bytes
  if m.plainRam address width then .ok <$> load width address
  else if m.contains address && samePage address width then .ok <$> extendedRead address width
  else
    match m.access address width with
    | .error error => pure (.error error)
    | .ok bytes =>
      if !allowMmio && bytes.any (·.kind = .mmio) then pure (.error .sideEffecting)
      else if bytes.all (·.kind = .extended) && samePage address width then
        .ok <$> extendedRead address width
      else if contiguous bytes then
        match bytes with
        | [] => pure (.ok 0)
        | first :: _ =>
          .ok <$> if first.kind = .ram then load width first.backing
            else m.readMmio dev size first.backing
      else .ok <$> m.readParts dev address 0 bytes 0

/-- `read8` to `read64`. -/
def physicalRead (size : Size) (address : Nat) : Access δ (Except PhysicalError Nat) :=
  m.readAllowed dev address size true

/-- `write`, of `write8` to `write64`. -/
def physicalWrite (size : Size) (address value : Nat) : Access δ (Except PhysicalError Unit) :=
  let width := size.bytes
  if m.plainRam address width then .ok <$> store width address value
  else if m.contains address && samePage address width then
    .ok <$> extendedWrite address width value
  else
    match m.access address width with
    | .error error => pure (.error error)
    | .ok bytes =>
      if bytes.all (·.kind = .extended) && samePage address width then
        .ok <$> extendedWrite address width value
      else if contiguous bytes then
        match bytes with
        | [] => pure (.ok ())
        | first :: _ =>
          .ok <$> if first.kind = .ram then store width first.backing value
            else m.writeMmio dev size first.backing value
      else .ok <$> m.writeParts dev address value 0 bytes

end Layout

/-! ## The machine -/

/-- The memory map, and whether the CPU is in compiled code. -/
structure Mapping where
  layout : Layout
  busy : Bool

namespace Mapping

variable (m : Mapping)

/-- The new windows, with the limit of fast RAM that follows from them (`invalidate_mapping`). -/
def withBus (bus : PhysicalBus) : Mapping :=
  let layout := { m.layout with bus }
  { m with layout := { layout with ramFastLimit := layout.fastLimit } }

/-- `set_window`: the result, and the machine after it. -/
def setWindow (slot : Nat) (window : Option Window) : Except PhysicalError Unit × Mapping :=
  if m.busy then (.error .busy, m)
  else
    match m.layout.bus.replace m.layout.extendedRange slot window m.layout.memorySize with
    | .error error => (.error error, m)
    | .ok (_, false) => (.ok (), m)
    | .ok (bus, true) => (.ok (), m.withBus bus)

/-- `validated_windows`: the windows are put in one after the other. -/
def validatedWindows (windows : Fin 16 → Option Window) : Except PhysicalError PhysicalBus :=
  (List.finRange 16).foldlM (fun candidate (slot : Fin 16) => Prod.fst <$>
    candidate.replace m.layout.extendedRange slot.val (windows slot) m.layout.memorySize) .new

/-- `restore_windows`. -/
def restoreWindows (windows : Fin 16 → Option Window) : Except PhysicalError Unit × Mapping :=
  if m.busy then (.error .busy, m)
  else
    match m.validatedWindows windows with
    | .error error => (.error error, m)
    | .ok candidate =>
      if m.layout.bus.generation + 1 = 2 ^ 64 then (.error .generationExhausted, m)
      else (.ok (), m.withBus { candidate with generation := m.layout.bus.generation + 1 })

/-- `smram_set_tseg`, with `memory_map_changed`, which traps at the last generation. -/
def setTseg (base stop : BitVec 32) : Option Mapping :=
  let (base, stop) := if base < stop then (base, stop) else (0, 0)
  if m.layout.tsegBase = base.toNat ∧ m.layout.tsegEnd = stop.toNat then some m
  else if m.layout.bus.generation + 1 = 2 ^ 64 then none
  else
    some ({ m with
      layout := { m.layout with
        tsegBase := base.toNat
        tsegEnd := stop.toNat } }.withBus
          { m.layout.bus with generation := m.layout.bus.generation + 1 })

end Mapping

/-- What the emulator accepts: `create_memory`, `configure_high_memory` and
`configure_extended_memory` of `cpu.js`. -/
structure Settings where
  memorySize : Nat
  high : Nat
  extendedPages : Nat
  memorySize_sound : 2 ^ 17 ∣ memorySize ∧ memorySize + 2 ^ 17 ≤ 2 ^ 31
  high_sound : high = 0 ∨ 2 ^ 20 ∣ high ∧ high + (32 <<< 20) ≤ memorySize
  extended_sound : 512 ∣ extendedPages ∧ 2 ^ 32 + high + extendedPages * pageSize ≤ physicalLimit

/-- RAM alone. -/
def Settings.bare (c : Settings) : Mapping where
  layout :=
    { memorySize := c.memorySize
      ramFastLimit := c.memorySize
      bus := .new
      tsegBase := 0
      tsegEnd := 0
      smmActive := false
      smramControl := 0
      longMode := false
      base := 0
      pages := 0
      slotPage := fun _ => none
      regions := [] }
  busy := false

/-- The machine when it starts: the top of RAM is relocated to 4 GiB, and extended RAM is behind it. -/
def Settings.start (c : Settings) : Mapping :=
  let m := if c.high = 0 then c.bare
    else (c.bare.setWindow 0 (some {
      guestBase := 0x100000000
      backing := BitVec.ofNat 32 (c.memorySize - c.high)
      length := BitVec.ofNat 32 c.high
      kind := .ram })).2
  if c.extendedPages = 0 then m
  else { m with layout := { m.layout with base := 2 ^ 32 + c.high, pages := c.extendedPages } }

/-- What changes the memory map while the machine runs. -/
inductive MapCommand where
  | setWindow (slot : Nat) (window : Option Window)
  | restoreWindows (windows : Fin 16 → Option Window)
  | setTseg (base stop : BitVec 32)
  | smm (active : Bool)
  | busy (busy : Bool)
  /-- SMRAM, long mode, the aperture and device memory -/
  | decode (smramControl : BitVec 8) (longMode : Bool) (slotPage : Nat → Option Nat)
    (regions : List Region)

/-- A command: none is a trap. -/
def Mapping.step (m : Mapping) : MapCommand → Option Mapping
  | .setWindow slot window => some (m.setWindow slot window).2
  | .restoreWindows windows => some (m.restoreWindows windows).2
  | .setTseg base stop => m.setTseg base stop
  | .smm active => some { m with layout := { m.layout with smmActive := active } }
  | .busy busy => some { m with busy }
  | .decode smramControl longMode slotPage regions =>
    some { m with layout := { m.layout with smramControl, longMode, slotPage, regions } }

/-- The machine after some commands. -/
def Mapping.run (m : Mapping) : List MapCommand → Option Mapping
  | [] => some m
  | command :: commands => (m.step command).bind fun m => m.run commands

end V86.Bus
