import V86.Lib.Routine
import Mathlib.Algebra.GroupWithZero.Nat
import Mathlib.Logic.Function.Basic

/-!
# Segment registers and descriptors

The segment registers with their cached descriptors, the tables they are loaded from and
`switch_seg`, which loads one. A memory is whatever answers reads and writes of linear addresses,
by a value or a fault: `Bus`. Nothing is assumed of it. A fault that a routine delivers ends it here
with the fault as its error; its delivery is a transfer of its own.
-/

namespace V86.Transfers

scoped instance neZeroRegs : NeZero 16 := ⟨by decide⟩

inductive SegReg where
  | ES | CS | SS | DS | FS | GS | TR | LDTR
  deriving DecidableEq, Repr

/-- A segment register: the selector, and the cached descriptor behind it. -/
structure Segment where
  selector : BitVec 16
  isNull : Bool
  limit : BitVec 32
  access : BitVec 8
  base : BitVec 64

/-- What a routine fails with. -/
inductive Fault where
  | pageFault
  | exception (vector : Nat) (code : BitVec 32)
  /-- an `unwrap` of an error -/
  | panic
  deriving DecidableEq

/-- `trigger_gp`, `Fault::gp`. -/
def gp (code : BitVec 32) : Fault := .exception 13 code

def np (code : BitVec 32) : Fault := .exception 11 code

def ss (code : BitVec 32) : Fault := .exception 12 code

def ts (code : BitVec 32) : Fault := .exception 10 code

/-- Who accesses memory: the system for its tables, or the code at a privilege level, its stack or
other data. -/
inductive Accessor where
  | system
  | code (cpl : BitVec 8) (stack : Bool)

/-- The state of a core that transfers of control read and write. -/
structure Cpu (μ : Type) where
  segment : SegReg → Segment
  cpl : BitVec 8
  gpr : Fin 16 → BitVec 64
  ip : BitVec 64
  flags : BitVec 32
  /-- what `getcf` .. `getof` give, each in its place -/
  arithmetic : BitVec 32
  protectedMode : Bool
  is32 : Bool
  stackSize32 : Bool
  /-- `x64_cs_long` -/
  csLong : Bool
  /-- `EFER.LMA` -/
  lma : Bool
  tssSize32 : Bool
  nmiBlocked : Bool
  interruptShadow : Bool
  gdtrBase : BitVec 64
  gdtrSize : BitVec 16
  cr0 : BitVec 32
  memory : μ

/-- Memory as a core sees it: reads and writes of so many bits, and the check that bytes can be
written. `setCr3` changes what the linear addresses lead to, and `deliver` is the delivery of a
general protection fault in the middle of a routine that goes on. -/
structure Bus (μ : Type) where
  read : Accessor → Nat → BitVec 64 → μ → Except Fault (BitVec 64) × μ
  write : Accessor → Nat → BitVec 64 → BitVec 64 → μ → Except Fault Unit × μ
  probeWrite : Accessor → Nat → BitVec 64 → μ → Except Fault Unit × μ
  setCr3 : BitVec 32 → μ → μ
  deliver : Cpu μ → Cpu μ

/-- A routine of a core. -/
abbrev Run (μ : Type) := Routine Fault (Cpu μ)

section

variable {μ : Type}

/-- An access of memory, which may fault. -/
def access {α : Type} (f : μ → Except Fault α × μ) : Run μ α := do
  let s ← get
  let (result, memory) := f s.memory
  set { s with memory }
  match result with
  | .ok a => pure a
  | .error fault => throw fault

/-- A read of a table. -/
def Bus.readSystem (bus : Bus μ) (width : Nat) (address : BitVec 64) : Run μ (BitVec 64) :=
  access (bus.read .system width address)

def Bus.writeSystem (bus : Bus μ) (width : Nat) (address value : BitVec 64) : Run μ Unit :=
  access (bus.write .system width address value)

/-- A read by the running code: `safe_read16`, `safe_read32s`, and `memory::read` of `x64`, which
is told of stack accesses. -/
def Bus.readCode (bus : Bus μ) (width : Nat) (address : BitVec 64) (stack : Bool := false) :
    Run μ (BitVec 64) := do
  let s ← get
  access (bus.read (.code s.cpl stack) width address)

def Bus.writeCode (bus : Bus μ) (width : Nat) (address value : BitVec 64) : Run μ Unit := do
  let s ← get
  access (bus.write (.code s.cpl false) width address value)

/-- `writable_or_pagefault`, for so many bytes. -/
def Bus.probeCode (bus : Bus μ) (size : Nat) (address : BitVec 64) : Run μ Unit := do
  let s ← get
  access (bus.probeWrite (.code s.cpl false) size address)

end

/-! ## Selectors and descriptors -/

namespace Selector

variable (selector : BitVec 16)

def rpl : BitVec 8 := (selector &&& 3).setWidth 8

def isGdt : Bool := selector &&& 4 = 0

def descriptorOffset : BitVec 16 := selector &&& ~~~7

def isNull : Bool := isGdt selector && descriptorOffset selector = 0

/-- The error code of a fault about a selector. -/
def error : BitVec 32 := (selector &&& ~~~3).setWidth 32

end Selector

/-- A segment descriptor, by its eight bytes. -/
structure Descriptor where
  raw : BitVec 64

namespace Descriptor

variable (d : Descriptor)

def base : BitVec 32 :=
  (d.raw >>> 16 &&& 0xffff ||| (d.raw &&& 0xff00000000) >>> 16 |||
    (d.raw >>> 56) <<< 24).setWidth 32

def limit : BitVec 32 := (d.raw &&& 0xffff ||| (d.raw >>> 48 &&& 0xf) <<< 16).setWidth 32

def accessByte : BitVec 8 := (d.raw >>> 40).setWidth 8

def flags : BitVec 8 := (d.raw >>> 52 &&& 0xf).setWidth 8

def isSystem : Bool := d.accessByte &&& 0x10 = 0

def systemType : BitVec 8 := d.accessByte &&& 0xF

def accessed : Bool := d.accessByte &&& 1 = 1

def isRw : Bool := d.accessByte &&& 2 = 2

def isDc : Bool := d.accessByte &&& 4 = 4

def isExecutable : Bool := d.accessByte &&& 8 = 8

def isPresent : Bool := d.accessByte &&& 0x80 = 0x80

def isWritable : Bool := d.isRw && !d.isExecutable

def isReadable : Bool := d.isRw || !d.isExecutable

def isConformingExecutable : Bool := d.isDc && d.isExecutable

def dpl : BitVec 8 := d.accessByte >>> 5 &&& 3

def is32 : Bool := d.flags &&& 4 = 4

/-- The flag L: 64-bit code. -/
def isLong : Bool := d.flags &&& 2 ≠ 0

def effectiveLimit : BitVec 32 :=
  if d.flags &&& 8 = 8 then d.limit <<< 12 ||| 0xFFF else d.limit

def setBusy : Descriptor := ⟨d.raw ||| 2#64 <<< 40⟩

def clearBusy : Descriptor := ⟨d.raw &&& ~~~(2#64 <<< 40)⟩

def setAccessed : Descriptor := ⟨d.raw ||| 1#64 <<< 40⟩

end Descriptor

inductive SelectorNullOrInvalid where
  | isNull
  | outsideOfTableLimit

/-! ## Flags and registers -/

def FLAG_INTERRUPT : BitVec 32 := 0x200
def FLAG_TRAP : BitVec 32 := 0x100
def FLAG_IOPL : BitVec 32 := 0x3000
def FLAG_NT : BitVec 32 := 0x4000
def FLAG_RF : BitVec 32 := 0x10000
def FLAG_VM : BitVec 32 := 0x20000
def FLAG_VIF : BitVec 32 := 0x80000
def FLAG_VIP : BitVec 32 := 0x100000
def FLAGS_DEFAULT : BitVec 32 := 2
def FLAGS_MASK : BitVec 32 := 0x3F7FD5
def FLAGS_ALL : BitVec 32 := 0x8D5

namespace Cpu

variable {μ : Type} (s : Cpu μ)

def vm86Mode : Bool := s.flags &&& FLAG_VM = FLAG_VM

def getiopl : BitVec 32 := s.flags >>> 12 &&& 3

/-- `get_eflags`, and `read_flags64` of `x64`. -/
def eflags : BitVec 32 := s.flags &&& ~~~FLAGS_ALL ||| s.arithmetic

/-- `*flags` is written, and the arithmetic flags are no longer lazy. -/
def setFlags (flags : BitVec 32) : Cpu μ := { s with flags, arithmetic := flags &&& FLAGS_ALL }

def updateEflags (newFlags : BitVec 32) : Cpu μ :=
  let dontUpdate := FLAG_RF ||| FLAG_VM ||| FLAG_VIP ||| FLAG_VIF
  let clear := ~~~FLAG_VIP &&& ~~~FLAG_VIF &&& FLAGS_MASK
  let (dontUpdate, clear) :=
    if s.flags &&& FLAG_VM ≠ 0 then
      -- the other case is for popf and iret
      (dontUpdate ||| FLAG_IOPL, clear ||| FLAG_VIP ||| FLAG_VIF)
    else if s.cpl ≠ 0 then
      let dontUpdate := dontUpdate ||| FLAG_IOPL
      (if s.getiopl < s.cpl.setWidth 32 then dontUpdate ||| FLAG_INTERRUPT else dontUpdate, clear)
    else (dontUpdate, clear)
  let flags := (newFlags ^^^ ((s.flags ^^^ newFlags) &&& dontUpdate)) &&& clear ||| FLAGS_DEFAULT
  s.setFlags (flags &&& ~~~FLAG_TRAP)

/-- The low half of a segment's base, `segment_offsets`. -/
def segmentOffset (reg : SegReg) : BitVec 32 := (s.segment reg).base.setWidth 32

def setSegment (reg : SegReg) (seg : Segment) : Cpu μ :=
  { s with segment := Function.update s.segment reg seg }

/-- `*segment_offsets.offset(reg)` is written, which leaves the high half of the base. -/
def setOffset (reg : SegReg) (offset : BitVec 32) : Cpu μ :=
  s.setSegment reg { s.segment reg with
    base := (s.segment reg).base &&& 0xFFFFFFFF00000000 ||| offset.setWidth 64 }

def getSegCs : BitVec 32 := s.segmentOffset .CS

def getSegSs : BitVec 32 := s.segmentOffset .SS

def esp : BitVec 32 := (s.gpr 4).setWidth 32

/-- `write_reg32`, which leaves the high half. -/
def writeReg32 (r : Fin 16) (value : BitVec 32) : Cpu μ :=
  { s with gpr := Function.update s.gpr r (s.gpr r &&& 0xFFFFFFFF00000000 ||| value.setWidth 64) }

def writeReg16 (r : Fin 16) (value : BitVec 16) : Cpu μ :=
  { s with gpr := Function.update s.gpr r (s.gpr r &&& 0xFFFFFFFFFFFF0000 ||| value.setWidth 64) }

def getStackPointer (offset : BitVec 32) : BitVec 32 :=
  if s.stackSize32 then s.getSegSs + s.esp + offset
  else s.getSegSs + ((s.esp &&& 0xFFFF) + offset &&& 0xFFFF)

def setStackReg (value : BitVec 32) : Cpu μ :=
  if s.stackSize32 then s.writeReg32 4 value else s.writeReg16 4 (value.setWidth 16)

def adjustStackReg (adjustment : BitVec 32) : Cpu μ := s.setStackReg (s.esp + adjustment)

/-- `*instruction_pointer` is written, which leaves its high half. -/
def setInstructionPointer (value : BitVec 32) : Cpu μ :=
  { s with ip := s.ip &&& 0xFFFFFFFF00000000 ||| value.setWidth 64 }

/-- `get_real_eip`. -/
def realEip : BitVec 32 := s.ip.setWidth 32 - s.getSegCs

def switchCsRealMode (selector : BitVec 16) : Cpu μ :=
  let s := s.setSegment .CS { s.segment .CS with selector, isNull := false }
  { s.setOffset .CS (selector.setWidth 32 <<< 4) with is32 := false }

end Cpu

section

variable {μ : Type} (bus : Bus μ)

def lookupSegmentSelector (selector : BitVec 16) :
    Run μ (Except SelectorNullOrInvalid (Descriptor × BitVec 64)) := do
  if Selector.isNull selector then return .error .isNull
  let s ← get
  let (tableOffset, tableLimit) :=
    if Selector.isGdt selector then
      (if s.lma then s.gdtrBase else (s.gdtrBase.setWidth 32).setWidth 64, s.gdtrSize.setWidth 32)
    else
      let base := (s.segment .LDTR).base
      (if s.lma then base else (base.setWidth 32).setWidth 64, (s.segment .LDTR).limit)
  let offset := Selector.descriptorOffset selector
  if tableLimit < offset.setWidth 32 + 7 then return .error .outsideOfTableLimit
  let address := tableOffset + offset.setWidth 64
  let address := if s.lma then address else (address.setWidth 32).setWidth 64
  return .ok (⟨← bus.readSystem 64 address⟩, address)

def writeDescriptorAccessByte (address : BitVec 64) (accessByte : BitVec 8) : Run μ Unit := do
  let s ← get
  let at5 := address + 5
  bus.writeSystem 8 (if s.lma then at5 else (at5.setWidth 32).setWidth 64) (accessByte.setWidth 64)

/-- `switch_seg` outside protected mode. -/
def Cpu.switchRealSeg (s : Cpu μ) (reg : SegReg) (selector : BitVec 16) : Cpu μ :=
  let s := s.setSegment reg { s.segment reg with selector, isNull := false }
  let s := s.setOffset reg (selector.setWidth 32 <<< 4)
  if reg = .SS then { s with stackSize32 := false } else s

/-- `switch_seg` of a null selector. -/
def Cpu.switchNullSeg (s : Cpu μ) (reg : SegReg) (selector : BitVec 16) : Cpu μ :=
  s.setSegment reg { s.segment reg with selector, isNull := true }

/-- A descriptor is cached. -/
def Cpu.cacheDescriptor (s : Cpu μ) (reg : SegReg) (selector : BitVec 16) (d : Descriptor) : Cpu μ :=
  s.setSegment reg ⟨selector, false, d.effectiveLimit, d.accessByte, d.base.setWidth 64⟩

/-- The checks on a descriptor for `SS`. -/
def checkStackSegment (selector : BitVec 16) (d : Descriptor) (cpl : BitVec 8) : Run μ Unit := do
  Routine.require (!(d.isSystem || Selector.rpl selector ≠ cpl || !d.isWritable || d.dpl ≠ cpl))
    (gp (Selector.error selector))
  Routine.require d.isPresent (ss (Selector.error selector))

/-- The checks on a descriptor for `ES`, `DS`, `FS` or `GS`. -/
def checkDataSegment (selector : BitVec 16) (d : Descriptor) (cpl : BitVec 8) : Run μ Unit := do
  Routine.require (!(d.isSystem || !d.isReadable ||
      !d.isConformingExecutable && (d.dpl < Selector.rpl selector || d.dpl < cpl)))
    (gp (Selector.error selector))
  Routine.require d.isPresent (np (Selector.error selector))

/-- `switch_seg`; where it gives `false`, the fault it has delivered is its error. -/
def switchSeg (reg : SegReg) (selector : BitVec 16) : Run μ Unit := do
  let s ← get
  if !s.protectedMode || s.vm86Mode then modify (·.switchRealSeg reg selector)
  else
    match ← lookupSegmentSelector bus selector with
    | .error .isNull =>
      if reg = .SS then throw (gp 0) else modify (·.switchNullSeg reg selector)
    | .error .outsideOfTableLimit => throw (gp (Selector.error selector))
    | .ok (d, address) =>
      if reg = .SS then
        checkStackSegment selector d s.cpl
        modify fun s => { s with stackSize32 := d.is32 }
      else checkDataSegment selector d s.cpl
      if d.accessed then modify (·.cacheDescriptor reg selector d)
      else
        writeDescriptorAccessByte bus address d.setAccessed.accessByte
        modify (·.cacheDescriptor reg selector d.setAccessed)

end

end V86.Transfers
