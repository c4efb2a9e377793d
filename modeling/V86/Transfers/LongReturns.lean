import V86.Transfers.Segments
import V86.X64.Paging

/-!
# Far returns of IA-32e mode

`x64::system::far_return` and `x64::system::iret`. They install `CS` and, for a return to an outer
ring or by `IRET`, `SS`.
-/

namespace V86.Transfers

namespace Cpu

variable {μ : Type} (s : Cpu μ)

/-- `install_cs`. -/
def installCs (selector : BitVec 16) (d : Descriptor) (privilege : BitVec 8) : Cpu μ :=
  let base : BitVec 64 := if d.isLong then 0 else d.base.setWidth 64
  let cs : Segment :=
    ⟨selector &&& ~~~3#16 ||| privilege.setWidth 16, false, d.effectiveLimit, d.accessByte, base⟩
  { s.setSegment .CS cs with is32 := d.is32, csLong := d.isLong, cpl := privilege }

/-- `write_rip`. -/
def writeRip (value : BitVec 64) : Cpu μ :=
  if s.protectedMode && s.lma && s.csLong then { s with ip := value }
  else
    let value : BitVec 32 := if s.is32 then value.setWidth 32 else (value.setWidth 16).setWidth 32
    { s with ip := (s.getSegCs + value).setWidth 64 }

/-- `write_gpr` of all 64 bits. -/
def writeGpr (r : Fin 16) (value : BitVec 64) : Cpu μ :=
  { s with gpr := Function.update s.gpr r value }

/-- `read_flags64`. -/
def readFlags64 : BitVec 64 := s.eflags.setWidth 64

/-- `write_flags64`. -/
def writeFlags64 (value : BitVec 64) : Cpu μ :=
  s.setFlags (value.setWidth 32 &&& FLAGS_MASK ||| FLAGS_DEFAULT)

end Cpu

section

variable {μ : Type} (bus : Bus μ)

/-- `x64::system::descriptor`. -/
def descriptor (selector : BitVec 16) : Run μ (Descriptor × BitVec 64) := do
  Routine.require (!(selector &&& ~~~3#16 = 0)) (gp 0)
  let s ← get
  let (base, limit) : BitVec 64 × BitVec 32 :=
    if selector &&& 4 ≠ 0 then ((s.segment .LDTR).base, (s.segment .LDTR).limit)
    else (s.gdtrBase, s.gdtrSize.setWidth 32)
  let offset : BitVec 32 := selector.setWidth 32 &&& ~~~7#32
  Routine.require (!(limit < offset + 7)) (gp (Selector.error selector))
  let address := base + offset.setWidth 64
  return (⟨← bus.readSystem 64 address⟩, address)

/-- A slot of the stack: `memory::read` as a stack access. -/
def readStack (width : Nat) (address : BitVec 64) : Run μ (BitVec 64) :=
  bus.readCode width address true

/-- The checks on a stack segment for a privilege level. -/
def checkLongStack (selector : BitVec 16) (d : Descriptor) (newCpl : BitVec 8) : Run μ Unit := do
  Routine.require (!(d.isSystem || !d.isWritable || d.dpl ≠ newCpl || Selector.rpl selector ≠ newCpl))
    (gp (Selector.error selector))
  Routine.require d.isPresent (ss (Selector.error selector))

/-- Whether a code descriptor may not be returned to at a privilege level. -/
def codeRefused (d : Descriptor) (newCpl cpl : BitVec 8) : Bool :=
  d.isSystem || !d.isExecutable || newCpl < cpl ||
    if d.isDc then newCpl < d.dpl else d.dpl ≠ newCpl

/-- `SS` is loaded with a descriptor, or the one there is for a null selector, by a return to code
of `long` or another kind. -/
def Cpu.installSs (s : Cpu μ) (long : Bool) (selector : BitVec 16) (d : Option Descriptor)
    (newCpl : BitVec 8) : Cpu μ :=
  let base : BitVec 64 := if long then 0 else d.elim 0 fun d => d.base.setWidth 64
  let seg : Segment := ⟨selector, false, d.elim (BitVec.allOnes 32) Descriptor.effectiveLimit,
    d.elim (0x93 ||| newCpl <<< 5) Descriptor.accessByte, base⟩
  { s.setSegment .SS seg with stackSize32 := d.elim true Descriptor.is32 }

/-- The stack of an outer ring: its pointer and segment, or `none` for a return within the ring. -/
def outerStack (width : Nat) (discard : BitVec 16) (newCpl : BitVec 8) (nextRsp : BitVec 64) :
    Run μ (BitVec 64 × Option (BitVec 16 × Descriptor)) := do
  let cpl := (← get).cpl
  if newCpl ≠ cpl then
    let pointer ← readStack bus width nextRsp
    let ssSelector := (← readStack bus width (nextRsp + BitVec.ofNat 64 (width / 8))).setWidth 16
    let (d, _) ← descriptor bus ssSelector
    checkLongStack ssSelector d newCpl
    Routine.require (X64.canonical pointer) (ss 0)
    return (pointer + discard.setWidth 64, some (ssSelector, d))
  else return (nextRsp, none)

/-- The accessed bit of a descriptor is set in its table. -/
def markAccessed (d : Descriptor) (address : BitVec 64) : Run μ Unit := do
  if !d.accessed then bus.writeSystem 8 (address + 5) ((d.accessByte ||| 1).setWidth 64)

def farReturn (width : Nat) (discard : BitVec 16) : Run μ Unit := do
  let unit := BitVec.ofNat 64 (width / 8)
  let rsp := (← get).gpr 4
  let ip ← readStack bus width rsp
  let selector := (← readStack bus width (rsp + unit)).setWidth 16
  let (cs, address) ← descriptor bus selector
  let newCpl := Selector.rpl selector
  let cpl := (← get).cpl
  Routine.require (!(codeRefused cs newCpl cpl || cs.isLong && cs.is32))
    (gp (Selector.error selector))
  Routine.require cs.isPresent (np (Selector.error selector))
  Routine.require (!(!X64.canonical ip || !cs.isLong && cs.effectiveLimit.setWidth 64 < ip)) (gp 0)
  let (nextRsp, stack) ←
    outerStack bus width discard newCpl (rsp + unit * 2 + discard.setWidth 64)
  markAccessed bus cs address
  modify fun s =>
    stack.elim s fun (ssSelector, d) => s.installSs cs.isLong ssSelector (some d) newCpl
  modify (·.writeGpr 4 nextRsp)
  modify (·.installCs selector cs newCpl)
  modify (·.writeRip ip)

/-- The stack segment of an `IRET`: `none` for a null selector, which 64-bit code may return to
outside of ring 3. -/
def longStack (long : Bool) (selector : BitVec 16) (newCpl : BitVec 8) :
    Run μ (Option Descriptor) := do
  if selector &&& ~~~3#16 = 0 then
    Routine.require (!(!long || newCpl = 3 || Selector.rpl selector ≠ newCpl)) (gp 0)
    return none
  else
    let (d, _) ← descriptor bus selector
    checkLongStack selector d newCpl
    return some d

/-- The flags of an `IRET`, by the privilege level that it returns from. -/
def Cpu.longReturnFlags (s : Cpu μ) (flags : BitVec 64) : BitVec 64 :=
  let flags := if s.cpl ≠ 0 then flags &&& ~~~0x3000#64 ||| (s.readFlags64 &&& 0x3000) else flags
  let flags := if s.getiopl < s.cpl.setWidth 32 then
    flags &&& ~~~0x200#64 ||| (s.readFlags64 &&& 0x200) else flags
  flags &&& ~~~0x20000#64

def iret (width : Nat) : Run μ Unit := do
  let s ← get
  Routine.require (s.readFlags64 &&& 0x4000 = 0) (gp 0)
  let rsp := s.gpr 4
  let slot := BitVec.ofNat 64 (width / 8)
  let ip ← readStack bus width rsp
  let selector := (← readStack bus width (rsp + slot)).setWidth 16
  let flags ← readStack bus width (rsp + 2 * slot)
  let flags := if width = 16 then flags &&& 0xFFFF ||| (s.readFlags64 &&& ~~~0xFFFF#64) else flags
  let newRsp ← readStack bus width (rsp + 3 * slot)
  let ssSelector := (← readStack bus width (rsp + 4 * slot)).setWidth 16
  modify fun s => { s with nmiBlocked := false, interruptShadow := false }
  let (cs, _) ← descriptor bus selector
  let newCpl := Selector.rpl selector
  Routine.require (!codeRefused cs newCpl s.cpl) (gp (Selector.error selector))
  Routine.require (!(cs.isLong && cs.is32)) (gp (Selector.error selector))
  Routine.require cs.isPresent (np (Selector.error selector))
  Routine.require (!(!X64.canonical ip || !cs.isLong && cs.effectiveLimit.setWidth 64 < ip)) (gp 0)
  Routine.require (X64.canonical newRsp) (ss 0)
  let stack ← longStack bus cs.isLong ssSelector newCpl
  modify fun s => s.writeFlags64 (s.longReturnFlags flags)
  modify (·.installCs selector cs newCpl)
  modify (·.installSs cs.isLong ssSelector stack newCpl)
  modify (·.writeGpr 4 newRsp)
  modify (·.writeRip ip)

end

end V86.Transfers
