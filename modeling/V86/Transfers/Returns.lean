import V86.Transfers.Segments

/-!
# Far returns of legacy and compatibility mode

`iret_checked` and `far_return_checked`, with the task switch that an `IRET` under `NT` is. A
routine that gives `false` ends in the fault it has delivered. Interrupts that are pending when a
return is complete are delivered after it (`handle_irqs`), which is not part of it here.
-/

namespace V86.Transfers

def TSR_BACKLINK : BitVec 32 := 0x00
def TSR_CR3 : BitVec 32 := 0x1C
def TSR_EIP : BitVec 32 := 0x20
def TSR_EFLAGS : BitVec 32 := 0x24
def TSR_EAX : BitVec 32 := 0x28
def TSR_ES : BitVec 32 := 0x48
def TSR_CS : BitVec 32 := 0x4C
def TSR_SS : BitVec 32 := 0x50
def TSR_DS : BitVec 32 := 0x54
def TSR_FS : BitVec 32 := 0x58
def TSR_GS : BitVec 32 := 0x5C
def TSR_LDT : BitVec 32 := 0x60

def CR0_TS : BitVec 32 := 8

/-- The registers a 32-bit TSS holds, in its order. -/
def taskRegisters : List (Fin 16) := [0, 1, 2, 3, 4, 5, 6, 7]

inductive TaskSwitchSource where
  | jump | callOrInt | iret
  deriving DecidableEq

section

variable {μ : Type} (bus : Bus μ)

/-- `safe_read16`. -/
def safeRead16 (address : BitVec 32) : Run μ (BitVec 16) := do
  return (← bus.readCode 16 (address.setWidth 64)).setWidth 16

/-- `safe_read32s`. -/
def safeRead32 (address : BitVec 32) : Run μ (BitVec 32) := do
  return (← bus.readCode 32 (address.setWidth 64)).setWidth 32

/-- A slot of the stack at `offset`: a word for 16-bit operands, a doubleword otherwise. -/
def stackSlot (is16 : Bool) (offset : BitVec 32) : Run μ (BitVec 32) := do
  let s ← get
  if is16 then return (← safeRead16 bus (s.getStackPointer offset)).setWidth 32
  else safeRead32 bus (s.getStackPointer offset)

/-- A selector in the stack at `offset`. -/
def stackSelector (offset : BitVec 32) : Run μ (BitVec 16) := do
  let s ← get
  safeRead16 bus (s.getStackPointer offset)

/-! ## Task switches -/

def loadLdtChecked (selector : BitVec 16) (taskSwitch : Bool) : Run μ Unit := do
  let error := Selector.error selector
  let fault (notPresent : Bool) : Fault :=
    if taskSwitch then ts error else if notPresent then np error else gp error
  let load (limit base : BitVec 32) (s : Cpu μ) : Cpu μ :=
    (s.setSegment .LDTR { s.segment .LDTR with selector, limit }).setOffset .LDTR base
  if Selector.isNull selector then modify (load 0 0)
  else
    Routine.require (Selector.isGdt selector) (fault false)
    match ← lookupSegmentSelector bus selector with
    | .error _ => throw (fault false)
    | .ok (d, _) =>
      Routine.require (d.isSystem && d.systemType = 2) (fault false)
      Routine.require d.isPresent (fault true)
      modify (load d.effectiveLimit d.base)

/-- `set_cr3`, whose result a task switch ignores: in IA-32e mode it raises a fault outside of ring
0. -/
def Cpu.setCr3 (s : Cpu μ) (cr3 : BitVec 32) : Cpu μ :=
  if s.lma && s.cpl ≠ 0 then bus.deliver s else { s with memory := bus.setCr3 cr3 s.memory }

/-- The descriptor of the new task's TSS, checked. -/
def checkTss (selector : BitVec 16) (source : TaskSwitchSource) :
    Run μ (Descriptor × BitVec 64) := do
  let error := Selector.error selector
  let invalid := if source = .iret then ts error else gp error
  match ← lookupSegmentSelector bus selector with
  | .error _ => throw invalid
  | .ok (d, address) =>
    let tssType := d.systemType
    Routine.require (Selector.isGdt selector && d.isSystem &&
      (tssType = 1 || tssType = 3 || tssType = 9 || tssType = 11)) invalid
    let busy := tssType &&& 2 = 2
    if source = .iret then Routine.require busy (ts error)
    else Routine.require (!busy) (gp error)
    Routine.require d.isPresent (np error)
    let is16 := tssType ≤ 3
    Routine.require (!(d.effectiveLimit < if is16 then 43 else 103)) (ts error)
    -- the tasks of a 16-bit TSS are not implemented
    Routine.require (!is16) (ts error)
    return (d, address)

/-- What a TSS holds of a task. -/
structure TaskImage where
  cr3 : BitVec 32
  eip : BitVec 32
  eflags : BitVec 32
  gpr : List (BitVec 32)
  cs : BitVec 16
  es : BitVec 16
  ss : BitVec 16
  ds : BitVec 16
  fs : BitVec 16
  gs : BitVec 16
  ldt : BitVec 16

def readTask (offset : BitVec 32) : Run μ TaskImage := do
  let cr3 ← safeRead32 bus (offset + TSR_CR3)
  let eip ← safeRead32 bus (offset + TSR_EIP)
  let eflags ← safeRead32 bus (offset + TSR_EFLAGS)
  let gpr ← taskRegisters.mapM fun r =>
    safeRead32 bus (offset + TSR_EAX + 4 * BitVec.ofNat 32 r.val)
  let cs ← safeRead16 bus (offset + TSR_CS)
  let es ← safeRead16 bus (offset + TSR_ES)
  let ss ← safeRead16 bus (offset + TSR_SS)
  let ds ← safeRead16 bus (offset + TSR_DS)
  let fs ← safeRead16 bus (offset + TSR_FS)
  let gs ← safeRead16 bus (offset + TSR_GS)
  let ldt ← safeRead16 bus (offset + TSR_LDT)
  return ⟨cr3, eip, eflags, gpr, cs, es, ss, ds, fs, gs, ldt⟩

/-- The outgoing task is saved, and the busy bits of the two TSSs follow `source`. -/
def leaveTask (source : TaskSwitchSource) (oldEflags : BitVec 32) (d : Descriptor)
    (address : BitVec 64) : Run μ Unit := do
  let s ← get
  let offset := s.segmentOffset .TR
  let saved : List (BitVec 32 × BitVec 32) :=
    [(TSR_EIP, s.realEip), (TSR_EFLAGS, oldEflags)] ++
      taskRegisters.map (fun r => (TSR_EAX + 4 * BitVec.ofNat 32 r.val, (s.gpr r).setWidth 32)) ++
      [(TSR_ES, SegReg.ES), (TSR_CS, .CS), (TSR_SS, .SS), (TSR_DS, .DS), (TSR_FS, .FS),
        (TSR_GS, .GS)].map fun (at', reg) => (at', (s.segment reg).selector.setWidth 32)
  for (at', value) in saved do
    bus.writeCode 32 ((offset + at').setWidth 64) (value.setWidth 64)
  if source = .jump || source = .iret then
    match ← lookupSegmentSelector bus (s.segment .TR).selector with
    | .ok (old, oldAddress) =>
      bus.writeCode 64 ((oldAddress.setWidth 32).setWidth 64) old.clearBusy.raw
    | .error _ => pure ()
  if source ≠ .iret then bus.writeCode 64 ((address.setWidth 32).setWidth 64) d.setBusy.raw
  if source = .callOrInt then
    bus.writeCode 16 ((d.base + TSR_BACKLINK).setWidth 64) ((s.segment .TR).selector.setWidth 64)

/-- `CS` of the new task, and the privilege level it gives. -/
def enterTaskCode (task : TaskImage) (vm : Bool) : Run μ (BitVec 8) := do
  if vm then
    modify fun s =>
      let s := s.setSegment .CS { s.segment .CS with selector := task.cs, isNull := false }
      { s.setOffset .CS (task.cs.setWidth 32 <<< 4) with is32 := false }
    return 3
  else
    let error := Selector.error task.cs
    match ← lookupSegmentSelector bus task.cs with
    | .error _ => throw (ts error)
    | .ok (d, _) =>
      let rpl := Selector.rpl task.cs
      Routine.require (!(d.isSystem || !d.isExecutable || d.isDc && rpl < d.dpl ||
        !d.isDc && d.dpl ≠ rpl)) (ts error)
      Routine.require d.isPresent (np error)
      modify fun s =>
        let cs := { s.segment .CS with
          selector := task.cs, isNull := false, limit := d.effectiveLimit, access := d.accessByte }
        { (s.setSegment .CS cs).setOffset .CS d.base with is32 := d.is32 }
      return rpl

/-- `do_task_switch_checked`, from where an interrupt that has an error code would push it. -/
def doTaskSwitchChecked (selector : BitVec 16) (source : TaskSwitchSource) : Run μ Unit := do
  let (d, address) ← checkTss bus selector source
  let s ← get
  let busy := d.systemType &&& 2 = 2
  let oldEflags := if busy then s.eflags &&& ~~~FLAG_NT else s.eflags
  bus.probeCode 0x66 ((s.segmentOffset .TR).setWidth 64)
  if source = .callOrInt then bus.probeCode 2 ((d.base + TSR_BACKLINK).setWidth 64)
  let task ← readTask bus d.base
  leaveTask bus source oldEflags d address
  let eflags := if source = .callOrInt then task.eflags ||| FLAG_NT else task.eflags
  -- the new task: TR, CR3 and the general registers
  modify fun s =>
    (s.setSegment .TR { s.segment .TR with selector, limit := d.effectiveLimit }).setOffset .TR
      d.base
  modify (·.setCr3 bus task.cr3)
  modify fun s => { s with cr0 := s.cr0 ||| CR0_TS }
  modify fun s => taskRegisters.foldl (fun s r => s.writeReg32 r (task.gpr.getD r.val 0)) s
  modify fun s => { s with flags := s.flags &&& ~~~FLAG_VM }
  loadLdtChecked bus task.ldt true
  let vm := eflags &&& FLAG_VM ≠ 0
  let newCpl ← enterTaskCode bus task vm
  modify fun s => { s with cpl := 0 }.updateEflags eflags
  modify fun s => { s with flags := if vm then s.flags ||| FLAG_VM else s.flags, cpl := newCpl }
  modify fun s => s.setInstructionPointer (s.getSegCs + if vm then task.eip &&& 0xFFFF else task.eip)
  switchSeg bus .ES task.es
  switchSeg bus .SS task.ss
  switchSeg bus .DS task.ds
  switchSeg bus .FS task.fs
  switchSeg bus .GS task.gs
  let s ← get
  Routine.require (vm || task.eip ≤ (s.segment .CS).limit) (gp 0)

/-! ## Returns -/

/-- The descriptor a return finds for `CS`, checked against the privilege levels. -/
def checkReturnCode (selector : BitVec 16) : Run μ Descriptor := do
  let error := Selector.error selector
  let rpl := Selector.rpl selector
  match ← lookupSegmentSelector bus selector with
  | .error .isNull => throw (gp 0)
  | .error .outsideOfTableLimit => throw (gp error)
  | .ok (d, _) =>
    let s ← get
    Routine.require (!(d.isSystem || !d.isExecutable)) (gp error)
    Routine.require (!(rpl < s.cpl)) (gp error)
    Routine.require (!(d.isDc && rpl < d.dpl)) (gp error)
    Routine.require (!(!d.isDc && rpl ≠ d.dpl)) (gp error)
    Routine.require d.isPresent (np error)
    return d

/-- A data segment that the new privilege level may not use is made null. -/
def Cpu.dropInner (s : Cpu μ) (reg : SegReg) : Cpu μ :=
  let access := (s.segment reg).access
  let dpl := access >>> 5 &&& 3
  let executable := access &&& 8 = 8
  let conforming := access &&& 4 = 4
  if dpl < s.cpl ∧ ¬ (executable ∧ conforming) then
    s.setSegment reg { s.segment reg with isNull := true, selector := 0 }
  else s

/-- The loop over `[ES, DS, FS, GS]`. -/
def Cpu.dropAllInner (s : Cpu μ) : Cpu μ :=
  [SegReg.ES, .DS, .FS, .GS].foldl Cpu.dropInner s

/-- `update_eflags` of an `IRET`. -/
def Cpu.returnFlags (s : Cpu μ) (is16 : Bool) (newFlags : BitVec 32) : Cpu μ :=
  s.updateEflags (if is16 then newFlags ||| s.flags &&& ~~~0xFFFF#32 else newFlags)

/-- `VIP` and `VIF`, which `update_eflags` does not change. -/
def Cpu.returnVirtualFlags (s : Cpu μ) (is16 : Bool) (newFlags : BitVec 32) : Cpu μ :=
  if s.cpl = 0 ∧ ¬ is16 then
    { s with
      flags := s.flags &&& ~~~FLAG_VIF &&& ~~~FLAG_VIP ||| (newFlags &&& (FLAG_VIF ||| FLAG_VIP)) }
  else s

/-- An `IRET` of real mode, or of virtual-8086 mode at IOPL 3. -/
def iretReal (is16 : Bool) (newEip : BitVec 32) (newCs : BitVec 16) (newFlags : BitVec 32) :
    Run μ Unit := do
  Routine.require (newEip &&& 0xFFFF0000 = 0) (gp 0)
  modify (·.switchCsRealMode newCs)
  modify fun s => s.setInstructionPointer (s.getSegCs + newEip)
  if is16 then
    modify fun s => s.updateEflags (newFlags ||| s.flags &&& ~~~0xFFFF#32)
    modify (·.adjustStackReg (3 * 2))
  else
    modify fun s => s.updateEflags
      (if !s.protectedMode then (newFlags &&& 0x257FD5) ||| (s.flags &&& 0x1A0000) else newFlags)
    modify (·.adjustStackReg (3 * 4))

/-- A return to virtual-8086 mode. -/
def iretVm86 (newEip : BitVec 32) (newCs : BitVec 16) (newFlags : BitVec 32) : Run μ Unit := do
  let esp ← stackSlot bus false 12
  let ss ← stackSelector bus 16
  let es ← stackSelector bus 20
  let ds ← stackSelector bus 24
  let fs ← stackSelector bus 28
  let gs ← stackSelector bus 32
  modify (·.updateEflags newFlags)
  modify fun s => { s with flags := s.flags ||| FLAG_VM }
  modify (·.switchCsRealMode newCs)
  modify fun s => s.setInstructionPointer (s.getSegCs + (newEip &&& 0xFFFF))
  switchSeg bus .ES es
  switchSeg bus .DS ds
  switchSeg bus .FS fs
  switchSeg bus .GS gs
  -- eip, cs, flags, esp, ss, es, ds, fs, gs
  modify (·.adjustStackReg (9 * 4))
  modify (·.writeReg32 4 esp)
  switchSeg bus .SS ss
  modify fun s => { s with cpl := 3, is32 := false }

/-- The stack of the outer privilege level, checked before the return begins. -/
def checkOuterStack (selector : BitVec 16) (newCpl : BitVec 8) : Run μ Unit := do
  match ← lookupSegmentSelector bus selector with
  | .error .isNull => throw (gp 0)
  | .error .outsideOfTableLimit => throw (gp (Selector.error selector))
  | .ok (d, _) => checkStackSegment selector d newCpl

/-- The end of an `IRET`: `CS` and the instruction pointer. -/
def Cpu.iretCode (s : Cpu μ) (selector : BitVec 16) (d : Descriptor) (eip : BitVec 32) : Cpu μ :=
  let cs : Segment := { s.segment .CS with
    selector, limit := d.effectiveLimit, access := d.accessByte }
  let s := { (s.setSegment .CS cs).setOffset .CS d.base with is32 := d.is32 }
  s.setInstructionPointer (eip + s.getSegCs)

/-- An `IRET` within protected mode. -/
def iretProtected (is16 : Bool) (newEip : BitVec 32) (newCs : BitVec 16) (newFlags : BitVec 32) :
    Run μ Unit := do
  let d ← checkReturnCode bus newCs
  Routine.require (!(d.effectiveLimit < newEip)) (gp 0)
  let rpl := Selector.rpl newCs
  let s ← get
  if s.cpl < rpl then
    let esp ← stackSlot bus is16 (if is16 then 6 else 12)
    let ss ← stackSelector bus (if is16 then 8 else 16)
    checkOuterStack bus ss rpl
    modify (·.returnFlags is16 newFlags)
    modify fun s => { s with cpl := rpl }
    switchSeg bus .SS ss
    modify (·.setStackReg esp)
    modify (·.returnVirtualFlags is16 newFlags)
    modify (·.dropAllInner)
  else
    modify (·.adjustStackReg (if is16 then 3 * 2 else 3 * 4))
    modify (·.returnFlags is16 newFlags)
    modify (·.returnVirtualFlags is16 newFlags)
  modify (·.iretCode newCs d newEip)

def iretChecked (is16 : Bool) : Run μ Unit := do
  modify fun s => { s with nmiBlocked := false, interruptShadow := false }
  let s ← get
  Routine.require (!(s.vm86Mode && s.getiopl < 3)) (gp 0)
  let newEip ← stackSlot bus is16 0
  let newCs ← stackSelector bus (if is16 then 2 else 4)
  let newFlags ← stackSlot bus is16 (if is16 then 4 else 8)
  let s ← get
  if !s.protectedMode || s.vm86Mode && s.getiopl = 3 then iretReal is16 newEip newCs newFlags
  else if s.flags &&& FLAG_NT ≠ 0 then
    -- nested task
    let backlink ← safeRead16 bus (s.segmentOffset .TR + TSR_BACKLINK)
    doTaskSwitchChecked bus backlink .iret
  else if newFlags &&& FLAG_VM ≠ 0 ∧ s.cpl = 0 then iretVm86 bus newEip newCs newFlags
  else iretProtected bus is16 newEip newCs (newFlags &&& ~~~FLAG_VM)

/-- The end of a far return: `CS` and the instruction pointer. -/
def Cpu.farReturnCode (s : Cpu μ) (selector : BitVec 16) (d : Descriptor) (eip : BitVec 32) : Cpu μ :=
  let long := s.lma && d.isLong
  let base : BitVec 64 := if long then 0 else d.base.setWidth 64
  let cs : Segment := { s.segment .CS with
    selector, isNull := false, limit := d.effectiveLimit, access := d.accessByte }
  let s := { (s.setSegment .CS cs).setOffset .CS (base.setWidth 32) with
    csLong := long, is32 := d.is32 }
  { s with ip := (s.getSegCs + eip).setWidth 64 }

def farReturnChecked (eip : BitVec 32) (selector : BitVec 16) (stackAdjust : BitVec 32)
    (isOsize32 : Bool) : Run μ Unit := do
  let s ← get
  let size : BitVec 32 := if isOsize32 then 4 else 2
  if !s.protectedMode || s.vm86Mode then
    modify (·.switchCsRealMode selector)
    modify fun s => s.setInstructionPointer (s.getSegCs + eip)
    modify (·.adjustStackReg (2 * size + stackAdjust))
  else
    let d ← checkReturnCode bus selector
    let long := s.lma && d.isLong
    Routine.require (!(long && d.is32 || !long && d.effectiveLimit < eip)) (gp 0)
    let rpl := Selector.rpl selector
    if s.cpl < rpl then
      let esp ← Routine.mapError (fun _ => .panic)
        (stackSlot bus (!isOsize32) (stackAdjust + 2 * size))
      let ss ← Routine.mapError (fun _ => .panic) (stackSelector bus (stackAdjust + 3 * size))
      modify fun s => { s with cpl := rpl }
      switchSeg bus .SS ss
      modify (·.setStackReg (esp + stackAdjust))
      modify (·.dropAllInner)
    else modify (·.adjustStackReg (2 * size + stackAdjust))
    modify (·.farReturnCode selector d eip)

end

end V86.Transfers
