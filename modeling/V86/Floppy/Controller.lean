import V86.Floppy.Drive
import V86.Dma.Controller

/-!
# The floppy controller

`FloppyController` of `src/floppy.js`: the registers, the FIFO that takes a command byte by byte and
gives out its response, and the commands. A READ or WRITE hands its disk to channel 2 of the DMA
controller, which calls back when the transfer is through: until then it is outstanding. Assertions
are those of a release build, without effect.
-/

namespace V86.Floppy

scoped instance neZeroDrives : NeZero 2 := ⟨by decide⟩

/-- `cmd_phase`. -/
inductive Phase where
  | command
  | execution
  | result
  deriving DecidableEq

/-- The handlers of the commands. -/
inductive Handler where
  | read
  | write
  | seek
  | senseInterruptStatus
  | recalibrate
  | formatTrack
  | readId
  | specify
  | senseDriveStatus
  | perpendicularMode
  | configure
  | lock
  | dumpRegs
  | version
  | partId
  | unimplemented
  deriving DecidableEq

/-- An element of `CMD_DESCRIPTOR`. -/
structure Descriptor where
  code : Byte
  mask : Byte
  argc : Nat
  handler : Handler

/-- `CMD_DESCRIPTOR`, with the names of the commands left out. -/
def cmdDescriptor : List Descriptor :=
  [⟨0x06, 0x1f, 8, .read⟩, ⟨0x05, 0x3f, 8, .write⟩, ⟨0x0f, 0xff, 2, .seek⟩,
    ⟨0x08, 0xff, 0, .senseInterruptStatus⟩, ⟨0x07, 0xff, 1, .recalibrate⟩,
    ⟨0x0d, 0xbf, 5, .formatTrack⟩, ⟨0x02, 0xbf, 8, .unimplemented⟩,
    ⟨0x4e, 0xff, 17, .unimplemented⟩, ⟨0x2e, 0xff, 0, .unimplemented⟩,
    ⟨0x0c, 0x1f, 8, .unimplemented⟩, ⟨0x11, 0x1f, 8, .unimplemented⟩,
    ⟨0x16, 0x1f, 8, .unimplemented⟩, ⟨0x19, 0x1f, 8, .unimplemented⟩,
    ⟨0x1d, 0x1f, 8, .unimplemented⟩, ⟨0x09, 0x3f, 8, .unimplemented⟩, ⟨0x0a, 0xbf, 1, .readId⟩,
    ⟨0x03, 0xff, 2, .specify⟩, ⟨0x04, 0xff, 1, .senseDriveStatus⟩,
    ⟨0x12, 0xff, 1, .perpendicularMode⟩, ⟨0x13, 0xff, 3, .configure⟩,
    ⟨0x17, 0xff, 2, .unimplemented⟩, ⟨0x33, 0xff, 1, .unimplemented⟩,
    ⟨0x8e, 0xff, 5, .unimplemented⟩, ⟨0x8f, 0xff, 2, .unimplemented⟩,
    ⟨0xcd, 0xff, 10, .unimplemented⟩, ⟨0xcf, 0xff, 2, .unimplemented⟩, ⟨0x14, 0x7f, 0, .lock⟩,
    ⟨0x0e, 0xff, 0, .dumpRegs⟩, ⟨0x10, 0xff, 0, .version⟩, ⟨0x18, 0xff, 0, .partId⟩]

/-- `cmd_table`: the first descriptor that matches, or the default one. -/
def cmdTable (code : Byte) : Descriptor :=
  (cmdDescriptor.find? fun d => code &&& d.mask = d.code).getD ⟨0, 0, 0, .unimplemented⟩

/-- `FloppyController`. `cmdBuffer` is `cmd_buffer` up to `cmd_cursor`, and `responseData` is
`response_data` up to `response_length`. -/
structure FloppyController where
  sra : Byte
  srb : Byte
  dor : Byte
  tdr : Byte
  msr : Byte
  dsr : Byte
  cmdPhase : Phase
  cmdCode : Byte
  multiTrack : Bool
  cmdBuffer : List Byte
  cmdRemaining : Nat
  responseData : List Byte
  responseCursor : Nat
  status0 : Byte
  currDriveNo : Fin 2
  resetSenseIntCount : Nat
  locked : Bool
  stepRateInterval : Byte
  headLoadTime : Byte
  fdcConfig : Byte
  precompTrk : Byte
  eot : Nat
  drives : Fin 2 → Drive

namespace FloppyController

/-- The controller as it is constructed. -/
def new (drives : Fin 2 → Drive) : FloppyController where
  sra := 0
  srb := 0xc0
  dor := 0x0c
  tdr := 0
  msr := 0x80
  dsr := 0
  cmdPhase := .command
  cmdCode := 0
  multiTrack := false
  cmdBuffer := []
  cmdRemaining := 0
  responseData := []
  responseCursor := 0
  status0 := 0
  currDriveNo := 0
  resetSenseIntCount := 0
  locked := false
  stepRateInterval := 0
  headLoadTime := 0
  fdcConfig := 0x60
  precompTrk := 0
  eot := 0
  drives := drives

variable (c : FloppyController)

/-- `msr & MSR_RQM`. -/
def rqm : Bool := c.msr.getLsbD 7

/-- `msr & MSR_DIO`. -/
def dio : Bool := c.msr.getLsbD 6

/-- `dor & DOR_NRESET`. -/
def nreset : Bool := c.dor.getLsbD 2

/-- `dor & DOR_DMAEN`. -/
def dmaen : Bool := c.dor.getLsbD 3

/-- `sra & SRA_INTPEND`. -/
def intpend : Bool := c.sra.getLsbD 7

/-- The selected drive. -/
def currDrive : Drive := c.drives c.currDriveNo

def modifyDrive (f : Drive → Drive) : FloppyController :=
  { c with drives := Function.update c.drives c.currDriveNo (f c.currDrive) }

/-- `raise_irq`. -/
def raiseIrq : FloppyController := { c with sra := c.sra ||| 0x80, resetSenseIntCount := 0 }

/-- `lower_irq`. -/
def lowerIrq : FloppyController := { c with status0 := 0, sra := c.sra &&& ~~~0x80 }

/-- `set_curr_drive_no`. -/
def setCurrDriveNo (driveNo : Byte) : FloppyController :=
  { c with currDriveNo := if driveNo.getLsbD 0 then 1 else 0 }

/-- `enter_command_phase`. -/
def enterCommandPhase : FloppyController :=
  { c with
    cmdPhase := .command
    cmdBuffer := []
    cmdRemaining := 0
    msr := c.msr &&& ~~~(0x10 ||| 0x40) ||| 0x80 }

/-- `enter_result_phase`, with the response that was written to `response_data` before. -/
def enterResultPhase (response : List Byte) : FloppyController :=
  { c with
    cmdPhase := .result
    responseData := response
    responseCursor := 0
    msr := c.msr ||| (0x10 ||| 0x80 ||| 0x40) }

/-- `reset_fdc`. -/
def resetFdc : FloppyController :=
  let c := c.lowerIrq
  let c := { c with
    sra := 0
    srb := 0xc0
    dor := 0x0c
    msr := 0x80
    currDriveNo := 0
    status0 := c.status0 ||| 0xc0
    responseData := []
    responseCursor := 0
    drives := fun i => ((c.drives i).seek 0 0 1).1 }
  { c.enterCommandPhase.raiseIrq with resetSenseIntCount := 4 }

/-! ## Registers -/

/-- `dsr &= ~DSR_PWRDOWN`, at an access to the main status register or the FIFO. -/
def powerUp : FloppyController := { c with dsr := c.dsr &&& ~~~0x40 }

/-- `read_reg_msr`, which takes the controller out of its reset state. -/
def readRegMsr : FloppyController := { c.powerUp with dor := c.dor ||| 0x04 }

/-- `read_reg_fifo`: the byte and the controller after it. -/
def readRegFifo : Byte × FloppyController :=
  let c := c.powerUp
  if !c.rqm || !c.dio then (0, c)
  else if c.cmdPhase ≠ .result then (0, c)
  else if c.responseCursor < c.responseData.length then
    let byte := c.responseData.getD c.responseCursor 0
    let c := { c with responseCursor := c.responseCursor + 1 }
    if c.responseCursor = c.responseData.length then
      (byte, { c with msr := c.msr &&& ~~~0x80 }.enterCommandPhase.lowerIrq)
    else (byte, c)
  else (0, c)

/-- The motor and drive bits of Status Register B. -/
def motorBits (srb dorByte : Byte) : Byte :=
  srb &&& ~~~(0x01 ||| 0x02 ||| 0x20) |||
    (if dorByte.getLsbD 4 then 0x01 else 0) ||| (if dorByte.getLsbD 5 then 0x02 else 0) |||
    (if dorByte.getLsbD 0 then 0x20 else 0)

/-- `write_reg_dor`. -/
def writeRegDor (dorByte : Byte) : FloppyController :=
  let c := { c with srb := motorBits c.srb dorByte }
  let c :=
    if !c.nreset && dorByte.getLsbD 2 then
      c.resetFdc.powerUp
    else c
  { c with currDriveNo := if dorByte.getLsbD 0 then 1 else 0, dor := dorByte }

/-- `write_reg_tdr`. -/
def writeRegTdr (tdrByte : Byte) : FloppyController :=
  if !c.nreset then c else { c with tdr := tdrByte &&& 0x04 }

/-- `write_reg_dsr`. -/
def writeRegDsr (dsrByte : Byte) : FloppyController :=
  if !c.nreset then c
  else
    let c :=
      if dsrByte.getLsbD 7 then
        let c := { c with dor := c.dor &&& ~~~0x04 }.resetFdc
        { c with dor := c.dor ||| 0x04 }
      else c
    let c := if dsrByte.getLsbD 6 then c.resetFdc else c
    { c with dsr := dsrByte }

/-- `write_reg_ccr`. -/
def writeRegCcr (ccrByte : Byte) : FloppyController :=
  if !c.nreset then c else { c with dsr := c.dsr &&& ~~~0x03 ||| ccrByte &&& 0x03 }

/-! ## Commands without a transfer -/

/-- `end_read_write`. -/
def endReadWrite (status0 status1 status2 : Byte) : FloppyController :=
  let d := c.currDrive
  let st0 := c.status0 &&& ~~~(0x01 ||| 0x02 ||| 0x04) ||| BitVec.ofNat 8 c.currDriveNo |||
    (if d.currHead ≠ 0 then 0x04 else 0) ||| status0
  let c := { c with status0 := st0, msr := (c.msr ||| (0x80 ||| 0x40)) &&& ~~~0x20 }
  (c.enterResultPhase [st0, status1, status2, BitVec.ofNat 8 d.currTrack,
    BitVec.ofNat 8 d.currHead, BitVec.ofNat 8 d.currSect, 2]).raiseIrq

/-- `exec_unimplemented`. -/
def execUnimplemented : FloppyController :=
  { c with status0 := 0x80 }.enterResultPhase [0x80]

/-- `exec_seek`. -/
def execSeek (args : List Byte) : FloppyController :=
  let c := (c.setCurrDriveNo (args.getD 0 0)).enterCommandPhase
  let c := c.modifyDrive fun d => (d.seek d.currHead (args.getD 1 0).toNat d.currSect).1
  { c with status0 := c.status0 ||| 0x20 }.raiseIrq

/-- `exec_sense_interrupt_status`. -/
def execSenseInterruptStatus : FloppyController :=
  let respond (c : FloppyController) (status0 : Byte) : FloppyController :=
    { (c.enterResultPhase [status0, BitVec.ofNat 8 c.currDrive.currTrack]).lowerIrq with
      status0 := 0xc0 }
  if 0 < c.resetSenseIntCount then
    respond { c with resetSenseIntCount := c.resetSenseIntCount - 1 }
      (0xc0 ||| BitVec.ofNat 8 (4 - c.resetSenseIntCount))
  else if c.intpend then
    respond c (c.status0 &&& ~~~(0x04 ||| 0x02 ||| 0x01) ||| BitVec.ofNat 8 c.currDriveNo)
  else c.enterResultPhase [0x80]

/-- `exec_recalibrate`. -/
def execRecalibrate (args : List Byte) : FloppyController :=
  let c := ((c.setCurrDriveNo (args.getD 0 0)).modifyDrive fun d => (d.seek 0 0 1).1)
  let c := c.enterCommandPhase
  { c with status0 := c.status0 ||| 0x20 }.raiseIrq

/-- `exec_format_track`. -/
def execFormatTrack (args : List Byte) : FloppyController :=
  let c := c.setCurrDriveNo (args.getD 0 0)
  if c.currDrive.readOnly then c.endReadWrite (0x40 ||| 0x20) 0x02 0 else c.endReadWrite 0 0 0

/-- `exec_read_id`. -/
def execReadId (args : List Byte) : FloppyController :=
  let c := c.modifyDrive fun d =>
    { d with
      currHead := ((args.getD 0 0).toNat >>> 2) % 2
      currSect := if d.maxSect ≠ 0 then d.currSect % d.maxSect + 1 else d.currSect }
  c.endReadWrite 0 0 0

/-- `exec_specify`. -/
def execSpecify (args : List Byte) : FloppyController :=
  let c := { c with
    stepRateInterval := args.getD 0 0 >>> 4
    headLoadTime := args.getD 1 0 >>> 1
    dor := if (args.getD 1 0).getLsbD 0 then c.dor &&& ~~~0x08 else c.dor ||| 0x08 }
  c.enterCommandPhase

/-- `exec_sense_drive_status`. -/
def execSenseDriveStatus (args : List Byte) : FloppyController :=
  let c := (c.setCurrDriveNo (args.getD 0 0)).modifyDrive fun d =>
    { d with currHead := ((args.getD 0 0).toNat >>> 2) % 2 }
  let d := c.currDrive
  c.enterResultPhase [(if d.readOnly then 0x40 else 0) ||| (if d.currTrack = 0 then 0x10 else 0) |||
    BitVec.ofNat 8 d.currHead <<< 2 ||| BitVec.ofNat 8 c.currDriveNo ||| 0x28]

/-- `exec_perpendicular_mode`. -/
def execPerpendicularMode (args : List Byte) : FloppyController :=
  let perpMode := args.getD 0 0
  let c :=
    if perpMode.getLsbD 7 then c.modifyDrive fun d => { d with perpendicular := perpMode &&& 0x07 }
    else c
  c.enterCommandPhase

/-- `exec_configure`. -/
def execConfigure (args : List Byte) : FloppyController :=
  { c with fdcConfig := args.getD 1 0, precompTrk := args.getD 2 0 }.enterCommandPhase

/-- `exec_lock`. -/
def execLock : FloppyController :=
  if c.cmdCode.getLsbD 7 then { c with locked := true }.enterResultPhase [0x10]
  else { c with locked := false }.enterResultPhase [0]

/-- `exec_dump_regs`. -/
def execDumpRegs : FloppyController :=
  c.enterResultPhase
    [BitVec.ofNat 8 (c.drives 0).currTrack, BitVec.ofNat 8 (c.drives 1).currTrack, 0, 0,
      c.stepRateInterval, c.headLoadTime <<< 1 ||| (if c.dmaen then 1 else 0),
      BitVec.ofNat 8 c.currDrive.maxSect,
      (if c.locked then 0x80 else 0) ||| c.currDrive.perpendicular <<< 2, c.fdcConfig, c.precompTrk]

/-- `exec_version`. -/
def execVersion : FloppyController := c.enterResultPhase [0x90]

/-- `exec_part_id`. -/
def execPartId : FloppyController := c.enterResultPhase [0x41]

/-- `seek_next_sect`: the sector after the one that the heads are over. -/
def nextSect (eot : Nat) (multiTrack : Bool) (d : Drive) : Nat × Nat × Nat × Bool :=
  if d.currSect ≥ d.maxSect ∨ d.currSect = eot then
    if multiTrack then
      if d.currHead = 0 ∧ d.maxHead = 2 then (1, d.currTrack, 1, false)
      else (0, d.currTrack + 1, 1, true)
    else (d.currHead, d.currTrack + 1, 1, true)
  else (d.currHead, d.currTrack, d.currSect + 1, false)

/-- `seek_next_sect`. -/
def seekNextSect : FloppyController :=
  let (head, track, sect, seeks) := nextSect c.eot c.multiTrack c.currDrive
  let c := if seeks then { c with status0 := c.status0 ||| 0x20 } else c
  c.modifyDrive fun d => (d.seek head track sect).1

end FloppyController

end V86.Floppy
