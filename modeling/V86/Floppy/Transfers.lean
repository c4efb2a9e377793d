import V86.Floppy.Controller

/-!
# Transfers of the floppy controller

READ and WRITE of `src/floppy.js` (`start_read_write`) and the whole machine around the controller:
the DMA controller and the memory it reaches, the images that were inserted, and the transfers that
are outstanding, each with the image it was started on. The guest, the host and the completions of
transfers take their steps in any order. An exception of the host is a state that says so.
-/

namespace V86.Floppy

open Dma (DMA Memory Pending Request Direction)

local instance neZeroDmaChannels : NeZero 8 := Dma.neZeroChannels

/-- The arguments of a READ or WRITE. -/
structure ReadWrite where
  doWrite : Bool
  driveNo : Byte
  track : Nat
  head : Nat
  sect : Nat
  ssc : Nat
  eot : Nat
  dtl : Nat
  deriving DecidableEq

namespace ReadWrite

/-- The arguments as `start_read_write` takes them from the command's bytes. -/
def ofArgs (doWrite : Bool) (args : List Byte) : ReadWrite where
  doWrite := doWrite
  driveNo := args.getD 0 0
  track := (args.getD 1 0).toNat
  head := (args.getD 2 0).toNat
  sect := (args.getD 3 0).toNat
  ssc := (args.getD 4 0).toNat
  eot := (args.getD 5 0).toNat
  dtl := min (args.getD 7 0).toNat 128

variable (r : ReadWrite)

/-- `sect_size`. -/
def sectSize : Nat := 128 <<< min r.ssc 7

/-- `data_offset`. -/
def dataOffset (d : Drive) : Int := d.chs2lba r.track r.head r.sect * r.sectSize

/-- `data_length`. -/
def dataLength (multiTrack : Bool) : Int :=
  if r.sectSize = 128 then r.dtl
  else if multiTrack then (2 * r.eot - r.sect + 1) * r.sectSize
  else (r.eot - r.sect + 1) * r.sectSize

/-- The sector that the command names exists in the drive. -/
def Named (d : Drive) : Prop := d.HasSector r.track r.head r.sect

instance (d : Drive) : Decidable (r.Named d) := inferInstanceAs (Decidable (d.HasSector ..))

/-- `do_read` or `do_write`. -/
def direction : Direction := if r.doWrite then .write else .read

end ReadWrite

/-- A transfer that was started: the command, the drive as it was then, the image, how many bytes
have been moved and what the DMA controller waits for. -/
structure Transfer where
  command : ReadWrite
  drive : Drive
  image : Nat
  moved : Nat
  pending : Pending

/-- The controller with everything that its transfers reach. `thrown` after an exception. -/
structure System where
  fdc : FloppyController
  dma : DMA
  memory : Memory
  images : List (List Byte)
  outstanding : List Transfer
  thrown : Bool

/-- `FDC_DMA_CHANNEL`. -/
def dmaChannel : Fin 8 := 2

namespace System

variable (s : System)

/-- What the DMA controller sees of a transfer on an image. -/
def view (image : Nat) : Dma.System where
  dma := s.dma
  memory := s.memory
  buffer := s.images.getD image []
  moves := []

/-- What the DMA controller did is done. -/
def put (image : Nat) (d : Dma.System) : System :=
  { s with dma := d.dma, memory := d.memory, images := s.images.set image d.buffer }

def modifyFdc (f : FloppyController → FloppyController) : System := { s with fdc := f s.fdc }

/-- The callback of the DMA controller. -/
def called (error : Bool) : System :=
  if error then s.modifyFdc fun c => c.endReadWrite 0x40 0 0
  else s.modifyFdc fun c => c.seekNextSect.endReadWrite 0 0 0

/-- The bytes that the DMA controller is to move. -/
def dmaCount (r : ReadWrite) (len : Nat) : Nat :=
  match r.direction with
  | .read => s.dma.countGet8bit dmaChannel
  | .write => (Request.mk 0 len dmaChannel).readBytes s.dma

/-- The channel as the DMA controller leaves it. -/
def dmaWritten (r : ReadWrite) (len : Nat) (c : Dma.Channel) : Dma.Channel :=
  match r.direction with
  | .read => { c with addr := c.addr + BitVec.ofNat 16 (s.dmaCount r len) }
  | .write => (Request.mk 0 len dmaChannel).written s.dma c

/-- The checks of `do_read` and `do_write`, which take any number for `start`. -/
def dmaAccepts (r : ReadWrite) (image : Nat) (start : Int) (len : Nat) : Bool :=
  let count := s.dmaCount r len
  let address := s.dma.addressGet8bit dmaChannel
  start + count ≤ (s.images.getD image []).length && address + count ≤ 0x100000000 &&
    s.memory.validatePhysicalRange address count

/-- `do_read` or `do_write` of `start_read_write`. A range of the image that starts before it is an
exception of the host when the buffer makes the array for it. -/
def startDma (r : ReadWrite) (drive : Drive) (image : Nat) (start : Int) (len : Nat) : System :=
  match start with
  | .ofNat start =>
    match r.direction.start (s.view image) ⟨start, len, dmaChannel⟩ with
    | none => s.called true
    | some (d, p) =>
      { s.put image d with outstanding := s.outstanding ++ [⟨r, drive, image, 0, p⟩] }
  | .negSucc k =>
    if s.dmaAccepts r image (.negSucc k) len then
      { s with dma := s.dma.modify dmaChannel (s.dmaWritten r len), thrown := true }
    else s.called true

/-- The end of a READ or WRITE that is refused, with the address it was given in the response. -/
def refuse (r : ReadWrite) (status0 status1 : Byte) : System :=
  s.modifyFdc fun c =>
    let c := c.endReadWrite status0 status1 0
    { c with
      responseData := ((c.responseData.set 3 (BitVec.ofNat 8 r.track)).set 4
        (BitVec.ofNat 8 r.head)).set 5 (BitVec.ofNat 8 r.sect) }

/-- The drive of a READ or WRITE after its seek, with the result. -/
def sought (r : ReadWrite) : Drive × Seek :=
  (s.fdc.setCurrDriveNo r.driveNo).currDrive.seek r.head r.track r.sect

/-- `start_read_write` after the seek. -/
def startTransfer (r : ReadWrite) (d : Drive) : System :=
  if r.sectSize ≠ 128 ∧ r.dataLength s.fdc.multiTrack ≤ 0 then s.refuse r 0x40 0x01
  else
    let s := s.modifyFdc fun c => { c with eot := r.eot }
    if r.doWrite && d.readOnly then s.refuse r (0x40 ||| 0x20) 0x02
    else if s.fdc.dmaen then
      let s := s.modifyFdc fun c => { c with msr := c.msr &&& ~~~0x80 }
      match d.buffer with
      | none => { s with thrown := true }
      | some image =>
        s.startDma r d image (r.dataOffset d) (r.dataLength s.fdc.multiTrack).toNat
    else s

/-- `start_read_write`. -/
def startReadWrite (r : ReadWrite) : System :=
  let (d, result) := s.sought r
  let s := s.modifyFdc fun c => (c.setCurrDriveNo r.driveNo).modifyDrive fun _ => d
  match result with
  | .invalidTrack => s.refuse r 0x40 0
  | .invalidSector => s.refuse r 0x40 0x80
  | .trackChanged =>
    (s.modifyFdc fun c => { c with status0 := c.status0 ||| 0x20 }).startTransfer r d
  | .sameTrack => s.startTransfer r d

/-- The handler of a command. -/
def exec (handler : Handler) (args : List Byte) : System :=
  match handler with
  | .read => s.startReadWrite (.ofArgs false args)
  | .write => s.startReadWrite (.ofArgs true args)
  | .seek => s.modifyFdc fun c => c.execSeek args
  | .senseInterruptStatus => s.modifyFdc fun c => c.execSenseInterruptStatus
  | .recalibrate => s.modifyFdc fun c => c.execRecalibrate args
  | .formatTrack => s.modifyFdc fun c => c.execFormatTrack args
  | .readId => s.modifyFdc fun c => c.execReadId args
  | .specify => s.modifyFdc fun c => c.execSpecify args
  | .senseDriveStatus => s.modifyFdc fun c => c.execSenseDriveStatus args
  | .perpendicularMode => s.modifyFdc fun c => c.execPerpendicularMode args
  | .configure => s.modifyFdc fun c => c.execConfigure args
  | .lock => s.modifyFdc fun c => c.execLock
  | .dumpRegs => s.modifyFdc fun c => c.execDumpRegs
  | .version => s.modifyFdc fun c => c.execVersion
  | .partId => s.modifyFdc fun c => c.execPartId
  | .unimplemented => s.modifyFdc fun c => c.execUnimplemented

end System

/-- `write_reg_fifo` up to the call of the handler: the first byte is the command, the others are
its arguments. -/
def FloppyController.takeByte (c : FloppyController) (fifoByte : Byte) : FloppyController :=
  if c.cmdRemaining = 0 then
    let desc := cmdTable fifoByte
    { c with
      cmdCode := fifoByte
      cmdRemaining := desc.argc
      cmdBuffer := []
      multiTrack := (desc.code = 0x06 || desc.code = 0x05) && fifoByte.getLsbD 7
      msr := (if desc.argc ≠ 0 then c.msr ||| 0x80 else c.msr) ||| 0x10 }
  else { c with cmdBuffer := c.cmdBuffer ++ [fifoByte], cmdRemaining := c.cmdRemaining - 1 }

/-- The checks of `write_reg_fifo`. -/
def FloppyController.takesBytes (c : FloppyController) : Bool :=
  c.nreset && c.rqm && !c.dio && c.cmdPhase = .command

/-- The controller that a byte makes execute a command. -/
def FloppyController.executes (c : FloppyController) (fifoByte : Byte) : Option FloppyController :=
  if c.powerUp.takesBytes ∧ (c.powerUp.takeByte fifoByte).cmdRemaining = 0 then
    some { c.powerUp.takeByte fifoByte with cmdPhase := .execution }
  else none

namespace System

variable (s : System)

/-- `write_reg_fifo`. -/
def writeRegFifo (fifoByte : Byte) : System :=
  let s := s.modifyFdc fun c => c.powerUp
  if s.fdc.takesBytes then
    let s := s.modifyFdc fun c => c.takeByte fifoByte
    if s.fdc.cmdRemaining = 0 then
      let s := s.modifyFdc fun c => { c with cmdPhase := .execution }
      s.exec (cmdTable s.fdc.cmdCode).handler s.fdc.cmdBuffer
    else s
  else s

/-- The READ or WRITE that a byte makes the controller execute. -/
def readWrite (fifoByte : Byte) : Option ReadWrite :=
  (s.fdc.executes fifoByte).bind fun c =>
    match (cmdTable c.cmdCode).handler with
    | .read => some (.ofArgs false c.cmdBuffer)
    | .write => some (.ofArgs true c.cmdBuffer)
    | _ => none

/-- An outstanding transfer is through, or goes on with its next round. -/
def complete (i : Nat) : System :=
  match s.outstanding[i]? with
  | none => s
  | some t =>
    let (d, finished) := Dma.complete (s.view t.image) t.pending
    let moved := t.moved + (d.moves.map fun m => m.data.length).sum
    let s := s.put t.image d
    let gone := { s with outstanding := s.outstanding.eraseIdx i }
    match finished with
    | .dropped => gone
    | .done error => gone.called error
    | .again r =>
      match t.command.direction.start (s.view t.image) r with
      | none => gone.called true
      | some (d, p) =>
        { s.put t.image d with
          outstanding := s.outstanding.set i { t with moved := moved, pending := p } }

/-- `insert_disk`. -/
def insertDisk (driveNo : Fin 2) (image : List Byte) (readOnly : Bool) : System :=
  match findDiskFormat image.length (s.fdc.drives driveNo).driveType with
  | none => s
  | some f =>
    -- an image that is smaller than its format is copied and filled up
    let image := image ++ List.replicate (f.size - image.length) 0
    { s with
      fdc.drives := Function.update s.fdc.drives driveNo
        ((s.fdc.drives driveNo).insertDisk f s.images.length readOnly)
      images := s.images ++ [image] }

/-- `eject_disk`. -/
def ejectDisk (driveNo : Fin 2) : System :=
  { s with
    fdc.drives := Function.update s.fdc.drives driveNo (s.fdc.drives driveNo).ejectDisk }

end System

/-- A step of the guest, of the host or of an outstanding transfer. The guest may write to memory
and to the channels of the DMA controller. -/
inductive Event where
  | readMsr
  | readFifo
  | writeDor (byte : Byte)
  | writeTdr (byte : Byte)
  | writeDsr (byte : Byte)
  | writeFifo (byte : Byte)
  | writeCcr (byte : Byte)
  | complete (i : Nat)
  | insertDisk (driveNo : Fin 2) (image : List Byte) (readOnly : Bool)
  | ejectDisk (driveNo : Fin 2)
  | program (channels : Fin 8 → Dma.Channel)
  | poke (address : Nat) (byte : Byte)

def step (s : System) : Event → System
  | .readMsr => s.modifyFdc fun c => c.readRegMsr
  | .readFifo => s.modifyFdc fun c => c.readRegFifo.2
  | .writeDor byte => s.modifyFdc fun c => c.writeRegDor byte
  | .writeTdr byte => s.modifyFdc fun c => c.writeRegTdr byte
  | .writeDsr byte => s.modifyFdc fun c => c.writeRegDsr byte
  | .writeFifo byte => s.writeRegFifo byte
  | .writeCcr byte => s.modifyFdc fun c => c.writeRegCcr byte
  | .complete i => s.complete i
  | .insertDisk driveNo image readOnly => s.insertDisk driveNo image readOnly
  | .ejectDisk driveNo => s.ejectDisk driveNo
  | .program channels => { s with dma.channels := channels }
  | .poke address byte =>
    { s with memory.bytes := Function.update s.memory.bytes address byte }

/-- The machine with a new controller whose drives are empty. -/
def start (driveTypes : Fin 2 → Nat) (dma : DMA) (memory : Memory) : System where
  fdc := .new fun i => .empty (driveTypes i)
  dma := dma
  memory := memory
  images := []
  outstanding := []
  thrown := false

end V86.Floppy
