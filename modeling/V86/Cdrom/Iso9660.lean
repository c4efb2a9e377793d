import Mathlib.Algebra.GroupWithZero.Nat
import Mathlib.Logic.Function.Basic

/-!
# CD images

`iso9660.js`: an image with a primary and a Joliet volume descriptor, one directory for each of them,
and the files behind these. Strings are lists of UTF-16 code units.
-/

namespace V86.Cdrom

abbrev Byte := UInt8
abbrev Unit16 := UInt16

/-- A string of ASCII characters, as bytes. -/
def ascii (text : String) : List Byte := text.toList.map fun c => UInt8.ofNat c.toNat

def blockSize : Nat := 2 * 1024
def fileFlagsDirectory : Nat := 1 <<< 1
def systemId : List Byte := ascii "V86"
def volumeId : List Byte := ascii "CDROM"

structure File where
  name : List Unit16
  contents : List Byte

/-- The built-in functions: `toUpperCase`, and the fields of the date of today in UTC. -/
structure Host where
  toUpperCase : List Unit16 → List Unit16
  fullYear : Nat
  month : Nat
  date : Nat
  hours : Nat
  minutes : Nat
  seconds : Nat

/-! ## Writers -/

/-- An image while it is written: a typed array, and an offset in it. -/
structure Writer where
  buffer : Nat → Byte
  size : Nat
  offset : Nat

namespace Writer

variable (b : Writer)

/-- A store in a typed array: outside of it, nothing happens. -/
def set (i : Nat) (v : Byte) : Writer :=
  { b with buffer := if i < b.size then Function.update b.buffer i v else b.buffer }

/-- `write8`. -/
def write8 (v : Nat) : Writer := { b.set b.offset (UInt8.ofNat v) with offset := b.offset + 1 }

def writeLe16 (v : Nat) : Writer := (b.write8 v).write8 (v >>> 8)
def writeLe32 (v : Nat) : Writer :=
  (((b.write8 v).write8 (v >>> 8)).write8 (v >>> 16)).write8 (v >>> 24)
def writeBe16 (v : Nat) : Writer := (b.write8 (v >>> 8)).write8 v
def writeBe32 (v : Nat) : Writer :=
  (((b.write8 (v >>> 24)).write8 (v >>> 16)).write8 (v >>> 8)).write8 v
def writeLebe16 (v : Nat) : Writer := (b.writeLe16 v).writeBe16 v
def writeLebe32 (v : Nat) : Writer := (b.writeLe32 v).writeBe32 v

/-- Write some bytes one after the other. -/
def writeAll (bytes : List Nat) : Writer := bytes.foldl write8 b

/-- `fill`. -/
def fill (len v : Nat) : Writer := b.writeAll (List.replicate len v)

/-- `write_ascii`: `encodeInto` stops at the end of the array. -/
def writeAscii (text : List Byte) : Writer :=
  b.writeAll ((text.take (b.size - b.offset)).map (·.toNat))

/-- `padEnd`. -/
def padEnd (len : Nat) (text : List Byte) : List Byte :=
  text ++ List.replicate (len - text.length) 0x20

def writePaddedAscii (len : Nat) (text : List Byte) : Writer := b.writeAscii (padEnd len text)

def writeDummyDateAscii : Writer := (b.fill 16 0x20).write8 0

def writeDateCompact (host : Host) : Writer :=
  ((((((b.write8 (host.fullYear - 1900)).write8 (1 + host.month)).write8 host.date).write8
    host.hours).write8 host.minutes).write8 host.seconds).write8 0

/-- `skip`. -/
def skip (len : Nat) : Writer := { b with offset := b.offset + len }

/-- `write_utf16be`. -/
def writeUtf16be (text : List Unit16) : Writer := text.foldl (fun b c => b.writeBe16 c.toNat) b

def writePaddedUtf16be (len : Nat) (text : List Byte) : Writer :=
  b.writeUtf16be ((padEnd (len / 2) text).map fun c => UInt16.ofNat c.toNat)

end Writer

/-! ## Names -/

/-- The code unit of an ASCII character. -/
def unit (c : Char) : Unit16 := UInt16.ofNat c.toNat

/-- `to_msdos_filename`: the text before and after the last dot. -/
def toMsdosFilename (name : List Unit16) : List Unit16 :=
  if unit '.' ∈ name then
    let extension := (name.reverse.takeWhile (· ≠ unit '.')).reverse
    let dot := name.length - extension.length - 1
    name.take (min 8 dot) ++ unit '.' :: extension.take 3
  else name.take 8

/-- The characters that stay in a name of the primary directory. -/
def isMsdos (c : Unit16) : Bool :=
  unit 'A' ≤ c && c ≤ unit 'Z' || unit '0' ≤ c && c ≤ unit '9' || c = unit '_' || c = unit '.'

/-- `sanitise_filename`. -/
def sanitiseFilename (host : Host) (name : List Unit16) : List Unit16 :=
  toMsdosFilename ((host.toUpperCase name).filter isMsdos)

/-- `sanitise_filename_joliet`. -/
def sanitiseFilenameJoliet (name : List Unit16) : List Unit16 :=
  name.filter (· ∉ ['*', '/', ':', ';', '?', '\\'].map unit)

/-! ## Layout -/

/-- `round_byte_size_to_block_size`. -/
def roundByteSizeToBlockSize (n : Nat) : Nat := if n = 0 then 0 else 1 + (n - 1) / blockSize

def systemAreaSize : Nat := 16 * blockSize
def primaryVolumeLba : Nat := 16
def supplementaryVolumeLba : Nat := 17
def lePathTableLba : Nat := 19
def lePathTableJolietLba : Nat := 20
def bePathTableLba : Nat := 21
def bePathTableJolietLba : Nat := 22
def rootDirectoryLba : Nat := 23
def rootDirectoryJolietLba : Nat := 24

structure IsoFile where
  name : List Unit16
  contents : List Byte
  lba : Nat

/-- `iso_files`, from a block on, and the block behind the files. -/
def placeFiles : Nat → List File → List IsoFile × Nat
  | nextFileLba, [] => ([], nextFileLba)
  | nextFileLba, ⟨name, contents⟩ :: files =>
    let (isoFiles, stop) := placeFiles (nextFileLba + roundByteSizeToBlockSize contents.length) files
    (⟨name, contents, nextFileLba⟩ :: isoFiles, stop)

/-! ## Records -/

/-- The name of a record, as it is encoded. -/
inductive RecordName where
  | special (c : Byte)
  | iso (name : List Unit16)
  | joliet (name : List Unit16)

/-- The bytes of a UTF-16 text in big-endian order. -/
def utf16be (text : List Unit16) : List Byte :=
  text.flatMap fun c => [UInt8.ofNat (c.toNat >>> 8), UInt8.ofNat c.toNat]

/-- The name that is written. Sanitised names are ASCII. -/
def RecordName.bytes (host : Host) : RecordName → List Byte
  | .special c => [c]
  | .iso name => (sanitiseFilename host name).map (fun c => UInt8.ofNat c.toNat) ++ ascii ";1"
  | .joliet name => utf16be (sanitiseFilenameJoliet name)

namespace Writer

variable (b : Writer)

/-- Write the name behind the record's fields, and return to the start of the record. -/
def writeName (host : Host) (name : RecordName) : Writer :=
  let named := { b with offset := b.offset + 33 }
  let named := match name with
    | .joliet name => named.writeUtf16be (sanitiseFilenameJoliet name)
    | name => named.writeAscii (name.bytes host)
  { named with offset := b.offset }

/-- The length of the name: `encodeInto` returns what it has written. -/
def nameLength (host : Host) (name : RecordName) : Nat :=
  match name with
  | .joliet _ => (name.bytes host).length
  | _ => min (name.bytes host).length (b.size - (b.offset + 33))

/-- `write_record`. -/
def writeRecord (host : Host) (name : RecordName) (flags lba len : Nat) : Writer :=
  let nameLen := b.nameLength host name
  let pad := if nameLen % 2 = 1 then 0 else 1
  let b := b.writeName host name
  let b := (b.write8 (33 + nameLen + pad)).write8 0
  let b := (b.writeLebe32 lba).writeLebe32 len
  let b := b.writeDateCompact host
  let b := ((b.write8 flags).write8 0).write8 0
  let b := b.writeLebe16 1
  let b := b.write8 nameLen
  b.skip (nameLen + pad)

/-- `write_special_directory_record`. -/
def writeSpecialDirectoryRecord (host : Host) (c : Byte) (lba len : Nat) : Writer :=
  b.writeRecord host (.special c) fileFlagsDirectory lba len

/-- `write_file_record`. -/
def writeFileRecord (host : Host) (name : List Unit16) (lba len : Nat) (joliet : Bool) : Writer :=
  b.writeRecord host (if joliet then .joliet name else .iso name) 0 lba len

/-- The fields of a volume descriptor up to the escape sequence. -/
def writeVolumeIdentifiers (nLbas : Nat) (isSupplementary : Bool) : Writer :=
  let b := b.write8 (if isSupplementary then 0x02 else 0x01)
  let b := ((b.writeAscii (ascii "CD001")).write8 0x01).write8 0x00
  let b :=
    if isSupplementary then (b.writePaddedUtf16be 32 systemId).writePaddedUtf16be 32 volumeId
    else (b.writePaddedAscii 32 systemId).writePaddedAscii 32 volumeId
  let b := (b.skip 8).writeLebe32 nLbas
  if isSupplementary then (b.writeAscii (ascii "%/C")).skip 29 else b.skip 32

/-- The fields from the set size to the root directory. -/
def writeVolumeLocations (host : Host) (isSupplementary : Bool) : Writer :=
  let b := (b.writeLebe16 1).writeLebe16 1
  let b := (b.writeLebe16 blockSize).writeLebe32 10
  let b := b.writeLe32 (if isSupplementary then lePathTableJolietLba else lePathTableLba)
  let b := b.writeLe32 0
  let b := b.writeBe32 (if isSupplementary then bePathTableJolietLba else bePathTableLba)
  let b := b.writeBe32 0
  b.writeSpecialDirectoryRecord host 0
    (if isSupplementary then rootDirectoryJolietLba else rootDirectoryLba) 0x800

/-- The texts and dates at the end. -/
def writeVolumeTexts : Writer :=
  let b := (((b.fill 128 0x20).fill 128 0x20).fill 128 0x20).fill 128 0x20
  let b := ((b.fill 37 0x20).fill 37 0x20).fill 37 0x20
  let b := b.writeDummyDateAscii.writeDummyDateAscii
  let b := b.writeDummyDateAscii.writeDummyDateAscii
  let b := (b.write8 0x01).write8 0x00
  (b.skip 512).skip 653

/-- `write_volume_descriptor`. -/
def writeVolumeDescriptor (host : Host) (nLbas : Nat) (isSupplementary : Bool) : Writer :=
  ((b.writeVolumeIdentifiers nLbas isSupplementary).writeVolumeLocations host
    isSupplementary).writeVolumeTexts

/-- `write_path_table`. -/
def writePathTable (startLba rootLba : Nat) (isLe : Bool) : Writer :=
  let b := { b with offset := startLba * blockSize }
  let b := (b.write8 0x01).write8 0x00
  let b := if isLe then (b.writeLe32 rootLba).writeLe16 1 else (b.writeBe32 rootLba).writeBe16 1
  b.writeAscii [0]

/-- `write_root_directory`, at the offset of the directory. -/
def writeRootDirectory (host : Host) (isoFiles : List IsoFile) (startLba : Nat) (joliet : Bool) :
    Writer :=
  let b := { b with offset := startLba * blockSize }
  let b := b.writeSpecialDirectoryRecord host 0 startLba 0x800
  let b := b.writeSpecialDirectoryRecord host 1 startLba 0x800
  isoFiles.foldl (fun b file =>
    b.writeFileRecord host (if joliet then file.name else toMsdosFilename file.name) file.lba
      file.contents.length joliet) b

/-- `buffer.set`. -/
def setContents (file : IsoFile) : Writer :=
  { b with
    buffer := fun i =>
      if file.lba * blockSize ≤ i ∧ i < file.lba * blockSize + file.contents.length then
        file.contents.getD (i - file.lba * blockSize) 0
      else b.buffer i }

end Writer

/-- `generate`. -/
def generate (host : Host) (files : List File) : Writer :=
  let (isoFiles, nLbas) := placeFiles 25 files
  let b : Writer := ⟨fun _ => 0, nLbas * blockSize, systemAreaSize⟩
  let b := b.writeVolumeDescriptor host nLbas false
  let b := b.writeVolumeDescriptor host nLbas true
  let b := ((b.write8 0xFF).writeAscii (ascii "CD001")).write8 0x01
  let b := b.writePathTable lePathTableLba rootDirectoryLba true
  let b := b.writePathTable lePathTableJolietLba rootDirectoryJolietLba true
  let b := b.writePathTable bePathTableLba rootDirectoryLba false
  let b := b.writePathTable bePathTableJolietLba rootDirectoryJolietLba false
  let b := b.writeRootDirectory host isoFiles rootDirectoryLba false
  let b := b.writeRootDirectory host isoFiles rootDirectoryJolietLba true
  isoFiles.foldl Writer.setContents b

/-- `is_probably_iso9660_file`. -/
def isProbablyIso9660File (buffer : Nat → Byte) (size : Nat) : Bool :=
  17 * blockSize ≤ size && buffer (blockSize + 0) = 1 && buffer (blockSize + 1) = 67 &&
    buffer (blockSize + 2) = 68 && buffer (blockSize + 3) = 48 && buffer (blockSize + 4) = 48 &&
    buffer (blockSize + 5) = 49

/-! ## Reading -/

/-- A little-endian field. -/
def readLe (image : Nat → Byte) (n i : Nat) : Nat :=
  ((List.range n).map fun k => (image (i + k)).toNat * 256 ^ k).sum

/-- A big-endian field. -/
def readBe (image : Nat → Byte) (n i : Nat) : Nat :=
  ((List.range n).map fun k => (image (i + k)).toNat * 256 ^ (n - 1 - k)).sum

def readBytes (image : Nat → Byte) (n i : Nat) : List Byte :=
  (List.range n).map fun k => image (i + k)

/-- What a directory record says of a file. -/
structure Entry where
  name : List Byte
  flags : Byte
  lba : Nat
  size : Nat
  deriving DecidableEq

def readEntry (image : Nat → Byte) (i : Nat) : Entry where
  name := readBytes image (image (i + 32)).toNat (i + 33)
  flags := image (i + 25)
  lba := readLe image 4 (i + 2)
  size := readLe image 4 (i + 10)

/-- The positions of the records of a directory, up to a record of length zero. -/
def recordPositions (image : Nat → Byte) (stop : Nat) : Nat → Nat → List Nat
  | 0, _ => []
  | fuel + 1, i =>
    if i < stop ∧ image i ≠ 0 then i :: recordPositions image stop fuel (i + (image i).toNat) else []

/-- The records of the root directory of a volume descriptor. -/
def rootRecords (image : Nat → Byte) (descriptorLba : Nat) : List Nat :=
  let root := readEntry image (descriptorLba * blockSize + 156)
  recordPositions image (root.lba * blockSize + root.size) root.size (root.lba * blockSize)

/-- The contents of a file. -/
def readContents (image : Nat → Byte) (entry : Entry) : List Byte :=
  readBytes image entry.size (entry.lba * blockSize)

end V86.Cdrom
