import Mathlib.Tactic.Common

/-!
# The floppy drive

`FloppyDrive` of `src/floppy.js`: the formats that images are matched against, the position of the
heads, and seeking. A drive without a disk has a geometry of zeroes.
-/

namespace V86.Floppy

abbrev Byte := BitVec 8

/-- `SECTOR_SIZE`. -/
def sectorSize : Nat := 512

/-- An element of `DISK_FORMATS`. -/
structure Format where
  driveType : Nat
  sectors : Nat
  tracks : Nat
  heads : Nat
  deriving DecidableEq

/-- `disk_size`. -/
def Format.size (f : Format) : Nat := f.sectors * f.tracks * f.heads * sectorSize

/-- `DISK_FORMATS`, the drive types being those of the CMOS. -/
def diskFormats : List Format :=
  [⟨4, 18, 80, 2⟩, ⟨4, 20, 80, 2⟩, ⟨4, 21, 80, 2⟩, ⟨4, 21, 82, 2⟩, ⟨4, 21, 83, 2⟩, ⟨4, 22, 80, 2⟩,
    ⟨4, 23, 80, 2⟩, ⟨4, 24, 80, 2⟩,
    ⟨5, 36, 80, 2⟩, ⟨5, 39, 80, 2⟩, ⟨5, 40, 80, 2⟩, ⟨5, 44, 80, 2⟩, ⟨5, 48, 80, 2⟩,
    ⟨4, 8, 80, 2⟩, ⟨4, 9, 80, 2⟩, ⟨4, 10, 80, 2⟩, ⟨4, 10, 82, 2⟩, ⟨4, 10, 83, 2⟩, ⟨4, 13, 80, 2⟩,
    ⟨4, 14, 80, 2⟩, ⟨2, 15, 80, 2⟩, ⟨2, 18, 80, 2⟩, ⟨2, 18, 82, 2⟩, ⟨2, 18, 83, 2⟩, ⟨2, 20, 80, 2⟩,
    ⟨2, 9, 80, 2⟩, ⟨2, 11, 80, 2⟩, ⟨2, 9, 40, 2⟩, ⟨2, 9, 40, 1⟩, ⟨2, 10, 41, 2⟩, ⟨2, 10, 42, 2⟩,
    ⟨2, 8, 40, 2⟩, ⟨2, 8, 40, 1⟩, ⟨4, 9, 80, 1⟩, ⟨1, 10, 40, 1⟩, ⟨1, 10, 40, 2⟩]

/-- `CMOS_FDD_TYPE_MEDIUM`: the size of a drive's disks. -/
def medium : Nat → Nat
  | 0 => 0
  | 1 | 2 => 525
  | _ => 350

/-- The smallest format that is larger than the buffer, the first of them. -/
def nearestFormat (size : Nat) : Option Format :=
  diskFormats.foldl (fun nearest f =>
    if size < f.size ∧ nearest.all (fun n => f.size < n.size) then some f else nearest) none

/-- `find_disk_format`: of the formats of the buffer's size the first of the drive's type (of any,
where that is not known), else the first of the same medium, else the first; else the nearest. -/
def findDiskFormat (size driveType : Nat) : Option Format :=
  (diskFormats.find? fun f => f.size = size && (driveType = 0 || f.driveType = driveType)) <|>
    (diskFormats.find? fun f => f.size = size && medium f.driveType = medium driveType) <|>
    (diskFormats.find? fun f => f.size = size) <|>
    nearestFormat size

/-- `FloppyDrive`. A buffer is named by its place among those that were inserted. -/
structure Drive where
  driveType : Nat
  maxTrack : Nat
  maxHead : Nat
  maxSect : Nat
  currTrack : Nat
  currHead : Nat
  currSect : Nat
  perpendicular : Byte
  readOnly : Bool
  mediaChanged : Bool
  buffer : Option Nat
  deriving DecidableEq

/-- What `seek` returns, `0` to `3`. -/
inductive Seek where
  | sameTrack
  | trackChanged
  | invalidTrack
  | invalidSector
  deriving DecidableEq

namespace Drive

/-- A drive as its constructor makes it before it looks for a disk. -/
def empty (driveType : Nat) : Drive where
  driveType := driveType
  maxTrack := 0
  maxHead := 0
  maxSect := 0
  currTrack := 0
  currHead := 0
  currSect := 1
  perpendicular := 0
  readOnly := false
  mediaChanged := true
  buffer := none

/-- `insert_disk` of an image of the given format, as the given buffer. -/
def insertDisk (d : Drive) (f : Format) (buffer : Nat) (readOnly : Bool) : Drive :=
  { d with
    maxTrack := f.tracks
    maxHead := f.heads
    maxSect := f.sectors
    readOnly := readOnly
    mediaChanged := true
    buffer := some buffer
    driveType := if d.driveType = 0 then f.driveType else d.driveType }

/-- `eject_disk`. -/
def ejectDisk (d : Drive) : Drive :=
  { d with maxTrack := 0, maxHead := 0, maxSect := 0, mediaChanged := true, buffer := none }

/-- `chs2lba`. Sector zero of the first track is at `-1`. -/
def chs2lba (d : Drive) (track head sect : Nat) : Int :=
  (track * d.maxHead + head) * d.maxSect + sect - 1

/-- `seek`. -/
def seek (d : Drive) (head track sect : Nat) : Drive × Seek :=
  if track > d.maxTrack ∨ head ≠ 0 ∧ d.maxHead = 1 then (d, .invalidTrack)
  else if sect > d.maxSect then (d, .invalidSector)
  else
    let moves := d.chs2lba d.currTrack d.currHead d.currSect ≠ d.chs2lba track head sect
    let changes := moves ∧ d.currTrack ≠ track
    let d' :=
      if moves then
        { d with
          mediaChanged := if d.currTrack ≠ track ∧ d.buffer ≠ none then false else d.mediaChanged
          currHead := head
          currTrack := track
          currSect := sect }
      else d
    if d.buffer = none then (d', .invalidTrack)
    else (d', if changes then .trackChanged else .sameTrack)

/-- The sector exists on the disk in the drive. -/
def HasSector (d : Drive) (track head sect : Nat) : Prop :=
  track < d.maxTrack ∧ head < d.maxHead ∧ 1 ≤ sect ∧ sect ≤ d.maxSect

instance (d : Drive) (track head sect : Nat) : Decidable (d.HasSector track head sect) :=
  inferInstanceAs (Decidable (_ ∧ _))

/-- The heads are over a sector that exists. -/
def Stands (d : Drive) : Prop := d.HasSector d.currTrack d.currHead d.currSect

instance (d : Drive) : Decidable d.Stands := inferInstanceAs (Decidable (d.HasSector ..))

variable {d : Drive} {head track sect : Nat}

/-- Seeking leaves the disk as it is. -/
theorem buffer_seek : (d.seek head track sect).1.buffer = d.buffer := by
  rw [seek]
  dsimp only
  split
  · rfl
  split
  · rfl
  split <;> split <;> rfl

/-- A seek that is not refused has a disk under it. -/
theorem buffer_of_seek (h : (d.seek head track sect).2 ≠ .invalidTrack)
    (h' : (d.seek head track sect).2 ≠ .invalidSector) : d.buffer ≠ none := by
  intro hnone
  rw [seek] at h h'
  dsimp only at h h'
  split at h
  · exact h rfl
  · next htrack =>
    rw [if_neg htrack] at h'
    split at h
    · next hsect =>
      rw [if_pos hsect] at h'
      exact h' rfl
    · exact h rfl

theorem chs2lba_nonneg (h : 1 ≤ sect) : 0 ≤ d.chs2lba track head sect := by
  have hcylinder : 0 ≤ ((track : Int) * d.maxHead + head) * d.maxSect :=
    Int.mul_nonneg (Int.add_nonneg (Int.mul_nonneg (Int.natCast_nonneg _) (Int.natCast_nonneg _))
      (Int.natCast_nonneg _)) (Int.natCast_nonneg _)
  rw [chs2lba]
  omega

/-- From a sector that exists a seek to another one comes to one that exists. -/
theorem Stands.seek (h : d.Stands) (h' : d.HasSector track head sect) :
    (d.seek head track sect).1.Stands := by
  rw [Drive.seek]
  dsimp only
  split
  · exact h
  split
  · exact h
  split <;> split
  · exact h'
  · exact h
  · exact h'
  · exact h

end Drive

end V86.Floppy
