import Mathlib.Algebra.BigOperators.Ring.List
import Mathlib.Algebra.Ring.Nat
import V86.Cdrom.Iso9660

/-!
# Images and their detector

An image has an empty system area of 16 blocks, the primary volume descriptor, and the contents of
the files in blocks of their own (`generate_primaryVolume`, `generate_contents`).
`is_probably_iso9660_file` looks for the descriptor one block after the start instead, where no
image has one.
-/

namespace V86.Cdrom

variable {n : Nat} {a b : Writer} {host : Host}

/-- What was written below `n` stays, and so does the size. -/
structure Writer.Keeps (n : Nat) (a b : Writer) : Prop where
  offset : n ≤ b.offset
  size : b.size = a.size
  buffer : ∀ i < n, b.buffer i = a.buffer i

namespace Writer.Keeps

theorem refl (a : Writer) : Keeps a.offset a a := ⟨Nat.le_refl _, rfl, fun _ _ => rfl⟩

section
variable (h : Keeps n a b)
include h

theorem readBytes {i k : Nat} (hi : i + k ≤ n) :
    readBytes b.buffer k i = Cdrom.readBytes a.buffer k i :=
  List.map_congr_left fun j hj => h.buffer _ (by have := List.mem_range.1 hj; omega)

theorem write8 (v : Nat) : Keeps n a (b.write8 v) where
  offset := Nat.le_succ_of_le h.offset
  size := h.size
  buffer := fun i hi => by
    have hne : i ≠ b.offset := by
      have := h.offset
      omega
    change (if b.offset < b.size then Function.update b.buffer b.offset _ else b.buffer) i = _
    split
    · rw [Function.update_of_ne hne]
      exact h.buffer i hi
    · exact h.buffer i hi

theorem moved {offset : Nat} (hoffset : n ≤ offset) : Keeps n a { b with offset } :=
  ⟨hoffset, h.size, h.buffer⟩

theorem skip (len : Nat) : Keeps n a (b.skip len) :=
  h.moved (Nat.le_add_right_of_le h.offset)

theorem writeAll (bytes : List Nat) : Keeps n a (b.writeAll bytes) := by
  induction bytes generalizing b with
  | nil => exact h
  | cons v bytes ih => exact ih (h.write8 v)

theorem fill (len v : Nat) : Keeps n a (b.fill len v) := h.writeAll _

theorem writeAscii (text : List Byte) : Keeps n a (b.writeAscii text) := h.writeAll _

theorem writeLe16 (v : Nat) : Keeps n a (b.writeLe16 v) := (h.write8 _).write8 _

theorem writeBe16 (v : Nat) : Keeps n a (b.writeBe16 v) := (h.write8 _).write8 _

theorem writeLe32 (v : Nat) : Keeps n a (b.writeLe32 v) :=
  (((h.write8 _).write8 _).write8 _).write8 _

theorem writeBe32 (v : Nat) : Keeps n a (b.writeBe32 v) :=
  (((h.write8 _).write8 _).write8 _).write8 _

theorem writeLebe16 (v : Nat) : Keeps n a (b.writeLebe16 v) :=
  (h.writeLe16 v).writeBe16 v

theorem writeLebe32 (v : Nat) : Keeps n a (b.writeLebe32 v) :=
  (h.writeLe32 v).writeBe32 v

theorem writePaddedAscii (len : Nat) (text : List Byte) :
    Keeps n a (b.writePaddedAscii len text) := h.writeAscii _

theorem writeUtf16be (text : List Unit16) : Keeps n a (b.writeUtf16be text) := by
  induction text generalizing b with
  | nil => exact h
  | cons c text ih => exact ih (h.writeBe16 c.toNat)

theorem writePaddedUtf16be (len : Nat) (text : List Byte) :
    Keeps n a (b.writePaddedUtf16be len text) := h.writeUtf16be _

theorem writeDummyDateAscii : Keeps n a b.writeDummyDateAscii :=
  (h.fill 16 0x20).write8 0

theorem writeDateCompact (host : Host) : Keeps n a (b.writeDateCompact host) :=
  ((((((h.write8 _).write8 _).write8 _).write8 _).write8 _).write8 _).write8 0

theorem writeName (host : Host) (name : RecordName) : Keeps n a (b.writeName host name) := by
  have hnamed : Keeps n a { b with offset := b.offset + 33 } := h.skip 33
  cases name with
  | special c | iso name => exact (hnamed.writeAscii _).moved h.offset
  | joliet name => exact (hnamed.writeUtf16be _).moved h.offset

theorem writeRecord (host : Host) (name : RecordName) (flags lba len : Nat) :
    Keeps n a (b.writeRecord host name flags lba len) := by
  have hstart := ((h.writeName host name).write8
    (33 + b.nameLength host name + if b.nameLength host name % 2 = 1 then 0 else 1)).write8 0
  have hdate := ((hstart.writeLebe32 lba).writeLebe32 len).writeDateCompact host
  have hname := ((((hdate.write8 flags).write8 0).write8 0).writeLebe16 1).write8
    (b.nameLength host name)
  exact hname.skip _

theorem writeVolumeIdentifiers (nLbas : Nat) (isSupplementary : Bool) :
    Keeps n a (b.writeVolumeIdentifiers nLbas isSupplementary) := by
  cases isSupplementary with
  | false =>
    have hstart := (((h.write8 0x01).writeAscii (ascii "CD001")).write8 0x01).write8 0x00
    have hid := (hstart.writePaddedAscii 32 systemId).writePaddedAscii 32 volumeId
    exact ((hid.skip 8).writeLebe32 nLbas).skip 32
  | true =>
    have hstart := (((h.write8 0x02).writeAscii (ascii "CD001")).write8 0x01).write8 0x00
    have hid := (hstart.writePaddedUtf16be 32 systemId).writePaddedUtf16be 32 volumeId
    exact (((hid.skip 8).writeLebe32 nLbas).writeAscii (ascii "%/C")).skip 29

theorem writeVolumeLocations (host : Host) (isSupplementary : Bool) :
    Keeps n a (b.writeVolumeLocations host isSupplementary) := by
  have hset := (((h.writeLebe16 1).writeLebe16 1).writeLebe16 blockSize).writeLebe32 10
  have hpaths := (((hset.writeLe32 (if isSupplementary then lePathTableJolietLba
    else lePathTableLba)).writeLe32 0).writeBe32 (if isSupplementary then bePathTableJolietLba
    else bePathTableLba)).writeBe32 0
  exact hpaths.writeRecord host (.special 0) fileFlagsDirectory _ 0x800

theorem writeVolumeTexts : Keeps n a b.writeVolumeTexts := by
  have hids := (((h.fill 128 0x20).fill 128 0x20).fill 128 0x20).fill 128 0x20
  have hfiles := ((hids.fill 37 0x20).fill 37 0x20).fill 37 0x20
  have hdates := hfiles.writeDummyDateAscii.writeDummyDateAscii.writeDummyDateAscii
  exact ((((hdates.writeDummyDateAscii).write8 0x01).write8 0x00).skip 512).skip 653

theorem writeVolumeDescriptor (host : Host) (nLbas : Nat) (isSupplementary : Bool) :
    Keeps n a (b.writeVolumeDescriptor host nLbas isSupplementary) :=
  ((h.writeVolumeIdentifiers nLbas isSupplementary).writeVolumeLocations host
    isSupplementary).writeVolumeTexts

theorem writePathTable {startLba : Nat} (hstart : n ≤ startLba * blockSize) (rootLba : Nat)
    (isLe : Bool) : Keeps n a (b.writePathTable startLba rootLba isLe) := by
  have hmoved : Keeps n a { b with offset := startLba * blockSize } := h.moved hstart
  cases isLe with
  | false => exact ((((hmoved.write8 _).write8 _).writeBe32 _).writeBe16 _).writeAscii _
  | true => exact ((((hmoved.write8 _).write8 _).writeLe32 _).writeLe16 _).writeAscii _

theorem writeRootDirectory (host : Host) (isoFiles : List IsoFile) {startLba : Nat}
    (hstart : n ≤ startLba * blockSize) (joliet : Bool) :
    Keeps n a (b.writeRootDirectory host isoFiles startLba joliet) := by
  have hmoved : Keeps n a { b with offset := startLba * blockSize } := h.moved hstart
  have hspecial := (hmoved.writeRecord host (.special 0) fileFlagsDirectory startLba
    0x800).writeRecord host (.special 1) fileFlagsDirectory startLba 0x800
  unfold Writer.writeRootDirectory Writer.writeSpecialDirectoryRecord
  dsimp only
  generalize Writer.writeRecord _ _ _ _ _ _ = b at hspecial ⊢
  induction isoFiles generalizing b with
  | nil => exact hspecial
  | cons file isoFiles ih => exact ih _ (hspecial.writeRecord host _ 0 _ _)

end

end Writer.Keeps

/-! ## What an image has -/

theorem readBytes_succ (image : Nat → Byte) (k i : Nat) :
    readBytes image (k + 1) i = image i :: readBytes image k (i + 1) := by
  simp [readBytes, List.range_succ_eq_map, Nat.add_assoc, Nat.add_comm 1]

/-- Bytes that fit are read back. -/
theorem readBytes_writeAll (bytes : List Nat) (b : Writer)
    (hfits : b.offset + bytes.length ≤ b.size) :
    readBytes (b.writeAll bytes).buffer bytes.length b.offset = bytes.map UInt8.ofNat := by
  induction bytes generalizing b with
  | nil => rfl
  | cons v bytes ih =>
    rw [List.length_cons] at hfits
    have hfirst : (b.write8 v).buffer b.offset = UInt8.ofNat v := by
      change (if b.offset < b.size then Function.update b.buffer b.offset _ else b.buffer) _ = _
      rw [if_pos (by omega), Function.update_self]
    have hkeeps := (Writer.Keeps.refl (b.write8 v)).writeAll bytes
    rw [List.length_cons, readBytes_succ, List.map_cons]
    exact congrArg₂ _ ((hkeeps.buffer _ (Nat.lt_succ_self _)).trans hfirst)
      (ih (b.write8 v) (by change b.offset + 1 + _ ≤ b.size; omega))

theorem readLe_succ (image : Nat → Byte) (k i : Nat) :
    readLe image (k + 1) i = (image i).toNat + 256 * readLe image k (i + 1) := by
  rw [readLe, readLe, ← List.sum_map_mul_left (List.range k) _ 256, List.range_succ_eq_map]
  simp [Function.comp_def, Nat.pow_succ', Nat.mul_left_comm 256, Nat.add_assoc, Nat.add_comm 1]

theorem readBe_succ (image : Nat → Byte) (k i : Nat) :
    readBe image (k + 1) i = 256 * readBe image k i + (image (i + k)).toNat := by
  have hpow : ∀ j ∈ List.range k, (image (i + j)).toNat * 256 ^ (k - j) =
      256 * ((image (i + j)).toNat * 256 ^ (k - 1 - j)) := fun j hj => by
    have := List.mem_range.1 hj
    rw [Nat.mul_left_comm, ← Nat.pow_succ', show k - j = k - 1 - j + 1 by omega]
  rw [readBe, readBe, ← List.sum_map_mul_left (List.range k) _ 256, ← List.map_congr_left hpow]
  simp [List.range_succ]

/-- The bytes of `write_lebe32`. -/
def lebe32 (v : Nat) : List Nat :=
  [v, v >>> 8, v >>> 16, v >>> 24, v >>> 24, v >>> 16, v >>> 8, v]

theorem readBytes_writeLebe32 (hfits : b.offset + 8 ≤ b.size) (v : Nat) :
    readBytes (b.writeLebe32 v).buffer 8 b.offset = (lebe32 v).map UInt8.ofNat :=
  readBytes_writeAll (lebe32 v) b hfits

/-- What `write_lebe32` writes is read in both orders. -/
theorem readLebe32 {image : Nat → Byte} {i v : Nat}
    (h : readBytes image 8 i = (lebe32 v).map UInt8.ofNat) :
    readLe image 4 i = v % 2 ^ 32 ∧ readBe image 4 (i + 4) = v % 2 ^ 32 := by
  have hle (i : Nat) : readLe image 0 i = 0 := rfl
  have hbe (i : Nat) : readBe image 0 i = 0 := rfl
  simp only [lebe32, readBytes_succ, List.map_cons, List.cons.injEq, Nat.add_assoc, Nat.reduceAdd] at h
  simp only [readLe_succ, readBe_succ, Nat.add_assoc, Nat.reduceAdd, h, UInt8.toNat_ofNat',
    Nat.shiftRight_eq_div_pow, Nat.add_zero, hle, hbe]
  omega

theorem writeAll_append (b : Writer) (l l' : List Nat) :
    (b.writeAll l).writeAll l' = b.writeAll (l ++ l') := List.foldl_append.symm

theorem writeAll_write8 (b : Writer) (l : List Nat) (v : Nat) :
    (b.writeAll l).write8 v = b.writeAll (l ++ [v]) := writeAll_append b l [v]

theorem writeAll_place (b : Writer) (l : List Nat) :
    (b.writeAll l).offset = b.offset + l.length ∧ (b.writeAll l).size = b.size := by
  induction l generalizing b with
  | nil => exact ⟨rfl, rfl⟩
  | cons v l ih =>
    refine ⟨(ih (b.write8 v)).1.trans ?_, (ih (b.write8 v)).2⟩
    change b.offset + 1 + _ = b.offset + (_ + 1)
    omega

theorem writeAll_writeAscii {l : List Nat} {text : List Byte}
    (h : b.offset + (l.length + text.length) ≤ b.size) :
    (b.writeAll l).writeAscii text = b.writeAll (l ++ text.map (·.toNat)) := by
  obtain ⟨hoffset, hsize⟩ := writeAll_place b l
  rw [Writer.writeAscii, List.take_of_length_le (by omega), writeAll_append]

/-- The fields of the primary volume descriptor up to its names. -/
def volumeFields : List Byte :=
  1 :: ascii "CD001" ++ [1, 0] ++ Writer.padEnd 32 systemId ++ Writer.padEnd 32 volumeId

theorem writeVolumeIdentifiers_eq (hfits : b.offset + 72 ≤ b.size) (nLbas : Nat) :
    b.writeVolumeIdentifiers nLbas false =
      (((b.writeAll (volumeFields.map (·.toNat))).skip 8).writeLebe32 nLbas).skip 32 := by
  have hid : (ascii "CD001").length = 5 := by decide
  have hnames : (Writer.padEnd 32 systemId).length = 32 ∧
      (Writer.padEnd 32 volumeId).length = 32 := by decide
  change ((Writer.skip (Writer.writeAscii (Writer.writeAscii ((((b.writeAll [1]).writeAscii
    (ascii "CD001")).write8 1).write8 0) (Writer.padEnd 32 systemId)) (Writer.padEnd 32 volumeId))
    8).writeLebe32 nLbas).skip 32 = _
  rw [writeAll_writeAscii, writeAll_write8, writeAll_write8, writeAll_writeAscii,
    writeAll_writeAscii]
  · simp [volumeFields]
  all_goals (simp [hid, hnames]; omega)

theorem writeVolumeIdentifiers_read (hfits : b.offset + 88 ≤ b.size) (nLbas : Nat) :
    (b.writeVolumeIdentifiers nLbas false).offset = b.offset + 120 ∧
      readBytes (b.writeVolumeIdentifiers nLbas false).buffer 72 b.offset = volumeFields ∧
      readBytes (b.writeVolumeIdentifiers nLbas false).buffer 8 (b.offset + 80) =
        (lebe32 nLbas).map UInt8.ofNat := by
  have hlength : (volumeFields.map (·.toNat)).length = 72 := by decide
  obtain ⟨hoffset, hsize⟩ := writeAll_place b (volumeFields.map (·.toNat))
  have hfields := readBytes_writeAll (volumeFields.map (·.toNat)) b (by rw [hlength]; omega)
  rw [hlength] at hoffset hfields
  rw [writeVolumeIdentifiers_eq (by omega)]
  -- `named` is not to be unfolded
  obtain ⟨named, hnamed⟩ : ∃ named, b.writeAll (volumeFields.map (·.toNat)) = named := ⟨_, rfl⟩
  rw [hnamed] at hoffset hsize hfields ⊢
  have hplace : (named.skip 8).offset = b.offset + 80 := congrArg (· + 8) hoffset
  have hnblocks := readBytes_writeLebe32 (b := named.skip 8)
    (by rw [hplace]; change _ ≤ named.size; omega) nLbas
  have hkeeps := ((Writer.Keeps.refl named).skip 8).writeLebe32 nLbas
  refine ⟨congrArg (· + 48) hoffset, ?_, hplace ▸ hnblocks⟩
  exact ((hkeeps.readBytes (Nat.le_of_eq hoffset.symm)).trans hfields).trans (by decide)

/-- The contents of the files leave what is below them. -/
theorem foldl_setContents (l : List IsoFile) (b : Writer) :
    (l.foldl Writer.setContents b).offset = b.offset ∧
      (l.foldl Writer.setContents b).size = b.size ∧
      ∀ i, (∀ file ∈ l, i < file.lba * blockSize) →
        (l.foldl Writer.setContents b).buffer i = b.buffer i := by
  induction l generalizing b with
  | nil => exact ⟨rfl, rfl, fun _ _ => rfl⟩
  | cons file l ih =>
    obtain ⟨hoffset, hsize, hbuffer⟩ := ih (b.setContents file)
    refine ⟨hoffset, hsize, fun i hi => (hbuffer i fun g hg => hi g (.tail _ hg)).trans ?_⟩
    exact if_neg fun h => Nat.not_lt.2 h.1 (hi file (.head _))

theorem Writer.Keeps.setContents {l : List IsoFile} (h : Keeps n a b)
    (hl : ∀ file ∈ l, n ≤ file.lba * blockSize) : Keeps n a (l.foldl Writer.setContents b) := by
  obtain ⟨hoffset, hsize, hbuffer⟩ := foldl_setContents l b
  refine ⟨hoffset ▸ h.offset, hsize.trans h.size, fun i hi => ?_⟩
  exact (hbuffer i fun file hfile => Nat.lt_of_lt_of_le hi (hl file hfile)).trans (h.buffer i hi)

theorem contents_in_place {l : List IsoFile} (b : Writer)
    (hapart : l.Pairwise fun file file' =>
      file.lba * blockSize + file.contents.length ≤ file'.lba * blockSize) :
    ∀ file ∈ l, readBytes (l.foldl Writer.setContents b).buffer file.contents.length
      (file.lba * blockSize) = file.contents := by
  induction l generalizing b with
  | nil => nofun
  | cons file l ih =>
    obtain ⟨hfirst, hrest⟩ := List.pairwise_cons.1 hapart
    intro g hg
    obtain rfl | hg := List.mem_cons.1 hg
    · refine List.ext_getElem (by simp [readBytes]) fun k hk hk' => ?_
      simp only [List.foldl_cons, readBytes, List.getElem_map, List.getElem_range]
      rw [(foldl_setContents l _).2.2 _ fun file hfile =>
        Nat.lt_of_lt_of_le (Nat.add_lt_add_left hk' _) (hfirst file hfile)]
      change (if _ then g.contents.getD _ 0 else _) = _
      rw [if_pos ⟨Nat.le_add_right .., Nat.add_lt_add_left hk' _⟩, Nat.add_sub_cancel_left,
        List.getD_eq_getElem?_getD, List.getElem?_eq_getElem hk', Option.getD_some]
    · exact ih _ hrest g hg

/-- The files have blocks of their own, from the first block on and up to the last. -/
theorem placeFiles_extents (files : List File) (start : Nat) :
    ((placeFiles start files).1.Pairwise fun file file' =>
      file.lba * blockSize + file.contents.length ≤ file'.lba * blockSize) ∧
      (∀ file ∈ (placeFiles start files).1, start ≤ file.lba ∧
        file.lba * blockSize + file.contents.length ≤ (placeFiles start files).2 * blockSize) ∧
      start ≤ (placeFiles start files).2 := by
  induction files generalizing start with
  | nil => exact ⟨.nil, nofun, Nat.le_refl _⟩
  | cons file files ih =>
    have hround : file.contents.length ≤
        roundByteSizeToBlockSize file.contents.length * blockSize := by
      rw [roundByteSizeToBlockSize, blockSize]
      split <;> omega
    obtain ⟨hapart, hin, hstop⟩ := ih (start + roundByteSizeToBlockSize file.contents.length)
    rw [blockSize] at *
    refine ⟨.cons (fun g hg => ?_) hapart, fun g hg => ?_, Nat.le_of_add_right_le hstop⟩
    · have := (hin g hg).1
      dsimp only
      omega
    · obtain rfl | hg := List.mem_cons.1 hg
      · refine ⟨Nat.le_refl _, ?_⟩
        change start * _ + file.contents.length ≤ (placeFiles (start + _) files).2 * _
        omega
      · exact ⟨Nat.le_trans (Nat.le_add_right ..) (hin g hg).1, (hin g hg).2⟩

/-- The image before anything is written. -/
def blank (nLbas : Nat) : Writer := ⟨fun _ => 0, nLbas * blockSize, systemAreaSize⟩

/-- What is written up to the root directory of the primary volume descriptor stays. -/
theorem generate_keeps (host : Host) (files : List File) (hn : n ≤ 19 * blockSize)
    (h : Writer.Keeps n a ((blank (placeFiles 25 files).2).writeVolumeIdentifiers
      (placeFiles 25 files).2 false)) : Writer.Keeps n a (generate host files) := by
  have hlba {lba : Nat} (hlba : 19 ≤ lba) : n ≤ lba * blockSize :=
    Nat.le_trans hn (Nat.mul_le_mul_right blockSize hlba)
  have hvolumes := (((((h.writeVolumeLocations host false).writeVolumeTexts).writeVolumeDescriptor
    host (placeFiles 25 files).2 true).write8 0xFF).writeAscii (ascii "CD001")).write8 0x01
  have hle := (hvolumes.writePathTable (hlba (by decide : 19 ≤ lePathTableLba))
    rootDirectoryLba true).writePathTable (hlba (by decide : 19 ≤ lePathTableJolietLba))
    rootDirectoryJolietLba true
  have hbe := (hle.writePathTable (hlba (by decide : 19 ≤ bePathTableLba))
    rootDirectoryLba false).writePathTable (hlba (by decide : 19 ≤ bePathTableJolietLba))
    rootDirectoryJolietLba false
  have hroots := (hbe.writeRootDirectory host (placeFiles 25 files).1
    (hlba (by decide : 19 ≤ rootDirectoryLba)) false).writeRootDirectory host
    (placeFiles 25 files).1 (hlba (by decide : 19 ≤ rootDirectoryJolietLba)) true
  exact hroots.setContents fun file hfile =>
    hlba (Nat.le_trans (by decide) ((placeFiles_extents files 25).2.1 file hfile).1)

theorem generate_blank (host : Host) (files : List File) : Writer.Keeps systemAreaSize
    (blank (placeFiles 25 files).2) (generate host files) :=
  generate_keeps host files (by decide)
    ((Writer.Keeps.refl (blank _)).writeVolumeIdentifiers _ false)

/-- The system area of an image is empty. -/
theorem generate_systemArea (host : Host) (files : List File) {i : Nat} (hi : i < systemAreaSize) :
    (generate host files).buffer i = 0 :=
  (generate_blank host files).buffer i hi

/-- The files are in their places, one behind the other: an entry with the place and the length of
a file has its contents. -/
theorem generate_contents (host : Host) (files : List File) {entry : Entry} :
    ∀ file ∈ (placeFiles 25 files).1, entry.lba = file.lba → entry.size = file.contents.length →
      entry.lba * blockSize + entry.size ≤ (generate host files).size ∧
      readContents (generate host files).buffer entry = file.contents := by
  obtain ⟨hapart, hin, -⟩ := placeFiles_extents files 25
  intro file hfile hlba hsize
  rw [readContents, hlba, hsize]
  exact ⟨(generate_blank host files).size ▸ (hin file hfile).2,
    contents_in_place _ hapart file hfile⟩

/-- The primary volume descriptor is in its place, with the number of blocks in both orders. -/
theorem generate_primaryVolume (host : Host) (files : List File) :
    let image := (generate host files).buffer
    let nLbas := (placeFiles 25 files).2
    readBytes image 72 (primaryVolumeLba * blockSize) = volumeFields ∧
      readLe image 4 (primaryVolumeLba * blockSize + 80) = nLbas % 2 ^ 32 ∧
      readBe image 4 (primaryVolumeLba * blockSize + 84) = nLbas % 2 ^ 32 := by
  have hstop : 25 * blockSize ≤ (blank (placeFiles 25 files).2).size :=
    Nat.mul_le_mul_right _ (placeFiles_extents files 25).2.2
  obtain ⟨hoffset, hfields, hnblocks⟩ := writeVolumeIdentifiers_read
    (b := blank (placeFiles 25 files).2)
    (Nat.le_trans (by decide : systemAreaSize + 88 ≤ 25 * blockSize) hstop) (placeFiles 25 files).2
  rw [show (blank (placeFiles 25 files).2).offset = systemAreaSize from rfl] at *
  have hkeeps := generate_keeps host files (by rw [hoffset]; decide)
    (Writer.Keeps.refl ((blank _).writeVolumeIdentifiers _ false))
  rw [hoffset] at hkeeps
  exact ⟨(hkeeps.readBytes (by decide)).trans hfields,
    readLebe32 ((hkeeps.readBytes (by decide)).trans hnblocks)⟩

/-- No image is recognised. -/
theorem not_isProbablyIso9660File (host : Host) (files : List File) :
    isProbablyIso9660File (generate host files).buffer (generate host files).size = false := by
  have hzero : (generate host files).buffer (blockSize + 0) = 0 :=
    generate_systemArea host files (by decide)
  rw [isProbablyIso9660File, hzero]
  simp

/-! ## What an image should be -/

/-- The name in a record of a file. -/
def recordName (host : Host) (joliet : Bool) (file : File) : List Byte :=
  (if joliet then RecordName.joliet file.name
    else .iso (toMsdosFilename file.name)).bytes host

/-- The lengths of the records of the directory. -/
def recordLength (host : Host) (joliet : Bool) (file : File) : Nat :=
  let nameLen := (recordName host joliet file).length
  33 + nameLen + if nameLen % 2 = 1 then 0 else 1

/-- The directory records fit one block, and their lengths a byte. -/
def Fits (host : Host) (files : List File) : Prop :=
  ∀ joliet, (∀ file ∈ files, recordLength host joliet file < 256) ∧
    34 + 34 + (files.map (recordLength host joliet)).sum ≤ blockSize

instance (host : Host) (files : List File) : Decidable (Fits host files) :=
  inferInstanceAs (Decidable (∀ _, _))

def volumeLba (joliet : Bool) : Nat := if joliet then supplementaryVolumeLba else primaryVolumeLba

/-- The image is read back through both root directories. -/
structure ReadsBack (host : Host) (files : List File) (image : Writer) : Prop where
  descriptors : ∀ joliet, readBytes image.buffer 7 (volumeLba joliet * blockSize) =
    (if joliet then 2 else 1) :: ascii "CD001" ++ [1]
  escape : readBytes image.buffer 3 (supplementaryVolumeLba * blockSize + 88) = ascii "%/C"
  records : ∀ joliet, ((rootRecords image.buffer (volumeLba joliet)).map fun i =>
      let entry := readEntry image.buffer i
      (entry.name, entry.flags, if entry.flags = 0 then readContents image.buffer entry else [])) =
    ([0], 2, []) :: ([1], 2, []) ::
      files.map fun file => (recordName host joliet file, 0, file.contents)
  apart : ∀ joliet, (((rootRecords image.buffer (volumeLba joliet)).drop 2).map
      (readEntry image.buffer)).Pairwise fun e e' =>
    e.lba * blockSize + e.size ≤ e'.lba * blockSize ∨ e'.lba * blockSize + e'.size ≤ e.lba * blockSize
  inside : ∀ joliet, ∀ i ∈ rootRecords image.buffer (volumeLba joliet),
    let entry := readEntry image.buffer i
    entry.lba * blockSize + entry.size ≤
        readLe image.buffer 4 (volumeLba joliet * blockSize + 80) * blockSize ∧
      readLe image.buffer 4 (volumeLba joliet * blockSize + 80) * blockSize = image.size
  bothEndian : ∀ joliet, (∀ field ∈ [(80, 4), (120, 2), (124, 2), (128, 2), (132, 4)],
      readLe image.buffer field.2 (volumeLba joliet * blockSize + field.1) =
        readBe image.buffer field.2 (volumeLba joliet * blockSize + field.1 + field.2)) ∧
    ∀ i ∈ (volumeLba joliet * blockSize + 156) :: rootRecords image.buffer (volumeLba joliet),
      ∀ field ∈ [(2, 4), (10, 4), (28, 2)], readLe image.buffer field.2 (i + field.1) =
          readBe image.buffer field.2 (i + field.1 + field.2)

/-- The image reads back and is recognised. -/
def Correct (host : Host) (files : List File) : Prop :=
  ReadsBack host files (generate host files) ∧
    isProbablyIso9660File (generate host files).buffer (generate host files).size = true

/-- An image is never recognised, so it never does both. -/
theorem never_correct (host : Host) (files : List File) : ¬Correct host files := by
  rintro ⟨-, hrecognised⟩
  rw [not_isProbablyIso9660File] at hrecognised
  cases hrecognised

/-- One file of one byte, in an image of the first of January 1970. -/
theorem one_file_unrecognised :
    ¬∀ (host : Host) (files : List File), Fits host files → Correct host files := by
  intro h
  obtain ⟨-, hrecognised⟩ := h ⟨id, 1970, 0, 1, 0, 0, 0⟩ [⟨[unit 'A'], [0x41]⟩] (by decide)
  rw [not_isProbablyIso9660File] at hrecognised
  cases hrecognised

end V86.Cdrom
