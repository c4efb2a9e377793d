import V86.Lib.Bits
import V86.Lib.Crc
import V86.State.Value

/-!
# Streamed snapshots

`state.js`, version 7: a header, a manifest (the JSON of the state tree and the lengths of its
buffers) and records with a checksum each, first those of the buffers, then those of the pages of
RAM that are not zero, then those of extended RAM. `createStateStream` gives the writer, which
`Writer.next` asks for one chunk after another, and `restoreStateStream` reads a source of bytes in
two passes, of which only the second one changes the machine.
-/

namespace V86.State

/-- `STATE_MAGIC`. -/
def stateMagic : Nat := 0x86768676

/-- `STREAM_VERSION`. -/
def streamVersion : Nat := 7

/-- `STATE_STREAM_CHUNK_SIZE`. -/
def chunkSize : Nat := 1048576

/-- `STREAM_HEADER_SIZE`. -/
def headerSize : Nat := 32

/-- `STREAM_RECORD_SIZE`. -/
def recordSize : Nat := 20

/-- `STREAM_RAM_CHUNK`. -/
def ramChunk : Nat := chunkSize - 4096

/-- `STREAM_INFO_LIMIT`. -/
def infoLimit : Nat := 16777216

/-! ## Bytes -/

/-- `setUint32`, little endian. -/
def uint32 (n : Nat) : List Byte :=
  [BitVec.ofNat 8 n, BitVec.ofNat 8 (n / 2 ^ 8), BitVec.ofNat 8 (n / 2 ^ 16),
    BitVec.ofNat 8 (n / 2 ^ 24)]

/-- `getUint32`, little endian. -/
def getUint32 (bytes : List Byte) (i : Nat) : Nat :=
  (bytes.getD i 0).toNat + 2 ^ 8 * (bytes.getD (i + 1) 0).toNat +
    2 ^ 16 * (bytes.getD (i + 2) 0).toNat + 2 ^ 24 * (bytes.getD (i + 3) 0).toNat

/-- `Math.ceil` of a quotient. -/
def ceilDiv (n d : Nat) : Nat := (n + d - 1) / d

/-- A `Uint8Array`: a part of a buffer, with its offset there. -/
structure View where
  byteOffset : Nat
  bytes : List Byte

/-! ## Checksums -/

/-- The polynomial of CRC-32. -/
def crcPolynomial : BitVec 32 := 0xEDB88320

/-- `STREAM_CRC_TABLE`: entry `i` of the table for a byte that `k` bytes follow. -/
def crcTable : Nat → BitVec 8 → BitVec 32
  | 0, i => Crc.shifts crcPolynomial 8 (i.setWidth 32)
  | k + 1, i =>
    let previous := crcTable k i
    previous >>> 8 ^^^ Crc.shifts crcPolynomial 8 ((previous.setWidth 8).setWidth 32)

/-- One byte a step. -/
def crcByte (crc : BitVec 32) (b : Byte) : BitVec 32 :=
  crc >>> 8 ^^^ crcTable 0 ((crc ^^^ b.setWidth 32).setWidth 8)

/-- Sixteen bytes a step, read as four words. -/
def crcWords (crc w₀ b c d : BitVec 32) : BitVec 32 :=
  let a := crc ^^^ w₀
  let at' (k : Nat) (x : BitVec 32) := crcTable k (x.setWidth 8)
  at' 15 a ^^^ at' 14 (a >>> 8) ^^^ at' 13 (a >>> 16) ^^^ at' 12 (a >>> 24) ^^^
    at' 11 b ^^^ at' 10 (b >>> 8) ^^^ at' 9 (b >>> 16) ^^^ at' 8 (b >>> 24) ^^^
    at' 7 c ^^^ at' 6 (c >>> 8) ^^^ at' 5 (c >>> 16) ^^^ at' 4 (c >>> 24) ^^^
    at' 3 d ^^^ at' 2 (d >>> 8) ^^^ at' 1 (d >>> 16) ^^^ at' 0 (d >>> 24)

/-- A word of an `Int32Array` over the bytes. -/
def int32At (bytes : List Byte) (i : Nat) : BitVec 32 :=
  Crc.word (bytes.getD i 0) (bytes.getD (i + 1) 0) (bytes.getD (i + 2) 0) (bytes.getD (i + 3) 0)

/-- The groups of sixteen bytes, and the bytes after them. -/
def crcGroups : Nat → BitVec 32 → List Byte → BitVec 32 × List Byte
  | 0, crc, bytes => (crc, bytes)
  | n + 1, crc, bytes =>
    crcGroups n (crcWords crc (int32At bytes 0) (int32At bytes 4) (int32At bytes 8)
      (int32At bytes 12)) (bytes.drop 16)

/-- `stream_crc`: byte by byte up to a word boundary, then sixteen bytes a step, then the rest. -/
def streamCrc (v : View) : Option Nat :=
  let head := min v.bytes.length ((4 - v.byteOffset % 4) % 4)
  let crc := (v.bytes.take head).foldl crcByte 0xFFFFFFFF
  let rest := v.bytes.drop head
  -- `>> 4 << 2` of the length as a signed word; an `Int32Array` of a negative length throws
  let count := (BitVec.ofNat 32 rest.length).toInt / 16 * 4
  if count < 0 then none
  else
    let (crc, rest) := crcGroups (count / 4).toNat crc rest
    some (rest.foldl crcByte crc ^^^ 0xFFFFFFFF).toNat

/-- `stream_record`: a record is not longer than a chunk, so that its checksum does not throw. -/
def streamRecord (kind id offset : Nat) (data : List Byte) : List Byte :=
  let bytes := uint32 kind ++ uint32 id ++ uint32 offset ++ uint32 data.length ++ data
  bytes ++ uint32 ((streamCrc ⟨0, bytes⟩).getD 0)

/-! ## The machine -/

/-- The memory of the guest. -/
structure Memory where
  length : Nat
  byte : Nat → Byte

/-- The bytes of a page. -/
def Memory.page (m : Memory) (page : Nat) : List Byte :=
  (List.range 4096).map fun i => m.byte (page * 4096 + i)

/-- `is_memory_zeroed` of a page. -/
def Memory.isZero (m : Memory) (page : Nat) : Bool :=
  (List.range 4096).all fun i => m.byte (page * 4096 + i) = 0

/-- `mem8.set` of a page. -/
def Memory.setPage (m : Memory) (page : Nat) (bytes : List Byte) : Memory :=
  { m with byte := fun a => if a / 4096 = page then bytes.getD (a % 4096) 0 else m.byte a }

/-- `zero_memory(0, size)`. -/
def Memory.zero (m : Memory) (size : Nat) : Memory :=
  { m with byte := fun a => if a < size then 0 else m.byte a }

/-- `ExtendedStore`. Pages that were never written are zero. -/
structure ExtendedStore where
  pages : Nat
  memory : Memory
  touched : Nat → Bool
  length_memory : memory.length = pages * 4096
  /-- Guest RAM does not exceed the physical address space of 36 bits. -/
  pages_le : pages * 4096 ≤ 2 ^ 36
  zero_of_untouched : ∀ page, touched page = false → memory.isZero page = true

theorem Memory.isZero_iff (m : Memory) (page : Nat) :
    m.isZero page = true ↔ ∀ a, a / 4096 = page → m.byte a = 0 := by
  unfold Memory.isZero
  simp only [List.all_eq_true, List.mem_range, decide_eq_true_eq]
  constructor
  · rintro h a rfl
    have := h (a % 4096) (Nat.mod_lt _ (by decide))
    rwa [Nat.mul_comm, Nat.div_add_mod] at this
  · intro h i hi
    exact h _ (by omega)

/-- `write`: a page of a snapshot. -/
def ExtendedStore.write (s : ExtendedStore) (page : Nat) (bytes : List Byte) : ExtendedStore where
  pages := s.pages
  memory := s.memory.setPage page bytes
  touched := fun q => q = page || s.touched q
  length_memory := s.length_memory
  pages_le := s.pages_le
  zero_of_untouched := by
    intro q hq
    simp only [Bool.or_eq_false_iff, decide_eq_false_iff_not] at hq
    rw [Memory.isZero_iff]
    intro a ha
    have hne : a / 4096 ≠ page := ha ▸ hq.1
    exact (if_neg hne).trans ((s.memory.isZero_iff q).1 (s.zero_of_untouched q hq.2) a ha)

/-- `clear`: the pages that were written are zero again. -/
def ExtendedStore.clear (s : ExtendedStore) : ExtendedStore where
  pages := s.pages
  memory := { s.memory with
    byte := fun a => if s.touched (a / 4096) then 0 else s.memory.byte a }
  touched := fun _ => false
  length_memory := s.length_memory
  pages_le := s.pages_le
  zero_of_untouched := by
    intro q _
    rw [Memory.isZero_iff]
    intro a ha
    dsimp only
    split
    · rfl
    · next h =>
      have hq : s.touched q = false := by simpa [ha] using h
      exact (s.memory.isZero_iff q).1 (s.zero_of_untouched q hq) a ha

/-- `is_zero`. -/
def ExtendedStore.isZero (s : ExtendedStore) (page : Nat) : Bool :=
  if s.touched page then s.memory.isZero page else true

/-- A machine: its RAM, its extended RAM, and the state of its CPU and its devices, which `get_state`
and `set_state` translate. `writes` is a history variable: how often any of these was written. -/
structure Cpu (σ : Type) where
  memorySize : BitVec 32
  mem8 : Memory
  extendedStore : Option ExtendedStore
  state : σ
  writes : Nat

/-- `extended_pages`. -/
def Cpu.extendedPages {σ : Type} (cpu : Cpu σ) : Nat :=
  match cpu.extendedStore with
  | none => 0
  | some store => store.pages

/-- The translations of the state of the CPU and its devices: the elements of the state from the
second one on, the check of a state and its installation. `validate_state` reads the configuration
of the machine, which a restore does not change. -/
structure Devices (σ : Type) where
  slots : σ → List Value
  validateState : Value → Bool
  setState : Value → σ → Exec Unit × σ

/-! ## Bitmaps -/

/-- Is the bit of a page set? Beyond the bitmap it is not. -/
def bitmapBit (bitmap : List Byte) (page : Nat) : Bool :=
  (bitmap.getD (page / 8) 0).getLsbD (page % 8)

/-- The bitmap of the pages that satisfy `p`. -/
def bitmapOf (pages : Nat) (p : Nat → Bool) : List Byte :=
  (List.range pages).foldl (fun bitmap page =>
    if p page then bitmap.set (page / 8) (bitmap.getD (page / 8) 0 ||| Bits.bit 8 (page % 8))
    else bitmap) (List.replicate (ceilDiv pages 8) 0)

/-- The loop that looks for the next page: outside the bitmap it does not end. -/
def scan (bitmap : List Byte) (page : Nat) : Exec Nat :=
  match (List.range' page (8 * bitmap.length - page)).find? (bitmapBit bitmap) with
  | some page => .ok page
  | none => .error .timeout

/-! ## Writing -/

/-- `get_state(true)`: the first element is the size of RAM. -/
def getState {σ : Type} (dev : Devices σ) (cpu : Cpu σ) : List Value :=
  .num (.int cpu.memorySize.toNat) :: dev.slots cpu.state

/-- The assignment of an element of an array. -/
def setSlot (xs : List Value) (i : Nat) (v : Value) : List Value :=
  if i < xs.length then xs.set i v else xs ++ List.replicate (i - xs.length) .null ++ [v]

/-- What a writer writes. -/
structure Snapshot where
  state : List Value
  manifest : List Byte
  header : List Byte
  buffers : List (List Byte)
  bitmap : List Byte
  packedSize : Nat
  extendedBitmap : List Byte
  extendedSize : Nat

/-- The pages of RAM that are not zero. -/
def Cpu.ramPages {σ : Type} (cpu : Cpu σ) : List Byte :=
  bitmapOf (cpu.memorySize.toNat / 4096) fun page => !cpu.mem8.isZero page

/-- The pages of extended RAM that are not zero. -/
def ExtendedStore.bitmap (s : ExtendedStore) : List Byte := bitmapOf s.pages fun page => !s.isZero page

/-- How many pages satisfy `p`. -/
def countOf (pages : Nat) (p : Nat → Bool) : Nat := ((List.range pages).filter p).length

/-- The manifest. -/
def manifestOf (state : List Value) (extendedPacked : Nat) : Json :=
  let saved := saveObject (.arr state) []
  .obj [("state", saved.1), ("buffers", .arr (saved.2.map fun buffer => .num (.int buffer.length))),
    ("extended_pages", .num (.int extendedPacked))]

/-- The first part of `create_state_stream`. -/
def createStateStream {σ : Type} (b : Builtins) (dev : Devices σ) (cpu : Cpu σ) :
    Exec Snapshot := do
  let memorySize := cpu.memorySize.toNat
  Exec.require (memorySize ≤ cpu.mem8.length && memorySize % 4096 = 0) "RAM size"
  let bitmap := cpu.ramPages
  let packedSize := countOf (memorySize / 4096) (fun page => !cpu.mem8.isZero page) * 4096
  let extendedBitmap := match cpu.extendedStore with
    | none => []
    | some store => store.bitmap
  let extendedPacked := match cpu.extendedStore with
    | none => 0
    | some store => countOf store.pages fun page => !store.isZero page
  let state := setSlot (setSlot (setSlot (getState dev cpu) 77 .null) 78 (.typed .uint8 bitmap)) 99
    (match cpu.extendedStore with
    | none => .null
    | some store => .typed .uint8 store.bitmap)
  let buffers := (saveObject (.arr state) []).2
  let manifest := b.stringify (manifestOf state extendedPacked)
  Exec.require (manifest.length ≤ infoLimit) "manifest too large"
  let crc ← Exec.unwrap (streamCrc ⟨0, manifest⟩)
  let header := [stateMagic, streamVersion, chunkSize, manifest.length, buffers.length, memorySize,
    packedSize, crc].flatMap uint32
  .ok {
    state, manifest, header, buffers, bitmap, packedSize, extendedBitmap
    extendedSize := extendedPacked * 4096 }

/-- The variables of a writer. -/
structure Writer where
  phase : Nat
  position : Nat
  bufferId : Nat
  ramPage : Nat
  extendedPage : Nat

def Writer.start : Writer := ⟨0, 0, 0, 0, 0⟩

/-- Gather `n` pages, and give the page to go on with. -/
def packPages (bitmap : List Byte) (pageOf : Nat → List Byte) : Nat → Nat → Exec (List Byte × Nat)
  | 0, page => .ok ([], page)
  | n + 1, page => do
    let page ← scan bitmap page
    let (data, next) ← packPages bitmap pageOf n (page + 1)
    .ok (pageOf page ++ data, next)

/-- Phase 1: a part of the manifest. -/
def Writer.nextManifest (s : Snapshot) (w : Writer) : Option (List Byte) × Writer :=
  if w.position < s.manifest.length then
    let part := (s.manifest.drop w.position).take chunkSize
    (some part, { w with position := w.position + part.length })
  else (none, { w with phase := 2, position := 0 })

/-- Phase 2: a record of the first of the buffers that has bytes left. -/
def Writer.nextBuffer (w : Writer) : List (List Byte) → Option (List Byte) × Writer
  | [] => (none, { w with phase := 3, position := 0 })
  | buffer :: buffers =>
    if w.position < buffer.length then
      let part := streamRecord 1 w.bufferId w.position
        ((buffer.drop w.position).take (chunkSize - recordSize))
      (some part, { w with position := w.position + (part.length - recordSize) })
    else Writer.nextBuffer { w with bufferId := w.bufferId + 1, position := 0 } buffers

/-- Phase 3: a record of RAM. -/
def Writer.nextRam (m : Memory) (s : Snapshot) (w : Writer) : Exec (Option (List Byte) × Writer) :=
  if w.position < s.packedSize then do
    let length := min ramChunk (s.packedSize - w.position)
    let (data, page) ← packPages s.bitmap m.page (ceilDiv length 4096) w.ramPage
    .ok (some (streamRecord 2 0 w.position data),
      { w with position := w.position + length, ramPage := page })
  else .ok (none, { w with phase := 4, position := 0 })

/-- Phase 4: a record of extended RAM. -/
def Writer.nextExtended (store : Option ExtendedStore) (s : Snapshot) (w : Writer) :
    Exec (Option (List Byte) × Writer) :=
  if w.position = s.extendedSize then .ok (none, w)
  else do
    let length := min ramChunk (s.extendedSize - w.position)
    let store ← Exec.unwrap store
    let (data, page) ← packPages s.extendedBitmap store.memory.page (ceilDiv length 4096)
      w.extendedPage
    .ok (some (streamRecord 3 (w.position / 2 ^ 32) (w.position % 2 ^ 32) data),
      { w with position := w.position + length, extendedPage := page })

/-- The phases from the third one on. -/
def Writer.nextPages {σ : Type} (cpu : Cpu σ) (s : Snapshot) (w : Writer) :
    Exec (Option (List Byte) × Writer) :=
  if w.phase = 3 then do
    match ← w.nextRam cpu.mem8 s with
    | (some chunk, w) => .ok (some chunk, w)
    | (none, w) => w.nextExtended cpu.extendedStore s
  else w.nextExtended cpu.extendedStore s

/-- The phases from the second one on. -/
def Writer.nextRecords {σ : Type} (cpu : Cpu σ) (s : Snapshot) (w : Writer) :
    Exec (Option (List Byte) × Writer) :=
  if w.phase = 2 then
    match w.nextBuffer (s.buffers.drop w.bufferId) with
    | (some chunk, w) => .ok (some chunk, w)
    | (none, w) => w.nextPages cpu s
  else w.nextPages cpu s

/-- `next`: a phase that has nothing left gives way to the following one. -/
def Writer.next {σ : Type} (cpu : Cpu σ) (s : Snapshot) (w : Writer) :
    Exec (Option (List Byte) × Writer) :=
  if w.phase = 0 then .ok (some s.header, { w with phase := 1 })
  else if w.phase = 1 then
    match w.nextManifest s with
    | (some chunk, w) => .ok (some chunk, w)
    | (none, w) => w.nextRecords cpu s
  else w.nextRecords cpu s

/-- The chunks of at most `n` calls of `next`. -/
def Writer.chunks {σ : Type} (cpu : Cpu σ) (s : Snapshot) : Nat → Writer → Exec (List (List Byte))
  | 0, _ => .error .timeout
  | n + 1, w => do
    match ← w.next cpu s with
    | (none, _) => .ok []
    | (some chunk, w) => do
      let rest ← Writer.chunks cpu s n w
      .ok (chunk :: rest)

/-! ## Reading -/

/-- A source of bytes that does not change: it gives the same answer to the same request, which may
be an exception or too short. -/
structure Source where
  size : Nat
  read : Nat → Nat → Option View

/-- `stream_read`. -/
def streamRead (src : Source) (offset length : Nat) : Exec View := do
  Exec.require (length ≤ chunkSize && offset + length ≤ src.size) "truncated record"
  let v ← Exec.okOr (src.read offset length) "read"
  Exec.require (v.bytes.length = length) "short read"
  .ok v

/-- `read_record`. -/
def readRecord (src : Source) (kind id offset length position : Nat) : Exec View := do
  let v ← streamRead src position (recordSize + length)
  Exec.require (getUint32 v.bytes 0 = kind && getUint32 v.bytes 4 = id &&
    getUint32 v.bytes 8 = offset && getUint32 v.bytes 12 = length &&
    some (getUint32 v.bytes (16 + length)) = streamCrc ⟨v.byteOffset, v.bytes.take (16 + length)⟩)
    "record/checksum"
  .ok v

/-- What a kind of records is called by: the id and the offset of the record at a position, and the
bytes that one of them holds at most. -/
structure Layout where
  kind : Nat
  id : Nat → Nat
  offset : Nat → Nat
  chunk : Nat

/-- The records of buffer `id`. -/
def Layout.buffer (id : Nat) : Layout := ⟨1, fun _ => id, fun p => p, chunkSize - recordSize⟩

/-- The records of RAM. -/
def Layout.ram : Layout := ⟨2, fun _ => 0, fun p => p, ramChunk⟩

/-- The records of extended RAM: id and offset are the high and the low 32 bits. -/
def Layout.extended : Layout := ⟨3, fun p => p / 2 ^ 32, fun p => p % 2 ^ 32, ramChunk⟩

/-- How many records `size` bytes take. -/
def Layout.count (l : Layout) (size : Nat) : Nat := ceilDiv size l.chunk

/-- How many bytes the records of `size` bytes take. -/
def Layout.length (l : Layout) (size : Nat) : Nat := size + l.count size * recordSize

/-- Read `n` records, from `offset` of `size` bytes on. -/
def readRecords (src : Source) (l : Layout) (size : Nat) : Nat → Nat → Nat → Exec (List View)
  | 0, _, _ => .ok []
  | n + 1, offset, position => do
    let length := min l.chunk (size - offset)
    let v ← readRecord src l.kind (l.id offset) (l.offset offset) length position
    let vs ← readRecords src l size n (offset + l.chunk) (position + recordSize + length)
    .ok (v :: vs)

/-- The data of a record. -/
def View.data (v : View) : List Byte := (v.bytes.drop 16).take (v.bytes.length - recordSize)

/-- The checksum of a record. -/
def View.checksum (v : View) : Nat := getUint32 v.bytes (v.bytes.length - 4)

/-- The buffers, and the position after their records. -/
def readBuffers (src : Source) : List Nat → Nat → Nat → Exec (List (List Byte) × Nat)
  | [], _, position => .ok ([], position)
  | length :: lengths, id, position => do
    let l := Layout.buffer id
    let vs ← readRecords src l length (l.count length) 0 position
    let (buffers, position) ← readBuffers src lengths (id + 1) (position + l.length length)
    .ok ((vs.map View.data).flatten :: buffers, position)

/-- The parts of the manifest from part `i` on. -/
def readManifest (src : Source) (infoSize : Nat) : Nat → Nat → Exec (List Byte)
  | 0, _ => .ok []
  | n + 1, offset => do
    let v ← streamRead src (headerSize + offset) (min chunkSize (infoSize - offset))
    let rest ← readManifest src infoSize n (offset + chunkSize)
    .ok (v.bytes ++ rest)

/-- A property of a value, if it has properties. -/
def jsonGet (j : Json) (key : String) : Exec (Option Json) :=
  match j with
  | .null => .error .panic
  | .obj fields => .ok (property fields key)
  | _ => .ok none

/-- A length in the manifest. -/
def lengthOf : Json → Option Nat
  | .num (.int n) => if 0 ≤ n ∧ n ≤ 0xFFFFFFFF then some n.toNat else none
  | _ => none

/-- `lengths`. -/
def bufferLengths (j : Option Json) (count : Nat) : Exec (List Nat) :=
  match j with
  | some (.arr xs) =>
    if xs.length = count ∧ count ≤ 65536 then Exec.okOr (xs.mapM lengthOf) "buffer lengths"
    else Exec.fail "buffer lengths"
  | _ => Exec.fail "buffer lengths"

/-- `extended_packed`. -/
def extendedPacked (j : Option Json) (pages : Nat) : Exec Nat :=
  match j with
  | none => .ok 0
  | some (.num (.int n)) =>
    if 0 ≤ n ∧ n ≤ pages then .ok n.toNat else Exec.fail "extended RAM size"
  | _ => Exec.fail "extended RAM size"

/-- Is a value true in a condition? -/
def Value.truthy : Value → Bool
  | .null => false
  | .bool b => b
  | .num (.int n) => n ≠ 0
  -- −0 and the values that are not numbers
  | .num (.other bits) =>
    bits ≠ 0x8000000000000000 && (bits &&& 0x7FFFFFFFFFFFFFFF).toNat ≤ 0x7FF0000000000000
  | .str s => s ≠ ""
  | _ => true

/-- Count the pages of a bitmap, all of which have to be below `limit`. -/
def countPages (bitmap : List Byte) (limit : Nat) (msg : String) : Exec Nat :=
  (List.range (8 * bitmap.length)).foldlM (fun count page =>
    if bitmapBit bitmap page then
      if limit ≤ page then Exec.fail msg else .ok (count + 1)
    else .ok count) 0

/-- An element of the state, if it is an array that has it. -/
def Value.slot (state : Value) (i : Nat) : Option Value :=
  match state with
  | .arr xs => xs[i]?
  | _ => none

/-- The bitmap of RAM. -/
def ramBitmap (state : Value) (memorySize packedSize : Nat) : Exec (List Byte) :=
  match state.slot 0, state.slot 77, state.slot 78 with
  | some (.num (.int n)), some .null, some (.typed .uint8 bitmap) => do
    Exec.require (n = memorySize && bitmap.length = ceilDiv (memorySize / 4096) 8) "RAM bitmap"
    let count ← countPages bitmap (memorySize / 4096) "bitmap beyond RAM"
    Exec.require (count * 4096 = packedSize) "bitmap count"
    .ok bitmap
  | _, _, _ => Exec.fail "RAM bitmap"

/-- The bitmap of extended RAM, if the snapshot has one. -/
def extendedBitmap (state : Value) (packed pages : Nat) : Exec (List Byte) :=
  let bitmap := (state.slot 99).getD .null
  if packed ≠ 0 ∨ bitmap.truthy then
    match bitmap with
    | .typed .uint8 bytes => do
      Exec.require (bytes.length = ceilDiv pages 8) "extended RAM bitmap"
      let count ← countPages bytes pages "extended bitmap beyond RAM"
      Exec.require (count = packed) "extended bitmap count"
      .ok bytes
    | _ => Exec.fail "extended RAM bitmap"
  else .ok []

/-- What the first pass knows of a snapshot. -/
structure Checked where
  memorySize : Nat
  packedSize : Nat
  extendedSize : Nat
  state : Value
  bitmap : List Byte
  extendedBitmap : List Byte
  ramStart : Nat
  checksums : List Nat

section
variable {σ : Type} (b : Builtins) (dev : Devices σ)

/-- The first pass of `restore_state_stream`: it only reads. -/
def checkStream (cpu : Cpu σ) (src : Source) : Exec Checked := do
  Exec.require (headerSize ≤ src.size) "Snapshot source requires size and read(offset, length)"
  let header ← streamRead src 0 headerSize
  let word (i : Nat) := getUint32 header.bytes (4 * i)
  Exec.require (word 0 = stateMagic && word 1 = streamVersion && word 2 = chunkSize)
    "header/version"
  let infoSize := word 3
  let bufferCount := word 4
  let memorySize := word 5
  let packedSize := word 6
  Exec.require (infoSize ≠ 0 && infoSize ≤ infoLimit && memorySize ≤ cpu.mem8.length &&
    memorySize % 4096 = 0 && packedSize ≤ memorySize && packedSize % 4096 = 0) "manifest/RAM size"
  let manifest ← readManifest src infoSize (ceilDiv infoSize chunkSize) 0
  Exec.require (streamCrc ⟨0, manifest⟩ = some (word 7)) "manifest checksum"
  let info ← Exec.okOr (b.parse manifest) "manifest JSON"
  let lengths ← bufferLengths (← jsonGet info "buffers") bufferCount
  let packed ← extendedPacked (← jsonGet info "extended_pages") cpu.extendedPages
  let extendedSize := packed * 4096
  let total := headerSize + infoSize +
    (lengths.map fun length => length + ceilDiv length (chunkSize - recordSize) * recordSize).sum +
    (packedSize + ceilDiv packedSize ramChunk * recordSize) +
    (extendedSize + ceilDiv extendedSize ramChunk * recordSize)
  Exec.require (total = src.size) "total length"
  let tree := (← jsonGet info "state").getD .null
  validateStreamTree b lengths 0 tree
  let (buffers, ramStart) ← readBuffers src lengths 0 (headerSize + infoSize)
  let state ← restoreBuffers b buffers tree
  let bitmap ← ramBitmap state memorySize packedSize
  let extBitmap ← extendedBitmap state packed cpu.extendedPages
  Exec.require (dev.validateState state) "validate_state"
  let ram ← readRecords src .ram packedSize (Layout.ram.count packedSize) 0 ramStart
  let extended ← readRecords src .extended extendedSize (Layout.extended.count extendedSize) 0
    (ramStart + Layout.ram.length packedSize)
  .ok {
    memorySize, packedSize, extendedSize, state, bitmap
    extendedBitmap := extBitmap
    ramStart
    checksums := ram.map View.checksum ++ extended.map View.checksum }

/-- A run that may change the machine. An exception keeps the changes made before it. -/
abbrev Restore (σ : Type) := EStateM Fault (Cpu σ)

/-- A check does not change the machine. -/
def check {α : Type} (x : Exec α) : Restore σ α :=
  match x with
  | .ok a => pure a
  | .error e => throw e

/-- A write of RAM, of extended RAM or of the state. -/
def write (f : Cpu σ → Cpu σ) : Restore σ Unit :=
  modify fun cpu => { f cpu with writes := cpu.writes + 1 }

/-- `mem8.set`. -/
def setRam (page : Nat) (bytes : List Byte) : Restore σ Unit := do
  let cpu ← get
  if page * 4096 + bytes.length ≤ cpu.mem8.length then
    write fun cpu => { cpu with mem8 := cpu.mem8.setPage page bytes }
  else throw .panic

/-- `extended_store.write`. -/
def setExtended (page : Nat) (bytes : List Byte) : Restore σ Unit := do
  let cpu ← get
  match cpu.extendedStore with
  | some store =>
    if page < store.pages then
      write fun cpu => { cpu with extendedStore := some (store.write page bytes) }
    else throw .panic
  | none => throw .panic

/-- Write `n` pages of a record, and give the page to go on with. -/
def writePages (put : Nat → List Byte → Restore σ Unit) (bitmap : List Byte) (v : View) :
    Nat → Nat → Nat → Restore σ Nat
  | 0, _, page => pure page
  | n + 1, part, page => do
    let page ← check (scan bitmap page)
    put page ((v.bytes.drop (16 + part)).take 4096)
    writePages put bitmap v n (part + 4096) (page + 1)

/-- Read `n` records again and write their pages. -/
def writeRecords (put : Nat → List Byte → Restore σ Unit) (src : Source) (l : Layout)
    (bitmap : List Byte) (size : Nat) : Nat → Nat → Nat → Nat → List Nat → Restore σ Unit
  | 0, _, _, _, _ => pure ()
  | n + 1, offset, position, page, checksums => do
    let length := min l.chunk (size - offset)
    let v ← check (readRecord src l.kind (l.id offset) (l.offset offset) length position)
    check (Exec.require (checksums.head? = some (getUint32 v.bytes (16 + length)))
      "source changed between passes")
    let page ← writePages put bitmap v (ceilDiv length 4096) 0 page
    writeRecords put src l bitmap size n (offset + l.chunk) (position + recordSize + length) page
      checksums.tail

/-- `clear_extended_memory`. -/
def clearExtendedMemory : Restore σ Unit := do
  let cpu ← get
  match cpu.extendedStore with
  | none => pure ()
  | some store => write fun cpu => { cpu with extendedStore := some store.clear }

/-- `set_state`, which validates the tree again. What its body throws is not an exception of the
restore's own checks. -/
def setState (state : Value) : Restore σ (Exec Unit) := do
  check (Exec.require (dev.validateState state) "validate_state")
  let cpu ← get
  write fun cpu => { cpu with state := (dev.setState state cpu.state).2 }
  pure (dev.setState state cpu.state).1

/-- `restore_state_stream`: the outcome of `set_state`, or the exception of a check. -/
def restoreStateStream (src : Source) : Restore σ (Exec Unit) := do
  let cpu ← get
  let c ← check (checkStream b dev cpu src)
  write fun cpu => { cpu with mem8 := cpu.mem8.zero c.memorySize }
  let count := Layout.ram.count c.packedSize
  writeRecords setRam src .ram c.bitmap c.packedSize count 0 c.ramStart 0 c.checksums
  clearExtendedMemory
  writeRecords setExtended src .extended c.extendedBitmap c.extendedSize
    (Layout.extended.count c.extendedSize) 0 (c.ramStart + Layout.ram.length c.packedSize) 0
    (c.checksums.drop count)
  setState dev c.state

end

end V86.State
