import V86.Lib.Splice

/-!
# Lazily loaded disks

`AsyncXHRBuffer`, `AsyncXHRPartfileBuffer` and `AsyncFileBuffer` of `src/buffer.js`. Offsets and
lengths are multiples of the block size, and so is `fixed_chunk_size`: everything here counts in
blocks of 256 bytes, and a buffer is the list of its blocks. `β` is the type of a block's contents,
with the zeroed block as its default. A disk has no end here: a load gives all the blocks asked for,
where one of a chunk past `byteLength` is shorter, and `handle_read` throws if it has a later block.
-/

namespace V86.Disk

variable {β : Type _} [Inhabited β]

/-- `BLOCK_SIZE`. -/
def blockSize : Nat := 256

/-- `WRITE_CHUNK_BLOCKS`. -/
def writeChunkBlocks : Nat := 0x10000

/-- The three kinds of lazily loaded disks. -/
inductive Kind where
  | xhr
  | partfile
  | file
  deriving DecidableEq

/-- A disk's kind and its `fixed_chunk_size` in blocks, if it has one. -/
structure Config where
  kind : Kind
  chunk : Option Nat
  chunk_pos : ∀ c ∈ chunk, 0 < c

namespace Config

/-- `cache_reads`, which an `AsyncFileBuffer` does not have. -/
def cacheReads (cfg : Config) : Bool := cfg.kind ≠ .file && cfg.chunk.isSome

end Config

/-- The blocks that a disk keeps: those kept from reads, and the slots of those written, in the
order in which the map has them, with their data in chunks. -/
structure Blocks (β : Type _) where
  blockCache : Nat → Option β
  writtenBlocks : List (Nat × Nat)
  writeChunks : List (List β)

namespace Blocks

def empty : Blocks β := ⟨fun _ => none, [], []⟩

/-- `written_blocks.has`. -/
def written (d : Blocks β) (index : Nat) : Bool := (d.writtenBlocks.lookup index).isSome

/-- The block at a slot of the chunks. -/
def slotData (d : Blocks β) (slot : Nat) : Option β :=
  d.writeChunks[slot / writeChunkBlocks]?.bind (·[slot % writeChunkBlocks]?)

/-- `cached_block`. -/
def cachedBlock (d : Blocks β) (index : Nat) : Option β :=
  match d.writtenBlocks.lookup index with
  | none => d.blockCache index
  | some slot => d.slotData slot

/-- `get_from_cache`: the blocks, if all of them are written or kept. -/
def getFromCache (d : Blocks β) (start count : Nat) : Option (List β) :=
  if (List.range count).all fun i => d.written (start + i) || (d.blockCache (start + i)).isSome then
    some ((List.range count).map fun i => (d.cachedBlock (start + i)).getD default)
  else none

/-- `write_chunks[...].set(data, ...)`. -/
def setSlot (chunks : List (List β)) (slot : Nat) (data : β) : List (List β) :=
  chunks.modify (slot / writeChunkBlocks) fun chunk => chunk.set (slot % writeChunkBlocks) data

/-- `write_block`. -/
def writeBlock (d : Blocks β) (index : Nat) (data : β) : Blocks β :=
  match d.writtenBlocks.lookup index with
  | some slot => { d with writeChunks := setSlot d.writeChunks slot data }
  | none =>
    let slot := d.writtenBlocks.length
    let chunks :=
      if slot % writeChunkBlocks = 0 then
        d.writeChunks ++ [List.replicate writeChunkBlocks default]
      else d.writeChunks
    { blockCache := Function.update d.blockCache index none
      writtenBlocks := d.writtenBlocks ++ [(index, slot)]
      writeChunks := setSlot chunks slot data }

/-- `set`. -/
def set (d : Blocks β) (start : Nat) (data : List β) : Blocks β :=
  (List.range data.length).foldl (fun d i => d.writeBlock (start + i) (data.getD i default)) d

/-- One round of the loop of `handle_read`. -/
def readBlock (cacheReads : Bool) (start : Nat) (s : Blocks β × List β) (i : Nat) :
    Blocks β × List β :=
  match s.1.cachedBlock (start + i) with
  | some cached => (s.1, s.2.set i cached)
  | none =>
    if cacheReads then
      ({ s.1 with
        blockCache := Function.update s.1.blockCache (start + i) (some (s.2.getD i default)) }, s.2)
    else s

/-- `handle_read`: blocks that were written or kept go over those that were loaded. -/
def handleRead (d : Blocks β) (cacheReads : Bool) (start count : Nat) (block : List β) :
    Blocks β × List β :=
  (List.range count).foldl (readBlock cacheReads start) (d, block)

/-- The callback of `get_and_cache` before it passes the blocks on. -/
def keep (d : Blocks β) (start count : Nat) (block : List β) : Blocks β :=
  (List.range count).foldl (fun d i =>
    if !d.written (start + i) && (d.blockCache (start + i)).isNone then
      { d with
        blockCache := Function.update d.blockCache (start + i) (some (block.getD i default)) }
    else d) d

end Blocks

/-- `subarray` of a buffer. -/
def subarray (block : List β) (offset count : Nat) : List β := (block.drop offset).take count

/-- `n | 0`: the low 32 bits as a signed number. -/
def int32 (n : Nat) : Int := (BitVec.ofNat 32 n).toInt

/-- A `get` that is waiting: for one load, of which its blocks are a part, or for the loads of
some of the chunks that make up a buffer. -/
inductive Reading (β : Type _) where
  | whole (start count : Nat)
  | parts (startIndex : Nat) (blocks : List β) (waiting : List Nat)

/-- What `get` does at once: it has the blocks, or it waits. -/
inductive Started (β : Type _) where
  | done (block : List β)
  | waits (reading : Reading β)

/-- `Math.ceil(n / d)`. -/
def ceilDiv (n d : Nat) : Nat := (n + d - 1) / d

/-- The loop over the chunks in `AsyncXHRPartfileBuffer.get`: a chunk in the cache goes into the
buffer, the others are requested. -/
def startParts (d : Blocks β) (c startIndex total : Nat) : List β × List Nat :=
  (List.range total).foldl (fun s i =>
    match d.getFromCache ((startIndex + i) * c) c with
    | some block => (splice s.1 (i * c) block, s.2)
    | none => (s.1, s.2 ++ [i])) (List.replicate (total * c) default, [])

/-- One round of it. -/
def startPart (d : Blocks β) (c startIndex : Nat) (s : List β × List Nat) (i : Nat) :
    List β × List Nat :=
  match d.getFromCache ((startIndex + i) * c) c with
  | some block => (splice s.1 (i * c) block, s.2)
  | none => (s.1, s.2 ++ [i])

/-- `get` up to its return. -/
def get (cfg : Config) (d : Blocks β) (start count : Nat) : Started β :=
  match d.getFromCache start count with
  | some block => .done block
  | none =>
    match cfg.kind, cfg.chunk with
    | .partfile, some c =>
      let startIndex := start / c
      let mOffset := start - startIndex * c
      let total := ceilDiv (mOffset + count) c
      let (blocks, waiting) := startParts d c startIndex total
      if waiting = [] then .done (subarray blocks mOffset count)
      else .waits (.parts startIndex blocks waiting)
    | .xhr, some c =>
      let requestedStart := start - start % c
      .waits (.whole requestedStart (ceilDiv (start - requestedStart + count) c * c))
    | _, _ => .waits (.whole start count)

/-- The image's blocks, as a load gives them. -/
def load (image : Nat → β) (start count : Nat) : List β :=
  (List.range count).map fun i => image (start + i)

/-- A load of a waiting `get` of `count` blocks from `start` on completes; of several, the one of
chunk `i`. -/
def loaded (cfg : Config) (image : Nat → β) (d : Blocks β) (start count : Nat) (i : Nat) :
    Reading β → Blocks β × Started β
  | .whole requestedStart requestedCount =>
    let (d, block) := d.handleRead cfg.cacheReads requestedStart requestedCount
      (load image requestedStart requestedCount)
    (d, .done (subarray block (start - requestedStart) count))
  | .parts startIndex blocks waiting =>
    let c := cfg.chunk.getD 0
    if i ∈ waiting then
      let block := load image ((startIndex + i) * c) c
      let blocks := splice blocks (i * c) block
      let (d, _) := d.handleRead cfg.cacheReads ((startIndex + i) * c)
        ((int32 (c * blockSize)).toNat / blockSize) block
      let waiting := waiting.erase i
      if waiting = [] then (d, .done (subarray blocks (start - startIndex * c) count))
      else (d, .waits (.parts startIndex blocks waiting))
    else (d, .waits (.parts startIndex blocks waiting))

end V86.Disk
