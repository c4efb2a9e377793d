import V86.Disk.Buffer
import Mathlib.Algebra.Order.Ring.Unbundled.Rat

/-!
# Snapshots and exports of lazily loaded disks

`get_state` and `set_state` of the disks of `src/buffer.js`, and `get_as_file` of an
`AsyncFileBuffer`, which gives the file with the written blocks in place.
-/

namespace V86.Disk

variable {β : Type _}

/-! ## Snapshots -/

/-- `state`. Elements of the `Float64Array` of block numbers that are not finite are `none`, and so
are chunks that are not a `Uint8Array` of whole blocks. -/
structure SavedDisk (β : Type _) where
  before : Option (List (Nat × β))
  indices : List (Option Rat)
  chunks : List (Option (List β))

namespace Blocks

/-- `get_state`. -/
def getState (d : Blocks β) : SavedDisk β :=
  let count := d.writtenBlocks.length
  let indices := d.writtenBlocks.foldl (fun (a : List Nat) p => a.set p.2 p.1)
    (List.replicate count 0)
  { before := none
    indices := indices.map fun (index : Nat) => some (index : Rat)
    chunks := d.writeChunks.mapIdx fun i chunk =>
      some (chunk.take (min writeChunkBlocks (count - i * writeChunkBlocks))) }

/-- `set` of a map. -/
def mapSet (m : List (Nat × Nat)) (p : Nat × Nat) : List (Nat × Nat) :=
  if (m.lookup p.1).isSome then m.map fun q => if q.1 = p.1 then p else q else m ++ [p]

/-- A number of the snapshot as a block number of the disk. -/
def blockNumber (byteLength : Nat) (index : Option Rat) : Option Nat :=
  match index with
  | none => none
  | some q =>
    if q.den = 1 ∧ 0 ≤ q ∧ q < (byteLength : Rat) / (blockSize : Rat) then some q.num.toNat else none

variable [Inhabited β]

/-- A round of the loop over the chunks in `set_state`, which fails if a block is saved twice. -/
def restoreChunk (indices : List Nat) (s : Blocks β × Nat) (chunk : List β) :
    Option (Blocks β × Nat) :=
  let (d, i) := s
  let count := chunk.length
  let numbers := (indices.drop i).take count
  if count = writeChunkBlocks ∧ i % writeChunkBlocks = 0 then
    -- a full chunk becomes this disk's as it is
    let d := { d with
      writeChunks := d.writeChunks ++ [chunk]
      writtenBlocks := (numbers.zipIdx i).foldl mapSet d.writtenBlocks }
    if d.writtenBlocks.length ≠ i + count then none else some (d, i + count)
  else some ((numbers.zip chunk).foldl (fun d p => d.writeBlock p.1 p.2) d, i + count)

/-- `set_state`, which first drops what the disk keeps; `none` where it throws. -/
def setState (byteLength : Nat) (s : SavedDisk β) : Option (Blocks β) :=
  match s.before with
  | some blocks => some (blocks.foldl (fun d p => d.writeBlock p.1 p.2) empty)
  | none =>
    if s.chunks.any Option.isNone then none
    else
      let chunks := s.chunks.filterMap id
      let total := (chunks.map List.length).sum
      if s.indices.length ≠ total ∨
          s.indices.any fun index => (blockNumber byteLength index).isNone then none
      else
        let indices := s.indices.filterMap (blockNumber byteLength)
        (chunks.foldlM (restoreChunk indices) (empty, 0)).map Prod.fst

end Blocks

/-! ## Export -/

abbrev Byte := BitVec 8

/-- The data of a block. -/
abbrev Block := Vector Byte blockSize

namespace Blocks

/-- How many of the block numbers go on where a run stands, on the disk and in a chunk. -/
def runLength (d : Blocks Block) : List Nat → Nat → Nat → Nat
  | [], _, _ => 0
  | b :: rest, block, slot =>
    if b = block ∧ d.writtenBlocks.lookup block = some slot ∧ slot % writeChunkBlocks ≠ 0 then
      1 + runLength d rest (block + 1) (slot + 1)
    else 0

/-- The loop of `get_as_file` from a block number on, and the rest of the file. -/
def exportParts (d : Blocks Block) (file : List Byte) (existingBlocks : List Nat)
    (currentOffset : Nat) : List (List Byte) :=
  match existingBlocks with
  | [] => if currentOffset ≠ file.length then [file.drop currentOffset] else []
  | blockIndex :: rest =>
    let slot := (d.writtenBlocks.lookup blockIndex).getD 0
    let count := 1 + d.runLength rest (blockIndex + 1) (slot + 1)
    let start := blockIndex * blockSize
    let between :=
      if start ≠ currentOffset then [(file.drop currentOffset).take (start - currentOffset)] else []
    let chunk := d.writeChunks.getD (slot / writeChunkBlocks) []
    let part := ((chunk.drop (slot % writeChunkBlocks)).take count).flatMap (·.toList)
    between ++ part ::
      exportParts d file (rest.drop (count - 1)) (start + count * blockSize)
termination_by existingBlocks.length
decreasing_by
  rw [List.length_drop, List.length_cons]
  omega

/-- `get_as_file` of a disk over a file. -/
def getAsFile (d : Blocks Block) (file : List Byte) : List Byte :=
  (d.exportParts file (d.writtenBlocks.map Prod.fst).mergeSort 0).flatten

end Blocks

end V86.Disk
