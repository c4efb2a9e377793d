import V86.Virtio.Chain
import V86.Lib.Gather

/-!
# Blobs of a descriptor chain

`get_next_blob` and `set_next_blob` of `VirtQueueBufferChain`: a device reads the readable buffers
of a chain, and writes the writable ones, a blob at a time. A pointer for each direction tells how
far it has come: a buffer, and an offset in it that is zero or before its end.
-/

namespace V86.Virtio

open Dma (Memory Byte)

/-- `read_buffer_idx` and `read_buffer_offset`, or those of the writable buffers. -/
structure Cursor where
  idx : Nat
  offset : Nat
  deriving DecidableEq

/-- What is left of a buffer, or as much of it as is asked for, and the pointers behind it. -/
def Cursor.advance (c : Cursor) (buf : Desc) (remaining : Nat) : Nat × Cursor :=
  let length := buf.len - c.offset
  if length > remaining then (remaining, { c with offset := c.offset + remaining })
  else (length, ⟨c.idx + 1, 0⟩)

/-- A round of the loops comes to the next buffer, or to the end of the blob. -/
theorem advance_decreases {buffers : List Desc} {c : Cursor} {buf : Desc} {remaining : Nat}
    (hbuf : buffers[c.idx]? = some buf) (hremaining : remaining ≠ 0) : Prod.Lex (· < ·) (· < ·)
      (buffers.length - (c.advance buf remaining).2.idx, remaining - (c.advance buf remaining).1)
      (buffers.length - c.idx, remaining) := by
  have hlt := (List.getElem?_eq_some_iff.1 hbuf).1
  rw [Cursor.advance]
  split
  · refine .right _ ?_
    rw [Nat.sub_self]
    exact Nat.pos_of_ne_zero hremaining
  · refine .left _ _ ?_
    change buffers.length - (c.idx + 1) < buffers.length - c.idx
    omega

/-- The loop of `get_next_blob`, `none` where a read throws. -/
def getLoop (m : Memory) (buffers : List Desc) (c : Cursor) (dest : List Byte)
    (destOffset remaining : Nat) : Option (Cursor × List Byte × Nat) :=
  if remaining = 0 then some (c, dest, destOffset)
  else
    match hbuf : buffers[c.idx]? with
    | none => some (c, dest, destOffset)
    | some buf =>
      let readLength := (c.advance buf remaining).1
      match m.readBlobPhysical (buf.address + c.offset) readLength with
      | none => none
      | some blob =>
        getLoop m buffers (c.advance buf remaining).2 (splice dest destOffset blob)
          (destOffset + readLength) (remaining - readLength)
termination_by (buffers.length - c.idx, remaining)
decreasing_by exact advance_decreases hbuf ‹_›

/-- The loop of `set_next_blob`, `none` where a write throws. -/
def setLoop (m : Memory) (buffers : List Desc) (c : Cursor) (src : List Byte)
    (srcOffset remaining : Nat) : Option (Memory × Cursor × Nat) :=
  if remaining = 0 then some (m, c, srcOffset)
  else
    match hbuf : buffers[c.idx]? with
    | none => some (m, c, srcOffset)
    | some buf =>
      let writeLength := (c.advance buf remaining).1
      match m.writeBlobPhysical ((src.drop srcOffset).take writeLength)
        (buf.address + c.offset) with
      | none => none
      | some m' =>
        setLoop m' buffers (c.advance buf remaining).2 src (srcOffset + writeLength)
          (remaining - writeLength)
termination_by (buffers.length - c.idx, remaining)
decreasing_by exact advance_decreases hbuf ‹_›

/-- A chain with its pointers, the memory its buffers are in, and the device's own
`plug_generation`. -/
structure Stream where
  chain : BufferChain
  read : Cursor
  write : Cursor
  memory : Memory
  plugGeneration : Nat

/-- The chain as it is constructed. -/
def Stream.new (c : BufferChain) (m : Memory) : Stream where
  chain := c
  read := ⟨0, 0⟩
  write := ⟨0, 0⟩
  memory := m
  plugGeneration := c.plugGeneration

/-- `get_next_blob`: what `dest_buffer` holds then, and the number that is returned. -/
def Stream.getNextBlob (s : Stream) (dest : List Byte) : Option (Stream × List Byte × Nat) :=
  match getLoop s.memory s.chain.readBuffers s.read dest 0 dest.length with
  | none => none
  | some (c, dest, destOffset) => some ({ s with read := c }, dest, destOffset)

/-- `set_next_blob`, with the number that is returned. -/
def Stream.setNextBlob (s : Stream) (src : List Byte) : Option (Stream × Nat) :=
  if s.chain.plugGeneration ≠ s.plugGeneration then some (s, 0)
  else
    match setLoop s.memory s.chain.writeBuffers s.write src 0 src.length with
    | none => none
    | some (m, c, srcOffset) =>
      some ({ s with
        memory := m
        write := c
        chain.lengthWritten := s.chain.lengthWritten + srcOffset }, srcOffset)

/-! ## Calls -/

/-- A call of the device, or the function leaving the bus. -/
inductive Call where
  | get (dest : List Byte)
  | set (src : List Byte)
  | unplug

/-- A call with what came of it. -/
inductive Served where
  | got (dest dest' : List Byte) (count : Nat)
  | put (src : List Byte) (count : Nat)
  | unplugged

def Stream.call (s : Stream) : Call → Option (Stream × Served)
  | .get dest => (s.getNextBlob dest).map fun (s', dest', count) => (s', .got dest dest' count)
  | .set src => (s.setNextBlob src).map fun (s', count) => (s', .put src count)
  | .unplug => some ({ s with plugGeneration := s.plugGeneration + 1 }, .unplugged)

/-- The calls one after the other, `none` where one of them throws. -/
def Stream.calls (s : Stream) : List Call → Option (Stream × List Served)
  | [] => some (s, [])
  | call :: rest => do
    let (s, served) ← s.call call
    let (s, all) ← s.calls rest
    pure (s, served :: all)

/-- The call that was made. -/
def Served.call : Served → Call
  | .got dest _ _ => .get dest
  | .put src _ => .set src
  | .unplugged => .unplug

/-- The bytes that were read. -/
def Served.got? : Served → List Byte
  | .got _ dest' count => dest'.take count
  | _ => []

/-- The bytes that were written. -/
def Served.put? : Served → List Byte
  | .put src count => src.take count
  | _ => []

/-- The number that was returned for a write. -/
def Served.putCount : Served → Nat
  | .put _ count => count
  | _ => 0

/-- A read that was returned fewer bytes than it asked for. -/
def Served.ShortRead : Served → Prop
  | .got dest _ count => count < dest.length
  | _ => False

/-- A write of which fewer bytes were taken than it had. -/
def Served.ShortWrite : Served → Prop
  | .put src count => count < src.length
  | _ => False

/-- The number returned is that of the bytes that were moved, and the rest of the buffer is as it
was. -/
def Served.Counted : Served → Prop
  | .got dest dest' count => count ≤ dest.length ∧ dest'.length = dest.length ∧
      dest'.drop count = dest.drop count
  | .put src count => count ≤ src.length
  | .unplugged => True

/-- The addresses of a buffer's bytes. -/
def Desc.addresses (d : Desc) : List Nat := (List.range d.len).map fun i => d.address + i

/-- The addresses of some buffers' bytes, one buffer after the other. -/
def addresses (buffers : List Desc) : List Nat := buffers.flatMap Desc.addresses

end V86.Virtio
