import V86.State.Stream

/-!
# Snapshots in a single buffer

`state.js`, version 6: a header of four words, the info block (the JSON of the state tree and of
where its buffers are), and the buffers, each at a word boundary. `saveState` writes it;
`restoreState` reads it back from the bytes themselves, by the offsets in the info block, or from a
stream that decompresses them, where it follows the boundaries by counting.
-/

namespace V86.State

/-- `STATE_VERSION`. -/
def stateVersion : Nat := 6

/-- `STATE_INFO_BLOCK_START`. -/
def infoBlockStart : Nat := 16

/-- `STATE_MAX_SINGLE_BUFFER`. -/
def maxSingleBuffer : Nat := 0x7FFFFFFF

/-- `ZSTD_MAGIC`. -/
def zstdMagic : Nat := 0xFD2FB528

/-- `n + 3 & ~3`, in 32 bits. -/
def roundUp (n : Int) : Int := (BitVec.ofInt 32 (n + 3) &&& ~~~(3 : BitVec 32)).toInt

/-- An element of an `Int32Array` over the bytes. -/
def getInt32 (bytes : List Byte) (i : Nat) : Int := (BitVec.ofNat 32 (getUint32 bytes i)).toInt

/-- `ArrayBuffer.prototype.slice`: a negative index counts from the end. -/
def slice (bytes : List Byte) (start stop : Int) : List Byte :=
  let index (k : Int) : Nat := if k < 0 then (bytes.length + k).toNat else k.toNat
  (bytes.drop (index start)).take (index stop - index start)

/-- `Uint8Array.prototype.set` at an offset, which throws when the bytes do not fit. -/
def place (bytes : List Byte) (offset : Nat) (data : List Byte) : Exec (List Byte) :=
  if offset + data.length ≤ bytes.length then
    .ok (bytes.take offset ++ data ++ bytes.drop (offset + data.length))
  else .error .panic

/-! ## Saving -/

/-- An element of `buffer_infos`. -/
structure BufferInfo where
  offset : Int
  length : Int
  deriving DecidableEq

def BufferInfo.json (i : BufferInfo) : Json :=
  .obj [("offset", .num (.int i.offset)), ("length", .num (.int i.length))]

/-- The first loop of `save_state`: where the buffers are, from `total` on, and their size with the
bytes between them. -/
def bufferInfos : List (List Byte) → Nat → List BufferInfo × Nat
  | [], total => ([], total)
  | buffer :: buffers, total =>
    let size := total + buffer.length
    let rest := bufferInfos buffers (size + (4 - size % 4) % 4)
    (⟨total, buffer.length⟩ :: rest.1, rest.2)

/-- The info block. -/
def infoJson (v : Value) : Json :=
  let saved := saveObject v []
  .obj [("buffer_infos", .arr ((bufferInfos saved.2 0).1.map BufferInfo.json)), ("state", saved.1)]

/-- `save_state`. -/
def saveState (b : Builtins) (v : Value) : Exec (List Byte) := do
  let saved := (saveObject v []).2
  let (infos, totalBufferSize) := bufferInfos saved 0
  Exec.require (totalBufferSize ≤ maxSingleBuffer) "larger than a single-buffer snapshot can be"
  let infoBlock := b.stringify (infoJson v)
  let bufferBlockStart := roundUp (infoBlockStart + infoBlock.length)
  let totalSize := bufferBlockStart + totalBufferSize
  Exec.require (totalSize ≤ maxSingleBuffer) "larger than a single-buffer snapshot can be"
  -- an `ArrayBuffer` has no negative length
  Exec.unwrap (if totalSize < 0 then none else some ())
  let result := List.replicate totalSize.toNat 0
  let result ← place result infoBlockStart infoBlock
  let result ← place result 0
    ([stateMagic, stateVersion, totalSize.toNat, infoBlock.length].flatMap uint32)
  (infos.zip saved).foldlM (fun result (info, buffer) =>
    place result (bufferBlockStart + info.offset).toNat buffer) result

/-! ## Restoring -/

/-- `read_state_header`: the length of the info block. -/
def readStateHeader (bytes : List Byte) (checkLength : Bool) : Exec Int := do
  Exec.require (infoBlockStart ≤ bytes.length) "Invalid length"
  Exec.require (getUint32 bytes 0 = stateMagic) "Invalid header"
  Exec.require (getInt32 bytes 4 = stateVersion) "Version mismatch"
  Exec.require (!checkLength || getInt32 bytes 8 = bytes.length) "Length doesn't match header"
  .ok (getInt32 bytes 12)

def BufferInfo.ofJson : Json → Option BufferInfo
  | .obj fields =>
    match property fields "offset", property fields "length" with
    | some (.num (.int offset)), some (.num (.int length)) => some ⟨offset, length⟩
    | _, _ => none
  | _ => none

/-- The state and the `buffer_infos` of an info block. One that `save_state` does not write may have
none. -/
def infoOf : Json → Option (Json × List BufferInfo)
  | .obj fields =>
    match property fields "state", property fields "buffer_infos" with
    | some state, some (.arr infos) => (infos.mapM BufferInfo.ofJson).map fun infos => (state, infos)
    | _, _ => none
  | _ => none

/-- `read_info_block`. -/
def readInfoBlock (b : Builtins) (bytes : List Byte) : Exec (Json × List BufferInfo) :=
  Exec.unwrap ((b.parse bytes).bind infoOf)

/-- The branch of `restore_state` that reads the bytes themselves. -/
def readPlain (b : Builtins) (state : List Byte) : Exec (Json × List (List Byte)) := do
  let infoBlockLen ← readStateHeader state true
  Exec.require (0 ≤ infoBlockLen && infoBlockLen + 12 < state.length) "Invalid info block length"
  let (object, infos) ←
    readInfoBlock b ((state.drop infoBlockStart).take infoBlockLen.toNat)
  let bufferBlockStart := roundUp (infoBlockStart + infoBlockLen)
  .ok (object, infos.map fun info =>
    slice state (bufferBlockStart + info.offset) (bufferBlockStart + info.offset + info.length))

/-- The exports of the decompressor: `zstd_create_ctx` with the compressed bytes at its source
pointer, and `zstd_read`, which gives the next bytes, or a null pointer. -/
structure Decompressor (σ : Type) where
  create : List Byte → σ
  read : σ → Nat → Option (List Byte) × σ

/-- The `CHUNK_SIZE` of `restore_state`. -/
def zstdChunkSize : Nat := 1048576

section
variable {σ : Type} (d : Decompressor σ)

/-- `zstd_read`, of a number that is converted to 32 bits. -/
def Decompressor.next (s : σ) (length : Int) : Exec (List Byte × σ) :=
  match d.read s (BitVec.ofInt 32 length).toNat with
  | (some data, s) => .ok (data, s)
  | (none, _) => .error .panic

/-- The loop that reads a buffer of more than a chunk: `done` of its bytes are there. -/
def Decompressor.readChunks (length done : Nat) (buffer : List Byte) (s : σ) :
    Exec (List Byte × σ) :=
  if done < length then do
    let toRead := min (length - done) zstdChunkSize
    let (data, s) ← d.next s toRead
    Decompressor.readChunks length (done + toRead) (buffer ++ data) s
  else .ok (buffer, s)
termination_by length - done
decreasing_by
  have : 0 < zstdChunkSize := by decide
  omega

/-- A turn of the loop over the buffers. -/
def Decompressor.readBuffer (info : BufferInfo) (frontPadding : Int) (s : σ) :
    Exec (List Byte × σ) :=
  if info.length > zstdChunkSize then do
    let (_, s) ← d.next s frontPadding
    d.readChunks info.length.toNat 0 [] s
  else do
    let (data, s) ← d.next s (frontPadding + info.length)
    .ok (slice data frontPadding (frontPadding + info.length), s)

/-- The loop over the buffers. -/
def Decompressor.readBuffers : List BufferInfo → Int → σ → Exec (List (List Byte))
  | [], _, _ => .ok []
  | info :: infos, position, s => do
    let frontPadding := roundUp position - position
    let (buffer, s) ← d.readBuffer info frontPadding s
    let buffers ← Decompressor.readBuffers infos (position + (frontPadding + info.length)) s
    .ok (buffer :: buffers)

/-- The branch of `restore_state` that reads a compressed stream. -/
def readZstd (b : Builtins) (state : List Byte) : Exec (Json × List (List Byte)) := do
  let (header, s) ← d.next (d.create state) 16
  let infoBlockLen ← readStateHeader header false
  let (infoBlock, s) ← d.next s infoBlockLen
  let (object, infos) ← readInfoBlock b infoBlock
  let buffers ← d.readBuffers infos (infoBlockStart + infoBlockLen) s
  .ok (object, buffers)

/-- The state object and the buffers that `restore_state` reads. -/
def readState (b : Builtins) (state : List Byte) : Exec (Json × List (List Byte)) :=
  if state.length < 4 then Exec.fail "Invalid snapshot length"
  else if getUint32 state 0 = zstdMagic then readZstd d b state
  else readPlain b state

/-- `restore_state`, up to `set_state`. -/
def restoreState (b : Builtins) (state : List Byte) : Exec Value := do
  let (object, buffers) ← readState d b state
  restoreBuffers b buffers object

end

end V86.State
