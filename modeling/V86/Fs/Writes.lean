import V86.Lib.Splice

/-!
# Concurrent 9p writes to one file

The handlers of `Twrite` requests are started one after the other and not waited for, and each goes
on by itself after every `await`. A step of a handler is what runs between two of them: `FS.Write`
up to its first `get_buffer`, then from there into `ChangeSize` or to its own `set_data`, and so on.
A buffer is an object: a handler that waits keeps what it got, whatever is installed meanwhile.
-/

namespace V86.Fs

/-- A `Twrite` request: the message holds at least `count` bytes behind its header. -/
structure Twrite where
  offset : Nat
  count : Nat
  buffer : List UInt8
  enough : count ≤ buffer.length

namespace Twrite

/-- `offset + count`. -/
def stop (w : Twrite) : Nat := w.offset + w.count

/-- `buffer.subarray(0, count)`. -/
def payload (w : Twrite) : List UInt8 := w.buffer.take w.count

end Twrite

/-- What `get_buffer` and `get_data` give: the first bytes of a buffer object of the file, a fresh
copy of the stored bytes, or `null`. -/
inductive Data where
  | null
  | view (ref length : Nat)
  | copy (bytes : List UInt8)

/-- The data of one inode: the buffer objects, the one in `inodedata`, its size, and the stored
bytes, which are the file's while its status is `STATUS_ON_STORAGE`. -/
structure File where
  heap : List (List UInt8)
  inodedata : Option Nat
  size : Nat
  onStorage : Bool
  stored : List UInt8

namespace File

/-- The bytes that a view or a copy shows now. -/
def bytes (f : File) : Data → List UInt8
  | .null => []
  | .view ref length => (f.heap.getD ref []).take length
  | .copy bytes => bytes

/-- `get_data` for `count` bytes from the start. -/
def getData (f : File) (count : Nat) : Data :=
  match f.inodedata with
  | some ref => .view ref (min count (f.heap.getD ref []).length)
  | none => if f.onStorage then .copy (f.stored.take count) else .null

/-- `get_buffer`: the whole buffer, or what `storage.read` gives for the whole file. -/
def getBuffer (f : File) : Data :=
  match f.inodedata with
  | some ref => .view ref (f.heap.getD ref []).length
  | none => if f.onStorage then .copy (f.stored.take f.size) else .null

/-- `set_data` of a new buffer. -/
def install (f : File) (buffer : List UInt8) : File :=
  { f with heap := f.heap ++ [buffer], inodedata := some f.heap.length, onStorage := false }

/-- The end of `Write`: `data.set(buffer.subarray(0, count), offset)` and `set_data(id, data)`.
There is no `set` of `null`, and none that goes past the end. -/
def put (f : File) (data : Data) (w : Twrite) : Option File :=
  match data with
  | .null => none
  | .view ref length =>
    if w.stop ≤ length then
      some { f with
        heap := f.heap.modify ref fun buffer => splice buffer w.offset w.payload
        inodedata := some ref
        onStorage := false }
    else none
  | .copy bytes =>
    if w.stop ≤ bytes.length then some (f.install (splice bytes w.offset w.payload)) else none

/-- `ChangeSize` from where it has the old data on. -/
def changeSize (f : File) (newsize : Nat) (temp : Data) : File :=
  if newsize = f.size then f
  else
    let kept := (f.bytes temp).take newsize
    { f with size := newsize }.install (kept ++ List.replicate (newsize - kept.length) 0)

end File

/-- The size of a grown buffer, `Math.floor(((offset + count) * 3) / 2)`. -/
def Twrite.grownSize (w : Twrite) : Nat := w.stop * 3 / 2

/-- What a handler waits for. -/
inductive Phase where
  /-- to be started -/
  | queued
  /-- `Write` for `get_buffer` -/
  | reading (data : Data)
  /-- `ChangeSize` for `get_data` -/
  | changing (temp : Data)
  /-- `Write` for `ChangeSize`, which has only `set_data` to wait for -/
  | changed
  /-- `Write` for the second `get_buffer` -/
  | rereading (data : Data)
  /-- `Write` for `set_data` -/
  | storing
  | answered
  | failed

/-- `!data || data.length < offset + count`. -/
def File.tooShort (f : File) (w : Twrite) : Data → Bool
  | .null => true
  | data => (f.bytes data).length < w.stop

/-- What follows a write into `data`. -/
def File.finish (f : File) (data : Data) (w : Twrite) : File × Phase :=
  match f.put data w with
  | some f' => (f', .storing)
  | none => (f, .failed)

/-- A handler runs up to its next `await`. -/
def File.resume (f : File) (w : Twrite) : Phase → File × Phase
  | .queued => (f, .reading f.getBuffer)
  | .reading data =>
    if f.tooShort w data then (f, .changing (f.getData f.size))
    else { f with size := max f.size w.stop }.finish data w
  | .changing temp => (f.changeSize w.grownSize temp, .changed)
  | .changed =>
    let f := { f with size := w.stop }
    (f, .rereading f.getBuffer)
  | .rereading data => f.finish data w
  | .storing => (f, .answered)
  | .answered => (f, .answered)
  | .failed => (f, .failed)

/-- A file and the handlers of the requests for it. -/
structure Writes where
  file : File
  phases : List Phase

namespace Writes

/-- The handlers before the first is started. -/
def start (f : File) (requests : List Twrite) : Writes :=
  { file := f, phases := requests.map fun _ => .queued }

/-- The handler of one of the requests goes on. -/
def step (requests : List Twrite) (s : Writes) (i : Nat) : Writes :=
  match requests[i]?, s.phases[i]? with
  | some w, some phase =>
    let (file, phase') := s.file.resume w phase
    { file, phases := s.phases.set i phase' }
  | _, _ => s

end Writes

end V86.Fs
