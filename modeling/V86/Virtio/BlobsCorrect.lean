import V86.Virtio.Blobs
import V86.Virtio.ChainCorrect

/-!
# Blobs are read and written in order

The pointers of a chain say which of the buffers' bytes are still to come (`rest`). A round of the
loops takes the first of these, so a blob is read from as many of them as it asks for, or written
to them (`getLoop_spec`, `setLoop_spec`); what writing does to memory is a scatter over addresses
that no other buffer has, so any calls one after the other read the readable buffers from the start
on and fill the writable ones (`calls_stream`).
-/

namespace V86.Virtio

open List

open Dma (Memory Byte)
open Gather (scatter)

variable {m m' : Memory} {buffers : List Desc} {c : Cursor} {buf : Desc}

/-! ## What is still to come -/

/-- The addresses of the bytes that the pointers are not behind yet. -/
def Cursor.rest (c : Cursor) (buffers : List Desc) : List Nat :=
  (addresses (buffers.drop c.idx)).drop c.offset

/-- The pointers are at the start of a buffer or in it, or at the end of the buffers. -/
structure Cursor.Sound (c : Cursor) (buffers : List Desc) : Prop where
  inside : ∀ buf, buffers[c.idx]? = some buf → c.offset = 0 ∨ c.offset < buf.len
  atEnd : buffers[c.idx]? = none → c.offset = 0

theorem Cursor.sound_start (idx : Nat) : (⟨idx, 0⟩ : Cursor).Sound buffers :=
  ⟨fun _ _ => .inl rfl, fun _ => rfl⟩

@[simp] theorem Desc.length_addresses (d : Desc) : d.addresses.length = d.len := by
  rw [Desc.addresses, length_map, length_range]

theorem Cursor.rest_atEnd (h : buffers[c.idx]? = none) : c.rest buffers = [] := by
  rw [Cursor.rest, drop_eq_nil_of_le (List.getElem?_eq_none_iff.1 h)]
  exact drop_nil

/-- A run of addresses. -/
def run (start length : Nat) : List Nat := (List.range length).map fun i => start + i

@[simp] theorem length_run (start length : Nat) : (run start length).length = length := by
  rw [run, length_map, length_range]

theorem run_add (start k n : Nat) : run start (k + n) = run start k ++ run (start + k) n := by
  rw [run, range_add, map_append, List.map_map, run, run]
  congr 1
  refine map_congr_left fun i _ => ?_
  exact (Nat.add_assoc start k i).symm

theorem nodup_run (start length : Nat) : (run start length).Nodup :=
  List.Pairwise.map (start + ·) (fun _ _ hne h => hne (Nat.add_left_cancel h)) nodup_range

variable {length remaining : Nat}

theorem mem_run {start a : Nat} : a ∈ run start length ↔ start ≤ a ∧ a < start + length := by
  rw [run, mem_map]
  constructor
  · rintro ⟨i, hi, rfl⟩
    have hi := List.mem_range.1 hi
    omega
  · intro h
    exact ⟨a - start, List.mem_range.2 (by omega), by omega⟩

/-- What is still to come begins with the rest of the buffer. -/
theorem Cursor.rest_eq (hbuf : buffers[c.idx]? = some buf) (hle : c.offset ≤ buf.len) :
    c.rest buffers = run (buf.address + c.offset) (buf.len - c.offset) ++
      (⟨c.idx + 1, 0⟩ : Cursor).rest buffers := by
  obtain ⟨hlt, hget⟩ := List.getElem?_eq_some_iff.1 hbuf
  have hsplit : buf.addresses = run buf.address c.offset ++
      run (buf.address + c.offset) (buf.len - c.offset) := by
    rw [← run_add, Nat.add_sub_cancel' hle]
    rfl
  rw [Cursor.rest, drop_eq_getElem_cons hlt, hget, addresses, flatMap_cons, hsplit,
    append_assoc, drop_left' (length_run ..)]
  rfl

/-- What a round of the loops takes: bytes of one buffer, the first of those still to come. -/
structure Takes (buffers : List Desc) (c : Cursor) (buf : Desc) (remaining : Nat) : Prop where
  le : (c.advance buf remaining).1 ≤ remaining
  sound : (c.advance buf remaining).2.Sound buffers
  rest : c.rest buffers = run (buf.address + c.offset) (c.advance buf remaining).1 ++
    (c.advance buf remaining).2.rest buffers
  inside : c.offset + (c.advance buf remaining).1 ≤ buf.len
  start : (c.advance buf remaining).1 = 0 → c.offset = 0

theorem takes_advance (hc : c.Sound buffers) (hbuf : buffers[c.idx]? = some buf)
    (hremaining : remaining ≠ 0) : Takes buffers c buf remaining := by
  have hin := hc.inside buf hbuf
  have hle : c.offset ≤ buf.len := by omega
  by_cases hpart : buf.len - c.offset > remaining
  · have hadvance : c.advance buf remaining =
        (remaining, { c with offset := c.offset + remaining }) := if_pos hpart
    have hlt : c.offset + remaining < buf.len := by omega
    refine ⟨?_, ?_, ?_, ?_, ?_⟩ <;> rw [hadvance]
    · constructor
      · intro buf' hbuf'
        cases hbuf.symm.trans hbuf'
        exact .inr hlt
      · intro hnone
        cases hbuf.symm.trans hnone
    · rw [Cursor.rest_eq hbuf hle, Cursor.rest_eq (c := { c with offset := c.offset + remaining })
        hbuf (Nat.le_of_lt hlt), ← append_assoc, ← Nat.add_assoc, ← run_add]
      congr 2
      change buf.len - c.offset = remaining + (buf.len - (c.offset + remaining))
      omega
    · exact Nat.le_of_lt hlt
    · exact fun h => absurd h hremaining
  · have hadvance : c.advance buf remaining = (buf.len - c.offset, ⟨c.idx + 1, 0⟩) := if_neg hpart
    refine ⟨?_, ?_, ?_, ?_, ?_⟩ <;> rw [hadvance]
    · exact Nat.not_lt.1 hpart
    · exact Cursor.sound_start _
    · exact Cursor.rest_eq hbuf hle
    · change c.offset + (buf.len - c.offset) ≤ buf.len
      omega
    · change buf.len - c.offset = 0 → c.offset = 0
      omega

theorem Takes.take (h : Takes buffers c buf remaining) : (c.rest buffers).take remaining =
      run (buf.address + c.offset) (c.advance buf remaining).1 ++
        ((c.advance buf remaining).2.rest buffers).take
          (remaining - (c.advance buf remaining).1) := by
  rw [h.rest, take_append, take_of_length_le (by rw [length_run]; exact h.le), length_run]

theorem Takes.drop (h : Takes buffers c buf remaining) : (c.rest buffers).drop remaining =
      ((c.advance buf remaining).2.rest buffers).drop
        (remaining - (c.advance buf remaining).1) := by
  rw [h.rest, drop_append, drop_eq_nil_of_le (by rw [length_run]; exact h.le),
    nil_append, length_run]

/-- The bytes of a buffer that resolves do. -/
theorem valid_part (h : buf.valid m = true) {offset : Nat} (hle : offset + length ≤ buf.len)
    (hstart : length = 0 → offset = 0) :
    m.validatePhysicalRange (buf.address + offset) length = true := by
  simp only [Desc.valid, Memory.validatePhysicalRange, Bool.and_eq_true, decide_eq_true_eq,
    Memory.resolves_iff] at h ⊢
  obtain ⟨⟨hstart', hend⟩, hmapped⟩ := h
  refine ⟨⟨?_, by omega⟩, fun a hle ha => hmapped a (by omega) (by omega)⟩
  rcases Nat.eq_zero_or_pos length with h | h
  · have := hstart h
    omega
  · omega

/-! ## Reading -/

theorem readBlobPhysical_run {address : Nat} (h : m.validatePhysicalRange address length = true) :
    m.readBlobPhysical address length = some ((run address length).map m.bytes) := by
  rw [Memory.readBlobPhysical, if_pos h, run, List.map_map]
  rfl

/-- The loop of `get_next_blob` reads the first of the bytes that are still to come, as many as it
is asked for or as there are. -/
theorem getLoop_spec {dest : List Byte} {destOffset : Nat}
    (hvalid : ∀ d ∈ buffers, d.valid m = true) (hc : c.Sound buffers)
    (hdest : destOffset + remaining ≤ dest.length) :
    ∃ c', getLoop m buffers c dest destOffset remaining =
        some (c', splice dest destOffset (((c.rest buffers).take remaining).map m.bytes),
          destOffset + ((c.rest buffers).take remaining).length) ∧
      c'.Sound buffers ∧ c'.rest buffers = (c.rest buffers).drop remaining := by
  fun_induction getLoop m buffers c dest destOffset remaining with
  | case1 c dest destOffset =>
    refine ⟨c, ?_, hc, rfl⟩
    rw [take_zero, map_nil, splice_nil]
    rfl
  | case2 c dest destOffset remaining hremaining hnone =>
    refine ⟨c, ?_, hc, ?_⟩
    · rw [Cursor.rest_atEnd hnone, take_nil, map_nil, splice_nil]
      rfl
    · rw [Cursor.rest_atEnd hnone, drop_nil]
  | case3 c dest destOffset remaining hremaining buf hbuf n hthrow =>
    have htakes := takes_advance hc hbuf hremaining
    have hmem := mem_of_getElem? hbuf
    rw [readBlobPhysical_run (valid_part (hvalid buf hmem) htakes.inside htakes.start)] at hthrow
    cases hthrow
  | case4 c dest destOffset remaining hremaining buf hbuf n blob hblob ih =>
    have htakes := takes_advance hc hbuf hremaining
    have hmem := mem_of_getElem? hbuf
    rw [readBlobPhysical_run (valid_part (hvalid buf hmem) htakes.inside htakes.start)] at hblob
    have hblob := Option.some.inj hblob
    have hlength : blob.length = n := by rw [← hblob, length_map, length_run]
    have hn : n ≤ remaining := htakes.le
    have hfits : destOffset + blob.length ≤ dest.length := by omega
    obtain ⟨c', hloop, hsound, hrest⟩ := ih htakes.sound (by
      rw [length_splice hfits]
      omega)
    refine ⟨c', ?_, hsound, hrest.trans htakes.drop.symm⟩
    rw [hloop, htakes.take, map_append, hblob, ← hlength, splice_splice (by omega),
      length_append, length_run, ← Nat.add_assoc, hlength]

/-! ## Writing -/

/-- A blob is scattered over a run of addresses. -/
theorem writeBlobPhysical_run (address : Nat) (blob : List Byte)
    (h : m.validatePhysicalRange address blob.length = true) :
    ∃ m', m.writeBlobPhysical blob address = some m' ∧ m'.mapped = m.mapped ∧
      m'.bytes = scatter m.bytes (run address blob.length) blob := by
  rw [Memory.writeBlobPhysical, if_pos h]
  refine ⟨_, rfl, rfl, Gather.eq_scatter (nodup_run ..) (length_run ..) ?_ ?_⟩
  · refine ext_getElem? fun i => ?_
    rw [run, List.map_map, List.getElem?_map]
    rcases Nat.lt_or_ge i blob.length with hlt | hge
    · rw [List.getElem?_range hlt, Option.map_some, List.getElem?_eq_getElem hlt]
      change some (if address ≤ address + i ∧ address + i < address + blob.length then _ else _) = _
      rw [if_pos ⟨Nat.le_add_right .., Nat.add_lt_add_left hlt _⟩, Nat.add_sub_cancel_left,
        getD_eq_getElem?_getD, List.getElem?_eq_getElem hlt]
      rfl
    · rw [List.getElem?_eq_none (by rw [length_range]; exact hge), List.getElem?_eq_none hge]
      rfl
  · intro a ha
    exact if_neg fun h => ha (mem_run.2 h)

theorem Desc.valid_congr (h : m'.mapped = m.mapped) (d : Desc) : d.valid m' = d.valid m := by
  rw [Desc.valid, Desc.valid, Memory.validatePhysicalRange, Memory.validatePhysicalRange, h]

/-- The loop of `set_next_blob` writes to the first of the bytes that are still to come, as many as
the blob has or as there are. -/
theorem setLoop_spec {src : List Byte} {srcOffset : Nat} (hvalid : ∀ d ∈ buffers, d.valid m = true)
    (hc : c.Sound buffers) (hsrc : srcOffset + remaining ≤ src.length) :
    ∃ m' c', setLoop m buffers c src srcOffset remaining =
        some (m', c', srcOffset + ((c.rest buffers).take remaining).length) ∧
      c'.Sound buffers ∧ c'.rest buffers = (c.rest buffers).drop remaining ∧
      m'.mapped = m.mapped ∧ m'.bytes = scatter m.bytes ((c.rest buffers).take remaining)
        ((src.drop srcOffset).take ((c.rest buffers).take remaining).length) := by
  fun_induction setLoop m buffers c src srcOffset remaining with
  | case1 m c srcOffset =>
    refine ⟨m, c, ?_, hc, rfl, rfl, ?_⟩
    · rw [take_zero]
      rfl
    · rw [take_zero, Gather.scatter_nil_left]
  | case2 m c srcOffset remaining hremaining hnone =>
    rw [Cursor.rest_atEnd hnone, take_nil, drop_nil, Gather.scatter_nil_left]
    exact ⟨m, c, rfl, hc, Cursor.rest_atEnd hnone, rfl, rfl⟩
  | case3 m c srcOffset remaining hremaining buf hbuf n hthrow =>
    have htakes := takes_advance hc hbuf hremaining
    have hn : n ≤ remaining := htakes.le
    have hlength : ((src.drop srcOffset).take n).length = n := by
      rw [length_take, length_drop]
      omega
    rw [Memory.writeBlobPhysical, hlength, if_pos (valid_part (hvalid buf (mem_of_getElem? hbuf))
      htakes.inside htakes.start)] at hthrow
    cases hthrow
  | case4 m c srcOffset remaining hremaining buf hbuf n m₁ hm₁ ih =>
    have htakes := takes_advance hc hbuf hremaining
    have hmem := mem_of_getElem? hbuf
    have hn : n ≤ remaining := htakes.le
    have hlength : ((src.drop srcOffset).take n).length = n := by
      rw [length_take, length_drop]
      omega
    obtain ⟨m₂, hwrite, hmapped, hbytes⟩ := writeBlobPhysical_run (m := m)
      (buf.address + c.offset) ((src.drop srcOffset).take n) (by
        rw [hlength]
        exact valid_part (hvalid buf hmem) htakes.inside htakes.start)
    cases hm₁.symm.trans hwrite
    obtain ⟨m', c', hloop, hsound, hrest, hmapped', hbytes'⟩ := ih
      (fun d hd => (Desc.valid_congr hmapped d).trans (hvalid d hd)) htakes.sound (by omega)
    rw [hlength] at hbytes
    refine ⟨m', c', ?_, hsound, hrest.trans htakes.drop.symm, hmapped'.trans hmapped, ?_⟩
    · rw [hloop, htakes.take, length_append, length_run, ← Nat.add_assoc]
    · rw [hbytes', hbytes, htakes.take, length_append, length_run, take_add,
        drop_drop, Gather.scatter_append (by rw [length_run]; exact hlength.symm)]

/-! ## Calls -/

/-- A chain that can be used: its buffers resolve and do not overlap, and nothing was written. -/
structure BufferChain.Usable (m : Memory) (c : BufferChain) : Prop where
  readable : ∀ d ∈ c.readBuffers, d.valid m = true
  writable : ∀ d ∈ c.writeBuffers, d.valid m = true
  disjoint : (addresses c.readBuffers ++ addresses c.writeBuffers).Nodup
  lengthWritable : c.lengthWritable = (c.writeBuffers.map (·.len)).sum
  lengthWritten : c.lengthWritten = 0

theorem length_addresses (buffers : List Desc) :
    (addresses buffers).length = (buffers.map (·.len)).sum := by
  rw [addresses, length_flatMap]
  congr 1
  exact map_congr_left fun d _ => d.length_addresses

/-- What the calls that were served have read. -/
def bytesRead (served : List Served) : List Byte := served.flatMap Served.got?

/-- What they have written. -/
def bytesWritten (served : List Served) : List Byte := served.flatMap Served.put?

/-- What calls of a device on a chain have come to. -/
structure Streamed (m : Memory) (c : BufferChain) (s : Stream) (served : List Served) : Prop where
  counted : ∀ o ∈ served, o.Counted
  got : bytesRead served <+: (addresses c.readBuffers).map m.bytes
  whole : (∃ o ∈ served, o.ShortRead) → bytesRead served = (addresses c.readBuffers).map m.bytes
  fits : (bytesWritten served).length ≤ (addresses c.writeBuffers).length
  put : ((addresses c.writeBuffers).take (bytesWritten served).length).map s.memory.bytes = bytesWritten served
  elsewhere : ∀ a, a ∉ (addresses c.writeBuffers).take (bytesWritten served).length →
    s.memory.bytes a = m.bytes a
  full : (∃ o ∈ served, o.ShortWrite) →
    (bytesWritten served).length = (addresses c.writeBuffers).length ∨ Served.unplugged ∈ served
  lengthWritten : s.chain.lengthWritten = (served.map Served.putCount).sum
  lengthWritable : s.chain.lengthWritten ≤ c.lengthWritable

/-- The pointers and the memory after some calls: the readable bytes that were read and the writable
ones that were written are behind the pointers, and what was written is in its place. -/
structure Stream.Inv (m : Memory) (c : BufferChain) (s : Stream) (served : List Served) : Prop where
  chain : s.chain = { c with lengthWritten := (bytesWritten served).length }
  readSound : s.read.Sound c.readBuffers
  writeSound : s.write.Sound c.writeBuffers
  reading : s.read.rest c.readBuffers = (addresses c.readBuffers).drop (bytesRead served).length
  writing : s.write.rest c.writeBuffers =
    (addresses c.writeBuffers).drop (bytesWritten served).length
  got : bytesRead served =
    ((addresses c.readBuffers).take (bytesRead served).length).map m.bytes
  mapped : s.memory.mapped = m.mapped
  memory : s.memory.bytes = scatter m.bytes
    ((addresses c.writeBuffers).take (bytesWritten served).length) (bytesWritten served)
  fits : (bytesWritten served).length ≤ (addresses c.writeBuffers).length
  counted : ∀ o ∈ served, o.Counted
  whole : (∃ o ∈ served, o.ShortRead) →
    (bytesRead served).length = (addresses c.readBuffers).length
  full : (∃ o ∈ served, o.ShortWrite) →
    (bytesWritten served).length = (addresses c.writeBuffers).length ∨ Served.unplugged ∈ served
  plugged : s.plugGeneration ≠ c.plugGeneration → Served.unplugged ∈ served
  generation : c.plugGeneration ≤ s.plugGeneration
  lengthWritten : (bytesWritten served).length = (served.map Served.putCount).sum

section
variable {c : BufferChain} {s s' : Stream} {served : List Served}

theorem Stream.inv_new (h : c.Usable m) : (Stream.new c m).Inv m c [] where
  chain := by
    change c = { c with lengthWritten := 0 }
    rw [← h.lengthWritten]
  readSound := Cursor.sound_start 0
  writeSound := Cursor.sound_start 0
  reading := rfl
  writing := rfl
  got := rfl
  mapped := rfl
  memory := by
    change m.bytes = scatter m.bytes (List.take 0 _) []
    rw [Gather.scatter_nil_right]
  fits := Nat.zero_le _
  counted := fun _ ho => (not_mem_nil ho).elim
  whole := fun ⟨_, ho, _⟩ => (not_mem_nil ho).elim
  full := fun ⟨_, ho, _⟩ => (not_mem_nil ho).elim
  plugged := fun h => (h rfl).elim
  generation := Nat.le_refl _
  lengthWritten := rfl

/-- The readable buffers are as they were. -/
theorem Stream.Inv.map_read (h : s.Inv m c served) (hc : c.Usable m) {as : List Nat}
    (has : ∀ a ∈ as, a ∈ addresses c.readBuffers) : as.map s.memory.bytes = as.map m.bytes := by
  rw [h.memory]
  refine Gather.map_scatter_of_disjoint fun a ha hwrite => ?_
  exact (List.nodup_append.1 hc.disjoint).2.2 a (has a ha) a (mem_of_mem_take hwrite) rfl

theorem bytesRead_concat (served : List Served) (o : Served) :
    bytesRead (served ++ [o]) = bytesRead served ++ o.got? := by
  rw [bytesRead, bytesRead, flatMap_append, flatMap_singleton]

theorem bytesWritten_concat (served : List Served) (o : Served) :
    bytesWritten (served ++ [o]) = bytesWritten served ++ o.put? := by
  rw [bytesWritten, bytesWritten, flatMap_append, flatMap_singleton]

variable {P : Served → Prop} {o : Served}

theorem forall_concat (h : ∀ o' ∈ served, P o') (ho : P o) : ∀ o' ∈ served ++ [o], P o' := by
  intro o' ho'
  rcases List.mem_append.1 ho' with ho' | ho'
  · exact h o' ho'
  · rwa [List.mem_singleton.1 ho']

theorem exists_concat (h : ∃ o' ∈ served ++ [o], P o') : (∃ o' ∈ served, P o') ∨ P o := by
  obtain ⟨o', ho', hP⟩ := h
  rcases List.mem_append.1 ho' with ho' | ho'
  · exact .inl ⟨o', ho', hP⟩
  · rw [List.mem_singleton.1 ho'] at hP
    exact .inr hP

theorem take_length_take (l : List Nat) (n : Nat) : l.take (l.take n).length = l.take n := by
  conv_rhs => rw [← take_length (l := l.take n), take_take]
  rw [Nat.min_eq_left (length_take_le ..)]

theorem drop_length_take (l : List Nat) (n : Nat) : l.drop (l.take n).length = l.drop n := by
  rcases Nat.le_total n l.length with h | h
  · rw [length_take, Nat.min_eq_left h]
  · rw [take_of_length_le h, drop_length, drop_eq_nil_of_le h]

/-- A call of `get_next_blob`. -/
theorem Stream.Inv.get (h : s.Inv m c served) (hc : c.Usable m) (dest : List Byte) :
    ∃ s' o, s.call (.get dest) = some (s', o) ∧ o.call = .get dest ∧
      s'.Inv m c (served ++ [o]) := by
  have hvalid : ∀ d ∈ c.readBuffers, d.valid s.memory = true := fun d hd =>
    (Desc.valid_congr h.mapped d).trans (hc.readable d hd)
  obtain ⟨c', hloop, hsound, hrest⟩ := getLoop_spec hvalid h.readSound
    (Nat.le_of_eq (Nat.zero_add dest.length))
  rw [Nat.zero_add] at hloop
  -- the bytes that are read are those of the readable buffers behind the ones already read
  generalize hn : ((s.read.rest c.readBuffers).take dest.length).length = n at hloop
  generalize hdata : ((s.read.rest c.readBuffers).take dest.length).map s.memory.bytes = data
    at hloop
  have hdatalen : data.length = n := by rw [← hdata, length_map, hn]
  have hnle : n ≤ dest.length := by
    rw [← hn]
    exact length_take_le ..
  have htake : (s.read.rest c.readBuffers).take dest.length =
      ((addresses c.readBuffers).drop (bytesRead served).length).take n := by
    rw [← hn, h.reading, take_length_take]
  have hdata' : data = (((addresses c.readBuffers).drop (bytesRead served).length).take n).map
      m.bytes := by
    rw [← hdata, htake]
    exact h.map_read hc fun a ha => mem_of_mem_drop (mem_of_mem_take ha)
  have hsplice : splice dest 0 data = data ++ dest.drop n := by
    rw [splice, take_zero, nil_append, Nat.zero_add, hdatalen]
  have hgot : (Served.got dest (splice dest 0 data) n).got? = data := by
    rw [Served.got?, hsplice]
    exact take_left' hdatalen
  have hread := bytesRead_concat served (.got dest (splice dest 0 data) n)
  have hwritten := bytesWritten_concat served (.got dest (splice dest 0 data) n)
  rw [hgot] at hread
  have hput : (Served.got dest (splice dest 0 data) n).put? = [] := rfl
  rw [hput, append_nil] at hwritten
  refine ⟨{ s with read := c' }, .got dest (splice dest 0 data) n, ?_, rfl, ?_⟩
  · rw [Stream.call, Stream.getNextBlob, h.chain]
    dsimp only
    rw [hloop]
    rfl
  have hlength : (bytesRead served ++ data).length = (bytesRead served).length + n := by
    rw [length_append, hdatalen]
  have hnlen : n ≤ (addresses c.readBuffers).length - (bytesRead served).length := by
    rw [← hn, h.reading, ← length_drop]
    exact length_take_le' ..
  refine ⟨?_, hsound, h.writeSound, ?_, ?_, ?_, h.mapped, ?_, ?_, ?_, ?_, ?_, ?_, h.generation, ?_⟩
  · rw [hwritten]
    exact h.chain
  · rw [hread, hlength, ← drop_drop, ← h.reading, ← hn, drop_length_take]
    exact hrest
  · rw [hwritten]
    exact h.writing
  · rw [hread, hlength, take_add, map_append, ← h.got, ← hdata']
  · rw [hwritten]
    exact h.memory
  · rw [hwritten]
    exact h.fits
  · refine forall_concat h.counted ⟨hnle, ?_, ?_⟩
    · rw [hsplice, length_append, hdatalen, length_drop]
      omega
    · rw [hsplice]
      exact drop_left' hdatalen
  · intro hshort
    rw [hread, hlength]
    have hle : (bytesRead served).length ≤ (addresses c.readBuffers).length := by
      have hlen := congrArg List.length h.got
      rw [length_map, length_take] at hlen
      omega
    rcases exists_concat hshort with hbefore | hnow
    · have hall := h.whole hbefore
      omega
    · have hlt : n < dest.length := hnow
      have hrest' : (s.read.rest c.readBuffers).length = n := by
        rw [← hn, length_take]
        rw [← hn, length_take] at hlt
        omega
      rw [h.reading, length_drop] at hrest'
      omega
  · intro hshort
    rw [hwritten]
    rcases exists_concat hshort with hbefore | hnow
    · exact (h.full hbefore).imp_right (mem_append_left _)
    · exact hnow.elim
  · exact fun hne => mem_append_left _ (h.plugged hne)
  · rw [hwritten, h.lengthWritten, map_append, sum_append]
    rfl

/-- A step that moves nothing, of a function that has left the bus by then. -/
theorem Stream.Inv.concat (h : s.Inv m c served) {o : Served} {plug : Nat} (hgot : o.got? = [])
    (hput : o.put? = []) (hcounted : o.Counted) (hcount : o.putCount = 0) (hshort : ¬o.ShortRead)
    (hunplugged : Served.unplugged ∈ served ++ [o]) (hplug : s.plugGeneration ≤ plug) :
    ({ s with plugGeneration := plug } : Stream).Inv m c (served ++ [o]) := by
  have hread : bytesRead (served ++ [o]) = bytesRead served := by
    rw [bytesRead_concat, hgot, append_nil]
  have hwritten : bytesWritten (served ++ [o]) = bytesWritten served := by
    rw [bytesWritten_concat, hput, append_nil]
  exact
    { chain := by rw [hwritten]; exact h.chain
      readSound := h.readSound
      writeSound := h.writeSound
      reading := by rw [hread]; exact h.reading
      writing := by rw [hwritten]; exact h.writing
      got := by rw [hread]; exact h.got
      mapped := h.mapped
      memory := by rw [hwritten]; exact h.memory
      fits := by rw [hwritten]; exact h.fits
      counted := forall_concat h.counted hcounted
      whole := fun hs => by
        rw [hread]
        exact h.whole ((exists_concat hs).resolve_right hshort)
      full := fun _ => .inr hunplugged
      plugged := fun _ => hunplugged
      generation := Nat.le_trans h.generation hplug
      lengthWritten := by
        rw [hwritten, h.lengthWritten, map_append, sum_append]
        simp [hcount] }

/-- A call of `set_next_blob` of a function that has left the bus. -/
theorem Stream.Inv.set_unplugged (h : s.Inv m c served) (src : List Byte)
    (hgeneration : s.chain.plugGeneration ≠ s.plugGeneration) :
    s.call (.set src) = some (s, .put src 0) ∧ s.Inv m c (served ++ [.put src 0]) := by
  have hunplugged : Served.unplugged ∈ served := h.plugged fun heq => hgeneration (by
    rw [h.chain]
    exact heq.symm)
  refine ⟨?_, h.concat rfl (take_zero (l := src)) (Nat.zero_le _) rfl id
    (mem_append_left _ hunplugged) (Nat.le_refl _)⟩
  rw [Stream.call, Stream.setNextBlob, if_pos hgeneration]
  rfl

/-- A call of `set_next_blob`. -/
theorem Stream.Inv.set (h : s.Inv m c served) (hc : c.Usable m) (src : List Byte) :
    ∃ s' o, s.call (.set src) = some (s', o) ∧ o.call = .set src ∧ s'.Inv m c (served ++ [o]) := by
  by_cases hgeneration : s.chain.plugGeneration ≠ s.plugGeneration
  · obtain ⟨hcall, hinv⟩ := h.set_unplugged src hgeneration
    exact ⟨s, .put src 0, hcall, rfl, hinv⟩
  have hvalid : ∀ d ∈ c.writeBuffers, d.valid s.memory = true := fun d hd =>
    (Desc.valid_congr h.mapped d).trans (hc.writable d hd)
  obtain ⟨m', c', hloop, hsound, hrest, hmapped, hbytes⟩ := setLoop_spec hvalid h.writeSound
    (Nat.le_of_eq (Nat.zero_add src.length))
  rw [Nat.zero_add] at hloop
  rw [drop_zero] at hbytes
  -- they are written to the writable buffers behind the bytes already written
  generalize hn : ((s.write.rest c.writeBuffers).take src.length).length = n at hloop hbytes
  have hnle : n ≤ src.length := by
    rw [← hn]
    exact length_take_le ..
  have htake : (s.write.rest c.writeBuffers).take src.length =
      ((addresses c.writeBuffers).drop (bytesWritten served).length).take n := by
    rw [← hn, h.writing, take_length_take]
  have hnlen : n ≤ (addresses c.writeBuffers).length - (bytesWritten served).length := by
    rw [← hn, h.writing, ← length_drop]
    exact length_take_le' ..
  have hput : (Served.put src n).put? = src.take n := rfl
  have hread := bytesRead_concat served (.put src n)
  have hwritten := bytesWritten_concat served (.put src n)
  have hgot : (Served.put src n).got? = [] := rfl
  rw [hgot, append_nil] at hread
  rw [hput] at hwritten
  have hfits := h.fits
  have hlength : (bytesWritten served ++ src.take n).length = (bytesWritten served).length + n := by
    rw [length_append, length_take, Nat.min_eq_left hnle]
  refine ⟨{ s with
    memory := m'
    write := c'
    chain.lengthWritten := s.chain.lengthWritten + n }, .put src n, ?_, rfl, ?_⟩
  · rw [Stream.call, Stream.setNextBlob, if_neg hgeneration]
    have hbuffers : s.chain.writeBuffers = c.writeBuffers := by rw [h.chain]
    rw [hbuffers, hloop]
    rfl
  refine ⟨?_, h.readSound, hsound, ?_, ?_, ?_, hmapped.trans h.mapped, ?_, ?_, ?_, ?_, ?_, ?_,
    h.generation, ?_⟩
  · rw [hwritten, hlength]
    dsimp only
    rw [h.chain]
  · rw [hread]
    exact h.reading
  · rw [hwritten, hlength, ← drop_drop, ← h.writing, ← hn, drop_length_take]
    exact hrest
  · rw [hread]
    exact h.got
  · rw [hwritten, hlength, take_add, Gather.scatter_append (by
      rw [length_take]
      omega), ← h.memory, ← htake]
    exact hbytes
  · rw [hwritten, hlength]
    omega
  · exact forall_concat h.counted hnle
  · intro hshort
    rw [hread]
    exact h.whole ((exists_concat hshort).resolve_right id)
  · intro hshort
    rw [hwritten, hlength]
    rcases exists_concat hshort with hbefore | hnow
    · rcases h.full hbefore with hall | hunplugged
      · exact .inl (by omega)
      · exact .inr (mem_append_left _ hunplugged)
    · have hlt : n < src.length := hnow
      have hrest' : (s.write.rest c.writeBuffers).length = n := by
        rw [← hn, length_take]
        rw [← hn, length_take] at hlt
        omega
      rw [h.writing, length_drop] at hrest'
      exact .inl (by omega)
  · exact fun hne => mem_append_left _ (h.plugged hne)
  · rw [hwritten, hlength, h.lengthWritten, map_append, sum_append]
    rfl

theorem Stream.Inv.unplug (h : s.Inv m c served) :
    ({ s with plugGeneration := s.plugGeneration + 1 } : Stream).Inv m c
      (served ++ [.unplugged]) :=
  h.concat rfl rfl trivial rfl id (mem_append_right _ mem_cons_self) (Nat.le_succ _)

/-- A call. -/
theorem Stream.Inv.call (h : s.Inv m c served) (hc : c.Usable m) (call : Call) :
    ∃ s' o, s.call call = some (s', o) ∧ o.call = call ∧ s'.Inv m c (served ++ [o]) := by
  cases call with
  | get dest => exact h.get hc dest
  | set src => exact h.set hc src
  | unplug => exact ⟨_, .unplugged, rfl, rfl, h.unplug⟩

theorem Stream.Inv.calls (h : s.Inv m c served) (hc : c.Usable m) (calls : List Call) :
    ∃ s' all, s.calls calls = some (s', all) ∧ all.map Served.call = calls ∧
      s'.Inv m c (served ++ all) := by
  induction calls generalizing s served with
  | nil => exact ⟨s, [], rfl, rfl, by rwa [append_nil]⟩
  | cons call calls ih =>
    obtain ⟨s₁, o, hcall, hasked, hinv⟩ := h.call hc call
    obtain ⟨s', all, hcalls, hall, hinv'⟩ := ih hinv
    refine ⟨s', o :: all, ?_, ?_, ?_⟩
    · rw [Stream.calls, hcall]
      change (s₁.calls calls).bind _ = _
      rw [hcalls]
      rfl
    · rw [map_cons, hasked, hall]
    · rwa [append_assoc, singleton_append] at hinv'

theorem Stream.Inv.streamed (h : s.Inv m c served) (hc : c.Usable m) : Streamed m c s served where
  counted := h.counted
  got := by
    rw [h.got, map_take]
    exact take_prefix ..
  whole hshort := by
    rw [h.got, h.whole hshort, take_length]
  fits := h.fits
  put := by
    rw [h.memory]
    refine Gather.map_scatter ?_ (by rw [length_take, Nat.min_eq_left h.fits])
    exact (List.nodup_append.1 hc.disjoint).2.1.sublist (take_sublist ..)
  elsewhere a ha := by
    rw [h.memory]
    exact Gather.scatter_of_not_mem ha
  full := h.full
  lengthWritten := by
    rw [h.chain]
    exact h.lengthWritten
  lengthWritable := by
    rw [h.chain, hc.lengthWritable, ← length_addresses]
    exact h.fits

end

/-- The chain that a constructor has found valid, used when memory may have changed. -/
theorem usable_bufferChain {v : VirtIO} {q : VirtQueue} {headIdx : Nat}
    (hvalid : (bufferChain m v q headIdx).1.valid = true) (hmapped : m'.mapped = m.mapped)
    (hdisjoint : (addresses (bufferChain m v q headIdx).1.readBuffers ++
      addresses (bufferChain m v q headIdx).1.writeBuffers).Nodup) :
    (bufferChain m v q headIdx).1.Usable m' := by
  have hwritten : (bufferChain m v q headIdx).1.lengthWritten = 0 := by
    rw [bufferChain]
    split <;> rfl
  rcases (bufferChain_safe m v q headIdx).2.2.2.2 with ⟨-, hcollected, -⟩ | ⟨hnot, -⟩
  · obtain ⟨hbuffers, -, hall⟩ := hcollected
    exact
      { readable := fun d hd =>
          (Desc.valid_congr hmapped d).trans (hall d (mem_append_left _ hd))
        writable := fun d hd =>
          (Desc.valid_congr hmapped d).trans (hall d (mem_append_right _ hd))
        disjoint := hdisjoint
        lengthWritable := hbuffers.writeLength
        lengthWritten := hwritten }
  · rw [hvalid] at hnot
    cases hnot

/-- Calls on a valid chain whose buffers do not overlap never throw; what they read is the readable
buffers from their start on, what they write is in the writable buffers from their start on, and
each says how many bytes it was. -/
theorem calls_stream (m m' : Memory) (v : VirtIO) (q : VirtQueue) (headIdx : Nat)
    (hvalid : (bufferChain m v q headIdx).1.valid = true) (hmapped : m'.mapped = m.mapped)
    (hdisjoint : (addresses (bufferChain m v q headIdx).1.readBuffers ++
      addresses (bufferChain m v q headIdx).1.writeBuffers).Nodup) (calls : List Call) :
    ∃ s served, (Stream.new (bufferChain m v q headIdx).1 m').calls calls = some (s, served) ∧
      served.map Served.call = calls ∧ Streamed m' (bufferChain m v q headIdx).1 s served := by
  have hc := usable_bufferChain hvalid hmapped hdisjoint
  obtain ⟨s, served, hcalls, hasked, hinv⟩ := (Stream.inv_new hc).calls hc calls
  rw [nil_append] at hinv
  exact ⟨s, served, hcalls, hasked, hinv.streamed hc⟩

/-- A table of three descriptors: three bytes to read, none, and five to write. -/
def threeDescriptors : Memory where
  mapped := fun _ => true
  bytes := fun a => [0x00, 0x10, 0, 0, 0, 0, 0, 0, 3, 0, 0, 0, 1, 0, 1, 0,
    0x80, 0x10, 0, 0, 0, 0, 0, 0, 0, 0, 0, 0, 1, 0, 2, 0,
    0x00, 0x20, 0, 0, 0, 0, 0, 0, 5, 0, 0, 0, 2, 0, 0, 0].getD a 0

theorem calls_stream_three :
    let v : VirtIO := ⟨0, 0, false, false, fun _ => 0, 0, false⟩
    let q : VirtQueue := ⟨4, 0, 0x100, 0, 0x200, 0⟩
    let c := (bufferChain threeDescriptors v q 0).1
    ∃ s served, (Stream.new c threeDescriptors).calls [.get [0, 0], .set [1, 2, 3], .get [0, 0]] =
        some (s, served) ∧
      served.map Served.call = [.get [0, 0], .set [1, 2, 3], .get [0, 0]] ∧
      Streamed threeDescriptors c s served := by
  intro v q c
  have hcollect : (collectRounds threeDescriptors (v.isFeatureNegotiated featureRingIndirectDesc) 3
      (.init q 0)).map (fun r => (r.2, r.1.readBuffers, r.1.writeBuffers)) =
        some (true, [⟨0x1000, 3, 1, 1⟩, ⟨0x1080, 0, 1, 2⟩], [⟨0x2000, 5, 2, 0⟩]) := by
    decide +kernel
  obtain ⟨⟨w, ended⟩, hrounds, hw⟩ := Option.map_eq_some_iff.1 hcollect
  have hbuffers := collectBuffers_of_rounds hrounds
  simp only [Prod.mk.injEq] at hw
  obtain ⟨rfl, hread, hwrite⟩ := hw
  refine calls_stream threeDescriptors threeDescriptors v q 0 ?_ rfl ?_ _
  · rw [bufferChain, hbuffers]
  · rw [bufferChain, hbuffers]
    dsimp only
    rw [hread, hwrite]
    decide +kernel

end V86.Virtio
