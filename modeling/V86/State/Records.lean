import Mathlib.Data.List.GetD
import V86.State.Restore

/-!
# Written records are read

The bytes of `streamRecord` pass `readRecord`, whatever the alignment of the array that they are
read into: the checksum of sixteen bytes a step is that of one bit a step (`streamCrc_eq`). From
this follows what the loops over records, buffers and the manifest read from a source that holds
what the writer wrote.
-/

namespace V86.State

open List BitVec

/-! ## Words -/

theorem getUint32_append_right (xs ys : List Byte) (i : Nat) :
    getUint32 (xs ++ ys) (xs.length + i) = getUint32 ys i := by
  have hget : ∀ k, (xs ++ ys).getD (xs.length + k) 0 = ys.getD k 0 := by
    intro k
    rw [getD_append_right _ _ _ _ (Nat.le_add_right _ _), Nat.add_sub_cancel_left]
  unfold getUint32
  rw [hget, show xs.length + i + 1 = xs.length + (i + 1) from rfl, hget,
    show xs.length + i + 2 = xs.length + (i + 2) from rfl, hget,
    show xs.length + i + 3 = xs.length + (i + 3) from rfl, hget]

variable {xs bytes : List Byte} {i n : Nat}

theorem getUint32_append_left (h : i + 4 ≤ xs.length) (ys : List Byte) :
    getUint32 (xs ++ ys) i = getUint32 xs i := by
  unfold getUint32
  rw [getD_append _ _ _ _ (by omega), getD_append _ _ _ _ (by omega),
    getD_append _ _ _ _ (by omega), getD_append _ _ _ _ (by omega)]

@[simp] theorem length_uint32 (n : Nat) : (uint32 n).length = 4 := rfl

theorem getUint32_uint32 (h : n < 2 ^ 32) (ys : List Byte) : getUint32 (uint32 n ++ ys) 0 = n := by
  rw [getUint32_append_left (by simp)]
  simp only [getUint32, uint32, getD_cons_zero, getD_cons_succ, toNat_ofNat, Nat.zero_add]
  omega

/-- A word after some bytes. -/
theorem getUint32_at (h : n < 2 ^ 32) (hi : xs.length = i)
    (ys : List Byte) : getUint32 (xs ++ (uint32 n ++ ys)) i = n := by
  have := getUint32_append_right xs (uint32 n ++ ys) 0
  rw [Nat.add_zero, hi] at this
  rw [this, getUint32_uint32 h]

/-! ## Checksums -/

theorem crcTable_eq (k : Nat) (i : BitVec 8) :
    crcTable k i = Crc.octets crcPolynomial (k + 1) (i.setWidth 32) := by
  induction k with
  | zero => rfl
  | succ k ih =>
    rw [Crc.octets_succ (k + 1), Crc.shifts_eight (Crc.octets crcPolynomial (k + 1) _), crcTable, ih]

theorem crcByte_eq (crc : BitVec 32) (b : Byte) : crcByte crc b = Crc.absorb crcPolynomial crc b := by
  have hhigh : crc >>> 8 = (crc ^^^ b.setWidth 32) >>> 8 := by
    rw [ushiftRight_xor_distrib]
    have hzero : b.setWidth 32 >>> 8 = 0#32 := by
      apply eq_of_getLsbD_eq
      intro i hi
      rw [getLsbD_ushiftRight, getLsbD_setWidth, getLsbD_of_ge b (8 + i) (by omega)]
      simp
    rw [hzero, xor_zero]
  rw [crcByte, Crc.absorb, Crc.shifts_eight, ← hhigh]
  rfl

theorem octets_table (n : Nat) (a : BitVec 32) : Crc.octets crcPolynomial (n + 4) a =
    crcTable (n + 3) (a.setWidth 8) ^^^ crcTable (n + 2) ((a >>> 8).setWidth 8) ^^^
      crcTable (n + 1) ((a >>> 16).setWidth 8) ^^^ crcTable n ((a >>> 24).setWidth 8) := by
  conv_lhs => rw [← Crc.word_bytes a]
  rw [Crc.octets_word, crcTable_eq, crcTable_eq, crcTable_eq, crcTable_eq]

theorem crcWords_eq (crc a b c d : BitVec 32) : crcWords crc a b c d =
    Crc.octets crcPolynomial 4 (Crc.octets crcPolynomial 4 (Crc.octets crcPolynomial 4
      (Crc.octets crcPolynomial 4 (crc ^^^ a) ^^^ b) ^^^ c) ^^^ d) := by
  rw [Crc.octets_words, octets_table 12, octets_table 8, octets_table 4, octets_table 0]
  simp only [crcWords, xor_assoc]

theorem crcWords_fold (crc : BitVec 32) (b : Fin 16 → Byte) : crcWords crc
    (Crc.word (b 0) (b 1) (b 2) (b 3)) (Crc.word (b 4) (b 5) (b 6) (b 7))
    (Crc.word (b 8) (b 9) (b 10) (b 11)) (Crc.word (b 12) (b 13) (b 14) (b 15)) =
    [b 0, b 1, b 2, b 3, b 4, b 5, b 6, b 7, b 8, b 9, b 10, b 11, b 12, b 13, b 14, b 15].foldl
      crcByte crc := by
  simp only [crcWords_eq, ← Crc.absorb_word, foldl_cons, foldl_nil, crcByte_eq]

/-- The first sixteen of some bytes. -/
theorem take_sixteen (h : 16 ≤ bytes.length) : bytes.take 16 =
    [bytes.getD 0 0, bytes.getD 1 0, bytes.getD 2 0, bytes.getD 3 0, bytes.getD 4 0,
      bytes.getD 5 0, bytes.getD 6 0, bytes.getD 7 0, bytes.getD 8 0, bytes.getD 9 0,
      bytes.getD 10 0, bytes.getD 11 0, bytes.getD 12 0, bytes.getD 13 0, bytes.getD 14 0,
      bytes.getD 15 0] := by
  have hmap : bytes.take 16 = (List.range 16).map fun i => bytes.getD i 0 := by
    apply ext_getElem
    · simp [h]
    · intro i h1 h2
      have hi : i < bytes.length := by
        rw [length_take] at h1
        omega
      simp [getD_eq_getElem?_getD, List.getElem?_eq_getElem hi]
  rw [hmap]
  rfl

theorem crcGroups_eq {crc : BitVec 32} (h : 16 * n ≤ bytes.length) :
    crcGroups n crc bytes = ((bytes.take (16 * n)).foldl crcByte crc, bytes.drop (16 * n)) := by
  induction n generalizing crc bytes with
  | zero => rfl
  | succ n ih =>
    have hgroup := crcWords_fold crc fun i => bytes.getD i.val 0
    rw [crcGroups, ih (by rw [length_drop]; omega)]
    have hsplit : bytes.take (16 * (n + 1)) = bytes.take 16 ++ (bytes.drop 16).take (16 * n) := by
      rw [show 16 * (n + 1) = 16 + 16 * n by omega, take_add]
    rw [hsplit, foldl_append, take_sixteen (by omega), drop_drop]
    refine congrArg₂ Prod.mk ?_ (by rw [show 16 + 16 * n = 16 * (n + 1) by omega])
    exact congrArg (fun crc => ((bytes.drop 16).take (16 * n)).foldl crcByte crc) hgroup

/-- The length of an array from its first word boundary on, as `stream_crc` counts its words. -/
def View.words (v : View) : Nat :=
  v.bytes.length - min v.bytes.length ((4 - v.byteOffset % 4) % 4)

/-- The checksum does not depend on the alignment, unless the count of the words is negative. -/
theorem streamCrc_eq (v : View) : streamCrc v = if v.words % 2 ^ 32 < 2 ^ 31 then
      some (Crc.check crcPolynomial 0xFFFFFFFF 0xFFFFFFFF v.bytes).toNat else none := by
  have hbyte : crcByte = Crc.absorb crcPolynomial := by
    funext crc b
    exact crcByte_eq crc b
  unfold streamCrc View.words
  dsimp only
  generalize min v.bytes.length ((4 - v.byteOffset % 4) % 4) = head
  rw [← length_drop]
  generalize hrest : v.bytes.drop head = rest
  have hint := toInt_eq_toNat_cond (BitVec.ofNat 32 rest.length)
  rw [toNat_ofNat] at hint
  have hmod := Nat.mod_le rest.length (2 ^ 32)
  by_cases h : rest.length % 2 ^ 32 < 2 ^ 31
  · rw [if_pos (by omega)] at hint
    rw [if_neg (by omega), if_pos h, crcGroups_eq (by omega)]
    dsimp only
    rw [← foldl_append, take_append_drop, ← hrest, ← foldl_append,
      take_append_drop, Crc.check_eq, hbyte]
  · rw [if_neg (by omega)] at hint
    rw [if_pos (by omega), if_neg h]

/-- Sixteen bytes a step from any alignment give the check of one bit a step, and an exception where
the length as a signed word is negative. -/
theorem streamCrc_bitwise (v : View) :
    let words := v.bytes.length - min v.bytes.length ((4 - v.byteOffset % 4) % 4)
    streamCrc v = if words % 2 ^ 32 < 2 ^ 31 then
      some (Crc.check crcPolynomial 0xFFFFFFFF 0xFFFFFFFF v.bytes).toNat
    else none :=
  streamCrc_eq v

/-- The checksum of 2 GiB throws. -/
theorem streamCrc_throws : streamCrc ⟨0, List.replicate (2 ^ 31) 0⟩ = none := by
  have hthrows : ∀ n, 2 ^ 31 ≤ n % 2 ^ 32 → streamCrc ⟨0, List.replicate n 0⟩ = none := by
    intro n hn
    rw [streamCrc_eq, if_neg]
    simpa [View.words] using hn
  exact hthrows _ (by decide)

/-- The checksum of less than 2 GiB. -/
theorem streamCrc_of_lt {v : View} (h : v.bytes.length < 2 ^ 31) : streamCrc v =
    some (Crc.check crcPolynomial 0xFFFFFFFF 0xFFFFFFFF v.bytes).toNat := by
  rw [streamCrc_eq, if_pos]
  unfold View.words
  omega

theorem streamCrc_getD_lt (v : View) : (streamCrc v).getD 0 < 2 ^ 32 := by
  rw [streamCrc_eq]
  split
  · exact BitVec.isLt _
  · decide

theorem require_true {ok : Bool} (h : ok = true) (msg : String) : Exec.require ok msg = .ok () :=
  if_pos h

/-! ## Sources -/

/-- A source that holds `data`. -/
structure Source.Holds (src : Source) (data : List Byte) : Prop where
  size : src.size = data.length
  read : ∀ offset length, offset + length ≤ data.length →
    ∃ v, src.read offset length = some v ∧ v.bytes = (data.drop offset).take length

/-- A source of some bytes. -/
def Source.ofBytes (data : List Byte) : Source where
  size := data.length
  read := fun offset length => some ⟨0, (data.drop offset).take length⟩

theorem Source.holds_ofBytes (data : List Byte) : (Source.ofBytes data).Holds data :=
  ⟨rfl, fun _ _ _ => ⟨_, rfl, rfl⟩⟩

section
variable {src : Source} {data before mid after : List Byte} {kind id offset : Nat}

theorem streamRead_eq (h : src.Holds data) (hdata : data = before ++ (mid ++ after))
    (hlen : mid.length ≤ chunkSize) :
    ∃ v, streamRead src before.length mid.length = .ok v ∧ v.bytes = mid := by
  have hfits : before.length + mid.length ≤ data.length := by
    rw [hdata]
    simp only [length_append]
    omega
  obtain ⟨v, hread, hv⟩ := h.read before.length mid.length hfits
  have hmid : v.bytes = mid := by
    rw [hv, hdata, drop_left, take_left]
  refine ⟨v, ?_, hmid⟩
  rw [← h.size] at hfits
  unfold streamRead
  simp [Exec.require, Exec.okOr, hlen, hfits, hread, hmid]

@[simp] theorem length_streamRecord (kind id offset : Nat) (d : List Byte) :
    (streamRecord kind id offset d).length = recordSize + d.length := by
  simp only [streamRecord, length_append, length_uint32, recordSize]
  omega

/-- A record that was written passes the checks of the reader. -/
theorem readRecord_eq (h : src.Holds data) {d : List Byte}
    (hdata : data = before ++ (streamRecord kind id offset d ++ after)) (hkind : kind < 2 ^ 32)
    (hid : id < 2 ^ 32) (hoffset : offset < 2 ^ 32) (hd : recordSize + d.length ≤ chunkSize) :
    ∃ v, readRecord src kind id offset d.length before.length = .ok v ∧
      v.bytes = streamRecord kind id offset d := by
  obtain ⟨v, hread, hv⟩ := streamRead_eq h hdata (by simpa using hd)
  rw [length_streamRecord] at hread
  refine ⟨v, ?_, hv⟩
  have hlen : d.length < 2 ^ 32 := by
    unfold chunkSize at hd
    omega
  -- the record as the words of its head, its data and its checksum
  generalize hbody : uint32 kind ++ uint32 id ++ uint32 offset ++ uint32 d.length ++ d = body
  have hrecord : v.bytes = body ++ (uint32 ((streamCrc ⟨0, body⟩).getD 0) ++ []) := by
    rw [hv, streamRecord, hbody, append_nil]
  have hbodylen : body.length = 16 + d.length := by
    rw [← hbody]
    simp only [length_append, length_uint32]
  have hword : ∀ i, i + 4 ≤ 16 → getUint32 v.bytes i = getUint32 body i := by
    intro i hi
    rw [hrecord, getUint32_append_left (by omega)]
  have h0 : getUint32 v.bytes 0 = kind := by
    rw [hword 0 (by decide), ← hbody]
    simp only [List.append_assoc]
    exact getUint32_uint32 hkind _
  have h4 : getUint32 v.bytes 4 = id := by
    rw [hword 4 (by decide), ← hbody]
    simp only [List.append_assoc]
    exact getUint32_at hid (length_uint32 kind) _
  have h8 : getUint32 v.bytes 8 = offset := by
    rw [hword 8 (by decide), ← hbody]
    rw [show uint32 kind ++ uint32 id ++ uint32 offset ++ uint32 d.length ++ d =
      (uint32 kind ++ uint32 id) ++ (uint32 offset ++ (uint32 d.length ++ d)) by
        simp only [List.append_assoc]]
    exact getUint32_at hoffset rfl _
  have h12 : getUint32 v.bytes 12 = d.length := by
    rw [hword 12 (by decide), ← hbody]
    rw [show uint32 kind ++ uint32 id ++ uint32 offset ++ uint32 d.length ++ d =
      (uint32 kind ++ uint32 id ++ uint32 offset) ++ (uint32 d.length ++ d) by
        simp only [List.append_assoc]]
    exact getUint32_at hlen rfl _
  have hsum : some (getUint32 v.bytes (16 + d.length)) =
      streamCrc ⟨v.byteOffset, v.bytes.take (16 + d.length)⟩ := by
    have htake : v.bytes.take (16 + d.length) = body := by
      rw [hrecord, ← hbodylen, take_left]
    have hshort : body.length < 2 ^ 31 := by
      unfold recordSize chunkSize at hd
      omega
    rw [htake, hrecord, getUint32_at (streamCrc_getD_lt _) hbodylen, streamCrc_of_lt hshort,
      streamCrc_of_lt hshort, Option.getD_some]
  unfold readRecord
  rw [hread, Exec.ok_bind]
  simp [Exec.require, h0, h4, h8, h12, hsum]

theorem data_of_record {v : View} {d : List Byte} (h : v.bytes = streamRecord kind id offset d) :
    v.data = d := by
  unfold View.data
  rw [h, length_streamRecord, Nat.add_sub_cancel_left, streamRecord]
  have hhead : (uint32 kind ++ uint32 id ++ uint32 offset ++ uint32 d.length).length = 16 := rfl
  generalize uint32 kind ++ uint32 id ++ uint32 offset ++ uint32 d.length = head at hhead
  rw [List.append_assoc, drop_left' hhead, take_left]

end

/-! ## Runs of records -/

/-- The data of a record. -/
def Layout.part (l : Layout) (data : List Byte) (i : Nat) : List Byte :=
  (data.drop (i * l.chunk)).take l.chunk

/-- A record of some data. -/
def Layout.record (l : Layout) (data : List Byte) (i : Nat) : List Byte :=
  streamRecord l.kind (l.id (i * l.chunk)) (l.offset (i * l.chunk)) (l.part data i)

/-- The records from record `i` on. -/
def Layout.recordsFrom (l : Layout) (data : List Byte) (i : Nat) : List Byte :=
  (List.range' i (l.count data.length - i)).flatMap (l.record data)

/-- The records of `size` bytes fit into chunks, and their heads into words. -/
structure Layout.Fits (l : Layout) (size : Nat) : Prop where
  kind : l.kind < 2 ^ 32
  id : ∀ p < size, l.id p < 2 ^ 32
  offset : ∀ p < size, l.offset p < 2 ^ 32
  pos : 0 < l.chunk
  chunk : recordSize + l.chunk ≤ chunkSize

section
variable {l : Layout} {src : Source} {data : List Byte}

theorem lt_ceilDiv {i n d : Nat} (hd : 0 < d) : i < ceilDiv n d ↔ i * d < n := by
  unfold ceilDiv
  rw [Nat.lt_div_iff_mul_lt hd]
  omega

theorem Layout.length_part (l : Layout) (data : List Byte) (i : Nat) :
    (l.part data i).length = min l.chunk (data.length - i * l.chunk) := by
  rw [Layout.part, length_take, length_drop]

theorem Layout.recordsFrom_of_lt (l : Layout) {data : List Byte} {i : Nat}
    (h : i < l.count data.length) :
    l.recordsFrom data i = l.record data i ++ l.recordsFrom data (i + 1) := by
  unfold Layout.recordsFrom
  rw [show l.count data.length - i = (l.count data.length - (i + 1)) + 1 by omega,
    List.range'_succ, flatMap_cons]

theorem Layout.recordsFrom_of_ge (l : Layout) {data : List Byte} {i : Nat}
    (h : l.count data.length ≤ i) : l.recordsFrom data i = [] := by
  unfold Layout.recordsFrom
  rw [Nat.sub_eq_zero_of_le h]
  rfl

/-- The records that were written are read. -/
theorem readRecords_eq (hfits : l.Fits data.length) {whole : List Byte} (h : src.Holds whole) {n i : Nat}
    (hn : i + n = l.count data.length) {before after : List Byte}
    (hwhole : whole = before ++ (l.recordsFrom data i ++ after)) :
    ∃ vs, readRecords src l data.length n (i * l.chunk) before.length = .ok vs ∧
      vs.map View.bytes = (List.range' i n).map (l.record data) := by
  induction n generalizing i before with
  | zero => exact ⟨[], rfl, rfl⟩
  | succ n ih =>
    have hi : i < l.count data.length := by omega
    have hp := (lt_ceilDiv hfits.pos).1 hi
    have hlen := l.length_part data i
    rw [l.recordsFrom_of_lt hi, List.append_assoc] at hwhole
    have hchunk : recordSize + (l.part data i).length ≤ chunkSize := by
      have := hfits.chunk
      omega
    obtain ⟨v, hv, hbytes⟩ := readRecord_eq h hwhole hfits.kind (hfits.id _ hp)
      (hfits.offset _ hp) hchunk
    have hwhole' : whole = (before ++ l.record data i) ++ (l.recordsFrom data (i + 1) ++ after) := by
      rw [hwhole, List.append_assoc]
    obtain ⟨vs, hvs, hmap⟩ := ih (by omega) hwhole'
    refine ⟨v :: vs, ?_, ?_⟩
    · have hnext : (before ++ l.record data i).length =
          before.length + recordSize + min l.chunk (data.length - i * l.chunk) := by
        rw [length_append, Layout.record, length_streamRecord, hlen, Nat.add_assoc]
      rw [hnext, Nat.succ_mul] at hvs
      unfold readRecords
      dsimp only
      rw [← hlen, hv, Exec.ok_bind, hlen, hvs]
      rfl
    · rw [map_cons, hmap, hbytes, List.range'_succ, map_cons]
      rfl

/-- The parts of some data make up the data. -/
theorem flatten_parts (hc : 0 < l.chunk) (data : List Byte) :
    ((List.range (l.count data.length)).map (l.part data)).flatten = data := by
  have htake : ∀ n, ((List.range n).map (l.part data)).flatten = data.take (n * l.chunk) := by
    intro n
    induction n with
    | zero => simp
    | succ n ih =>
      rw [range_succ, map_append, flatten_append, ih, Nat.succ_mul, take_add]
      simp [Layout.part]
  rw [htake, take_of_length_le]
  by_contra hlt
  have := (lt_ceilDiv (n := data.length) hc).2 (Nat.lt_of_not_le hlt)
  exact Nat.lt_irrefl _ this

theorem parts_of_records {vs : List View} {is : List Nat}
    (h : vs.map View.bytes = is.map (l.record data)) : vs.map View.data = is.map (l.part data) := by
  induction is generalizing vs with
  | nil =>
    rw [map_nil, map_eq_nil_iff] at h
    rw [h]
    rfl
  | cons i is ih =>
    cases vs with
    | nil => cases h
    | cons v vs =>
      rw [map_cons, map_cons, List.cons.injEq] at h
      rw [map_cons, map_cons, ih h.2, data_of_record h.1]

theorem length_recordsFrom (hc : 0 < l.chunk) (data : List Byte) :
    (l.recordsFrom data 0).length = l.length data.length := by
  have hsum := congrArg List.length (flatten_parts hc data)
  unfold Layout.recordsFrom Layout.length
  rw [Nat.sub_zero, ← range_eq_range', length_flatMap]
  rw [length_flatten, List.map_map] at hsum
  generalize l.count data.length = n at hsum ⊢
  have hrecord : ∀ i, (l.record data i).length = (l.part data i).length + recordSize := by
    intro i
    rw [Layout.record, length_streamRecord, Nat.add_comm]
  have hsplit : ∀ is : List Nat, (is.map fun i => (l.record data i).length).sum =
      (is.map (List.length ∘ l.part data)).sum + is.length * recordSize := by
    intro is
    induction is with
    | nil => rfl
    | cons i is ih =>
      rw [map_cons, sum_cons, map_cons, sum_cons, length_cons, ih, hrecord, Nat.succ_mul]
      simp only [Function.comp_apply]
      omega
  rw [hsplit, hsum, length_range]

end

/-! ## Buffers and the manifest -/

/-- The records of the buffers from `id` on, of which the first one continues at record `i`. -/
def bufferRecords : List (List Byte) → Nat → Nat → List Byte
  | [], _, _ => []
  | buffer :: buffers, id, i =>
    (Layout.buffer id).recordsFrom buffer i ++ bufferRecords buffers (id + 1) 0

section
variable {src : Source} {whole before after : List Byte}

theorem fits_buffer {id size : Nat} (hid : id < 2 ^ 32) (hsize : size ≤ 2 ^ 32) :
    (Layout.buffer id).Fits size :=
  ⟨(by decide : 1 < 2 ^ 32), fun _ _ => hid, fun _ hp => Nat.lt_of_lt_of_le hp hsize,
    (by decide : 0 < chunkSize - recordSize),
    (by decide : recordSize + (chunkSize - recordSize) ≤ chunkSize)⟩

theorem readBuffers_eq (h : src.Holds whole) {buffers : List (List Byte)} {id : Nat}
    (hcount : id + buffers.length ≤ 2 ^ 32) (hsize : ∀ buffer ∈ buffers, buffer.length ≤ 2 ^ 32)
    (hwhole : whole = before ++ (bufferRecords buffers id 0 ++ after)) :
    readBuffers src (buffers.map List.length) id before.length =
      .ok (buffers, before.length + (bufferRecords buffers id 0).length) := by
  induction buffers generalizing id before with
  | nil => rfl
  | cons buffer buffers ih =>
    rw [length_cons] at hcount
    have hid : id < 2 ^ 32 := by omega
    have hfits := fits_buffer hid (hsize buffer mem_cons_self)
    rw [bufferRecords, List.append_assoc] at hwhole
    obtain ⟨vs, hvs, hmap⟩ := readRecords_eq hfits h (Nat.zero_add _) hwhole
    rw [Nat.zero_mul] at hvs
    have hdata : (vs.map View.data).flatten = buffer := by
      rw [parts_of_records hmap, ← range_eq_range']
      exact flatten_parts hfits.pos buffer
    have hwhole' : whole = (before ++ (Layout.buffer id).recordsFrom buffer 0) ++
        (bufferRecords buffers (id + 1) 0 ++ after) := by
      rw [hwhole, List.append_assoc]
    have hrest := ih (by omega) (fun b hb => hsize b (mem_cons_of_mem _ hb)) hwhole'
    rw [length_append, length_recordsFrom hfits.pos] at hrest
    rw [map_cons, readBuffers]
    dsimp only
    rw [hvs, Exec.ok_bind, hrest, Exec.ok_bind, hdata]
    dsimp only
    rw [bufferRecords, length_append, length_recordsFrom hfits.pos, Nat.add_assoc]

theorem readManifest_eq (h : src.Holds whole) {manifest : List Byte} {n i : Nat}
    (hn : i + n = ceilDiv manifest.length chunkSize) (hbefore : before.length = headerSize)
    (hwhole : whole = before ++ (manifest ++ after)) :
    readManifest src manifest.length n (i * chunkSize) = .ok (manifest.drop (i * chunkSize)) := by
  have hc : 0 < chunkSize := by decide
  induction n generalizing i with
  | zero =>
    rw [readManifest, drop_eq_nil_of_le]
    by_contra hlt
    have := (lt_ceilDiv hc).2 (Nat.lt_of_not_le hlt)
    omega
  | succ n ih =>
    have hi := (lt_ceilDiv (n := manifest.length) hc).1 (show i < _ by omega)
    -- the manifest around the part that is read
    have hsplit : whole = (before ++ manifest.take (i * chunkSize)) ++
        ((manifest.drop (i * chunkSize)).take chunkSize ++
          ((manifest.drop (i * chunkSize)).drop chunkSize ++ after)) := by
      rw [hwhole]
      simp only [List.append_assoc]
      congr 1
      rw [← List.append_assoc ((manifest.drop (i * chunkSize)).take chunkSize),
        take_append_drop, ← List.append_assoc, take_append_drop]
    obtain ⟨v, hv, hbytes⟩ := streamRead_eq h hsplit (length_take_le _ _)
    rw [length_append, hbefore, length_take, length_take, length_drop,
      Nat.min_eq_left (Nat.le_of_lt hi)] at hv
    have hrest := ih (i := i + 1) (by omega)
    rw [Nat.succ_mul] at hrest
    rw [readManifest, hv, Exec.ok_bind, hrest, Exec.ok_bind, hbytes, ← drop_drop, take_append_drop]

end

/-! ## Damaged records -/

theorem drop_eq_bytes {bytes : List Byte} {i : Nat} {c : BitVec 32} (hlen : bytes.length = i + 4)
    (hc : getUint32 bytes i = c.toNat) : bytes.drop i =
      [c.setWidth 8, (c >>> 8).setWidth 8, (c >>> 16).setWidth 8, (c >>> 24).setWidth 8] := by
  unfold getUint32 at hc
  apply ext_getElem (by simp [hlen])
  intro k hk _
  have hk4 : k < 4 := by
    rw [length_drop] at hk
    omega
  rw [getElem_drop, ← getD_eq_getElem _ 0]
  apply eq_of_toNat_eq
  obtain rfl | rfl | rfl | rfl : k = 0 ∨ k = 1 ∨ k = 2 ∨ k = 3 := by omega
  all_goals
    simp [toNat_setWidth, Nat.shiftRight_eq_div_pow, ← hc]
    omega

section
variable {src src' : Source} {kind id offset length position : Nat} {v v' : View}

/-- All records that pass the checks of the reader leave the same remainder. -/
theorem remainder_of_readRecord (h : readRecord src kind id offset length position = .ok v) :
    (v.bytes.flatMap Crc.bits).foldl (Crc.absorbBit crcPolynomial) 0xFFFFFFFF =
      Crc.octets crcPolynomial 4 0xFFFFFFFF := by
  unfold readRecord streamRead at h
  simp only [Exec.bind_eq_ok, Exec.require_eq_ok, Exec.okOr_eq_ok, Bool.and_eq_true,
    decide_eq_true_eq] at h
  obtain ⟨_, ⟨_, hsize, w, _, _, hlength, hw⟩, _, ⟨_, hcrc⟩, hv⟩ := h
  cases hw
  cases hv
  unfold recordSize chunkSize at hsize
  have hshort : (v.bytes.take (16 + length)).length < 2 ^ 31 := by
    rw [length_take]
    omega
  rw [streamCrc_of_lt hshort] at hcrc
  have hdrop := drop_eq_bytes (by unfold recordSize at hlength; omega) (Option.some.inj hcrc)
  rw [← Crc.foldl_check (p := crcPolynomial) rfl, ← hdrop, take_append_drop]

/-- A record in which some of at most 32 successive bits have changed is not read. -/
theorem readRecord_burst {before w w' after : List Bool}
    (h : readRecord src kind id offset length position = .ok v)
    (hread : streamRead src' position (recordSize + length) = .ok v')
    (hv : v.bytes.flatMap Crc.bits = before ++ w ++ after)
    (hv' : v'.bytes.flatMap Crc.bits = before ++ w' ++ after) (hlen : w.length = w'.length)
    (h32 : w.length ≤ 32) (hne : w ≠ w') :
    readRecord src' kind id offset length position = Exec.fail "record/checksum" := by
  have hor : readRecord src' kind id offset length position = .ok v' ∨
      readRecord src' kind id offset length position = Exec.fail "record/checksum" := by
    unfold readRecord Exec.require
    rw [hread, Exec.ok_bind]
    split
    · exact .inl rfl
    · exact .inr rfl
  refine hor.resolve_left fun hok => hne ?_
  have hsame := (remainder_of_readRecord h).trans (remainder_of_readRecord hok).symm
  rw [hv, hv'] at hsame
  exact Crc.burst rfl hlen h32 hsame

end

/-- The kind of a record of one byte is damaged. -/
theorem readRecord_burst_kind :
    let source (kind : Byte) : Source := ⟨21, fun _ _ =>
      some ⟨0, kind :: (streamRecord 1 2 3 [7]).drop 1⟩⟩
    readRecord (source 9) 1 2 3 1 0 = Exec.fail "record/checksum" := by
  intro source
  have h : readRecord (source 1) 1 2 3 1 0 = .ok ⟨0, streamRecord 1 2 3 [7]⟩ := rfl
  have hbits : ∀ kind, (kind :: (streamRecord 1 2 3 [7]).drop 1).flatMap Crc.bits =
      [] ++ Crc.bits kind ++ ((streamRecord 1 2 3 [7]).drop 1).flatMap Crc.bits := fun _ => rfl
  exact readRecord_burst h rfl (hbits 1) (hbits 9) rfl (by decide) (by decide)

end V86.State
