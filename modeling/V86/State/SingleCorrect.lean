import V86.State.Records
import V86.State.Single
import V86.State.Trees

/-!
# Both readers of a single buffer find the buffers

`saveState` writes the buffers one after another, each followed by the bytes up to the next word
boundary (`blocks`). The offsets that it writes down are where they are, and so are the boundaries
that the reader of a compressed stream counts to.
-/

namespace V86.State

open List BitVec

/-! ## Word boundaries -/

variable {n total : Nat}

theorem roundUp_eq (h : n + 3 < 2 ^ 31) : roundUp n = ((n + 3) / 4 * 4 : Nat) := by
  have hand : BitVec.ofNat 32 (n + 3) &&& ~~~(3 : BitVec 32) = BitVec.ofNat 32 ((n + 3) / 4 * 4) := by
    apply eq_of_toNat_eq
    have hmask : ∀ x : BitVec 32, x &&& ~~~(3 : BitVec 32) = x >>> 2 <<< 2 := by
      intro x
      apply eq_of_getLsbD_eq
      intro i hi
      have hbit : (3 : BitVec 32).getLsbD i = decide (i < 2) := by
        revert i
        decide
      rw [getLsbD_and, getLsbD_not, hbit, getLsbD_shiftLeft, getLsbD_ushiftRight]
      by_cases h2 : i < 2
      · simp [h2]
      · simp [h2, hi, show 2 + (i - 2) = i by omega]
    rw [hmask, toNat_shiftLeft, toNat_ushiftRight, toNat_ofNat,
      toNat_ofNat, Nat.mod_eq_of_lt (by omega), Nat.shiftRight_eq_div_pow, Nat.shiftLeft_eq]
    omega
  have hcast : BitVec.ofInt 32 ((n : Int) + 3) = BitVec.ofNat 32 (n + 3) := by
    rw [show (n : Int) + 3 = ((n + 3 : Nat) : Int) by omega, ofInt_natCast]
  rw [roundUp, hcast, hand, toInt_eq_toNat_of_lt]
  · rw [toNat_ofNat, Nat.mod_eq_of_lt (by omega)]
  · rw [toNat_ofNat, Nat.mod_eq_of_lt (by omega)]
    omega

/-- The bytes up to the next word boundary. -/
def gap (n : Nat) : List Byte := List.replicate ((4 - n % 4) % 4) 0

theorem length_gap (n : Nat) : (gap n).length = (4 - n % 4) % 4 := length_replicate

theorem roundUp_gap (h : n + 3 < 2 ^ 31) : roundUp n = (n + (gap n).length : Nat) := by
  rw [roundUp_eq h, length_gap]
  omega

/-! ## The layout -/

/-- The buffers, each with the bytes up to the next word boundary. -/
def blocks (buffers : List (List Byte)) : List Byte :=
  buffers.flatMap fun buffer => buffer ++ gap buffer.length

theorem blocks_cons (buffer : List Byte) (buffers : List (List Byte)) :
    blocks (buffer :: buffers) = buffer ++ (gap buffer.length ++ blocks buffers) := by
  rw [blocks, flatMap_cons, List.append_assoc]
  rfl

theorem length_blocks_mod (buffers : List (List Byte)) : (blocks buffers).length % 4 = 0 := by
  induction buffers with
  | nil => rfl
  | cons buffer buffers ih =>
    rw [blocks_cons, length_append, length_append, length_gap]
    omega

/-- The offsets from a word boundary on. -/
theorem bufferInfos_cons {buffer : List Byte} {buffers : List (List Byte)}
    (h : total % 4 = 0) : bufferInfos (buffer :: buffers) total = (⟨total, buffer.length⟩ ::
        (bufferInfos buffers (total + buffer.length + (gap buffer.length).length)).1,
        (bufferInfos buffers (total + buffer.length + (gap buffer.length).length)).2) := by
  have hgap : (4 - (total + buffer.length) % 4) % 4 = (gap buffer.length).length := by
    rw [length_gap]
    omega
  rw [bufferInfos, hgap]

theorem total_gap (h : total % 4 = 0) (buffer : List Byte) :
    (total + buffer.length + (gap buffer.length).length) % 4 = 0 := by
  rw [length_gap]
  omega

theorem bufferInfos_size (buffers : List (List Byte)) (h : total % 4 = 0) :
    (bufferInfos buffers total).2 = total + (blocks buffers).length := by
  induction buffers generalizing total with
  | nil => rfl
  | cons buffer buffers ih =>
    have hnext := total_gap h buffer
    rw [bufferInfos_cons h, ih hnext, blocks_cons, length_append, length_append]
    omega

/-! ## Writing -/

theorem place_eq (before room after data : List Byte) (h : data.length = room.length) :
    place (before ++ (room ++ after)) before.length data = .ok (before ++ (data ++ after)) := by
  have hfits : before.length + data.length ≤ (before ++ (room ++ after)).length := by
    simp only [length_append]
    omega
  rw [place, if_pos hfits, h, take_left, ← drop_drop, drop_left, drop_left, List.append_assoc]

/-- The last loop fills the buffers in. -/
theorem placeBuffers (buffers : List (List Byte)) (h : total % 4 = 0) {start : Nat}
    (before after : List Byte) (hbefore : before.length = start + total) :
    ((bufferInfos buffers total).1.zip buffers).foldlM (fun result (info, buffer) =>
        place result ((start : Int) + info.offset).toNat buffer)
      (before ++ (List.replicate (blocks buffers).length 0 ++ after)) =
      .ok (before ++ (blocks buffers ++ after)) := by
  induction buffers generalizing total before with
  | nil => rfl
  | cons buffer buffers ih =>
    have hnext := total_gap h buffer
    have hroom : List.replicate (blocks (buffer :: buffers)).length (0 : Byte) =
        List.replicate buffer.length 0 ++
          (gap buffer.length ++ List.replicate (blocks buffers).length 0) := by
      rw [blocks_cons, length_append, length_append, replicate_add,
        replicate_add, gap, length_replicate]
    have hoffset : ((start : Int) + (total : Int)).toNat = before.length := by omega
    rw [bufferInfos_cons h, zip_cons_cons, foldlM_cons]
    dsimp only
    rw [hoffset, hroom, List.append_assoc, place_eq before _ _ buffer (by simp), Exec.ok_bind]
    have hih := ih hnext (before ++ (buffer ++ gap buffer.length))
      (by simp only [length_append]; omega)
    simp only [List.append_assoc, blocks_cons] at hih ⊢
    exact hih

section
variable (b : Builtins) (v : Value)

/-- The text of the info block. -/
def infoBlock : List Byte := b.stringify (infoJson v)

/-- Where the buffers start. -/
def bufferBlockStart : Nat :=
  infoBlockStart + (infoBlock b v).length + (gap (infoBlockStart + (infoBlock b v).length)).length

/-- The size of a snapshot. -/
def singleSize : Nat := bufferBlockStart b v + (blocks (saveObject v []).2).length

/-- The four words of the header. -/
def singleHeader : List Byte :=
  [stateMagic, stateVersion, singleSize b v, (infoBlock b v).length].flatMap uint32

/-- A snapshot. -/
def single : List Byte :=
  singleHeader b v ++ (infoBlock b v ++ (gap (infoBlockStart + (infoBlock b v).length) ++
    blocks (saveObject v []).2))

theorem length_single : (single b v).length = singleSize b v := by
  simp only [single, length_append, singleSize, bufferBlockStart]
  have hheader : (singleHeader b v).length = infoBlockStart := rfl
  omega

theorem singleSize_mod : singleSize b v % 4 = 0 := by
  have := length_blocks_mod (saveObject v []).2
  rw [singleSize, bufferBlockStart, length_gap]
  omega

variable {b v}

theorem roundUp_start (hfits : singleSize b v ≤ maxSingleBuffer) :
    roundUp (infoBlockStart + (infoBlock b v).length) = (bufferBlockStart b v : Int) := by
  have hmod := singleSize_mod b v
  have hlimit : maxSingleBuffer = 2147483647 := rfl
  have hle : infoBlockStart + (infoBlock b v).length ≤ singleSize b v := by
    rw [singleSize, bufferBlockStart]
    omega
  rw [show (infoBlockStart : Int) + ((infoBlock b v).length : Int) =
    ((infoBlockStart + (infoBlock b v).length : Nat) : Int) by omega, roundUp_gap (by omega)]
  rfl

/-- What `saveState` writes. -/
theorem saveState_eq (hfits : singleSize b v ≤ maxSingleBuffer) :
    saveState b v = .ok (single b v) := by
  have hstart := roundUp_start hfits
  have hsize := bufferInfos_size (saveObject v []).2 (Nat.zero_mod 4)
  rw [Nat.zero_add] at hsize
  have htotal : ((bufferBlockStart b v : Int) + ((blocks (saveObject v []).2).length : Int)) =
      (singleSize b v : Int) := by
    rw [singleSize]
    omega
  have hroom : List.replicate (singleSize b v) (0 : Byte) = List.replicate infoBlockStart 0 ++
      (List.replicate (infoBlock b v).length 0 ++ (gap (infoBlockStart + (infoBlock b v).length) ++
        (List.replicate (blocks (saveObject v []).2).length 0 ++ []))) := by
    rw [singleSize, bufferBlockStart, gap, length_replicate, append_nil,
      ← replicate_add, ← replicate_add, ← replicate_add]
    congr 1
    omega
  have hblocks : (blocks (saveObject v []).2).length ≤ maxSingleBuffer := by
    rw [singleSize] at hfits
    omega
  unfold saveState
  rw [show b.stringify (infoJson v) = infoBlock b v from rfl]
  dsimp only
  rw [hsize, hstart, htotal, require_true (decide_eq_true hblocks), Exec.ok_bind,
    require_true (decide_eq_true (Int.ofNat_le.2 hfits)), Exec.ok_bind,
    if_neg (Int.not_lt.2 (Int.natCast_nonneg _)), Int.toNat_natCast, hroom]
  change (do
    let result ← place _ _ _
    _) = _
  have hinfo := place_eq (List.replicate infoBlockStart 0) (List.replicate (infoBlock b v).length 0)
    (gap (infoBlockStart + (infoBlock b v).length) ++
      (List.replicate (blocks (saveObject v []).2).length 0 ++ [])) (infoBlock b v) (by simp)
  rw [length_replicate] at hinfo
  rw [hinfo, Exec.ok_bind]
  have hheader := place_eq [] (List.replicate infoBlockStart 0)
    (infoBlock b v ++ (gap (infoBlockStart + (infoBlock b v).length) ++
      (List.replicate (blocks (saveObject v []).2).length 0 ++ []))) (singleHeader b v) rfl
  rw [nil_append, nil_append] at hheader
  refine Exec.bind_eq_ok.2 ⟨_, hheader, ?_⟩
  have hbefore : (singleHeader b v ++
      (infoBlock b v ++ gap (infoBlockStart + (infoBlock b v).length))).length =
      bufferBlockStart b v + 0 := by
    simp only [length_append, bufferBlockStart]
    have hlength : (singleHeader b v).length = infoBlockStart := rfl
    omega
  have hbuffers := placeBuffers (saveObject v []).2 (Nat.zero_mod 4) _ [] hbefore
  simp only [List.append_assoc, append_nil] at hbuffers ⊢
  exact hbuffers

/-! ## The header and the info block -/

theorem getInt32_eq {bytes : List Byte} {i n : Nat} (h : getUint32 bytes i = n) (hn : n < 2 ^ 31) :
    getInt32 bytes i = n := by
  rw [getInt32, h, toInt_eq_toNat_of_lt]
  · rw [toNat_ofNat, Nat.mod_eq_of_lt (by omega)]
  · rw [toNat_ofNat, Nat.mod_eq_of_lt (by omega)]
    omega

theorem length_infoBlock_le (hfits : singleSize b v ≤ maxSingleBuffer) :
    infoBlockStart + (infoBlock b v).length ≤ singleSize b v ∧ singleSize b v < 2 ^ 31 - 3 := by
  have hmod := singleSize_mod b v
  have hlimit : maxSingleBuffer = 2147483647 := rfl
  constructor
  · rw [singleSize, bufferBlockStart]
    omega
  · omega

/-- The header is read, by itself or before the rest. -/
theorem readStateHeader_eq (hfits : singleSize b v ≤ maxSingleBuffer) (rest : List Byte) (check : Bool)
    (hcheck : check = true → (singleHeader b v ++ rest).length = singleSize b v) :
    readStateHeader (singleHeader b v ++ rest) check = .ok ((infoBlock b v).length : Int) := by
  obtain ⟨hle, hlt⟩ := length_infoBlock_le hfits
  have hstart : infoBlockStart = 16 := rfl
  have hwords : singleHeader b v ++ rest = uint32 stateMagic ++ (uint32 stateVersion ++
      (uint32 (singleSize b v) ++ (uint32 (infoBlock b v).length ++ rest))) := by
    simp [singleHeader, flatMap_cons]
  have hmagic : getUint32 (singleHeader b v ++ rest) 0 = stateMagic := by
    rw [hwords]
    exact getUint32_uint32 (by decide) _
  have hversion : getUint32 (singleHeader b v ++ rest) 4 = stateVersion := by
    rw [hwords]
    exact getUint32_at (by decide) rfl _
  have htotal : getUint32 (singleHeader b v ++ rest) 8 = singleSize b v := by
    rw [hwords, ← List.append_assoc]
    exact getUint32_at (by omega) rfl _
  have hinfo : getUint32 (singleHeader b v ++ rest) 12 = (infoBlock b v).length := by
    rw [hwords, ← List.append_assoc, ← List.append_assoc]
    exact getUint32_at (by omega) rfl _
  have hlength : infoBlockStart ≤ (singleHeader b v ++ rest).length := by
    rw [length_append]
    exact Nat.le_add_right _ _
  unfold readStateHeader
  rw [require_true (decide_eq_true hlength), Exec.ok_bind, require_true (decide_eq_true hmagic),
    Exec.ok_bind, require_true (decide_eq_true (getInt32_eq hversion (by decide))), Exec.ok_bind,
    getInt32_eq htotal (by omega), getInt32_eq hinfo (by omega)]
  have hok : (!check || decide ((singleSize b v : Int) = ((singleHeader b v ++ rest).length : Int))) =
      true := by
    cases check with
    | false => rfl
    | true => simp [hcheck rfl]
  rw [require_true hok, Exec.ok_bind]

theorem ofJson_json (infos : List BufferInfo) :
    (infos.map BufferInfo.json).mapM BufferInfo.ofJson = some infos := by
  induction infos with
  | nil => rfl
  | cons info infos ih =>
    rw [map_cons, mapM_cons, ih]
    rfl

/-- The text of the info block gives its data. -/
def Builtins.Reads (b : Builtins) (v : Value) : Prop := b.parse (infoBlock b v) = some (infoJson v)

theorem readInfoBlock_eq (hjson : b.Reads v) : readInfoBlock b (infoBlock b v) =
    .ok ((saveObject v []).1, (bufferInfos (saveObject v []).2 0).1) := by
  have hinfo : infoOf (infoJson v) =
      some ((saveObject v []).1, (bufferInfos (saveObject v []).2 0).1) := by
    change ((List.mapM BufferInfo.ofJson _).map fun infos => ((saveObject v []).1, infos)) = _
    rw [ofJson_json]
    rfl
  rw [readInfoBlock, hjson, Option.bind_some, hinfo]
  rfl

/-! ## The bytes themselves -/

theorem slice_eq (bytes : List Byte) (start n : Nat) :
    slice bytes start (start + n : Nat) = (bytes.drop start).take n := by
  unfold slice
  dsimp only
  rw [if_neg (Int.not_lt.2 (Int.natCast_nonneg _)), if_neg (Int.not_lt.2 (Int.natCast_nonneg _)),
    Int.toNat_natCast, Int.toNat_natCast, Nat.add_sub_cancel_left]

/-- The offsets are where the buffers are. -/
theorem slices_eq {buffers : List (List Byte)} {total : Nat} (h : total % 4 = 0) {start : Nat}
    {file : List Byte} (before : List Byte) (hbefore : before.length = start + total)
    (hfile : file = before ++ blocks buffers) : ((bufferInfos buffers total).1.map fun info =>
      slice file (start + info.offset) (start + info.offset + info.length)) = buffers := by
  induction buffers generalizing total before with
  | nil => rfl
  | cons buffer buffers ih =>
    have hnext := total_gap h buffer
    rw [blocks_cons] at hfile
    rw [bufferInfos_cons h, map_cons]
    congr 1
    · dsimp only
      rw [show (start : Int) + (total : Int) = (before.length : Int) by omega,
        show (before.length : Int) + (buffer.length : Int) = ((before.length + buffer.length : Nat) : Int)
          by omega, slice_eq, hfile, drop_left, take_left]
    · refine ih hnext (before ++ (buffer ++ gap buffer.length)) ?_ ?_
      · simp only [length_append]
        omega
      · rw [hfile]
        simp only [List.append_assoc]

/-- The branch that reads the bytes themselves. -/
theorem readPlain_eq (hfits : singleSize b v ≤ maxSingleBuffer) (hjson : b.Reads v) :
    readPlain b (single b v) = .ok (saveObject v []) := by
  obtain ⟨hle, hlt⟩ := length_infoBlock_le hfits
  have hstart : infoBlockStart = 16 := rfl
  have hheader := readStateHeader_eq hfits (infoBlock b v ++
    (gap (infoBlockStart + (infoBlock b v).length) ++ blocks (saveObject v []).2)) true
    fun _ => length_single b v
  have hinfo : ((single b v).drop infoBlockStart).take (infoBlock b v).length = infoBlock b v := by
    rw [single, show infoBlockStart = (singleHeader b v).length from rfl, drop_left, take_left]
  have hok : (decide ((0 : Int) ≤ (infoBlock b v).length) &&
      decide (((infoBlock b v).length : Int) + 12 < (single b v).length)) = true := by
    rw [length_single]
    simp only [Bool.and_eq_true, decide_eq_true_eq]
    omega
  unfold readPlain
  rw [show readStateHeader (single b v) true = _ from hheader, Exec.ok_bind, require_true hok,
    Exec.ok_bind, Int.toNat_natCast, hinfo, readInfoBlock_eq hjson, Exec.ok_bind, roundUp_start hfits]
  dsimp only
  rw [slices_eq (Nat.zero_mod 4) (singleHeader b v ++ (infoBlock b v ++
    gap (infoBlockStart + (infoBlock b v).length)))]
  · simp only [length_append, bufferBlockStart]
    have hlength : (singleHeader b v).length = infoBlockStart := rfl
    omega
  · simp only [single, List.append_assoc]

end

/-! ## A compressed stream -/

section
variable {σ : Type} {d : Decompressor σ} {content : List Byte} {At : σ → Nat → Prop}

/-- Reads give the bytes of `content` in order; `At` says how many of them were read. -/
def Decompressor.InOrder (d : Decompressor σ) (content : List Byte) (At : σ → Nat → Prop) : Prop :=
  ∀ s n k, At s n → n + k ≤ content.length →
    ∃ s', d.read s k = (some ((content.drop n).take k), s') ∧ At s' (n + k)

/-- The bytes `z` are decompressed to `content`. -/
def Decompressor.Streams (d : Decompressor σ) (z content : List Byte) : Prop :=
  ∃ At : σ → Nat → Prop, At (d.create z) 0 ∧ d.InOrder content At

theorem next_eq (h : d.InOrder content At) (hsize : content.length < 2 ^ 32) {s : σ} {n k : Nat}
    (hs : At s n) (hk : n + k ≤ content.length) :
    ∃ s', d.next s k = .ok ((content.drop n).take k, s') ∧ At s' (n + k) := by
  obtain ⟨s', hread, hs'⟩ := h s n k hs hk
  refine ⟨s', ?_, hs'⟩
  have hconvert : (BitVec.ofInt 32 (k : Int)).toNat = k := by
    rw [ofInt_natCast, toNat_ofNat, Nat.mod_eq_of_lt (by omega)]
  rw [Decompressor.next, hconvert, hread]

/-- The chunks of a buffer are its bytes. -/
theorem readChunks_eq (h : d.InOrder content At) (hsize : content.length < 2 ^ 32) (length : Nat)
    (m : Nat) : ∀ (done : Nat) {n : Nat} (buffer : List Byte) {s : σ}, length - done = m → At s n →
      n + m ≤ content.length →
      ∃ s', d.readChunks length done buffer s = .ok (buffer ++ (content.drop n).take m, s') ∧
        At s' (n + m) := by
  induction m using Nat.strongRecOn with
  | ind m ih =>
    intro done n buffer s hm hs hfits
    have hchunk : 0 < zstdChunkSize := by decide
    rw [Decompressor.readChunks]
    split
    · next hlt =>
      dsimp only
      obtain ⟨s', hnext, hs'⟩ := next_eq h hsize (k := min (length - done) zstdChunkSize) hs (by omega)
      rw [hnext, Exec.ok_bind]
      dsimp only
      obtain ⟨s'', hrest, hs''⟩ := ih (m - min (length - done) zstdChunkSize) (by omega)
        (done + min (length - done) zstdChunkSize)
        (buffer ++ (content.drop n).take (min (length - done) zstdChunkSize)) (by omega) hs' (by omega)
      refine ⟨s'', ?_, ?_⟩
      · rw [hrest, List.append_assoc, ← drop_drop, ← take_add, Nat.add_sub_cancel' (by omega)]
      · rwa [Nat.add_assoc, Nat.add_sub_cancel' (by omega)] at hs''
    · next hge =>
      obtain rfl : m = 0 := by omega
      exact ⟨s, by rw [take_zero, append_nil], hs⟩

/-- A buffer is read, after the bytes up to the boundary. -/
theorem readBuffer_eq (h : d.InOrder content At) (hsize : content.length < 2 ^ 32)
    {before padding buffer after : List Byte} (hcontent : content = before ++ (padding ++ (buffer ++ after)))
    (offset : Int) {s : σ} (hs : At s before.length) :
    ∃ s', d.readBuffer ⟨offset, buffer.length⟩ padding.length s = .ok (buffer, s') ∧
      At s' (before.length + (padding.length + buffer.length)) := by
  have hlength : before.length + (padding.length + (buffer.length + after.length)) = content.length := by
    rw [hcontent]
    simp only [length_append]
  unfold Decompressor.readBuffer
  dsimp only
  split
  · obtain ⟨s₁, hnext, hs₁⟩ := next_eq h hsize (k := padding.length) hs (by omega)
    rw [hnext, Exec.ok_bind]
    dsimp only
    obtain ⟨s₂, hread, hs₂⟩ := readChunks_eq h hsize buffer.length buffer.length 0 [] rfl hs₁
      (by omega)
    refine ⟨s₂, ?_, by rwa [← Nat.add_assoc]⟩
    rw [Int.toNat_natCast, hread, nil_append, hcontent, ← drop_drop, drop_left,
      drop_left, take_left]
  · obtain ⟨s₁, hnext, hs₁⟩ := next_eq h hsize (k := padding.length + buffer.length) hs (by omega)
    rw [show (padding.length : Int) + (buffer.length : Int) = ((padding.length + buffer.length : Nat) : Int)
      by omega, hnext, Exec.ok_bind]
    dsimp only
    refine ⟨s₁, ?_, hs₁⟩
    rw [slice_eq, hcontent, drop_left, ← List.append_assoc padding buffer after,
      take_left' (length_append ..), drop_left, take_length]

/-- The reader comes to each boundary by counting. -/
theorem decompressBuffers_eq (h : d.InOrder content At) (hsize : content.length + 3 < 2 ^ 31)
    {buffers : List (List Byte)} {total : Nat} (htotal : total % 4 = 0) (before : List Byte)
    (hcontent : content = before ++ (gap before.length ++ blocks buffers)) {s : σ}
    (hs : At s before.length) :
    d.readBuffers (bufferInfos buffers total).1 before.length s = .ok buffers := by
  induction buffers generalizing total before s with
  | nil => rfl
  | cons buffer buffers ih =>
    have hnext := total_gap htotal buffer
    rw [blocks_cons] at hcontent
    have hle : before.length ≤ content.length := by
      rw [hcontent]
      simp only [length_append]
      omega
    have hpadding : roundUp before.length - before.length = ((gap before.length).length : Int) := by
      rw [roundUp_gap (by omega)]
      omega
    obtain ⟨s', hread, hs'⟩ := readBuffer_eq h (by omega) hcontent total hs
    rw [bufferInfos_cons htotal, Decompressor.readBuffers]
    dsimp only
    rw [hpadding, hread, Exec.ok_bind]
    dsimp only
    have hposition : (before.length : Int) + (((gap before.length).length : Int) + (buffer.length : Int)) =
        ((before ++ (gap before.length ++ buffer)).length : Int) := by
      simp only [length_append]
      omega
    -- a buffer starts at a boundary, so the gap after it is that of its length
    have hgap : gap (before ++ (gap before.length ++ buffer)).length = gap buffer.length := by
      unfold gap
      congr 1
      simp only [length_append, length_replicate]
      omega
    rw [hposition, ih hnext (before ++ (gap before.length ++ buffer))]
    · rfl
    · rw [hgap, hcontent]
      simp only [List.append_assoc]
    · simpa only [length_append] using hs'

variable {b : Builtins} {v : Value}

/-- The branch that reads a compressed stream. -/
theorem readZstd_eq (hfits : singleSize b v ≤ maxSingleBuffer) (hjson : b.Reads v) {z : List Byte}
    (hz : d.Streams z (single b v)) : readZstd d b z = .ok (saveObject v []) := by
  obtain ⟨At, hcreate, h⟩ := hz
  obtain ⟨hle, hlt⟩ := length_infoBlock_le hfits
  have hstart : infoBlockStart = 16 := rfl
  have hsize := length_single b v
  have hlength : (singleHeader b v).length = 16 := rfl
  obtain ⟨s₁, hnext₁, hs₁⟩ := next_eq h (by omega) (k := 16) hcreate (by omega)
  obtain ⟨s₂, hnext₂, hs₂⟩ := next_eq h (by omega) (k := (infoBlock b v).length) hs₁ (by omega)
  have hheader : ((single b v).drop 0).take 16 = singleHeader b v ++ [] := by
    rw [drop_zero, single, ← hlength, take_left, append_nil]
  have hinfo : ((single b v).drop (0 + 16)).take (infoBlock b v).length = infoBlock b v := by
    rw [single, Nat.zero_add, ← hlength, drop_left, take_left]
  rw [hheader] at hnext₁
  rw [hinfo] at hnext₂
  unfold readZstd
  rw [show d.next (d.create z) 16 = _ from hnext₁, Exec.ok_bind]
  dsimp only
  rw [readStateHeader_eq hfits [] false nofun, Exec.ok_bind, hnext₂, Exec.ok_bind]
  dsimp only
  rw [readInfoBlock_eq hjson, Exec.ok_bind]
  dsimp only
  have hcontent : single b v = (singleHeader b v ++ infoBlock b v) ++
      (gap (singleHeader b v ++ infoBlock b v).length ++ blocks (saveObject v []).2) := by
    rw [single, List.append_assoc, length_append]
    rfl
  have hat : At s₂ (singleHeader b v ++ infoBlock b v).length := by
    rw [length_append, hlength]
    rwa [Nat.zero_add] at hs₂
  rw [show (infoBlockStart : Int) + ((infoBlock b v).length : Int) =
    ((singleHeader b v ++ infoBlock b v).length : Int) by simp [hlength, hstart],
    decompressBuffers_eq h (by omega) (Nat.zero_mod 4) _ hcontent hat, Exec.ok_bind]

end

/-! ## Both readers -/

/-- The first word of a snapshot is not the one of a compressed stream. -/
theorem getUint32_single (b : Builtins) (v : Value) : getUint32 (single b v) 0 = stateMagic := by
  rw [single, singleHeader, flatMap_cons, List.append_assoc]
  exact getUint32_uint32 (by decide) _

/-- For every tree whose snapshot is below the limit: the snapshot is written, and both the bytes
themselves and a compressed stream of them are read as the saved tree and its buffers. -/
theorem readState_saveState {b : Builtins} {v : Value} (hfits : singleSize b v ≤ maxSingleBuffer)
    (hjson : b.Reads v) : ∃ file, saveState b v = .ok file ∧
      (∀ {σ : Type} (d : Decompressor σ), readState d b file = .ok (saveObject v [])) ∧
      ∀ {σ : Type} (d : Decompressor σ) (z : List Byte), 4 ≤ z.length → getUint32 z 0 = zstdMagic →
        d.Streams z file → readState d b z = .ok (saveObject v []) := by
  refine ⟨single b v, saveState_eq hfits, fun d => ?_, fun d z hlength hmagic hz => ?_⟩
  · have hlength : ¬ (single b v).length < 4 := by
      have hheader : (singleHeader b v).length = 16 := rfl
      rw [single, length_append]
      omega
    have hmagic : getUint32 (single b v) 0 ≠ zstdMagic := by
      rw [getUint32_single]
      decide
    rw [readState, if_neg hlength, if_neg hmagic, readPlain_eq hfits hjson]
  · rw [readState, if_neg (Nat.not_lt.2 hlength), if_pos hmagic, readZstd_eq hfits hjson hz]

/-- A frame of one raw block: it is marked as the last one, and its size is in the frame's header. -/
def rawFrame (content : List Byte) : List Byte :=
  uint32 zstdMagic ++ ([0xA0] ++ uint32 content.length ++
    (uint32 (content.length * 8 + 1)).take 3 ++ content)

/-- A decompressor of such frames, with the bytes not yet read. -/
def rawFrames : Decompressor (List Byte) where
  create := fun z => z.drop 12
  read := fun s n => (some (s.take n), s.drop n)

theorem streams_rawFrame (content : List Byte) : rawFrames.Streams (rawFrame content) content :=
  ⟨fun s n => s = content.drop n, rfl, fun s n k hs _ => ⟨s.drop k, by rw [rawFrames, hs],
    by rw [hs, drop_drop]⟩⟩

/-- Three bytes, no bytes, and two numbers of 16 bits, as they are and in a frame. -/
theorem readState_saveState_small :
    let v := Value.arr [.typed .uint8 [1, 2, 3], .typed .uint8 [], .typed .int16 [4, 0, 5, 0]]
    let b := engine (infoJson v)
    ∃ file, saveState b v = .ok file ∧ readState rawFrames b file = .ok (saveObject v []) ∧
      readState rawFrames b (rawFrame file) = .ok (saveObject v []) := by
  intro v b
  obtain ⟨file, hsave, hplain, hframe⟩ :=
    readState_saveState (b := b) (v := v) (by decide +kernel) (engine_parse _)
  exact ⟨file, hsave, hplain rawFrames, hframe rawFrames (rawFrame file)
    (Nat.le_add_left 4 _) (getUint32_uint32 (by decide) _) (streams_rawFrame file)⟩

end V86.State
