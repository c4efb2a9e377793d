import V86.Disk.SnapshotCorrect

/-!
# Exports have the written blocks in place

`get_as_file` merges runs of blocks that follow each other on the disk and in a chunk. Whatever the
order in which blocks were written, the parts together are the file with just the written blocks
replaced.
-/

namespace V86.Disk

/-- The file with the blocks of `f` in place of its own. -/
def replaced (f : Nat → Option Block) (file : List Byte) : List Byte :=
  file.mapIdx fun p byte =>
    match f (p / blockSize) with
    | none => byte
    | some block => block.get ⟨p % blockSize, Nat.mod_lt _ (by decide)⟩

variable {f : Nat → Option Block} {file : List Byte} {b n p : Nat}

@[simp] theorem length_replaced : (replaced f file).length = file.length := List.length_mapIdx

theorem replaced_of_none (h : f (p / blockSize) = none) : (replaced f file)[p]? = file[p]? := by
  rw [replaced, List.getElem?_mapIdx, h]
  exact Option.map_id'

/-- Where no block is written, the file stays as it is. -/
theorem replaced_between {start stop : Nat}
    (h : ∀ p, start ≤ p → p < stop → f (p / blockSize) = none) :
    ((replaced f file).drop start).take (stop - start) = (file.drop start).take (stop - start) := by
  apply List.ext_getElem?
  intro i
  rw [List.getElem?_take, List.getElem?_take, List.getElem?_drop, List.getElem?_drop]
  split
  case isTrue hi => exact replaced_of_none (h _ (Nat.le_add_right _ _) (by omega))
  case isFalse => rfl

theorem replaced_after {start : Nat}
    (h : ∀ p, start ≤ p → p < file.length → f (p / blockSize) = none) :
    (replaced f file).drop start = file.drop start := by
  have hbetween : ((replaced f file).drop start).take (file.length - start) =
      (file.drop start).take (file.length - start) := replaced_between h
  rwa [List.take_of_length_le (by simp), List.take_of_length_le (by simp)] at hbetween

/-- A written block. -/
theorem replaced_block {block : Block} (h : f b = some block)
    (hb : (b + 1) * blockSize ≤ file.length) :
    ((replaced f file).drop (b * blockSize)).take blockSize = block.toList := by
  apply List.ext_getElem?
  intro i
  rw [List.getElem?_take, List.getElem?_drop]
  split
  case isTrue hi =>
    have hdiv : (b * blockSize + i) / blockSize = b := by
      unfold blockSize at *
      omega
    have hmod : (b * blockSize + i) % blockSize = i := by
      unfold blockSize at *
      omega
    have hlt : b * blockSize + i < file.length := by
      unfold blockSize at *
      omega
    have hvalue : (replaced f file)[b * blockSize + i]? = some (block.get ⟨i, hi⟩) := by
      rw [replaced, List.getElem?_mapIdx, List.getElem?_eq_getElem hlt, Option.map_some, hdiv, h]
      simp only [hmod]
    rw [hvalue, List.getElem?_eq_getElem (by rwa [Vector.length_toList])]
    rfl
  case isFalse hi =>
    symm
    rw [List.getElem?_eq_none_iff, Vector.length_toList]
    omega

/-- Blocks that follow each other are written. -/
theorem replaced_blocks {blocks : List Block} (h : ∀ j, j < blocks.length → f (b + j) = blocks[j]?)
    (hb : (b + blocks.length) * blockSize ≤ file.length) :
    ((replaced f file).drop (b * blockSize)).take (blocks.length * blockSize) =
      blocks.flatMap (·.toList) := by
  induction blocks generalizing b with
  | nil => rw [List.length_nil, Nat.zero_mul, List.take_zero, List.flatMap_nil]
  | cons block blocks ih =>
    rw [List.length_cons] at hb
    have hhead : f b = some block := h 0 (Nat.zero_lt_succ _)
    have hle : (b + 1) * blockSize ≤ file.length :=
      Nat.le_trans (Nat.mul_le_mul_right _ (by omega)) hb
    have hrest : ∀ j, j < blocks.length → f (b + 1 + j) = blocks[j]? := by
      intro j hj
      have hnext := h (j + 1) (Nat.succ_lt_succ hj)
      rwa [Nat.add_comm j 1, ← Nat.add_assoc, Nat.add_comm 1 j, List.getElem?_cons_succ] at hnext
    have hb' : (b + 1 + blocks.length) * blockSize ≤ file.length := by
      rw [Nat.add_assoc, Nat.add_comm 1]
      exact hb
    rw [List.flatMap_cons, ← replaced_block hhead hle, ← ih hrest hb', List.length_cons,
      Nat.add_mul, Nat.one_mul, Nat.add_comm (_ * _), List.take_add, List.drop_drop, Nat.add_mul,
      Nat.one_mul]

namespace Blocks

variable {d : Blocks Block} {keys rest : List Nat} {block slot : Nat}

/-! ## Runs -/

variable {j count : Nat}

/-- The blocks of a run follow each other, on the disk and in one chunk. -/
theorem of_lt_runLength (hj : j < d.runLength rest block slot) :
    rest[j]? = some (block + j) ∧ d.writtenBlocks.lookup (block + j) = some (slot + j) ∧
      (slot + j) % writeChunkBlocks ≠ 0 := by
  induction rest generalizing block slot j with
  | nil => exact absurd hj (Nat.not_lt_zero j)
  | cons c rest ih =>
    rw [runLength] at hj
    split at hj
    case isTrue hrun =>
      cases j with
      | zero => exact ⟨by rw [List.getElem?_cons_zero, hrun.1]; rfl, hrun.2⟩
      | succ j =>
        have hrest := @ih (block + 1) (slot + 1) j (by omega)
        rw [Nat.add_assoc, Nat.add_comm 1, Nat.add_assoc, Nat.add_comm 1] at hrest
        exact hrest
    case isFalse => exact absurd hj (Nat.not_lt_zero j)

/-- Slots up to the next chunk are in the same chunk. -/
theorem slot_in_chunk (h : ∀ j, 0 < j → j < count → (slot + j) % writeChunkBlocks ≠ 0)
    (hj : j < count) : (slot + j) / writeChunkBlocks = slot / writeChunkBlocks ∧
      (slot + j) % writeChunkBlocks = slot % writeChunkBlocks + j := by
  induction j with
  | zero => exact ⟨rfl, rfl⟩
  | succ j ih =>
    have hprev := ih (by omega)
    have hne := h (j + 1) (Nat.succ_pos j) hj
    unfold writeChunkBlocks at *
    omega

/-- The first blocks of a run. -/
theorem take_run (hcount : count = 1 + d.runLength rest (b + 1) (slot + 1))
    (hj : j < count) : (b :: rest)[j]? = some (b + j) := by
  cases j with
  | zero => rfl
  | succ j =>
    have hrun := (of_lt_runLength (show j < d.runLength rest (b + 1) (slot + 1) by omega)).1
    rw [List.getElem?_cons_succ, hrun, Nat.add_assoc, Nat.add_comm 1]

/-- The part for a run is what the image has there. -/
theorem Holds.replaced_run (h : Holds d f) (hb : d.writtenBlocks.lookup b = some slot)
    (hcount : count = 1 + d.runLength rest (b + 1) (slot + 1))
    (hfile : (b + count) * blockSize ≤ file.length) :
    ((((d.writeChunks.getD (slot / writeChunkBlocks) []).drop (slot % writeChunkBlocks)).take
        count).flatMap (·.toList)) =
      ((replaced f file).drop (b * blockSize)).take (count * blockSize) := by
  have hlookup : ∀ j, j < count → d.writtenBlocks.lookup (b + j) = some (slot + j) := by
    intro j hj
    cases j with
    | zero => exact hb
    | succ j =>
      have hrun := (of_lt_runLength (show j < d.runLength rest (b + 1) (slot + 1) by omega)).2.1
      rwa [Nat.add_assoc, Nat.add_comm 1, Nat.add_assoc, Nat.add_comm 1] at hrun
  have hchunk : ∀ j, 0 < j → j < count → (slot + j) % writeChunkBlocks ≠ 0 := by
    intro j hpos hj
    obtain ⟨j, rfl⟩ : ∃ i, j = i + 1 := ⟨j - 1, by omega⟩
    have hrun := (of_lt_runLength (show j < d.runLength rest (b + 1) (slot + 1) by omega)).2.2
    rwa [Nat.add_assoc, Nat.add_comm 1] at hrun
  generalize hparts : ((d.writeChunks.getD (slot / writeChunkBlocks) []).drop
    (slot % writeChunkBlocks)).take count = parts
  have hparts? : ∀ j, j < count → f (b + j) = parts[j]? := by
    intro j hj
    obtain ⟨hdiv, hmod⟩ := slot_in_chunk hchunk hj
    rw [← h.data, Blocks.data, hlookup j hj, Option.bind_some, slotData, hdiv, hmod, ← hparts,
      List.getElem?_take, if_pos hj, List.getElem?_drop, List.getD_eq_getElem?_getD]
    cases d.writeChunks[slot / writeChunkBlocks]? with
    | none => rfl
    | some chunk => rfl
  have hlength : parts.length = count := by
    refine Nat.le_antisymm (by rw [← hparts]; exact List.length_take_le _ _) ?_
    obtain ⟨last, hlast⟩ : ∃ last, count = last + 1 := ⟨count - 1, by omega⟩
    have hsome : (f (b + last)).isSome := by
      rw [← h.data, h.stored.data_isSome, written, hlookup last (by omega)]
      rfl
    rw [hparts? last (by omega), Option.isSome_iff_exists] at hsome
    obtain ⟨v, hv⟩ := hsome
    obtain ⟨hlt, -⟩ := List.getElem?_eq_some_iff.1 hv
    omega
  rw [← hlength, replaced_blocks (by rwa [hlength]) (by rwa [hlength])]

/-- The written blocks after a run are those further on. -/
theorem mem_drop_run {c : Nat} (hcount : count = 1 + d.runLength rest (b + 1) (slot + 1))
    (hsorted : (b :: rest).Pairwise (· < ·)) :
    c ∈ (b :: rest).drop count ↔ c ∈ b :: rest ∧ b + count ≤ c := by
  rw [List.mem_drop_iff_getElem]
  constructor
  · rintro ⟨i, hi, rfl⟩
    refine ⟨List.getElem_mem _, ?_⟩
    have hlast := take_run hcount (show count - 1 < count by omega)
    obtain ⟨hlt, hvalue⟩ := List.getElem?_eq_some_iff.1 hlast
    have hless := List.pairwise_iff_getElem.1 hsorted (count - 1) (count + i) hlt
      (by omega) (by omega)
    omega
  · rintro ⟨hmem, hle⟩
    obtain ⟨k, hk, rfl⟩ := List.getElem_of_mem hmem
    rcases Nat.lt_or_ge k count with hlt | hge
    · have hvalue := take_run hcount hlt
      rw [List.getElem?_eq_getElem hk, Option.some.injEq] at hvalue
      omega
    · exact ⟨k - count, by omega, by simp only [Nat.add_sub_cancel' hge]⟩

/-! ## The export -/

/-- What is left of the file, with its written blocks, from an offset on. -/
theorem Holds.exportParts_flatten (h : Holds d f) {currentOffset : Nat}
    (hsorted : keys.Pairwise (· < ·)) (hstart : ∀ b ∈ keys, currentOffset ≤ b * blockSize)
    (hfile : ∀ b ∈ keys, (b + 1) * blockSize ≤ file.length)
    (hwritten : ∀ b ∈ keys, d.written b = true)
    (hall : ∀ p, currentOffset ≤ p → p < file.length → p / blockSize ∉ keys →
      f (p / blockSize) = none) (hcurrent : currentOffset ≤ file.length) :
    (d.exportParts file keys currentOffset).flatten = (replaced f file).drop currentOffset := by
  fun_induction exportParts d file keys currentOffset with
  | case1 currentOffset hne =>
    rw [replaced_after fun p hp hp' => hall p hp hp' List.not_mem_nil, List.flatten_singleton]
  | case2 currentOffset heq =>
    rw [ne_eq, not_not] at heq
    rw [heq, List.drop_of_length_le (by simp), List.flatten_nil]
  | case3 currentOffset b rest slot count start between chunk part ih =>
    have hb := List.mem_cons_self (a := b) (l := rest)
    have hlookup : d.writtenBlocks.lookup b = some slot := by
      obtain ⟨v, hv⟩ := Option.isSome_iff_exists.1 (hwritten b hb)
      show _ = some ((d.writtenBlocks.lookup b).getD 0)
      rw [hv]
      rfl
    have hcount : count = 1 + d.runLength rest (b + 1) (slot + 1) := rfl
    have hend : (b + count) * blockSize ≤ file.length := by
      have hlast := take_run hcount (show count - 1 < count by omega)
      have hle := hfile _ (List.mem_of_getElem? hlast)
      have hsucc : b + (count - 1) + 1 = b + count := by omega
      rwa [hsucc] at hle
    have hrest : rest.drop (count - 1) = (b :: rest).drop count := by
      obtain ⟨n, hn⟩ : ∃ n, count = n + 1 := ⟨count - 1, by omega⟩
      rw [hn]
      rfl
    have hoffset : start + count * blockSize = (b + count) * blockSize := (Nat.add_mul _ _ _).symm
    have hbefore : between.flatten =
        ((replaced f file).drop currentOffset).take (start - currentOffset) := by
      rw [replaced_between]
      · show List.flatten (if start ≠ currentOffset then _ else _) = _
        split
        · exact List.flatten_singleton
        case isFalse heq =>
          rw [ne_eq, not_not] at heq
          rw [heq, Nat.sub_self, List.take_zero, List.flatten_nil]
      · intro p hp hp'
        have hless : p / blockSize < b := (Nat.div_lt_iff_lt_mul (by decide)).2 hp'
        have hstop := Nat.le_trans (Nat.mul_le_mul_right blockSize (Nat.le_add_right b count)) hend
        refine hall p hp (Nat.lt_of_lt_of_le hp' hstop) fun hmem => ?_
        rcases List.mem_cons.1 hmem with heq | hmem
        · omega
        · have hgt := List.rel_of_pairwise_cons hsorted hmem
          omega
    have hpart : part = ((replaced f file).drop start).take (count * blockSize) :=
      h.replaced_run hlookup hcount hend
    have hafter : (d.exportParts file (rest.drop (count - 1)) (start + count * blockSize)).flatten =
        (replaced f file).drop (start + count * blockSize) := by
      rw [hrest, hoffset] at ih ⊢
      refine ih (hsorted.drop) ?_ ?_ ?_ ?_ hend
      · intro c hc
        exact Nat.mul_le_mul_right _ ((mem_drop_run hcount hsorted).1 hc).2
      · exact fun c hc => hfile c (List.mem_of_mem_drop hc)
      · exact fun c hc => hwritten c (List.mem_of_mem_drop hc)
      · intro p hp hp' hnot
        have hge : b + count ≤ p / blockSize := (Nat.le_div_iff_mul_le (by decide)).2 hp
        have hstop := Nat.le_trans (Nat.mul_le_mul_right blockSize (Nat.le_add_right b count)) hp
        exact hall p (Nat.le_trans (hstart b hb) hstop) hp' fun hmem =>
          hnot ((mem_drop_run hcount hsorted).2 ⟨hmem, hge⟩)
    have hle : currentOffset ≤ start := hstart b hb
    rw [List.flatten_append, List.flatten_cons, hbefore, hpart, hafter, ← List.drop_drop,
      List.take_append_drop]
    have hsplit := List.take_append_drop (start - currentOffset) ((replaced f file).drop currentOffset)
    rwa [List.drop_drop, Nat.add_sub_cancel' hle] at hsplit

theorem Holds.mem_numbers (h : Holds d f) : b ∈ d.numbers ↔ (f b).isSome := by
  rw [Blocks.mem_numbers, ← h.data, h.stored.data_isSome]

theorem Holds.getAsFile (h : Holds d f)
    (hfile : ∀ b ∈ d.numbers, (b + 1) * blockSize ≤ file.length) :
    d.getAsFile file = replaced f file := by
  have hmem : ∀ {b}, b ∈ d.numbers.mergeSort ↔ b ∈ d.numbers :=
    (List.mergeSort_perm d.numbers _).mem_iff
  have hle : d.numbers.mergeSort.Pairwise fun i j => decide (i ≤ j) = true :=
    List.pairwise_mergeSort (fun _ _ _ hij hjk => by
      simp only [decide_eq_true_eq] at *
      omega) (fun i j => by
      simp only [Bool.or_eq_true, decide_eq_true_eq]
      omega) _
  have hne : d.numbers.mergeSort.Pairwise (· ≠ ·) :=
    ((List.mergeSort_perm d.numbers _).nodup_iff).2 h.nodup
  have hsorted : d.numbers.mergeSort.Pairwise (· < ·) := by
    refine (hle.and hne).imp fun {i j} hij => ?_
    exact Nat.lt_of_le_of_ne (of_decide_eq_true hij.1) hij.2
  have hnone : ∀ p, 0 ≤ p → p < file.length → p / blockSize ∉ d.numbers.mergeSort →
      f (p / blockSize) = none := by
    intro p _ _ hnot
    rwa [hmem, h.mem_numbers, Option.not_isSome_iff_eq_none] at hnot
  exact h.exportParts_flatten hsorted (fun _ _ => Nat.zero_le _)
    (fun b hb => hfile b (hmem.1 hb)) (fun b hb => Blocks.mem_numbers.1 (hmem.1 hb)) hnone
    (Nat.zero_le _)

end Blocks

/-! ## Histories -/

/-- The lazily loaded disks of a size, with what was written to them: reads change only what is
kept, and a snapshot is restored into another disk. -/
inductive History (byteLength : Nat) : Blocks Block → (Nat → Option Block) → Prop where
  | loaded (blockCache) : History byteLength { Blocks.empty with blockCache } fun _ => none
  | read {d f} (blockCache) (h : History byteLength d f) :
      History byteLength { d with blockCache } f
  | write {d f} (h : History byteLength d f) {index : Nat}
      (hindex : (index + 1) * blockSize ≤ byteLength) (data : Block) :
      History byteLength (d.writeBlock index data) (Function.update f index (some data))
  | restore {d d' f} (h : History byteLength d f)
      (hrestore : Blocks.setState byteLength d.getState = some d') : History byteLength d' f

/-- The written blocks have the slots up to their number, each its own, and their data. -/
structure Intact (d : Blocks Block) (f : Nat → Option Block) : Prop where
  nodup : d.numbers.Nodup
  written : ∀ index, d.written index = (f index).isSome
  slot_lt : ∀ index slot, d.writtenBlocks.lookup index = some slot → slot < d.writtenBlocks.length
  slot_unique : ∀ slot < d.writtenBlocks.length, ∃! index, d.writtenBlocks.lookup index = some slot
  chunks : d.writeChunks.length = ceilDiv d.writtenBlocks.length writeChunkBlocks
  data : ∀ index block, f index = some block → d.cachedBlock index = some block

variable {d : Blocks Block} {byteLength : Nat}

/-- Each written block has a slot of its own. -/
theorem Blocks.Holds.intact (h : d.Holds f) : Intact d f where
  nodup := h.nodup
  written index := by rw [← h.data, h.stored.data_isSome]
  slot_lt index slot := h.stored.slot_lt
  slot_unique slot hslot := by
    have hlookup : ∃ index, d.writtenBlocks.lookup index = some slot := by
      have hmem : slot ∈ d.writtenBlocks.map Prod.snd := by
        rw [h.stored.slots]
        exact List.mem_range.2 hslot
      obtain ⟨⟨index, _⟩, hpair, rfl⟩ := List.mem_map.1 hmem
      exact ⟨index, lookup_of_mem h.nodup hpair⟩
    obtain ⟨index, hindex⟩ := hlookup
    exact ⟨index, hindex, fun other hother => h.stored.inj hother hindex⟩
  chunks := h.stored.chunks
  data index block hblock := by
    rw [← h.data] at hblock
    exact cachedBlock_of_data hblock

/-- A disk of the history holds what was written, and all of it is within the disk. -/
theorem History.holds (h : History byteLength d f) :
    d.Holds f ∧ ∀ b, (f b).isSome → (b + 1) * blockSize ≤ byteLength := by
  induction h with
  | loaded blockCache =>
    have hempty : Blocks.Holds (Blocks.empty : Blocks Block) fun _ => none := Blocks.holds_empty
    exact ⟨⟨⟨rfl, nofun, hempty.stored.chunks⟩, List.nodup_nil, rfl⟩, nofun⟩
  | read blockCache _ ih =>
    exact ⟨⟨⟨ih.1.stored.slots, ih.1.stored.chunk, ih.1.stored.chunks⟩, ih.1.nodup, ih.1.data⟩,
      ih.2⟩
  | @write d f _ index hindex data ih =>
    refine ⟨ih.1.writeBlock index data, fun b hb => ?_⟩
    rcases Classical.em (b = index) with rfl | hne
    · exact hindex
    · rw [Function.update_of_ne hne] at hb
      exact ih.2 b hb
  | @restore d d' f _ hrestore ih =>
    have hlt : ∀ b ∈ d.numbers, b * blockSize < byteLength := by
      intro b hb
      have hle := ih.2 b (ih.1.mem_numbers.1 hb)
      unfold blockSize at *
      omega
    obtain ⟨d₁, hd₁, hholds⟩ := ih.1.setState_getState hlt
    rw [hd₁, Option.some.injEq] at hrestore
    exact ⟨hrestore ▸ hholds, ih.2⟩

/-- Written blocks survive snapshots and exports. -/
theorem written_blocks_survive (h : History byteLength d f) : Intact d f ∧
      (∃ d', Blocks.setState byteLength d.getState = some d' ∧ Intact d' f) ∧
      (∀ (saved : SavedDisk Block) d', Blocks.setState byteLength saved = some d' →
        ∀ i j slot, d'.writtenBlocks.lookup i = some slot →
          d'.writtenBlocks.lookup j = some slot → i = j) ∧
      ∀ file : List Byte, file.length = byteLength → d.getAsFile file = replaced f file := by
  obtain ⟨hholds, hsize⟩ := h.holds
  refine ⟨hholds.intact, ?_, ?_, ?_⟩
  · have hlt : ∀ b ∈ d.numbers, b * blockSize < byteLength := by
      intro b hb
      have hle := hsize b (hholds.mem_numbers.1 hb)
      unfold blockSize at *
      omega
    obtain ⟨d', hd', hholds'⟩ := hholds.setState_getState hlt
    exact ⟨d', hd', hholds'.intact⟩
  · intro saved d' hd' i j slot hi hj
    exact (Blocks.setState_ordered hd').1.inj hi hj
  · intro file hfile
    refine hholds.getAsFile fun b hb => ?_
    rw [hfile]
    exact hsize b (hholds.mem_numbers.1 hb)

/-- A block of equal bytes. -/
def equalBytes (byte : Byte) : Block := Vector.replicate blockSize byte

/-- The second block of a disk of four is written after the third: they do not make one part. -/
theorem written_blocks_survive_two :
    ((Blocks.empty.writeBlock 2 (equalBytes 3)).writeBlock 1 (equalBytes 2)).getAsFile
        (List.replicate 1024 0) =
      replaced (Function.update (Function.update (fun _ => none) 2 (some (equalBytes 3)))
        1 (some (equalBytes 2))) (List.replicate 1024 0) :=
  have hloaded : History 1024 Blocks.empty fun _ => none := .loaded fun _ => none
  have hwritten := (hloaded.write (show (2 + 1) * blockSize ≤ 1024 by decide) (equalBytes 3)).write
    (show (1 + 1) * blockSize ≤ 1024 by decide) (equalBytes 2)
  (written_blocks_survive hwritten).2.2.2 _ List.length_replicate

end V86.Disk
