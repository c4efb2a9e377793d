import V86.Disk.BufferCorrect
import V86.Disk.Snapshot
import Mathlib.Data.List.Nodup
import Mathlib.Algebra.BigOperators.Group.List.Basic
import Mathlib.Algebra.Module.NatInt
import Mathlib.Algebra.Order.Field.Basic
import Mathlib.Algebra.Order.Field.Rat

/-!
# Written blocks survive snapshots and exports

The written blocks of a disk are a partial function from block numbers to data, `Blocks.data`, and
`Holds` says that the slots and chunks are in order and hold it. Writing and restoring keep it, and
an export replaces just those blocks of the file.
-/

namespace V86.Disk

open List

variable {β : Type _}

namespace Blocks

/-- The data of the written blocks. -/
def data (d : Blocks β) (b : Nat) : Option β := (d.writtenBlocks.lookup b).bind d.slotData

/-- The numbers of the written blocks, in the order of their slots. -/
def numbers (d : Blocks β) : List Nat := d.writtenBlocks.map Prod.fst

/-- The written blocks are those of `f`, each with a slot of its own. -/
structure Holds (d : Blocks β) (f : Nat → Option β) : Prop where
  stored : Stored d
  nodup : d.numbers.Nodup
  data : d.data = f

variable {d d' : Blocks β} {f : Nat → Option β} {i b k : Nat} {v : β}

/-! ## Lookups -/

variable {γ : Type _} {l : List (Nat × γ)} {ps : List (Nat × β)} {w : Nat} {chunks : List (List β)}
  {m : List (Nat × Nat)}

theorem lookup_eq_none_iff : l.lookup b = none ↔ b ∉ l.map Prod.fst := by
  rw [List.lookup_eq_none_iff]
  simp only [mem_map, bne_iff_ne, not_exists, not_and]
  exact ⟨fun h p hp heq => h p hp heq.symm, fun h p hp heq => h p hp heq.symm⟩

/-- A key that occurs once is found with its value. -/
theorem lookup_of_mem {v : γ} (hnodup : (l.map Prod.fst).Nodup)
    (hmem : (b, v) ∈ l) : l.lookup b = some v := by
  induction l with
  | nil => exact absurd hmem not_mem_nil
  | cons p l ih =>
    obtain ⟨key, w⟩ := p
    rw [map_cons, nodup_cons] at hnodup
    rw [lookup_cons]
    rcases List.mem_cons.1 hmem with heq | hrest
    · obtain ⟨rfl, rfl⟩ := Prod.mk.inj heq
      rw [beq_self_eq_true]
    · have hne : b ≠ key := by
        rintro rfl
        exact hnodup.1 (List.mem_map.2 ⟨_, hrest, rfl⟩)
      rw [beq_eq_false_iff_ne.2 hne]
      exact ih hnodup.2 hrest

theorem length_numbers (d : Blocks β) : d.numbers.length = d.writtenBlocks.length :=
  length_map _

theorem mem_numbers : b ∈ d.numbers ↔ d.written b = true := by
  rw [written, Option.isSome_iff_ne_none, Ne, lookup_eq_none_iff, not_not, numbers]

/-- A written block has data. -/
theorem Stored.data_isSome (h : Stored d) : (d.data b).isSome = d.written b := by
  unfold Blocks.data written
  cases hlookup : d.writtenBlocks.lookup b with
  | none => rfl
  | some slot =>
    have hslot := h.slot_lt hlookup
    have hchunk := h.div_lt hslot
    have hlength := h.chunk _ (getElem_mem hchunk)
    have hmod : slot % writeChunkBlocks < writeChunkBlocks := Nat.mod_lt _ (by decide)
    rw [Option.bind_some, slotData, List.getElem?_eq_getElem hchunk, Option.bind_some,
      List.getElem?_eq_getElem (by rw [hlength]; exact hmod)]
    rfl

/-- What was written is what the disk gives for the block. -/
theorem cachedBlock_of_data (h : d.data b = some v) : d.cachedBlock b = some v := by
  unfold Blocks.data at h
  rw [cachedBlock]
  cases hlookup : d.writtenBlocks.lookup b with
  | none =>
    rw [hlookup] at h
    cases h
  | some slot =>
    rw [hlookup] at h
    exact h

theorem data_eq (d : Blocks β) (b : Nat) :
    d.data b = if d.written b then d.cachedBlock b else none := by
  unfold Blocks.data written cachedBlock
  cases d.writtenBlocks.lookup b <;> rfl

/-! ## Blocks put one after another -/

/-- Blocks are written one after another. -/
def putAll (f : Nat → Option β) (ps : List (Nat × β)) : Nat → Option β :=
  ps.foldl (fun f p => Function.update f p.1 (some p.2)) f

theorem holds_empty : Holds (empty : Blocks β) fun _ => none where
  stored := ⟨rfl, nofun, by simp [empty, ceilDiv, writeChunkBlocks]⟩
  nodup := nodup_nil
  data := rfl

theorem putAll_append (f : Nat → Option β) (ps qs : List (Nat × β)) :
    putAll f (ps ++ qs) = putAll (putAll f ps) qs := foldl_append

theorem putAll_of_not_mem (hb : b ∉ ps.map Prod.fst) : putAll f ps b = f b := by
  induction ps generalizing f with
  | nil => rfl
  | cons p ps ih =>
    rw [map_cons, mem_cons, not_or] at hb
    exact (ih hb.2).trans (Function.update_of_ne hb.1 _ _)

/-- A block that is written once has what was written. -/
theorem putAll_of_mem (hnodup : (ps.map Prod.fst).Nodup)
    (hmem : (b, v) ∈ ps) : putAll f ps b = some v := by
  induction ps generalizing f with
  | nil => exact absurd hmem not_mem_nil
  | cons p ps ih =>
    rw [map_cons, nodup_cons] at hnodup
    rcases List.mem_cons.1 hmem with rfl | hmem
    · exact (putAll_of_not_mem hnodup.1).trans (Function.update_self _ _ _)
    · exact ih hnodup.2 hmem

/-! ## Chunks -/

/-- Elements of chunks of one length. -/
theorem getElem?_flatten_of_length (h : ∀ chunk ∈ chunks, chunk.length = w) (hw : 0 < w) :
    chunks.flatten[k]? = chunks[k / w]?.bind (·[k % w]?) := by
  induction chunks generalizing k with
  | nil => simp
  | cons chunk chunks ih =>
    have hlength := h chunk mem_cons_self
    rw [flatten_cons]
    rcases Nat.lt_or_ge k w with hlt | hge
    · rw [List.getElem?_append_left (by omega), Nat.div_eq_of_lt hlt, Nat.mod_eq_of_lt hlt]
      rfl
    · rw [List.getElem?_append_right (by omega), hlength,
        ih fun c hc => h c (mem_cons_of_mem _ hc), Nat.div_eq_sub_div hw hge,
        List.getElem?_cons_succ, ← Nat.mod_eq_sub_mod hge]

/-- The chunks of a snapshot together are the slots that are in use. -/
theorem flatten_take (h : ∀ chunk ∈ chunks, chunk.length = w) (n : Nat) :
    (chunks.mapIdx fun i chunk => chunk.take (min w (n - i * w))).flatten =
      chunks.flatten.take n := by
  induction chunks generalizing n with
  | nil => simp
  | cons chunk chunks ih =>
    have hlength := h chunk mem_cons_self
    have hrest := ih (fun c hc => h c (mem_cons_of_mem _ hc)) (n - w)
    have hshift : (fun i (c : List β) => c.take (min w (n - (i + 1) * w))) =
        fun i c => c.take (min w (n - w - i * w)) := by
      funext i c
      have hsub : n - (i + 1) * w = n - w - i * w := by
        rw [Nat.add_mul, Nat.one_mul, Nat.sub_sub, Nat.add_comm]
      rw [hsub]
    rw [mapIdx_cons, flatten_cons, hshift, hrest, flatten_cons, take_append,
      hlength, Nat.zero_mul, Nat.sub_zero]
    congr 1
    rw [Nat.min_comm, ← take_take, take_of_length_le hlength.le]

theorem length_mapSet_le (m : List (Nat × Nat)) (p : Nat × Nat) :
    (mapSet m p).length ≤ m.length + 1 := by
  unfold mapSet
  split
  · rw [length_map]
    exact Nat.le_succ _
  · rw [length_append]
    exact Nat.le_refl _

theorem length_foldl_mapSet_le (m ps : List (Nat × Nat)) :
    (ps.foldl mapSet m).length ≤ m.length + ps.length := by
  induction ps generalizing m with
  | nil => exact Nat.le_refl _
  | cons p ps ih =>
    have hstep := length_mapSet_le m p
    have hrest := ih (mapSet m p)
    rw [foldl_cons, length_cons]
    omega

/-- Where no key occurs twice, `set` appends. -/
theorem foldl_mapSet {ps : List (Nat × Nat)} (hnodup : ((m ++ ps).map Prod.fst).Nodup) :
    ps.foldl mapSet m = m ++ ps := by
  induction ps generalizing m with
  | nil => rw [append_nil, foldl_nil]
  | cons p ps ih =>
    have hnew : m.lookup p.1 = none := by
      rw [lookup_eq_none_iff]
      intro hmem
      rw [map_append, map_cons] at hnodup
      exact (List.nodup_append.1 hnodup).2.2 _ hmem _ mem_cons_self rfl
    have hset : mapSet m p = m ++ [p] := by
      rw [mapSet, hnew]
      rfl
    rw [foldl_cons, hset, ih (by simpa using hnodup), append_assoc]
    rfl

/-- If the map has grown with every `set`, then no key occurs twice. -/
theorem nodup_of_length_foldl_mapSet {ps : List (Nat × Nat)} (hm : (m.map Prod.fst).Nodup)
    (hlength : (ps.foldl mapSet m).length = m.length + ps.length) :
    ((m ++ ps).map Prod.fst).Nodup := by
  induction ps generalizing m with
  | nil => simpa using hm
  | cons p ps ih =>
    have hstep := length_mapSet_le m p
    have hrest := length_foldl_mapSet_le (mapSet m p) ps
    rw [foldl_cons, length_cons] at hlength
    have hset : mapSet m p = m ++ [p] ∧ p.1 ∉ m.map Prod.fst := by
      unfold mapSet at hlength hrest ⊢
      split
      case isTrue hfound =>
        rw [if_pos hfound, length_map] at hrest
        rw [if_pos hfound] at hlength
        omega
      case isFalse hnew =>
        refine ⟨rfl, ?_⟩
        rw [← lookup_eq_none_iff]
        exact Option.not_isSome_iff_eq_none.1 hnew
    rw [hset.1] at hlength
    have hnodup : ((m ++ [p]).map Prod.fst).Nodup := by
      rw [map_append, map_singleton]
      refine List.nodup_append.2 ⟨hm, nodup_singleton _, fun x hx y hy hxy => ?_⟩
      rw [List.mem_singleton.1 hy] at hxy
      exact hset.2 (hxy ▸ hx)
    have := ih hnodup (by rw [hlength, length_append, length_singleton]; omega)
    rwa [append_assoc] at this

/-- A full chunk is taken over, with a slot for each of its blocks. -/
theorem Holds.adopt (h : Holds d f) (hi : d.writtenBlocks.length = i)
    (haligned : i % writeChunkBlocks = 0) {chunk : List β}
    (hchunk : chunk.length = writeChunkBlocks) {numbers : List Nat}
    (hnumbers : numbers.length = writeChunkBlocks)
    (hnodup : (d.numbers ++ numbers).Nodup) :
    Holds { d with
        writeChunks := d.writeChunks ++ [chunk]
        writtenBlocks := d.writtenBlocks ++ numbers.zipIdx i }
      (putAll f (numbers.zip chunk)) := by
  have hkeys : (numbers.zipIdx i).map Prod.fst = numbers := zipIdx_map_fst i numbers
  have hall : (d.writtenBlocks ++ numbers.zipIdx i).map Prod.fst = d.numbers ++ numbers := by
    rw [map_append, hkeys, Blocks.numbers]
  have hdiv : d.writeChunks.length = i / writeChunkBlocks := by
    rw [h.stored.chunks, hi]
    unfold ceilDiv writeChunkBlocks at *
    omega
  refine ⟨⟨?_, ?_, ?_⟩, ?_, ?_⟩
  · rw [map_append, h.stored.slots, hi, length_append, hi, length_zipIdx,
      zipIdx_map_snd, range_add, List.range'_eq_map_range]
  · intro c hc
    rcases List.mem_append.1 hc with hc | hc
    · exact h.stored.chunk c hc
    · rw [List.mem_singleton.1 hc, hchunk]
  · rw [length_append, length_singleton, hdiv, length_append, hi, length_zipIdx, hnumbers]
    unfold ceilDiv writeChunkBlocks at *
    omega
  · show ((d.writtenBlocks ++ numbers.zipIdx i).map Prod.fst).Nodup
    rw [hall]
    exact hnodup
  · funext b
    unfold Blocks.data
    dsimp only
    rw [lookup_append]
    have hzip : (numbers.zip chunk).map Prod.fst = numbers :=
      map_fst_zip (by rw [hnumbers, hchunk])
    rcases Classical.em (b ∈ numbers) with hb | hb
    · -- a block of the chunk
      obtain ⟨k, hk, rfl⟩ := getElem_of_mem hb
      have hnone : d.writtenBlocks.lookup numbers[k] = none := by
        rw [lookup_eq_none_iff]
        exact fun hmem => (List.nodup_append.1 hnodup).2.2 _ hmem _ hb rfl
      have hslot : (numbers.zipIdx i).lookup numbers[k] = some (i + k) := by
        refine lookup_of_mem ?_ ?_
        · rw [hkeys]
          exact (List.nodup_append.1 hnodup).2.1
        · rw [List.mk_mem_zipIdx_iff_le_and_getElem?_sub, Nat.add_sub_cancel_left,
            List.getElem?_eq_getElem hk]
          exact ⟨Nat.le_add_right _ _, rfl⟩
      have hk' : k < chunk.length := by rw [hchunk, ← hnumbers]; exact hk
      have hput : putAll f (numbers.zip chunk) numbers[k] = some chunk[k] := by
        refine putAll_of_mem ?_ ?_
        · rw [hzip]
          exact (List.nodup_append.1 hnodup).2.1
        · rw [mem_iff_getElem]
          exact ⟨k, by rw [length_zip]; omega, getElem_zip⟩
      have hdivk : (i + k) / writeChunkBlocks = d.writeChunks.length := by
        rw [hdiv]
        unfold writeChunkBlocks at *
        omega
      have hmodk : (i + k) % writeChunkBlocks = k := by
        unfold writeChunkBlocks at *
        omega
      rw [hnone, hslot, hput]
      simp only [Option.none_or, Option.bind_some, slotData, hdivk, hmodk]
      rw [List.getElem?_append_right (Nat.le_refl _), Nat.sub_self, List.getElem?_cons_zero,
        Option.bind_some, List.getElem?_eq_getElem hk']
    · have hnone : (numbers.zipIdx i).lookup b = none := by
        rw [lookup_eq_none_iff, hkeys]
        exact hb
      rw [putAll_of_not_mem (by rw [hzip]; exact hb), ← h.data, hnone, Option.or_none]
      unfold Blocks.data
      cases hlookup : d.writtenBlocks.lookup b with
      | none => rfl
      | some slot =>
        have hslot := h.stored.div_lt (h.stored.slot_lt hlookup)
        simp only [Option.bind_some, slotData]
        rw [List.getElem?_append_left hslot]

/-! ## What a snapshot has -/

/-- The block numbers of a snapshot, each at its slot. -/
theorem foldl_set_slots {l : List (Nat × Nat)} {a : List Nat} {n : Nat}
    (hslots : l.map Prod.snd = List.range' n l.length) (ha : a.length = n + l.length) :
    l.foldl (fun (a : List Nat) p => a.set p.2 p.1) a = a.take n ++ l.map Prod.fst := by
  induction l generalizing a n with
  | nil => rw [foldl_nil, map_nil, append_nil, take_of_length_le (Nat.le_of_eq (by simpa using ha))]
  | cons p l ih =>
    obtain ⟨number, slot⟩ := p
    rw [map_cons, length_cons, List.range'_succ] at hslots
    obtain ⟨hslot, hrest⟩ := List.cons.inj hslots
    have hslot : slot = n := hslot
    subst hslot
    rw [length_cons] at ha
    rw [foldl_cons, ih hrest (by rw [length_set]; omega), take_add_one,
      List.getElem?_set_self (by omega), take_set_of_le (Nat.le_refl _)]
    simp

/-- The written block at a slot has the data of the slot. -/
theorem Holds.data_getElem (h : Holds d f) (hk : k < d.numbers.length) :
    d.data d.numbers[k] = d.slotData k := by
  have hk' : k < d.writtenBlocks.length := by rwa [← length_numbers]
  have hslot : (d.writtenBlocks[k]).2 = k := by
    have hget : (d.writtenBlocks.map Prod.snd)[k]? = some k := by
      rw [h.stored.slots, List.getElem?_range hk']
    rw [List.getElem?_map, List.getElem?_eq_getElem hk', Option.map_some] at hget
    exact Option.some.inj hget
  have hnumber : d.numbers[k] = (d.writtenBlocks[k]).1 := getElem_map _
  have hmem : ((d.writtenBlocks[k]).1, k) ∈ d.writtenBlocks := by
    have hpair : ((d.writtenBlocks[k]).1, k) = d.writtenBlocks[k] := Prod.ext rfl hslot.symm
    rw [hpair]
    exact getElem_mem hk'
  unfold Blocks.data
  rw [hnumber, lookup_of_mem h.nodup hmem, Option.bind_some]

theorem Holds.getState_indices (h : Holds d f) :
    d.getState.indices = d.numbers.map fun (index : Nat) => some (index : Rat) := by
  have hslots : d.writtenBlocks.map Prod.snd = List.range' 0 d.writtenBlocks.length := by
    rw [h.stored.slots, range_eq_range']
  rw [getState]
  dsimp only
  rw [foldl_set_slots hslots (by simp), take_zero, nil_append, numbers]

/-- A number of a block of the disk is accepted. -/
theorem blockNumber_natCast {byteLength : Nat} (hb : b * blockSize < byteLength) :
    blockNumber byteLength (some (b : Rat)) = some b := by
  have hlt : (b : Rat) < (byteLength : Rat) / (blockSize : Rat) := by
    rw [lt_div_iff₀ (by decide)]
    exact_mod_cast hb
  unfold blockNumber
  dsimp only
  rw [if_pos ⟨Rat.den_natCast b, Nat.cast_nonneg b, hlt⟩, Rat.num_natCast, Int.toNat_natCast]

/-! ## Writing -/

variable [Inhabited β]

theorem numbers_writeBlock (d : Blocks β) (i : Nat) (v : β) :
    (d.writeBlock i v).numbers = if d.written i then d.numbers else d.numbers ++ [i] := by
  unfold writeBlock written numbers
  split
  case h_1 slot hslot =>
    rw [hslot]
    rfl
  case h_2 hnone =>
    rw [hnone]
    simp

/-- A block is written. -/
theorem Holds.writeBlock (h : Holds d f) (i : Nat) (v : β) :
    Holds (d.writeBlock i v) (Function.update f i (some v)) := by
  obtain ⟨hstored, hcached, hwritten, -⟩ := writeBlock_spec (i := i) (v := v) h.stored
  refine ⟨hstored, ?_, ?_⟩
  · rw [numbers_writeBlock]
    split
    · exact h.nodup
    case isFalse hnot =>
      refine List.nodup_append.2 ⟨h.nodup, nodup_singleton _, fun x hx y hy hxy => ?_⟩
      rw [List.mem_singleton.1 hy] at hxy
      rw [hxy] at hx
      exact hnot (mem_numbers.1 hx)
  · funext b
    rw [data_eq, hwritten, hcached]
    by_cases hb : b = i
    · subst hb
      simp
    · rw [Function.update_of_ne hb, ← h.data, data_eq]
      simp [hb]

theorem Holds.writeBlocks (h : Holds d f) (ps : List (Nat × β)) :
    Holds (ps.foldl (fun d p => d.writeBlock p.1 p.2) d) (putAll f ps) := by
  induction ps generalizing d f with
  | nil => exact h
  | cons p ps ih => exact ih (h.writeBlock p.1 p.2)

/-- New blocks take new slots. -/
theorem numbers_writeBlocks {ps : List (Nat × β)} (h : Holds d f)
    (hnodup : (d.numbers ++ ps.map Prod.fst).Nodup) :
    (ps.foldl (fun d p => d.writeBlock p.1 p.2) d).numbers = d.numbers ++ ps.map Prod.fst := by
  induction ps generalizing d f with
  | nil => simp
  | cons p ps ih =>
    have hnew : d.written p.1 = false := by
      rw [Bool.eq_false_iff, Ne, ← mem_numbers]
      intro hmem
      exact (List.nodup_append.1 hnodup).2.2 _ hmem _ mem_cons_self rfl
    have hnumbers : (d.writeBlock p.1 p.2).numbers = d.numbers ++ [p.1] := by
      rw [numbers_writeBlock, hnew]
      rfl
    have hrest := ih (h.writeBlock p.1 p.2) (by
      rw [hnumbers, append_assoc]
      exact hnodup)
    rw [hnumbers, append_assoc] at hrest
    exact hrest

/-! ## Restoring -/

variable {indices : List Nat} {chunk : List β} {chunks : List (List β)} {byteLength : Nat}

/-- A chunk of new blocks is restored. -/
theorem Holds.restoreChunk (h : Holds d f) (hi : d.writtenBlocks.length = i)
    (hcount : i + chunk.length ≤ indices.length) (hnodup : (d.numbers ++ indices.drop i).Nodup) :
    ∃ d', Blocks.restoreChunk indices (d, i) chunk = some (d', i + chunk.length) ∧
      Holds d' (putAll f (((indices.drop i).take chunk.length).zip chunk)) ∧
      d'.numbers = d.numbers ++ (indices.drop i).take chunk.length := by
  generalize hnumbers : (indices.drop i).take chunk.length = numbers
  have hlength : numbers.length = chunk.length := by
    rw [← hnumbers, length_take, length_drop]
    omega
  have hnodup' : (d.numbers ++ numbers).Nodup := by
    rw [← hnumbers]
    exact hnodup.sublist ((take_sublist _ _).append_left _)
  unfold Blocks.restoreChunk
  dsimp only
  rw [hnumbers]
  split
  case isTrue hfull =>
    have hkeys : ((d.writtenBlocks ++ numbers.zipIdx i).map Prod.fst).Nodup := by
      rw [map_append, zipIdx_map_fst]
      exact hnodup'
    rw [foldl_mapSet hkeys, if_neg]
    · refine ⟨_, rfl, h.adopt hi hfull.2 hfull.1 (hlength.trans hfull.1) hnodup', ?_⟩
      show (d.writtenBlocks ++ numbers.zipIdx i).map Prod.fst = _
      rw [map_append, zipIdx_map_fst, Blocks.numbers]
    · rw [length_append, length_zipIdx, hi, hlength, ne_eq, not_not]
  case isFalse =>
    have hzip : (numbers.zip chunk).map Prod.fst = numbers := map_fst_zip hlength.le
    rw [← hzip] at hnodup'
    have hnumbers' := numbers_writeBlocks h hnodup'
    rw [hzip] at hnumbers'
    exact ⟨_, rfl, h.writeBlocks _, hnumbers'⟩

/-- Chunks of new blocks are restored. -/
theorem Holds.restoreChunks (h : Holds d f) (hi : d.writtenBlocks.length = i)
    (hcount : i + chunks.flatten.length = indices.length)
    (hnodup : (d.numbers ++ indices.drop i).Nodup) :
    ∃ d', chunks.foldlM (Blocks.restoreChunk indices) (d, i) =
        some (d', i + chunks.flatten.length) ∧
      Holds d' (putAll f ((indices.drop i).zip chunks.flatten)) := by
  induction chunks generalizing d f i with
  | nil =>
    refine ⟨d, rfl, ?_⟩
    rw [flatten_nil, zip_nil_right]
    exact h
  | cons chunk chunks ih =>
    rw [flatten_cons, length_append] at hcount
    have hchunk : i + chunk.length ≤ indices.length := by omega
    obtain ⟨d₁, hrestore, hholds, hnumbers⟩ := h.restoreChunk hi hchunk hnodup
    have hsplit : indices.drop i =
        (indices.drop i).take chunk.length ++ indices.drop (i + chunk.length) := by
      rw [← drop_drop, take_append_drop]
    have hi₁ : d₁.writtenBlocks.length = i + chunk.length := by
      rw [← length_numbers, hnumbers, length_append, length_numbers, hi, length_take, length_drop]
      omega
    have hnodup₁ : (d₁.numbers ++ indices.drop (i + chunk.length)).Nodup := by
      rw [hnumbers, append_assoc, ← hsplit]
      exact hnodup
    obtain ⟨d', hrest, hholds'⟩ := ih hholds hi₁ (by omega) hnodup₁
    refine ⟨d', ?_, ?_⟩
    · rw [foldlM_cons, hrestore, flatten_cons, length_append, ← Nat.add_assoc]
      exact hrest
    · rw [flatten_cons, hsplit, zip_append, putAll_append]
      · exact hholds'
      · rw [length_take, length_drop]
        omega

/-- What `set_state` accepts: whatever is saved, the slots are in order. -/
theorem restoreChunk_ordered (hstored : Stored d) (hnodup : d.numbers.Nodup)
    (hi : d.writtenBlocks.length ≤ i) (hcount : i + chunk.length ≤ indices.length)
    (h : Blocks.restoreChunk indices (d, i) chunk = some (d', k)) :
    Stored d' ∧ d'.numbers.Nodup ∧ d'.writtenBlocks.length ≤ k ∧ k = i + chunk.length := by
  have hholds : Holds d d.data := ⟨hstored, hnodup, rfl⟩
  unfold Blocks.restoreChunk at h
  dsimp only at h
  generalize hnumbers : (indices.drop i).take chunk.length = numbers at h
  have hlength : numbers.length = chunk.length := by
    rw [← hnumbers, length_take, length_drop]
    omega
  split at h
  case isTrue hfull =>
    split at h
    · cases h
    case isFalse hsize =>
      -- the map has grown with every block
      rw [ne_eq, not_not] at hsize
      have hle := length_foldl_mapSet_le d.writtenBlocks (numbers.zipIdx i)
      rw [length_zipIdx, hlength] at hle
      have hi' : d.writtenBlocks.length = i := by omega
      have hgrown : ((numbers.zipIdx i).foldl mapSet d.writtenBlocks).length =
          d.writtenBlocks.length + (numbers.zipIdx i).length := by
        rw [length_zipIdx, hlength, hi']
        exact hsize
      have hkeys := nodup_of_length_foldl_mapSet hnodup hgrown
      rw [foldl_mapSet hkeys] at h
      rw [map_append, zipIdx_map_fst] at hkeys
      obtain ⟨rfl, rfl⟩ := Prod.mk.inj (Option.some.inj h)
      have hadopt := hholds.adopt hi' hfull.2 hfull.1 (hlength.trans hfull.1) hkeys
      refine ⟨hadopt.stored, hadopt.nodup, ?_, rfl⟩
      rw [length_append, length_zipIdx, hlength, hi']
  case isFalse =>
    obtain ⟨rfl, rfl⟩ := Prod.mk.inj (Option.some.inj h)
    have hwrite := hholds.writeBlocks (numbers.zip chunk)
    refine ⟨hwrite.stored, hwrite.nodup, ?_, rfl⟩
    have hgrow : ∀ (ps : List (Nat × β)) (d : Blocks β),
        (ps.foldl (fun d p => d.writeBlock p.1 p.2) d).writtenBlocks.length ≤
          d.writtenBlocks.length + ps.length := by
      intro ps
      induction ps with
      | nil => exact fun d => Nat.le_refl _
      | cons p ps ih =>
        intro d
        have hstep : (d.writeBlock p.1 p.2).writtenBlocks.length ≤ d.writtenBlocks.length + 1 := by
          rw [← length_numbers, ← length_numbers, numbers_writeBlock]
          split
          · exact Nat.le_succ _
          · rw [length_append]
            exact Nat.le_refl _
        have hrest := ih (d.writeBlock p.1 p.2)
        rw [foldl_cons, length_cons]
        omega
    have hlen := hgrow (numbers.zip chunk) d
    rw [length_zip] at hlen
    omega

theorem restoreChunks_ordered (hstored : Stored d) (hnodup : d.numbers.Nodup)
    (hi : d.writtenBlocks.length ≤ i) (hcount : i + chunks.flatten.length ≤ indices.length)
    (h : chunks.foldlM (Blocks.restoreChunk indices) (d, i) = some (d', k)) :
    Stored d' ∧ d'.numbers.Nodup := by
  induction chunks generalizing d i with
  | nil =>
    obtain ⟨rfl, rfl⟩ := Prod.mk.inj (Option.some.inj h)
    exact ⟨hstored, hnodup⟩
  | cons chunk chunks ih =>
    rw [flatten_cons, length_append] at hcount
    rw [foldlM_cons, Option.bind_eq_bind, Option.bind_eq_some_iff] at h
    obtain ⟨⟨d₁, i₁⟩, hrestore, hrest⟩ := h
    obtain ⟨hstored₁, hnodup₁, hi₁, rfl⟩ :=
      restoreChunk_ordered hstored hnodup hi (by omega) hrestore
    exact ih hstored₁ hnodup₁ hi₁ (by omega) hrest

/-- A disk that `set_state` accepts has each block in a slot of its own. -/
theorem setState_ordered {s : SavedDisk β} (h : setState byteLength s = some d) :
    Stored d ∧ d.numbers.Nodup := by
  unfold setState at h
  split at h
  case h_1 blocks _ =>
    obtain rfl := Option.some.inj h
    have hholds := (holds_empty (β := β)).writeBlocks blocks
    exact ⟨hholds.stored, hholds.nodup⟩
  case h_2 =>
    split at h
    · cases h
    dsimp only at h
    split at h
    · cases h
    case isFalse hvalid =>
      rw [not_or, ne_eq, not_not, Bool.not_eq_true, any_eq_false] at hvalid
      rw [Option.map_eq_some_iff] at h
      obtain ⟨⟨d', k⟩, hrestore, rfl⟩ := h
      have hlength : (s.indices.filterMap (blockNumber byteLength)).length = s.indices.length := by
        refine List.filterMap_length_eq_length.2 fun index hindex => ?_
        exact Option.isSome_iff_ne_none.2 fun hnone =>
          hvalid.2 index hindex (by rw [hnone]; rfl)
      refine restoreChunks_ordered holds_empty.stored holds_empty.nodup (Nat.le_refl 0) ?_ hrestore
      rw [hlength, hvalid.1, length_flatten, Nat.zero_add]

/-! ## Snapshots -/

/-- A disk is restored from its snapshot. -/
theorem Holds.setState_getState (h : Holds d f)
    (hlt : ∀ b ∈ d.numbers, b * blockSize < byteLength) :
    ∃ d', setState byteLength d.getState = some d' ∧ Holds d' f := by
  have hchunks : d.getState.chunks = (d.writeChunks.mapIdx fun i chunk =>
      chunk.take (min writeChunkBlocks (d.writtenBlocks.length - i * writeChunkBlocks))).map
        some := by
    rw [getState]
    apply ext_getElem?
    intro i
    rw [List.getElem?_map, List.getElem?_mapIdx, List.getElem?_mapIdx, Option.map_map]
    rfl
  have hflatten := flatten_take h.stored.chunk d.writtenBlocks.length
  generalize (d.writeChunks.mapIdx fun i chunk => chunk.take (min writeChunkBlocks
    (d.writtenBlocks.length - i * writeChunkBlocks))) = chunks at hchunks hflatten
  have hfull : d.writtenBlocks.length ≤ d.writeChunks.flatten.length := by
    have hchunk : d.writeChunks.map List.length = d.writeChunks.map fun _ => writeChunkBlocks :=
      map_congr_left h.stored.chunk
    rw [length_flatten, hchunk, map_const', sum_replicate, smul_eq_mul, h.stored.chunks]
    unfold ceilDiv writeChunkBlocks
    omega
  have hlength : chunks.flatten.length = d.numbers.length := by
    rw [hflatten, length_take, length_numbers, Nat.min_eq_left hfull]
  have hfilter : (d.getState.chunks).filterMap id = chunks := by
    rw [hchunks, filterMap_map]
    exact filterMap_some
  have hindices : d.getState.indices.filterMap (blockNumber byteLength) = d.numbers := by
    rw [h.getState_indices, filterMap_map]
    have hall : ∀ b ∈ d.numbers,
        (blockNumber byteLength ∘ fun (index : Nat) => some (index : Rat)) b = some b :=
      fun b hb => blockNumber_natCast (hlt b hb)
    rw [filterMap_congr hall]
    exact filterMap_some
  have hcount : 0 + chunks.flatten.length = d.numbers.length := by rw [hlength, Nat.zero_add]
  have hnew : ((empty : Blocks β).numbers ++ d.numbers.drop 0).Nodup := h.nodup
  have hnone : (empty : Blocks β).writtenBlocks.length = 0 := rfl
  obtain ⟨d', hrestore, hholds⟩ := holds_empty.restoreChunks hnone hcount hnew
  refine ⟨d', ?_, ?_⟩
  · unfold setState
    have hbefore : d.getState.before = none := rfl
    rw [hbefore]
    dsimp only
    rw [if_neg, hfilter, if_neg, hindices, hrestore]
    · rfl
    · rw [not_or, ne_eq, not_not, Bool.not_eq_true, any_eq_false, h.getState_indices,
        length_map, ← length_flatten, hlength]
      refine ⟨rfl, fun index hindex => ?_⟩
      obtain ⟨b, hb, rfl⟩ := List.mem_map.1 hindex
      rw [blockNumber_natCast (hlt b hb)]
      nofun
    · rw [hchunks]
      simp
  · have hput : putAll (fun _ => none) ((d.numbers.drop 0).zip chunks.flatten) = f := by
      rw [← h.data, drop_zero]
      funext b
      have hzip : (d.numbers.zip chunks.flatten).map Prod.fst = d.numbers :=
        map_fst_zip hlength.ge
      rcases Classical.em (b ∈ d.numbers) with hb | hb
      · obtain ⟨k, hk, rfl⟩ := getElem_of_mem hb
        have hdata : chunks.flatten[k]? = d.data d.numbers[k] := by
          rw [h.data_getElem hk, hflatten, List.getElem?_take, if_pos (by rwa [← length_numbers]),
            getElem?_flatten_of_length h.stored.chunk (by decide)]
          rfl
        have hk' : k < chunks.flatten.length := by rwa [hlength]
        rw [← hdata, List.getElem?_eq_getElem hk']
        refine putAll_of_mem (by rw [hzip]; exact h.nodup) ?_
        rw [mem_iff_getElem]
        exact ⟨k, by rw [length_zip]; omega, getElem_zip⟩
      · rw [putAll_of_not_mem (by rw [hzip]; exact hb)]
        unfold Blocks.data
        rw [lookup_eq_none_iff.2 hb]
        rfl
    rw [hput] at hholds
    exact hholds

end Blocks

end V86.Disk
