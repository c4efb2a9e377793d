import V86.Disk.Buffer
import Mathlib.Algebra.Order.Group.Nat

/-!
# What the reads of a lazily loaded disk see

A block's value is what was last set, or the image's. A read may answer with the value at its
start or with one set since. The blocks kept from reads are blocks of the image that were never
written.
-/

namespace V86.Disk

open List Function

variable {β : Type _} {image : Nat → β} {log more : List (Nat × β)} {d : Blocks β}
  {b i start count : Nat} {v : β}

/-! ## Values -/

/-- The value of a block after the sets of a log. -/
def valueAt (image : Nat → β) (log : List (Nat × β)) : Nat → β :=
  log.foldl (fun f p => Function.update f p.1 p.2) image

/-- What a read may give for a block: the value it had when the read was issued, or one set
between then and the answer. -/
def Allowed (image : Nat → β) (log : List (Nat × β)) (issued answered b : Nat) (v : β) : Prop :=
  v = valueAt image (log.take issued) b ∨ (b, v) ∈ (log.take answered).drop issued

theorem valueAt_append :
    valueAt image (log ++ more) = valueAt (valueAt image log) more := foldl_append

theorem valueAt_concat :
    valueAt image (log ++ [(i, v)]) b = if b = i then v else valueAt image log b := by
  rw [valueAt_append]
  exact update_apply _ _ _ _

theorem valueAt_eq_or_mem : valueAt image log b = image b ∨ (b, valueAt image log b) ∈ log := by
  induction log generalizing image with
  | nil => exact .inl rfl
  | cons p log ih =>
    obtain ⟨i, w⟩ := p
    have hrest : valueAt image ((i, w) :: log) = valueAt (Function.update image i w) log := rfl
    rw [hrest]
    rcases @ih (Function.update image i w) with heq | hmem
    · by_cases hb : b = i
      · subst hb
        rw [update_self] at heq
        exact .inr (List.mem_cons.2 (.inl (congrArg (Prod.mk b) heq)))
      · rw [update_of_ne hb] at heq
        exact .inl heq
    · exact .inr (mem_cons_of_mem _ hmem)

theorem valueAt_of_not_mem (h : ∀ v, (b, v) ∉ log) : valueAt image log b = image b :=
  valueAt_eq_or_mem.resolve_right (h _)

/-- What a block is when the answer is given. -/
theorem allowed_valueAt {issued : Nat} :
    Allowed image log issued log.length b (valueAt image log b) := by
  have hlog : valueAt image log = valueAt (valueAt image (log.take issued)) (log.drop issued) := by
    rw [← valueAt_append, take_append_drop]
  unfold Allowed
  rw [take_length, hlog]
  exact valueAt_eq_or_mem

theorem Allowed.append {issued answered : Nat} (h : Allowed image log issued answered b v)
    (hi : issued ≤ log.length) (ha : answered ≤ log.length) :
    Allowed image (log ++ more) issued answered b v := by
  unfold Allowed at h ⊢
  rwa [take_append_of_le_length hi, take_append_of_le_length ha]

/-- More sets allow more. -/
theorem Allowed.later {issued : Nat} (h : Allowed image log issued log.length b v)
    (hi : issued ≤ log.length) : Allowed image (log ++ more) issued (log ++ more).length b v := by
  unfold Allowed at h ⊢
  rw [take_length] at h ⊢
  rw [take_append_of_le_length hi, drop_append_of_le_length hi]
  exact h.imp_right fun h => mem_append_left _ h

/-! ## Slots -/

namespace Blocks

/-- The slots of the written blocks are their places in the map, and the chunks hold them. -/
structure Stored (d : Blocks β) : Prop where
  slots : d.writtenBlocks.map Prod.snd = List.range d.writtenBlocks.length
  chunk : ∀ chunk ∈ d.writeChunks, chunk.length = writeChunkBlocks
  chunks : d.writeChunks.length = ceilDiv d.writtenBlocks.length writeChunkBlocks

variable {slot : Nat} {chunks : List (List β)}

theorem Stored.slot_lt (h : Stored d) (hs : d.writtenBlocks.lookup b = some slot) :
    slot < d.writtenBlocks.length := by
  obtain ⟨l₁, l₂, heq, -⟩ := List.lookup_eq_some_iff.1 hs
  have hmem : slot ∈ d.writtenBlocks.map Prod.snd := by
    rw [heq]
    simp
  rw [h.slots] at hmem
  exact List.mem_range.1 hmem

theorem Stored.inj (h : Stored d) (hb : d.writtenBlocks.lookup b = some slot)
    (hi : d.writtenBlocks.lookup i = some slot) : b = i := by
  have hget : ∀ {b}, d.writtenBlocks.lookup b = some slot → d.writtenBlocks[slot]? = some (b, slot) := by
    intro b hb
    obtain ⟨l₁, l₂, heq, -⟩ := List.lookup_eq_some_iff.1 hb
    have hslots := h.slots
    rw [heq] at hslots ⊢
    have hlen : l₁.length = slot := by
      have := congrArg (·[l₁.length]?) hslots
      simpa using this.symm
    rw [← hlen, List.getElem?_append_right le_rfl, Nat.sub_self]
    rfl
  have := (hget hb).symm.trans (hget hi)
  exact congrArg Prod.fst (Option.some.inj this)

theorem Stored.div_lt (h : Stored d) (hs : slot < d.writtenBlocks.length) :
    slot / writeChunkBlocks < d.writeChunks.length := by
  rw [h.chunks]
  unfold ceilDiv writeChunkBlocks
  omega

/-- A slot holds what was put there, and the others what they held. -/
theorem slotData_setSlot {n : Nat} (hlen : ∀ chunk ∈ chunks, chunk.length = writeChunkBlocks)
    (hlt : slot / writeChunkBlocks < chunks.length) :
    (setSlot chunks slot v)[n / writeChunkBlocks]?.bind (·[n % writeChunkBlocks]?) =
      if n = slot then some v else chunks[n / writeChunkBlocks]?.bind (·[n % writeChunkBlocks]?) := by
  have hchunk : chunks[slot / writeChunkBlocks].length = writeChunkBlocks :=
    hlen _ (getElem_mem hlt)
  have hmod : slot % writeChunkBlocks < writeChunkBlocks := Nat.mod_lt _ (by decide)
  have hsplit : ∀ n, n = writeChunkBlocks * (n / writeChunkBlocks) + n % writeChunkBlocks :=
    fun n => (Nat.div_add_mod n _).symm
  rw [setSlot]
  by_cases hdiv : n / writeChunkBlocks = slot / writeChunkBlocks
  · rw [hdiv, List.getElem?_modify_eq, List.getElem?_eq_getElem hlt]
    simp only [Option.map_eq_map, Option.map_some, Option.bind_some]
    by_cases hm : n % writeChunkBlocks = slot % writeChunkBlocks
    · have hn : n = slot := by rw [hsplit n, hsplit slot, hdiv, hm]
      rw [if_pos hn, hm, List.getElem?_set_self (by rw [hchunk]; exact hmod)]
    · have hn : n ≠ slot := fun hn => hm (hn ▸ rfl)
      rw [if_neg hn, List.getElem?_set_ne (Ne.symm hm)]
  · have hn : n ≠ slot := fun hn => hdiv (hn ▸ rfl)
    rw [if_neg hn, List.getElem?_modify_ne _ _ (Ne.symm hdiv)]

theorem length_setSlot : (setSlot chunks slot v).length = chunks.length := length_modify _ _ _

theorem chunk_setSlot (hlen : ∀ chunk ∈ chunks, chunk.length = writeChunkBlocks) :
    ∀ chunk ∈ setSlot chunks slot v, chunk.length = writeChunkBlocks := by
  intro chunk hc
  obtain ⟨n, hn, rfl⟩ := getElem_of_mem hc
  rw [length_setSlot] at hn
  simp only [setSlot, getElem_modify]
  split
  · rw [length_set]
    exact hlen _ (getElem_mem hn)
  · exact hlen _ (getElem_mem hn)

/-- What the disk keeps, against the sets so far. -/
structure Ok (image : Nat → β) (log : List (Nat × β)) (d : Blocks β) : Prop where
  stored : Stored d
  value : ∀ b, (d.cachedBlock b).getD (image b) = valueAt image log b
  cache : ∀ b v, d.blockCache b = some v → d.written b = false ∧ v = image b
  fresh : ∀ b, d.written b = false → ∀ v, (b, v) ∉ log
  present : ∀ b, d.written b = true → (d.cachedBlock b).isSome

theorem ok_empty (image : Nat → β) : Ok image [] empty where
  stored := ⟨rfl, nofun, by simp [empty, ceilDiv, writeChunkBlocks]⟩
  value _ := rfl
  cache _ _ h := by cases h
  fresh _ _ _ := not_mem_nil
  present _ h := by cases h

theorem written_iff : d.written b = true ↔ ∃ slot, d.writtenBlocks.lookup b = some slot :=
  Option.isSome_iff_exists

theorem written_eq_false : d.written b = false ↔ d.writtenBlocks.lookup b = none := by
  rw [written, Option.isSome_eq_false_iff, Option.isNone_iff_eq_none]

theorem cachedBlock_of_not_written (h : d.written b = false) : d.cachedBlock b = d.blockCache b := by
  rw [cachedBlock, written_eq_false.1 h]

/-- A block that no read has kept and nobody has written is the image's. -/
theorem Ok.eq_image (h : Ok image log d) (hw : d.written b = false) :
    valueAt image log b = image b := valueAt_of_not_mem (h.fresh b hw)

theorem Ok.cachedBlock_eq (h : Ok image log d) (hc : d.cachedBlock b = some v) :
    v = valueAt image log b := by
  have := h.value b
  rwa [hc] at this

theorem Ok.not_written (h : Ok image log d) (hc : d.cachedBlock b = none) : d.written b = false := by
  by_contra hw
  have := h.present b (Bool.eq_true_of_not_eq_false hw)
  rw [hc] at this
  cases this

/-- Keeping a block of the image that was not written. -/
theorem Ok.keep (h : Ok image log d) (hw : d.written b = false) :
    Ok image log { d with blockCache := Function.update d.blockCache b (some (image b)) } where
  stored := ⟨h.stored.slots, h.stored.chunk, h.stored.chunks⟩
  fresh := h.fresh
  present i hi := by
    have := h.present i hi
    obtain ⟨slot, hs⟩ := written_iff.1 hi
    simp only [cachedBlock, hs] at this ⊢
    exact this
  cache i v hi := by
    dsimp only at hi
    by_cases hib : i = b
    · subst hib
      rw [update_self] at hi
      exact ⟨hw, (Option.some.inj hi).symm⟩
    · rw [update_of_ne hib] at hi
      exact h.cache i v hi
  value i := by
    by_cases hib : i = b
    · subst hib
      have hnone := written_eq_false.1 hw
      simp only [cachedBlock, hnone, update_self, Option.getD_some]
      exact (h.eq_image hw).symm
    · have := h.value i
      simp only [cachedBlock, update_of_ne hib] at this ⊢
      exact this

variable [Inhabited β]

/-- What `write_block` leaves of the map, the slots and the cache. -/
theorem writeBlock_spec (h : Stored d) : Stored (d.writeBlock i v) ∧
      (∀ b, (d.writeBlock i v).cachedBlock b = if b = i then some v else d.cachedBlock b) ∧
      (∀ b, (d.writeBlock i v).written b = (decide (b = i) || d.written b)) ∧
      ∀ b w, (d.writeBlock i v).blockCache b = some w → d.blockCache b = some w ∧
        (b = i → d.written i = true) := by
  rw [writeBlock]
  split
  case h_1 slot hs =>
    have hlt := h.div_lt (h.slot_lt hs)
    refine ⟨⟨h.slots, chunk_setSlot h.chunk, length_setSlot.trans h.chunks⟩, fun b => ?_, fun b => ?_,
      fun b w hb => ⟨hb, fun _ => written_iff.2 ⟨slot, hs⟩⟩⟩
    · simp only [cachedBlock, slotData]
      by_cases hb : b = i
      · subst hb
        rw [if_pos rfl, hs]
        dsimp only
        rw [slotData_setSlot h.chunk hlt, if_pos rfl]
      · rw [if_neg hb]
        split
        · rfl
        case h_2 n hn =>
          rw [slotData_setSlot h.chunk hlt, if_neg]
          rintro rfl
          exact hb (h.inj hn hs)
    · by_cases hb : b = i
      · subst hb
        simp [written, hs]
      · simp [written, hb]
  case h_2 hnone =>
    set n := d.writtenBlocks.length with hn
    set chunks := if n % writeChunkBlocks = 0 then
      d.writeChunks ++ [List.replicate writeChunkBlocks default] else d.writeChunks with hchunks
    have hlen : ∀ chunk ∈ chunks, chunk.length = writeChunkBlocks := by
      intro chunk hc
      rw [hchunks] at hc
      split at hc
      · rcases List.mem_append.1 hc with hc | hc
        · exact h.chunk chunk hc
        · rw [List.mem_singleton.1 hc, length_replicate]
      · exact h.chunk chunk hc
    have hcount : chunks.length = ceilDiv (n + 1) writeChunkBlocks := by
      have := h.chunks
      rw [hchunks]
      unfold ceilDiv writeChunkBlocks at *
      split
      · rw [length_append, length_singleton]
        omega
      · omega
    have hlt : n / writeChunkBlocks < chunks.length := by
      rw [hcount]
      unfold ceilDiv writeChunkBlocks
      omega
    have hold : ∀ slot, slot < n →
        chunks[slot / writeChunkBlocks]? = d.writeChunks[slot / writeChunkBlocks]? := by
      intro slot hs
      rw [hchunks]
      split
      · rw [List.getElem?_append_left (h.div_lt hs)]
      · rfl
    have hlookup : ∀ b, (d.writtenBlocks ++ [(i, n)]).lookup b =
        if b = i then some n else d.writtenBlocks.lookup b := by
      intro b
      rw [lookup_append]
      by_cases hb : b = i
      · subst hb
        rw [hnone]
        simp
      · cases hl : d.writtenBlocks.lookup b <;> simp [hb]
    refine ⟨⟨?_, chunk_setSlot hlen, ?_⟩, fun b => ?_, fun b => ?_, fun b w hb => ?_⟩
    · show (d.writtenBlocks ++ [(i, n)]).map Prod.snd = List.range (d.writtenBlocks ++ [(i, n)]).length
      rw [map_append, h.slots, length_append]
      exact List.range_succ.symm
    · rw [length_setSlot, hcount, length_append]
      rfl
    · simp only [cachedBlock, slotData, hlookup]
      by_cases hb : b = i
      · simp only [hb, if_true]
        rw [slotData_setSlot hlen hlt, if_pos rfl]
      · simp only [hb, if_false, update_of_ne hb]
        split
        · rfl
        case h_2 slot hs =>
          have hslot := h.slot_lt hs
          rw [slotData_setSlot hlen hlt, if_neg (Nat.ne_of_lt hslot), hold slot hslot]
    · rw [written, hlookup]
      by_cases hb : b = i
      · simp [hb]
      · simp [hb, written]
    · dsimp only at hb
      by_cases hbi : b = i
      · subst hbi
        rw [update_self] at hb
        cases hb
      · rw [update_of_ne hbi] at hb
        exact ⟨hb, fun h => absurd h hbi⟩

/-! ## Writing and reading blocks -/

theorem Ok.writeBlock (h : Ok image log d) (i : Nat) (v : β) :
    Ok image (log ++ [(i, v)]) (d.writeBlock i v) := by
  obtain ⟨hst, hcached, hwritten, hcache⟩ := writeBlock_spec (i := i) (v := v) h.stored
  refine ⟨hst, fun b => ?_, fun b w hb => ?_, fun b hb w hmem => ?_, fun b hb => ?_⟩
  · rw [hcached, valueAt_concat]
    by_cases hbi : b = i
    · rw [if_pos hbi, if_pos hbi, Option.getD_some]
    · rw [if_neg hbi, if_neg hbi]
      exact h.value b
  · obtain ⟨hb, hbi⟩ := hcache b w hb
    obtain ⟨hw, heq⟩ := h.cache b w hb
    refine ⟨?_, heq⟩
    have hne : b ≠ i := fun hb' => Bool.false_ne_true (hw.symm.trans (hb' ▸ hbi hb'))
    simp [hwritten, hne, hw]
  · rw [hwritten, Bool.or_eq_false_iff, decide_eq_false_iff_not] at hb
    rcases List.mem_append.1 hmem with hmem | hmem
    · exact h.fresh b hb.2 w hmem
    · exact hb.1 (congrArg Prod.fst (List.mem_singleton.1 hmem))
  · rw [hcached]
    by_cases hbi : b = i
    · rw [if_pos hbi]
      rfl
    · rw [if_neg hbi]
      rw [hwritten] at hb
      exact h.present b (by simpa [hbi] using hb)

/-- The sets of the blocks of a buffer. -/
def setLog (start : Nat) (data : List β) : List (Nat × β) :=
  (List.range data.length).map fun i => (start + i, data.getD i default)

theorem Ok.set (h : Ok image log d) (start : Nat) (data : List β) :
    Ok image (log ++ setLog start data) (d.set start data) := by
  unfold setLog Blocks.set
  generalize data.length = n
  induction n with
  | zero => simpa using h
  | succ n ih =>
    rw [range_succ, map_append, foldl_append, ← append_assoc]
    exact ih.writeBlock _ _

variable {block : List β}

theorem getFromCache_spec (h : Ok image log d) (hb : d.getFromCache start count = some block) :
    block.length = count ∧ ∀ i, i < count →
      block[i]? = some (valueAt image log (start + i)) ∧ (d.cachedBlock (start + i)).isSome := by
  unfold getFromCache at hb
  split at hb
  case isFalse => cases hb
  case isTrue hall =>
    obtain rfl := Option.some.inj hb
    refine ⟨by simp, fun i hi => ?_⟩
    have hsome : (d.cachedBlock (start + i)).isSome := by
      have := List.all_eq_true.1 hall i (List.mem_range.2 hi)
      rcases Bool.or_eq_true_iff.1 this with hw | hc
      · exact h.present _ hw
      · obtain ⟨w, hw⟩ := Option.isSome_iff_exists.1 hc
        rw [cachedBlock_of_not_written (h.cache _ _ hw).1, hw]
        rfl
    obtain ⟨w, hw⟩ := Option.isSome_iff_exists.1 hsome
    refine ⟨?_, hsome⟩
    rw [List.getElem?_map, List.getElem?_range hi, Option.map_some, hw, h.cachedBlock_eq hw]
    rfl

/-- `handle_read` gives what the blocks of a load are now. -/
theorem handleRead_spec (cacheReads : Bool) (h : Ok image log d)
    (hblock : ∀ i, i < count → block[i]? = some (image (start + i))) :
    Ok image log (d.handleRead cacheReads start count block).1 ∧
      (d.handleRead cacheReads start count block).2.length = block.length ∧
      ∀ i, (d.handleRead cacheReads start count block).2[i]? =
        if i < count then some (valueAt image log (start + i)) else block[i]? := by
  unfold handleRead
  induction count with
  | zero => exact ⟨h, rfl, fun i => rfl⟩
  | succ n ih =>
    obtain ⟨hok, hlen, hget⟩ := ih fun i hi => hblock i (Nat.lt_succ_of_lt hi)
    rw [range_succ, foldl_append, foldl_cons, foldl_nil]
    set s := (List.range n).foldl (readBlock cacheReads start) (d, block)
    have hn : s.2[n]? = some (image (start + n)) := by
      rw [hget, if_neg (Nat.lt_irrefl n), hblock n (Nat.lt_succ_self n)]
    have hnlt : n < s.2.length := (List.getElem?_eq_some_iff.1 hn).1
    unfold readBlock
    split
    case h_1 cached hc =>
      have hcached := hok.cachedBlock_eq hc
      refine ⟨hok, (length_set).trans hlen, fun i => ?_⟩
      by_cases hi : i = n
      · subst hi
        rw [List.getElem?_set_self hnlt, if_pos (Nat.lt_succ_self i), hcached]
      · rw [List.getElem?_set_ne (Ne.symm hi), hget]
        simp only [show i < n + 1 ↔ i < n by omega]
    case h_2 hc =>
      have hw := hok.not_written hc
      have hsame : ∀ i, s.2[i]? =
          if i < n + 1 then some (valueAt image log (start + i)) else block[i]? := by
        intro i
        by_cases hi : i = n
        · subst hi
          rw [hn, if_pos (Nat.lt_succ_self i), hok.eq_image hw]
        · rw [hget]
          simp only [show i < n + 1 ↔ i < n by omega]
      split
      · refine ⟨?_, hlen, hsame⟩
        have : s.2.getD n default = image (start + n) := by
          rw [getD_eq_getElem?_getD, hn, Option.getD_some]
        rw [this]
        exact hok.keep hw
      · exact ⟨hok, hlen, hsame⟩

/-- `get_and_cache` keeps blocks of the image. -/
theorem Ok.keepAll (h : Ok image log d)
    (hblock : ∀ i, i < count → d.written (start + i) = false → block[i]? = some (image (start + i))) : Ok image log (d.keep start count block) := by
  have hboth : Ok image log (d.keep start count block) ∧
      ∀ b, (d.keep start count block).written b = d.written b := by
    unfold Blocks.keep
    induction count with
    | zero => exact ⟨h, fun b => rfl⟩
    | succ n ih =>
      obtain ⟨hok, hw⟩ := ih fun i hi => hblock i (Nat.lt_succ_of_lt hi)
      rw [range_succ, foldl_append, foldl_cons, foldl_nil]
      split
      case isTrue hc =>
        have hnw := (Bool.and_eq_true_iff.1 hc).1
        rw [Bool.not_eq_true'] at hnw
        have hn := hblock n (Nat.lt_succ_self n) ((hw _).symm.trans hnw)
        rw [getD_eq_getElem?_getD, hn, Option.getD_some]
        exact ⟨hok.keep hnw, hw⟩
      case isFalse => exact ⟨hok, hw⟩
  exact hboth.1

end Blocks

end V86.Disk
