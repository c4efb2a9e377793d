import V86.State.Records

/-!
# What a writer writes

`Writer.rest` says which bytes a writer has still to write. A call of `next` either gives a chunk of
them or finds that none are left (`Writer.next_step`), so that the chunks of a whole run are all of
them (`Writer.chunks_eq`).
-/

namespace V86.State

open Bits List

/-! ## Bitmaps -/

section
variable {pages : Nat} {p : Nat → Bool}

theorem bitmapBit_set {bitmap : List Byte} {page : Nat} (h : page < 8 * bitmap.length) (q : Nat) :
    bitmapBit (bitmap.set (page / 8) (bitmap.getD (page / 8) 0 ||| bit 8 (page % 8))) q =
      (bitmapBit bitmap q || page = q) := by
  have hlt : page / 8 < bitmap.length := by omega
  unfold bitmapBit
  simp only [getD_eq_getElem?_getD]
  by_cases hbyte : page / 8 = q / 8
  · rw [← hbyte, List.getElem?_set_self hlt, Option.getD_some]
    by_cases hq : page = q
    · subst hq
      rw [getLsbD_set_self (Nat.mod_lt _ (by decide))]
      simp
    · rw [getLsbD_set_ne (by omega)]
      simp [hq]
  · have hq : page ≠ q := fun h => hbyte (by rw [h])
    rw [List.getElem?_set_ne hbyte]
    simp [hq]

theorem bitmapOf_spec (pages : Nat) (p : Nat → Bool) : (bitmapOf pages p).length = ceilDiv pages 8 ∧
      ∀ q, bitmapBit (bitmapOf pages p) q = (decide (q < pages) && p q) := by
  have hprefix : ∀ k ≤ pages, ((List.range k).foldl (fun bitmap page =>
      if p page then bitmap.set (page / 8) (bitmap.getD (page / 8) 0 ||| bit 8 (page % 8))
      else bitmap) (List.replicate (ceilDiv pages 8) 0)).length = ceilDiv pages 8 ∧
      ∀ q, bitmapBit ((List.range k).foldl (fun bitmap page =>
        if p page then bitmap.set (page / 8) (bitmap.getD (page / 8) 0 ||| bit 8 (page % 8))
        else bitmap) (List.replicate (ceilDiv pages 8) 0)) q = (decide (q < k) && p q) := by
    intro k
    induction k with
    | zero =>
      refine fun _ => ⟨length_replicate, fun q => ?_⟩
      have hzero : (List.replicate (ceilDiv pages 8) (0 : Byte)).getD (q / 8) 0 = 0 := by
        rw [getD_eq_getElem?_getD, List.getElem?_replicate]
        split <;> rfl
      rw [range_zero, foldl_nil, bitmapBit, hzero]
      simp
    | succ k ih =>
      intro hk
      obtain ⟨hlen, hbit⟩ := ih (Nat.le_of_succ_le hk)
      rw [range_succ, foldl_append, foldl_cons, foldl_nil]
      generalize (List.range k).foldl _ _ = bitmap at hlen hbit ⊢
      split
      · next hp =>
        refine ⟨by rw [length_set, hlen], fun q => ?_⟩
        have hlt : k < 8 * bitmap.length := by
          rw [hlen, ceilDiv]
          omega
        rw [bitmapBit_set hlt, hbit]
        by_cases hq : k = q
        · subst hq
          simp [hp]
        · simp [hq, show (q < k + 1) = (q < k) from propext (by omega)]
      · next hp =>
        refine ⟨hlen, fun q => ?_⟩
        rw [hbit]
        by_cases hq : k = q
        · subst hq
          simp [hp]
        · simp [show (q < k + 1) = (q < k) from propext (by omega)]
  exact hprefix pages (Nat.le_refl _)

/-- The pages of a bitmap that was built. -/
theorem setPages_bitmapOf (pages : Nat) (p : Nat → Bool) :
    setPages (bitmapOf pages p) 0 = (List.range pages).filter p := by
  obtain ⟨hlen, hbit⟩ := bitmapOf_spec pages p
  have hsplit : List.range (8 * (bitmapOf pages p).length) =
      List.range pages ++ List.range' pages (8 * (bitmapOf pages p).length - pages) := by
    rw [range_eq_range', range_eq_range']
    have hle : pages ≤ 8 * (bitmapOf pages p).length := by
      rw [hlen, ceilDiv]
      omega
    conv_lhs => rw [← Nat.add_sub_cancel' hle]
    rw [← List.range'_append_1, Nat.zero_add]
  rw [setPages, Nat.sub_zero, ← range_eq_range', hsplit, filter_append]
  have hfirst : (List.range pages).filter (bitmapBit (bitmapOf pages p)) =
      (List.range pages).filter p := by
    refine filter_congr fun q hq => ?_
    rw [hbit, decide_eq_true (List.mem_range.1 hq), Bool.true_and]
  have hlast : (List.range' pages (8 * (bitmapOf pages p).length - pages)).filter
      (bitmapBit (bitmapOf pages p)) = [] := by
    rw [filter_eq_nil_iff]
    intro q hq
    have hge := (List.mem_range'_1.1 hq).1
    rw [hbit, decide_eq_false (Nat.not_lt.2 hge)]
    exact Bool.false_ne_true
  rw [hfirst, hlast, append_nil]

end

/-! ## Pages -/

/-- The bytes of the pages of a bitmap. -/
def pagesData (bitmap : List Byte) (pageOf : Nat → List Byte) : List Byte :=
  (setPages bitmap 0).flatMap pageOf

section
variable {bitmap : List Byte} {pageOf : Nat → List Byte}

theorem length_flatMap_pages (hpage : ∀ q, (pageOf q).length = 4096) (qs : List Nat) :
    (qs.flatMap pageOf).length = 4096 * qs.length := by
  induction qs with
  | nil => rfl
  | cons q qs ih =>
    rw [flatMap_cons, length_append, ih, hpage, length_cons]
    omega

theorem drop_flatMap_pages (hpage : ∀ q, (pageOf q).length = 4096) (qs : List Nat) (n : Nat) :
    (qs.flatMap pageOf).drop (4096 * n) = (qs.drop n).flatMap pageOf := by
  induction qs generalizing n with
  | nil => simp
  | cons q qs ih =>
    cases n with
    | zero => rfl
    | succ n =>
      rw [flatMap_cons, drop_succ_cons, ← ih,
        show 4096 * (n + 1) = (pageOf q).length + 4096 * n by rw [hpage]; omega,
        ← drop_drop, drop_left]

theorem take_flatMap_pages (hpage : ∀ q, (pageOf q).length = 4096) (qs : List Nat) (n : Nat) :
    (qs.flatMap pageOf).take (4096 * n) = (qs.take n).flatMap pageOf := by
  induction qs generalizing n with
  | nil => simp
  | cons q qs ih =>
    cases n with
    | zero => rfl
    | succ n =>
      rw [flatMap_cons, take_succ_cons, flatMap_cons, ← ih,
        show 4096 * (n + 1) = (pageOf q).length + 4096 * n by rw [hpage]; omega, take_add,
        take_left, drop_left]

theorem packPages_eq {n page : Nat} (h : n ≤ (setPages bitmap page).length) :
    ∃ page', packPages bitmap pageOf n page =
        .ok (((setPages bitmap page).take n).flatMap pageOf, page') ∧
      setPages bitmap page' = (setPages bitmap page).drop n := by
  induction n generalizing page with
  | zero => exact ⟨page, rfl, rfl⟩
  | succ n ih =>
    cases hset : setPages bitmap page with
    | nil =>
      rw [hset] at h
      cases h
    | cons q rest =>
      have htail := setPages_tail hset
      rw [hset, length_cons] at h
      rw [← htail] at h
      obtain ⟨page', heq, hpage'⟩ := ih (Nat.le_of_succ_le_succ h)
      refine ⟨page', ?_, by rw [hpage', htail, drop_succ_cons]⟩
      rw [packPages, scan_eq hset, Exec.ok_bind, heq, Exec.ok_bind, htail, take_succ_cons,
        flatMap_cons]

end

@[simp] theorem Memory.length_page (m : Memory) (q : Nat) : (m.page q).length = 4096 := by
  simp [Memory.page]

/-! ## Positions -/

/-- A position in `size` bytes at which a writer of chunks stops. -/
def Aligned (chunk position size : Nat) : Prop :=
  position = size ∨ ∃ i, position = i * chunk ∧ position < size

theorem ceilDiv_zero_ramChunk : ceilDiv 0 ramChunk = 0 := by
  decide

theorem ceilDiv_zero_bufferChunk : ceilDiv 0 (chunkSize - recordSize) = 0 := by
  decide

theorem Aligned.zero (chunk size : Nat) : Aligned chunk 0 size := by
  rcases Nat.eq_zero_or_pos size with h | h
  · exact .inl h.symm
  · exact .inr ⟨0, (Nat.zero_mul chunk).symm, h⟩

/-- The chunk at a position, and the position after it. -/
theorem Aligned.next {chunk position size : Nat} (hc : 0 < chunk) (h : Aligned chunk position size)
    (hlt : position < size) : ceilDiv position chunk * chunk = position ∧
      ceilDiv position chunk < ceilDiv size chunk ∧
      Aligned chunk (position + min chunk (size - position)) size ∧
      ceilDiv (position + min chunk (size - position)) chunk = ceilDiv position chunk + 1 := by
  obtain ⟨i, rfl, _⟩ := h.resolve_left (Nat.ne_of_lt hlt)
  have hi : ceilDiv (i * chunk) chunk = i := by rw [Nat.mul_comm, ceilDiv_mul hc]
  rw [hi]
  refine ⟨rfl, (lt_ceilDiv hc).2 hlt, ?_⟩
  rcases Nat.le_total chunk (size - i * chunk) with hle | hle
  · rw [Nat.min_eq_left hle, ← Nat.succ_mul]
    refine ⟨?_, by rw [Nat.mul_comm, ceilDiv_mul hc]⟩
    rcases Nat.lt_or_ge ((i + 1) * chunk) size with hlt' | hge
    · exact .inr ⟨i + 1, rfl, hlt'⟩
    · refine .inl ?_
      rw [Nat.succ_mul] at hge ⊢
      omega
  · rw [Nat.min_eq_right hle, Nat.add_sub_cancel' (Nat.le_of_lt hlt)]
    refine ⟨.inl rfl, ?_⟩
    have h1 := (lt_ceilDiv hc).2 hlt
    have h2 : ¬i + 1 < ceilDiv size chunk := by
      rw [lt_ceilDiv hc, Nat.succ_mul]
      omega
    omega

/-! ## What is left to write -/

/-- The bytes of the pages of RAM that are saved. -/
def Snapshot.ramData {σ : Type} (s : Snapshot) (cpu : Cpu σ) : List Byte :=
  pagesData s.bitmap cpu.mem8.page

/-- The bytes of the pages of extended RAM that are saved. -/
def Snapshot.extendedData {σ : Type} (s : Snapshot) (cpu : Cpu σ) : List Byte :=
  match cpu.extendedStore with
  | none => []
  | some store => pagesData s.extendedBitmap store.memory.page

/-- The sizes of a snapshot are those of its data. -/
structure Snapshot.Sized {σ : Type} (s : Snapshot) (cpu : Cpu σ) : Prop where
  packed : s.packedSize = 4096 * (setPages s.bitmap 0).length
  extended : s.extendedSize = 4096 * (setPages s.extendedBitmap 0).length
  store : cpu.extendedStore = none → s.extendedSize = 0

section
variable {σ : Type} (cpu : Cpu σ) (s : Snapshot)

def Snapshot.restExtended (i : Nat) : List Byte :=
  Layout.extended.recordsFrom (s.extendedData cpu) i

def Snapshot.restRam (i : Nat) : List Byte :=
  Layout.ram.recordsFrom (s.ramData cpu) i ++ s.restExtended cpu 0

def Snapshot.restBuffers (buffers : List (List Byte)) (id i : Nat) : List Byte :=
  bufferRecords buffers id i ++ s.restRam cpu 0

def Snapshot.restManifest (position : Nat) : List Byte :=
  s.manifest.drop position ++ s.restBuffers cpu s.buffers 0 0

/-- The bytes of a snapshot. -/
def Snapshot.bytes : List Byte := s.header ++ s.restManifest cpu 0

/-- What a writer has still to write. -/
def Writer.rest (w : Writer) : List Byte :=
  if w.phase = 0 then s.bytes cpu
  else if w.phase = 1 then s.restManifest cpu w.position
  else if w.phase = 2 then
    s.restBuffers cpu (s.buffers.drop w.bufferId) w.bufferId
      (ceilDiv w.position (chunkSize - recordSize))
  else if w.phase = 3 then s.restRam cpu (ceilDiv w.position ramChunk)
  else s.restExtended cpu (ceilDiv w.position ramChunk)

end

/-- The position in the first one of some buffers. -/
def BufferPosition (position : Nat) : List (List Byte) → Prop
  | [] => position = 0
  | buffer :: _ => Aligned (chunkSize - recordSize) position buffer.length

/-- The invariant of a writer. -/
structure Writer.Inv (s : Snapshot) (w : Writer) : Prop where
  start : w.phase = 0 → w.position = 0
  bufferStart : w.phase ≤ 1 → w.bufferId = 0
  buffer : w.phase = 2 → BufferPosition w.position (s.buffers.drop w.bufferId)
  ramStart : w.phase ≤ 2 → w.ramPage = 0
  ram : w.phase = 3 → Aligned ramChunk w.position s.packedSize ∧
    setPages s.bitmap w.ramPage = (setPages s.bitmap 0).drop (w.position / 4096)
  extendedStart : w.phase ≤ 3 → w.extendedPage = 0
  extended : 4 ≤ w.phase → Aligned ramChunk w.position s.extendedSize ∧
    setPages s.extendedBitmap w.extendedPage =
      (setPages s.extendedBitmap 0).drop (w.position / 4096)

/-- A call of `next`: a chunk of what is left, or nothing when nothing is left. -/
def Writer.Step {σ : Type} (cpu : Cpu σ) (s : Snapshot) (rest : List Byte)
    (r : Exec (Option (List Byte) × Writer)) : Prop :=
  (∃ chunk w, r = .ok (some chunk, w) ∧ rest = chunk ++ w.rest cpu s ∧ chunk ≠ [] ∧ w.Inv s) ∨
    ∃ w, r = .ok (none, w) ∧ rest = []

section
variable {σ : Type} {cpu : Cpu σ} {s : Snapshot} {w : Writer}

theorem Writer.rest_one (h : w.phase = 1) : w.rest cpu s = s.restManifest cpu w.position := by
  unfold Writer.rest
  rw [if_neg (by omega), if_pos h]

theorem Writer.rest_two (h : w.phase = 2) : w.rest cpu s =
    s.restBuffers cpu (s.buffers.drop w.bufferId) w.bufferId
      (ceilDiv w.position (chunkSize - recordSize)) := by
  unfold Writer.rest
  rw [if_neg (by omega), if_neg (by omega), if_pos h]

theorem Writer.rest_three (h : w.phase = 3) :
    w.rest cpu s = s.restRam cpu (ceilDiv w.position ramChunk) := by
  unfold Writer.rest
  rw [if_neg (by omega), if_neg (by omega), if_neg (by omega), if_pos h]

theorem Writer.rest_four (h : 4 ≤ w.phase) :
    w.rest cpu s = s.restExtended cpu (ceilDiv w.position ramChunk) := by
  unfold Writer.rest
  rw [if_neg (by omega), if_neg (by omega), if_neg (by omega), if_neg (by omega)]

theorem Writer.Inv.one (h : w.phase = 1) (hb : w.bufferId = 0) (hr : w.ramPage = 0)
    (he : w.extendedPage = 0) : w.Inv s :=
  ⟨fun h' => by omega, fun _ => hb, fun h' => by omega, fun _ => hr, fun h' => by omega, fun _ => he,
    fun h' => by omega⟩

theorem Writer.Inv.two (h : w.phase = 2)
    (hb : BufferPosition w.position (s.buffers.drop w.bufferId)) (hr : w.ramPage = 0)
    (he : w.extendedPage = 0) : w.Inv s :=
  ⟨fun h' => by omega, fun h' => by omega, fun _ => hb, fun _ => hr, fun h' => by omega, fun _ => he,
    fun h' => by omega⟩

theorem Writer.Inv.three (h : w.phase = 3) (ha : Aligned ramChunk w.position s.packedSize)
    (hr : setPages s.bitmap w.ramPage = (setPages s.bitmap 0).drop (w.position / 4096))
    (he : w.extendedPage = 0) : w.Inv s :=
  ⟨fun h' => by omega, fun h' => by omega, fun h' => by omega, fun h' => by omega,
    fun _ => ⟨ha, hr⟩, fun _ => he, fun h' => by omega⟩

theorem Writer.Inv.four (h : 4 ≤ w.phase) (ha : Aligned ramChunk w.position s.extendedSize)
    (he : setPages s.extendedBitmap w.extendedPage =
      (setPages s.extendedBitmap 0).drop (w.position / 4096)) : w.Inv s :=
  ⟨fun h' => by omega, fun h' => by omega, fun h' => by omega, fun h' => by omega,
    fun h' => by omega, fun h' => by omega, fun _ => ⟨ha, he⟩⟩

theorem streamRecord_ne_nil (kind id offset : Nat) (d : List Byte) :
    streamRecord kind id offset d ≠ [] := by
  intro h
  have := congrArg List.length h
  simp [recordSize] at this

theorem take_append_drop_length {α : Type} (n : Nat) (l : List α) :
    l.take n ++ l.drop (l.take n).length = l := by
  rw [length_take]
  rcases Nat.le_total n l.length with h | h
  · rw [Nat.min_eq_left h, take_append_drop]
  · rw [Nat.min_eq_right h, take_of_length_le h, drop_length, append_nil]

/-- A record of pages: the pages that are gathered are the data of the record. -/
theorem pack_record {bitmap : List Byte} {pageOf : Nat → List Byte} (l : Layout)
    (hpage : ∀ q, (pageOf q).length = 4096) (hl : l.chunk = ramChunk) {position size page : Nat}
    (hsize : size = 4096 * (setPages bitmap 0).length) (halign : Aligned ramChunk position size)
    (hlt : position < size)
    (hset : setPages bitmap page = (setPages bitmap 0).drop (position / 4096)) :
    ∃ page', packPages bitmap pageOf (ceilDiv (min ramChunk (size - position)) 4096) page =
        .ok (l.part (pagesData bitmap pageOf) (ceilDiv position ramChunk), page') ∧
      setPages bitmap page' =
        (setPages bitmap 0).drop ((position + min ramChunk (size - position)) / 4096) := by
  obtain ⟨hpos, _⟩ := halign.next (by decide) hlt
  have hchunk : ramChunk = 4096 * 255 := rfl
  generalize ceilDiv position ramChunk = i at hpos
  generalize hm : (setPages bitmap 0).length = m at hsize
  -- the pages before the position, and those of the record
  have hpos' : position = 4096 * (255 * i) := by
    rw [← hpos, hchunk]
    omega
  have hmin : min ramChunk (size - position) = 4096 * min 255 (m - 255 * i) := by
    rw [hchunk, hsize, hpos']
    omega
  have hbefore : position / 4096 = 255 * i := by omega
  have hcount : ceilDiv (min ramChunk (size - position)) 4096 = min 255 (m - 255 * i) := by
    rw [hmin, ceilDiv_mul (by decide)]
  have hafter : (position + min ramChunk (size - position)) / 4096 =
      255 * i + min 255 (m - 255 * i) := by
    rw [hmin]
    omega
  have hfits : min 255 (m - 255 * i) ≤ (setPages bitmap page).length := by
    rw [hset, length_drop, hm, hbefore]
    exact Nat.min_le_right _ _
  obtain ⟨page', heq, hpage'⟩ : ∃ page', packPages bitmap pageOf (min 255 (m - 255 * i)) page = _ ∧ _ :=
    packPages_eq hfits
  refine ⟨page', ?_, ?_⟩
  · rw [hcount, heq, hset, hbefore]
    have hpart : l.part (pagesData bitmap pageOf) i =
        (((setPages bitmap 0).drop (255 * i)).take 255).flatMap pageOf := by
      rw [Layout.part, hl, hchunk, pagesData, show i * (4096 * 255) = 4096 * (255 * i) by omega,
        drop_flatMap_pages hpage, take_flatMap_pages hpage]
    rw [hpart]
    have htake : ((setPages bitmap 0).drop (255 * i)).take (min 255 (m - 255 * i)) =
        ((setPages bitmap 0).drop (255 * i)).take 255 := by
      rw [take_eq_take_iff, length_drop, hm]
      omega
    rw [htake]
  · rw [hpage', hset, hafter, hbefore, drop_drop]

theorem length_pagesData (bitmap : List Byte) (m : Memory) :
    (pagesData bitmap m.page).length = 4096 * (setPages bitmap 0).length :=
  length_flatMap_pages m.length_page _

theorem Snapshot.Sized.length_ramData (hs : s.Sized cpu) :
    (s.ramData cpu).length = s.packedSize := by
  rw [Snapshot.ramData, length_pagesData, hs.packed]

theorem Snapshot.Sized.length_extendedData (hs : s.Sized cpu) :
    (s.extendedData cpu).length = s.extendedSize := by
  unfold Snapshot.extendedData
  cases hstore : cpu.extendedStore with
  | none => exact (hs.store hstore).symm
  | some store => exact (length_pagesData _ _).trans hs.extended.symm

theorem Writer.nextExtended_step (hs : s.Sized cpu) (hw : w.Inv s) (hphase : 4 ≤ w.phase) :
    Writer.Step cpu s (s.restExtended cpu (ceilDiv w.position ramChunk))
      (w.nextExtended cpu.extendedStore s) := by
  obtain ⟨halign, hset⟩ := hw.extended hphase
  unfold Writer.nextExtended
  split
  · next hend =>
    refine .inr ⟨w, rfl, Layout.recordsFrom_of_ge _ (Nat.le_of_eq ?_)⟩
    rw [hend, hs.length_extendedData]
    rfl
  · next hend =>
    have hlt : w.position < s.extendedSize := by
      rcases halign with h | ⟨_, _, h⟩
      · exact absurd h hend
      · exact h
    cases hstore : cpu.extendedStore with
    | none =>
      rw [hs.store hstore] at hlt
      cases hlt
    | some store =>
      obtain ⟨hpos, hcount, halign', hnext⟩ := halign.next (by decide) hlt
      obtain ⟨page, hpack, hpage⟩ := pack_record .extended store.memory.length_page rfl hs.extended
        halign hlt hset
      have hdata : pagesData s.extendedBitmap store.memory.page = s.extendedData cpu := by
        unfold Snapshot.extendedData
        rw [hstore]
      refine .inl ⟨streamRecord 3 (w.position / 2 ^ 32) (w.position % 2 ^ 32)
        (Layout.extended.part (pagesData s.extendedBitmap store.memory.page)
          (ceilDiv w.position ramChunk)), { w with
        position := w.position + min ramChunk (s.extendedSize - w.position)
        extendedPage := page }, ?_, ?_, streamRecord_ne_nil _ _ _ _, ?_⟩
      · dsimp only
        rw [Exec.unwrap, Exec.ok_bind, hpack]
        rfl
      · rw [Writer.rest_four]
        swap
        · exact hphase
        dsimp only
        rw [hnext, Snapshot.restExtended, Layout.recordsFrom_of_lt _ (by
          rw [hs.length_extendedData]
          exact hcount), Layout.record, hdata]
        change streamRecord 3 (ceilDiv w.position ramChunk * ramChunk / 2 ^ 32)
          (ceilDiv w.position ramChunk * ramChunk % 2 ^ 32) _ ++ _ = _
        rw [hpos]
        rfl
      · exact .four hphase halign' hpage

theorem Writer.nextRam_step (hs : s.Sized cpu) (hw : w.Inv s) (hphase : w.phase = 3) :
    Writer.Step cpu s (s.restRam cpu (ceilDiv w.position ramChunk)) (w.nextPages cpu s) := by
  obtain ⟨halign, hset⟩ := hw.ram hphase
  unfold Writer.nextPages Writer.nextRam
  rw [if_pos hphase]
  by_cases hlt : w.position < s.packedSize
  · rw [if_pos hlt]
    obtain ⟨hpos, hcount, halign', hnext⟩ := halign.next (by decide) hlt
    obtain ⟨page, hpack, hpage⟩ := pack_record .ram cpu.mem8.length_page rfl hs.packed
      halign hlt hset
    refine .inl ⟨streamRecord 2 0 w.position
      (Layout.ram.part (s.ramData cpu) (ceilDiv w.position ramChunk)), { w with
      position := w.position + min ramChunk (s.packedSize - w.position)
      ramPage := page }, ?_, ?_, streamRecord_ne_nil _ _ _ _, ?_⟩
    · dsimp only
      rw [hpack]
      rfl
    · rw [Writer.rest_three]
      swap
      · exact hphase
      dsimp only
      rw [hnext, Snapshot.restRam, Layout.recordsFrom_of_lt _ (by
        rw [hs.length_ramData]
        exact hcount), Layout.record, append_assoc]
      change streamRecord 2 0 (ceilDiv w.position ramChunk * ramChunk) _ ++ _ = _
      rw [hpos]
      rfl
    · exact .three hphase halign' hpage (hw.extendedStart (by omega))
  · rw [if_neg hlt]
    -- the records of RAM are written
    have hdone : s.restRam cpu (ceilDiv w.position ramChunk) =
        s.restExtended cpu (ceilDiv 0 ramChunk) := by
      have hend : w.position = s.packedSize := by
        rcases halign with h | ⟨_, _, h⟩
        · exact h
        · exact absurd h hlt
      have hcount : Layout.ram.count (s.ramData cpu).length ≤ ceilDiv w.position ramChunk := by
        rw [hs.length_ramData, hend]
        exact Nat.le_refl _
      rw [ceilDiv_zero_ramChunk, Snapshot.restRam, Layout.recordsFrom_of_ge _ hcount, nil_append]
    rw [hdone, Exec.ok_bind]
    dsimp only
    have hinv : Writer.Inv s { w with phase := 4, position := 0 } := by
      refine .four (Nat.le_refl 4) (Aligned.zero _ _) ?_
      dsimp only
      rw [hw.extendedStart (by omega), Nat.zero_div, drop_zero]
    exact Writer.nextExtended_step hs hinv (Nat.le_refl 4)

theorem Writer.nextPages_step (hs : s.Sized cpu) (hw : w.Inv s) (hphase : 3 ≤ w.phase) :
    Writer.Step cpu s (w.rest cpu s) (w.nextPages cpu s) := by
  by_cases h3 : w.phase = 3
  · rw [Writer.rest_three h3]
    exact Writer.nextRam_step hs hw h3
  · rw [Writer.rest_four (by omega)]
    unfold Writer.nextPages
    rw [if_neg h3]
    exact Writer.nextExtended_step hs hw (by omega)

theorem Writer.nextBuffer_step (hs : s.Sized cpu) : ∀ {buffers : List (List Byte)} {w : Writer},
    s.buffers.drop w.bufferId = buffers → BufferPosition w.position buffers → w.phase = 2 →
    w.ramPage = 0 → w.extendedPage = 0 →
    Writer.Step cpu s (s.restBuffers cpu buffers w.bufferId
      (ceilDiv w.position (chunkSize - recordSize)))
      (match w.nextBuffer buffers with
      | (some chunk, w) => .ok (some chunk, w)
      | (none, w) => w.nextPages cpu s)
  | [], w, _, hpos, _, hram, hext => by
    -- the records of the buffers are written
    rw [Writer.nextBuffer]
    have hinv : Writer.Inv s { w with phase := 3, position := 0 } := by
      refine .three rfl (Aligned.zero _ _) ?_ hext
      rw [hram]
      simp
    have hstep := Writer.nextPages_step hs hinv (Nat.le_refl 3)
    rw [Writer.rest_three rfl] at hstep
    dsimp only at hstep ⊢
    rw [ceilDiv_zero_ramChunk] at hstep
    rw [Snapshot.restBuffers, bufferRecords, nil_append]
    exact hstep
  | buffer :: buffers, w, hdrop, hpos, hphase, hram, hext => by
    have hpos : Aligned (chunkSize - recordSize) w.position buffer.length := hpos
    rw [Writer.nextBuffer]
    by_cases hlt : w.position < buffer.length
    · rw [if_pos hlt]
      obtain ⟨hi, hcount, halign, hnext⟩ := hpos.next (by decide) hlt
      have hlen : ((buffer.drop w.position).take (chunkSize - recordSize)).length =
          min (chunkSize - recordSize) (buffer.length - w.position) := by
        rw [length_take, length_drop]
      refine .inl ⟨streamRecord 1 w.bufferId w.position
        ((buffer.drop w.position).take (chunkSize - recordSize)), { w with
          position := w.position + min (chunkSize - recordSize) (buffer.length - w.position) }, ?_, ?_,
        streamRecord_ne_nil _ _ _ _, ?_⟩
      · dsimp only
        rw [length_streamRecord, Nat.add_sub_cancel_left, hlen]
      · rw [Writer.rest_two]
        swap
        · exact hphase
        dsimp only
        rw [hnext, hdrop, Snapshot.restBuffers, bufferRecords, Layout.recordsFrom_of_lt _ hcount,
          Layout.record, Layout.part, Snapshot.restBuffers, bufferRecords]
        simp only [append_assoc]
        rw [show ceilDiv w.position (chunkSize - recordSize) * (Layout.buffer w.bufferId).chunk =
          w.position from hi]
        rfl
      · refine .two hphase ?_ hram hext
        rw [hdrop]
        exact halign
    · rw [if_neg hlt]
      -- the next buffer
      have hdrop' : s.buffers.drop (w.bufferId + 1) = buffers := by
        rw [← drop_drop, hdrop]
        rfl
      have hstart : BufferPosition 0 buffers := by
        cases buffers with
        | nil => rfl
        | cons next buffers => exact Aligned.zero _ _
      have hrest : s.restBuffers cpu (buffer :: buffers) w.bufferId
          (ceilDiv w.position (chunkSize - recordSize)) =
          s.restBuffers cpu buffers (w.bufferId + 1) (ceilDiv 0 (chunkSize - recordSize)) := by
        have hend : w.position = buffer.length := by
          rcases hpos with h | ⟨_, _, h⟩
          · exact h
          · exact absurd h hlt
        rw [Snapshot.restBuffers, bufferRecords, Layout.recordsFrom_of_ge _ (by
          rw [hend]
          exact Nat.le_refl _), ceilDiv_zero_bufferChunk]
        rfl
      rw [hrest]
      exact Writer.nextBuffer_step hs (w := { w with bufferId := w.bufferId + 1, position := 0 })
        hdrop' hstart hphase hram hext

theorem Writer.nextRecords_step (hs : s.Sized cpu) (hw : w.Inv s) (hphase : 2 ≤ w.phase) :
    Writer.Step cpu s (w.rest cpu s) (w.nextRecords cpu s) := by
  unfold Writer.nextRecords
  by_cases h2 : w.phase = 2
  · rw [if_pos h2, Writer.rest_two h2]
    exact Writer.nextBuffer_step hs rfl (hw.buffer h2) h2 (hw.ramStart (by omega))
      (hw.extendedStart (by omega))
  · rw [if_neg h2]
    exact Writer.nextPages_step hs hw (by omega)

/-- A call of `next` writes a chunk of what is left. -/
theorem Writer.next_step (hs : s.Sized cpu) (hheader : s.header ≠ []) (hw : w.Inv s) :
    Writer.Step cpu s (w.rest cpu s) (w.next cpu s) := by
  unfold Writer.next
  by_cases h0 : w.phase = 0
  · rw [if_pos h0]
    refine .inl ⟨s.header, { w with phase := 1 }, rfl, ?_, hheader, ?_⟩
    · have hrest : w.rest cpu s = s.bytes cpu := if_pos h0
      rw [hrest, Writer.rest_one, hw.start h0]
      · rfl
      · rfl
    · exact .one rfl (hw.bufferStart (by omega)) (hw.ramStart (by omega))
        (hw.extendedStart (by omega))
  rw [if_neg h0]
  by_cases h1 : w.phase = 1
  · rw [if_pos h1, Writer.rest_one h1]
    unfold Writer.nextManifest
    by_cases hlt : w.position < s.manifest.length
    · rw [if_pos hlt]
      have hlen := length_take (i := chunkSize) (l := s.manifest.drop w.position)
      rw [length_drop] at hlen
      refine .inl ⟨(s.manifest.drop w.position).take chunkSize, { w with
        position := w.position + ((s.manifest.drop w.position).take chunkSize).length }, rfl, ?_,
        ?_, ?_⟩
      · rw [Writer.rest_one]
        swap
        · exact h1
        dsimp only
        unfold Snapshot.restManifest
        rw [← append_assoc, ← drop_drop, take_append_drop_length]
      · intro hnil
        have hzero := congrArg List.length hnil
        rw [hlen, length_nil] at hzero
        have : 0 < chunkSize := by decide
        omega
      · exact .one h1 (hw.bufferStart (by omega)) (hw.ramStart (by omega))
          (hw.extendedStart (by omega))
    · rw [if_neg hlt]
      -- the manifest is written
      have hinv : Writer.Inv s { w with phase := 2, position := 0 } := by
        refine .two rfl ?_ (hw.ramStart (by omega)) (hw.extendedStart (by omega))
        dsimp only
        cases s.buffers.drop w.bufferId with
        | nil => rfl
        | cons buffer buffers => exact Aligned.zero _ _
      have hnext : s.restManifest cpu w.position =
          Writer.rest cpu s { w with phase := 2, position := 0 } := by
        rw [Writer.rest_two rfl, Snapshot.restManifest,
          drop_eq_nil_of_le (Nat.le_of_not_lt hlt), nil_append]
        dsimp only
        rw [ceilDiv_zero_bufferChunk, hw.bufferStart (by omega), drop_zero]
      rw [hnext]
      exact Writer.nextRecords_step hs hinv (Nat.le_refl 2)
  · rw [if_neg h1]
    exact Writer.nextRecords_step hs hw (by omega)

/-- The chunks of a writer are what it has to write. -/
theorem Writer.chunks_eq (hs : s.Sized cpu) (hheader : s.header ≠ []) (hw : w.Inv s) :
    ∃ chunks, chunks.flatten = w.rest cpu s ∧
      ∀ n, (w.rest cpu s).length < n → Writer.chunks cpu s n w = .ok chunks := by
  induction hm : (w.rest cpu s).length using Nat.strongRecOn generalizing w with
  | ind m ih =>
    rcases Writer.next_step hs hheader hw with ⟨chunk, w', hnext, hrest, hne, hw'⟩ | ⟨w', hnext, hnil⟩
    · have hlt : (w'.rest cpu s).length < m := by
        rw [← hm, hrest, length_append]
        have := List.length_pos_iff.2 hne
        omega
      obtain ⟨chunks, hflat, hchunks⟩ := ih _ hlt hw' rfl
      refine ⟨chunk :: chunks, by rw [flatten_cons, hflat, hrest], fun n hn => ?_⟩
      cases n with
      | zero => cases hn
      | succ n =>
        rw [Writer.chunks, hnext, Exec.ok_bind]
        dsimp only
        rw [hchunks n (by omega), Exec.ok_bind]
    · refine ⟨[], hnil.symm, fun n hn => ?_⟩
      cases n with
      | zero => cases hn
      | succ n =>
        rw [Writer.chunks, hnext]
        rfl

end

end V86.State
