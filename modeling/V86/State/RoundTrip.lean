import V86.State.Trees
import V86.State.Writer

/-!
# Snapshots round-trip

The bytes of a snapshot pass the first pass of the reader (`checkStream_eq`), within the limits that
the reader has for its trees (`Snapshot.Readable`), and the second pass writes the pages that the
bitmaps name, which are those that are not zero (`stream_round_trip`).
-/

namespace V86.State

open List

/-! ## Words of a header -/

theorem length_flatMap_uint32 (ws : List Nat) : (ws.flatMap uint32).length = 4 * ws.length := by
  induction ws with
  | nil => rfl
  | cons w ws ih =>
    rw [flatMap_cons, length_append, ih, length_uint32, length_cons]
    omega

theorem getUint32_flatMap {ws : List Nat} (hws : ∀ w ∈ ws, w < 2 ^ 32) {i : Nat} {w : Nat}
    (hi : ws[i]? = some w) : getUint32 (ws.flatMap uint32) (4 * i) = w := by
  obtain ⟨hlt, rfl⟩ := List.getElem?_eq_some_iff.1 hi
  have hsplit : ws.flatMap uint32 = (ws.take i).flatMap uint32 ++
      (uint32 ws[i] ++ (ws.drop (i + 1)).flatMap uint32) := by
    rw [← flatMap_cons, getElem_cons_drop, ← flatMap_append, take_append_drop]
  rw [hsplit]
  refine getUint32_at (hws _ (getElem_mem hlt)) ?_ _
  rw [length_flatMap_uint32, length_take, Nat.min_eq_left (Nat.le_of_lt hlt)]

/-! ## Pages of records -/

section
variable {bitmap : List Byte} {pageOf : Nat → List Byte}

theorem View.pages_record (hpage : ∀ q, (pageOf q).length = 4096) {kind id offset : Nat}
    {v : View} {qs : List Nat} (hv : v.bytes = streamRecord kind id offset (qs.flatMap pageOf)) :
    v.pages (ceilDiv (v.bytes.length - recordSize) 4096) 0 = qs.map pageOf := by
  have hlen := length_flatMap_pages hpage qs
  rw [hv, length_streamRecord, Nat.add_sub_cancel_left, hlen, ceilDiv_mul (by decide)]
  refine ext_getElem (by simp [View.pages]) fun i h1 h2 => ?_
  rw [length_map] at h2
  simp only [View.pages, getElem_map, getElem_range, Nat.zero_add]
  rw [hv, streamRecord]
  have hhead : (uint32 kind ++ uint32 id ++ uint32 offset ++
    uint32 (qs.flatMap pageOf).length).length = 16 := rfl
  generalize uint32 kind ++ uint32 id ++ uint32 offset ++
    uint32 (qs.flatMap pageOf).length = head at hhead
  -- the data from page `i` on starts with that page
  rw [← drop_drop, append_assoc, drop_left' hhead,
    drop_append_of_le_length (by omega), drop_flatMap_pages hpage,
    ← getElem_cons_drop h2, flatMap_cons, append_assoc]
  exact take_left' (hpage _)

/-- The groups of 255 pages are all of them. -/
theorem flatten_groups {α : Type} (qs : List α) {n : Nat} (hn : qs.length ≤ n * 255) :
    (List.range n).flatMap (fun i => (qs.drop (255 * i)).take 255) = qs := by
  have htake : ∀ n, (List.range n).flatMap (fun i => (qs.drop (255 * i)).take 255) =
      qs.take (n * 255) := by
    intro n
    induction n with
    | zero => rfl
    | succ n ih =>
      rw [range_succ, flatMap_append, ih, Nat.succ_mul, take_add]
      simp [Nat.mul_comm]
  rw [htake, take_of_length_le hn]

/-- The pages of the records of some pages. -/
theorem recordPages_eq (l : Layout) (hpage : ∀ q, (pageOf q).length = 4096)
    (hl : l.chunk = ramChunk) {vs : List View}
    (hvs : vs.map View.bytes = (List.range' 0 (l.count (pagesData bitmap pageOf).length)).map
      (l.record (pagesData bitmap pageOf))) : recordPages vs = (setPages bitmap 0).map pageOf := by
  have hchunk : ramChunk = 4096 * 255 := rfl
  have hlen : (pagesData bitmap pageOf).length = 4096 * (setPages bitmap 0).length :=
    length_flatMap_pages hpage _
  have hpart : ∀ i, l.part (pagesData bitmap pageOf) i =
      (((setPages bitmap 0).drop (255 * i)).take 255).flatMap pageOf := by
    intro i
    rw [Layout.part, hl, hchunk, pagesData, show i * (4096 * 255) = 4096 * (255 * i) by omega,
      drop_flatMap_pages hpage, take_flatMap_pages hpage]
  have hrecords : ∀ {is : List Nat} {vs : List View},
      vs.map View.bytes = is.map (l.record (pagesData bitmap pageOf)) → recordPages vs =
        (is.flatMap fun i => ((setPages bitmap 0).drop (255 * i)).take 255).map pageOf := by
    intro is
    induction is with
    | nil =>
      intro vs h
      rw [map_nil, map_eq_nil_iff] at h
      rw [h]
      rfl
    | cons i is ih =>
      intro vs h
      cases vs with
      | nil => cases h
      | cons v vs =>
        rw [map_cons, map_cons, List.cons.injEq] at h
        have hv := h.1
        rw [Layout.record, hpart] at hv
        rw [recordPages, flatMap_cons, View.pages_record hpage hv, flatMap_cons,
          map_append, ← ih h.2]
        rfl
  rw [hrecords hvs, ← range_eq_range', flatten_groups]
  -- as many records as the pages take
  have hcount : ¬l.count (pagesData bitmap pageOf).length <
      ceilDiv (pagesData bitmap pageOf).length (4096 * 255) := by
    rw [Layout.count, hl, hchunk]
    exact Nat.lt_irrefl _
  generalize l.count (pagesData bitmap pageOf).length = n at hcount ⊢
  rw [lt_ceilDiv (by decide), hlen] at hcount
  omega

end

/-! ## Writing pages -/

theorem Memory.getD_page (m : Memory) (a : Nat) : (m.page (a / 4096)).getD (a % 4096) 0 = m.byte a := by
  have hlt : a % 4096 < 4096 := Nat.mod_lt _ (by decide)
  rw [getD_eq_getElem?_getD, Memory.page, List.getElem?_map, List.getElem?_range hlt]
  exact congrArg m.byte (Nat.div_add_mod' a 4096)

section
variable {σ : Type} (m : Memory)

theorem writeAll_cons (effect : Nat → List Byte → Cpu σ → Cpu σ) (q : Nat) (bytes : List Byte)
    (pages : List (Nat × List Byte)) (cpu : Cpu σ) :
    writeAll effect ((q, bytes) :: pages) cpu = writeAll effect pages (effect q bytes cpu) := rfl

/-- A page that was written has its bytes, and the others keep theirs. -/
theorem writeAll_ram_byte (qs : List Nat) (cpu : Cpu σ) (a : Nat) :
    (writeAll ramEffect (qs.zip (qs.map m.page)) cpu).mem8.byte a =
      if a / 4096 ∈ qs then m.byte a else cpu.mem8.byte a := by
  induction qs generalizing cpu with
  | nil => rfl
  | cons q qs ih =>
    have hpage : (ramEffect q (m.page q) cpu).mem8.byte a =
        if a / 4096 = q then m.byte a else cpu.mem8.byte a := by
      rw [← m.getD_page a]
      unfold ramEffect Cpu.written Memory.setPage
      dsimp only
      split
      · next h => rw [h]
      · rfl
    rw [map_cons, zip_cons_cons, writeAll_cons, ih, hpage]
    by_cases hmem : a / 4096 ∈ qs
    · rw [if_pos hmem, if_pos (mem_cons_of_mem q hmem)]
    · rw [if_neg hmem]
      simp [mem_cons, hmem]

/-- The byte of extended RAM at an address. -/
def Cpu.extendedByte (cpu : Cpu σ) (a : Nat) : Byte :=
  match cpu.extendedStore with
  | none => 0
  | some store => store.memory.byte a

theorem writeAll_extended_byte (qs : List Nat) {cpu : Cpu σ} (hstore : cpu.extendedStore ≠ none)
    (a : Nat) : (writeAll extendedEffect (qs.zip (qs.map m.page)) cpu).extendedByte a =
      if a / 4096 ∈ qs then m.byte a else cpu.extendedByte a := by
  induction qs generalizing cpu with
  | nil => exact (if_neg not_mem_nil).symm
  | cons q qs ih =>
    obtain ⟨store, hsome⟩ := Option.ne_none_iff_exists'.1 hstore
    have hpage : (extendedEffect q (m.page q) cpu).extendedByte a =
        if a / 4096 = q then m.byte a else cpu.extendedByte a := by
      rw [← m.getD_page a]
      unfold Cpu.extendedByte extendedEffect Cpu.written ExtendedStore.write Memory.setPage
      rw [hsome]
      dsimp only [Option.map_some]
      split
      · next h => rw [h]
      · rfl
    have hstore' : (extendedEffect q (m.page q) cpu).extendedStore ≠ none := by
      unfold extendedEffect Cpu.written
      rw [hsome]
      exact Option.some_ne_none _
    rw [map_cons, zip_cons_cons, writeAll_cons, ih hstore', hpage]
    by_cases hmem : a / 4096 ∈ qs
    · rw [if_pos hmem, if_pos (mem_cons_of_mem q hmem)]
    · rw [if_neg hmem]
      simp [mem_cons, hmem]

theorem writeAll_state (effect : Nat → List Byte → Cpu σ → Cpu σ)
    (heffect : ∀ q bytes cpu, (effect q bytes cpu).state = cpu.state)
    (pages : List (Nat × List Byte)) (cpu : Cpu σ) :
    (writeAll effect pages cpu).state = cpu.state := by
  induction pages generalizing cpu with
  | nil => rfl
  | cons p pages ih => exact (ih _).trans (heffect _ _ _)

theorem writeAll_extended_mem8 (pages : List (Nat × List Byte)) (cpu : Cpu σ) :
    (writeAll extendedEffect pages cpu).mem8 = cpu.mem8 := by
  induction pages generalizing cpu with
  | nil => rfl
  | cons p pages ih => exact ih _

end

/-! ## Taken snapshots -/

section
variable {σ : Type} {b : Builtins} {dev : Devices σ} {cpu : Cpu σ} {s : Snapshot}

/-- How many pages of extended RAM are not zero. -/
def Cpu.extendedPacked (cpu : Cpu σ) : Nat :=
  match cpu.extendedStore with
  | none => 0
  | some store => countOf store.pages fun page => !store.isZero page

/-- The bitmap of extended RAM. -/
def Cpu.extendedBitmap (cpu : Cpu σ) : List Byte :=
  match cpu.extendedStore with
  | none => []
  | some store => store.bitmap

/-- The last one of the elements of the state that the writer sets. -/
def Cpu.extendedSlot (cpu : Cpu σ) : Value :=
  match cpu.extendedStore with
  | none => .null
  | some store => .typed .uint8 store.bitmap

/-- The words of a header. -/
def Snapshot.words (s : Snapshot) (cpu : Cpu σ) : List Nat :=
  [stateMagic, streamVersion, chunkSize, s.manifest.length, s.buffers.length,
    cpu.memorySize.toNat, s.packedSize, (streamCrc ⟨0, s.manifest⟩).getD 0]

/-- A snapshot that was taken of a machine. -/
structure Snapshot.Taken (s : Snapshot) (b : Builtins) (dev : Devices σ) (cpu : Cpu σ) : Prop where
  fits : cpu.memorySize.toNat ≤ cpu.mem8.length
  whole : cpu.memorySize.toNat % 4096 = 0
  state : s.state = setSlot (setSlot (setSlot (getState dev cpu) 77 .null) 78
    (.typed .uint8 cpu.ramPages)) 99 cpu.extendedSlot
  buffers : s.buffers = (saveObject (.arr s.state) []).2
  manifest : s.manifest = b.stringify (manifestOf s.state cpu.extendedPacked)
  limit : s.manifest.length ≤ infoLimit
  header : s.header = (s.words cpu).flatMap uint32
  bitmap : s.bitmap = cpu.ramPages
  packedSize : s.packedSize = 4096 * (setPages cpu.ramPages 0).length
  extendedBitmap : s.extendedBitmap = cpu.extendedBitmap
  extendedSize : s.extendedSize = 4096 * cpu.extendedPacked

theorem Cpu.setPages_ramPages (cpu : Cpu σ) : setPages cpu.ramPages 0 =
    (List.range (cpu.memorySize.toNat / 4096)).filter fun page => !cpu.mem8.isZero page :=
  setPages_bitmapOf _ _

theorem Cpu.length_extendedBitmap (cpu : Cpu σ) :
    (setPages cpu.extendedBitmap 0).length = cpu.extendedPacked := by
  unfold Cpu.extendedBitmap Cpu.extendedPacked
  cases cpu.extendedStore with
  | none => rfl
  | some store => exact congrArg List.length (setPages_bitmapOf _ _)

theorem Cpu.extendedPacked_le (cpu : Cpu σ) : cpu.extendedPacked ≤ cpu.extendedPages := by
  unfold Cpu.extendedPacked Cpu.extendedPages
  cases cpu.extendedStore with
  | none => exact Nat.le_refl 0
  | some store =>
    have hle := length_filter_le (fun page => !store.isZero page) (List.range store.pages)
    rwa [length_range] at hle

/-- The first part of the writer does not throw on whole pages of RAM, unless the manifest is too
large. -/
theorem createStateStream_taken (h : createStateStream b dev cpu = .ok s) : s.Taken b dev cpu := by
  unfold createStateStream at h
  simp only [Exec.bind_eq_ok, Exec.require_eq_ok, Exec.unwrap_eq_ok, Bool.and_eq_true,
    decide_eq_true_eq] at h
  obtain ⟨_, ⟨hfits, hwhole⟩, _, hlimit, crc, hcrc, hs⟩ := h
  cases hs
  exact {
    fits := hfits
    whole := hwhole
    state := rfl
    buffers := rfl
    manifest := rfl
    limit := hlimit
    header := by
      rw [Snapshot.words, hcrc]
      rfl
    bitmap := rfl
    packedSize := by
      rw [Cpu.setPages_ramPages, Nat.mul_comm]
      rfl
    extendedBitmap := rfl
    extendedSize := Nat.mul_comm _ _ }

namespace Snapshot.Taken

variable (h : s.Taken b dev cpu)
include h

theorem sized : s.Sized cpu where
  packed := by rw [h.packedSize, h.bitmap]
  extended := by rw [h.extendedSize, h.extendedBitmap, cpu.length_extendedBitmap]
  store := by
    intro hnone
    rw [h.extendedSize, Cpu.extendedPacked, hnone]
    rfl

theorem length_header : s.header.length = headerSize := by
  rw [h.header, length_flatMap_uint32]
  rfl

theorem packedSize_le : s.packedSize ≤ cpu.memorySize.toNat := by
  have hle := length_filter_le (fun page => !cpu.mem8.isZero page)
    (List.range (cpu.memorySize.toNat / 4096))
  rw [← cpu.setPages_ramPages, length_range] at hle
  rw [h.packedSize]
  omega

end Snapshot.Taken

/-! ## The first pass on a taken snapshot -/

theorem setSlot_self (xs : List Value) (i : Nat) (v : Value) : (setSlot xs i v)[i]? = some v := by
  unfold setSlot
  split
  · next h => rw [List.getElem?_set_self h]
  · next h =>
    rw [List.getElem?_append_right (by simp; omega)]
    simp [Nat.add_sub_cancel' (Nat.le_of_not_lt h)]

theorem setSlot_of_ne {xs : List Value} {i j : Nat} {w : Value} (h : xs[j]? = some w) (hne : i ≠ j)
    (v : Value) : (setSlot xs i v)[j]? = some w := by
  unfold setSlot
  split
  · rwa [List.getElem?_set_ne hne]
  · rwa [append_assoc, List.getElem?_append_left (List.getElem?_eq_some_iff.1 h).1]

/-- A bitmap within its limit has as many pages as set bits. -/
theorem countPages_eq {bitmap : List Byte} {limit : Nat}
    (h : ∀ q ∈ setPages bitmap 0, q < limit) (msg : String) :
    countPages bitmap limit msg = .ok (setPages bitmap 0).length := by
  rw [setPages, Nat.sub_zero, ← range_eq_range'] at h ⊢
  unfold countPages
  have hfold : ∀ (pages : List Nat) (count : Nat), (∀ q ∈ pages.filter (bitmapBit bitmap), q < limit) →
      pages.foldlM (fun count page => if bitmapBit bitmap page then
        if limit ≤ page then Exec.fail msg else .ok (count + 1) else .ok count) count =
        (.ok (count + (pages.filter (bitmapBit bitmap)).length) : Exec Nat) := by
    intro pages
    induction pages with
    | nil => exact fun _ _ => rfl
    | cons page pages ih =>
      intro count hlt
      rw [foldlM_cons]
      split
      · next hbit =>
        rw [filter_cons_of_pos hbit] at hlt ⊢
        rw [if_neg (Nat.not_le.2 (hlt page mem_cons_self)), Exec.ok_bind,
          ih _ fun q hq => hlt q (mem_cons_of_mem _ hq), length_cons]
        congr 1
        omega
      · next hbit =>
        rw [filter_cons_of_neg hbit] at hlt ⊢
        rw [Exec.ok_bind, ih _ hlt]
  rw [hfold _ 0 h, Nat.zero_add]

theorem mapM_lengthOf {buffers : List (List Byte)} (h : ∀ bytes ∈ buffers, bytes.length ≤ 0xFFFFFFFF) :
    (buffers.map fun bytes => Json.num (.int bytes.length)).mapM lengthOf =
      some (buffers.map List.length) := by
  induction buffers with
  | nil => rfl
  | cons bytes buffers ih =>
    have hn : lengthOf (.num (.int bytes.length)) = some bytes.length := by
      have := h bytes mem_cons_self
      refine (if_pos ⟨Int.natCast_nonneg _, by omega⟩).trans ?_
      rw [Int.toNat_natCast]
    rw [map_cons, mapM_cons, hn, ih fun m hm => h m (mem_cons_of_mem _ hm)]
    rfl

theorem length_bufferRecords {buffers : List (List Byte)} {id : Nat} :
    (bufferRecords buffers id 0).length = (buffers.map fun buffer =>
      buffer.length + ceilDiv buffer.length (chunkSize - recordSize) * recordSize).sum := by
  induction buffers generalizing id with
  | nil => rfl
  | cons buffer buffers ih =>
    have hpos : 0 < (Layout.buffer id).chunk := (by decide : 0 < chunkSize - recordSize)
    rw [bufferRecords, length_append, length_recordsFrom hpos, ih, map_cons, sum_cons]
    rfl

/-- The limits that the reader has for the tree of a snapshot. -/
structure Snapshot.Readable (s : Snapshot) : Prop where
  depth : (Value.arr s.state).depth ≤ 256
  buffers : s.buffers.length ≤ 65536
  lengths : ∀ bytes ∈ s.buffers, bytes.length ≤ 0xFFFFFFFF

/-- The manifest is a JSON text of its data. -/
structure Snapshot.Text (s : Snapshot) (b : Builtins) (cpu : Cpu σ) : Prop where
  nonempty : s.manifest ≠ []
  parse : b.parse s.manifest = some (manifestOf s.state cpu.extendedPacked)

/-- The bytes before the records of RAM. -/
def Snapshot.prelude (s : Snapshot) : List Byte :=
  s.header ++ (s.manifest ++ bufferRecords s.buffers 0 0)

theorem Snapshot.bytes_eq (s : Snapshot) (cpu : Cpu σ) : s.bytes cpu = s.prelude ++
    (Layout.ram.recordsFrom (s.ramData cpu) 0 ++
      Layout.extended.recordsFrom (s.extendedData cpu) 0) := by
  simp only [Snapshot.bytes, Snapshot.restManifest, Snapshot.restBuffers, Snapshot.restRam,
    Snapshot.restExtended, Snapshot.prelude, drop_zero, append_assoc]

namespace Snapshot.Taken

variable (h : s.Taken b dev cpu)
include h

/-- What the parts of a snapshot add up to. -/
theorem length_bytes : (s.bytes cpu).length = headerSize + s.manifest.length +
    ((s.buffers.map List.length).map fun length =>
      length + ceilDiv length (chunkSize - recordSize) * recordSize).sum +
    (s.packedSize + ceilDiv s.packedSize ramChunk * recordSize) +
    (s.extendedSize + ceilDiv s.extendedSize ramChunk * recordSize) := by
  have hpos : 0 < ramChunk := by decide
  have hram := length_recordsFrom (l := .ram) hpos (s.ramData cpu)
  have hextended := length_recordsFrom (l := .extended) hpos (s.extendedData cpu)
  rw [h.sized.length_ramData] at hram
  rw [h.sized.length_extendedData] at hextended
  rw [s.bytes_eq, length_append, length_append, hram, hextended, Snapshot.prelude,
    length_append, length_append, length_bufferRecords, h.length_header, List.map_map]
  simp only [Layout.length, Layout.count, Function.comp_def, Nat.add_assoc]
  rfl

theorem words_lt (hr : s.Readable) : ∀ w ∈ s.words cpu, w < 2 ^ 32 := by
  have hmem : cpu.memorySize.toNat < 2 ^ 32 := cpu.memorySize.isLt
  have hpacked := h.packedSize_le
  have hlimit := h.limit
  have hbuffers := hr.buffers
  have hcrc := streamCrc_getD_lt ⟨0, s.manifest⟩
  have hinfo : infoLimit < 2 ^ 32 := by decide
  simp only [Snapshot.words, forall_mem_cons]
  refine ⟨by decide, by decide, by decide, ?_, ?_, hmem, ?_, hcrc, nofun⟩
  · exact Nat.lt_of_le_of_lt hlimit hinfo
  · exact Nat.lt_of_le_of_lt hbuffers (by decide)
  · exact Nat.lt_of_le_of_lt hpacked hmem

theorem slots : (Value.arr s.state).slot 0 = some (.num (.int cpu.memorySize.toNat)) ∧
    (Value.arr s.state).slot 77 = some .null ∧
    (Value.arr s.state).slot 78 = some (.typed .uint8 cpu.ramPages) ∧
    (Value.arr s.state).slot 99 = some cpu.extendedSlot := by
  have h0 : (getState dev cpu)[0]? = some (.num (.int cpu.memorySize.toNat)) := rfl
  simp only [Value.slot, h.state]
  refine ⟨?_, ?_, ?_, setSlot_self _ _ _⟩
  · exact setSlot_of_ne (setSlot_of_ne (setSlot_of_ne h0 (by decide) _) (by decide) _) (by decide) _
  · exact setSlot_of_ne (setSlot_of_ne (setSlot_self _ _ _) (by decide) _) (by decide) _
  · exact setSlot_of_ne (setSlot_self _ _ _) (by decide) _

theorem ramBitmap_eq :
    ramBitmap (.arr s.state) cpu.memorySize.toNat s.packedSize = .ok cpu.ramPages := by
  obtain ⟨h0, h77, h78, _⟩ := h.slots
  have hlen : cpu.ramPages.length = ceilDiv (cpu.memorySize.toNat / 4096) 8 :=
    (bitmapOf_spec _ _).1
  have hlt : ∀ q ∈ setPages cpu.ramPages 0, q < cpu.memorySize.toNat / 4096 := by
    intro q hq
    rw [cpu.setPages_ramPages] at hq
    exact List.mem_range.1 (List.mem_filter.1 hq).1
  unfold ramBitmap
  rw [h0, h77, h78]
  dsimp only
  rw [require_true (by simp [hlen]), Exec.ok_bind, countPages_eq hlt, Exec.ok_bind,
    require_true (by simp [h.packedSize, Nat.mul_comm]), Exec.ok_bind]

theorem extendedBitmap_eq :
    State.extendedBitmap (.arr s.state) cpu.extendedPacked cpu.extendedPages = .ok cpu.extendedBitmap := by
  obtain ⟨_, _, _, h99⟩ := h.slots
  have hcount := cpu.length_extendedBitmap
  unfold State.extendedBitmap Cpu.extendedPages
  rw [h99, Option.getD_some]
  unfold Cpu.extendedSlot Cpu.extendedPacked at *
  unfold Cpu.extendedBitmap at *
  cases hstore : cpu.extendedStore with
  | none => rfl
  | some store =>
    rw [hstore] at hcount
    have hlen : store.bitmap.length = ceilDiv store.pages 8 := (bitmapOf_spec _ _).1
    have hlt : ∀ q ∈ setPages store.bitmap 0, q < store.pages := by
      intro q hq
      rw [ExtendedStore.bitmap, setPages_bitmapOf] at hq
      exact List.mem_range.1 (List.mem_filter.1 hq).1
    dsimp only at hcount ⊢
    rw [if_pos (.inr rfl), require_true (by simp [hlen]), Exec.ok_bind, countPages_eq hlt,
      Exec.ok_bind, require_true (by simp [hcount]), Exec.ok_bind]

end Snapshot.Taken

/-- What the first pass knows of a taken snapshot. -/
def Snapshot.checked (s : Snapshot) (cpu : Cpu σ) (checksums : List Nat) : Checked where
  memorySize := cpu.memorySize.toNat
  packedSize := s.packedSize
  extendedSize := s.extendedSize
  state := .arr s.state
  bitmap := cpu.ramPages
  extendedBitmap := cpu.extendedBitmap
  ramStart := s.prelude.length
  checksums := checksums

variable {size a : Nat} {src : Source} {cpu' : Cpu σ} {checksums : List Nat}
  {ram extended : List View}

theorem fits_ram (h : size ≤ 2 ^ 32) : Layout.ram.Fits size :=
  ⟨(by decide : 2 < 2 ^ 32), fun _ _ => (by decide : 0 < 2 ^ 32),
    fun _ hp => Nat.lt_of_lt_of_le hp h, (by decide : 0 < ramChunk),
    (by decide : recordSize + ramChunk ≤ chunkSize)⟩

theorem fits_extended (h : size ≤ 2 ^ 64) : Layout.extended.Fits size where
  kind := (by decide : 3 < 2 ^ 32)
  id := by
    intro p hp
    have : p / 2 ^ 32 < 2 ^ 32 := Nat.div_lt_of_lt_mul (Nat.lt_of_lt_of_le hp h)
    exact this
  offset := fun p _ => Nat.mod_lt p (by decide)
  pos := (by decide : 0 < ramChunk)
  chunk := (by decide : recordSize + ramChunk ≤ chunkSize)

theorem Snapshot.Taken.extendedSize_le (h : s.Taken b dev cpu) : s.extendedSize ≤ 2 ^ 36 := by
  have hle := cpu.extendedPacked_le
  have hpages : cpu.extendedPages * 4096 ≤ 2 ^ 36 := by
    unfold Cpu.extendedPages
    cases cpu.extendedStore with
    | none => decide
    | some store => exact store.pages_le
  rw [h.extendedSize]
  omega

/-- The pages of the records of a taken snapshot are read. -/
theorem Snapshot.Taken.readRecords_eq (h : s.Taken b dev cpu)
    (hsrc : src.Holds (s.bytes cpu)) : ∃ ram extended,
    readRecords src .ram s.packedSize (Layout.ram.count s.packedSize) 0 s.prelude.length = .ok ram ∧
    readRecords src .extended s.extendedSize (Layout.extended.count s.extendedSize) 0
      (s.prelude.length + Layout.ram.length s.packedSize) = .ok extended ∧
    recordPages ram = (setPages cpu.ramPages 0).map cpu.mem8.page ∧
    ∀ store, cpu.extendedStore = some store →
      recordPages extended = (setPages cpu.extendedBitmap 0).map store.memory.page := by
  have hram := h.sized.length_ramData
  have hextended := h.sized.length_extendedData
  have hpacked : s.packedSize ≤ 2 ^ 32 :=
    Nat.le_trans h.packedSize_le (Nat.le_of_lt cpu.memorySize.isLt)
  have hsize : s.extendedSize ≤ 2 ^ 64 := Nat.le_trans h.extendedSize_le (by decide)
  have hbytes := s.bytes_eq cpu
  obtain ⟨ram, hreadRam, hmapRam⟩ := State.readRecords_eq (fits_ram (hram ▸ hpacked)) hsrc
    (Nat.zero_add _) hbytes
  have hafter : s.bytes cpu = (s.prelude ++ Layout.ram.recordsFrom (s.ramData cpu) 0) ++
      (Layout.extended.recordsFrom (s.extendedData cpu) 0 ++ []) := by
    rw [hbytes, append_nil, append_assoc]
  obtain ⟨extended, hreadExt, hmapExt⟩ := State.readRecords_eq (fits_extended (hextended ▸ hsize))
    hsrc (Nat.zero_add _) hafter
  rw [Nat.zero_mul, hram] at hreadRam
  rw [length_append, length_recordsFrom (l := .ram) (by decide : 0 < ramChunk), Nat.zero_mul,
    hram, hextended] at hreadExt
  refine ⟨ram, extended, hreadRam, hreadExt, ?_, ?_⟩
  · rw [Snapshot.ramData, h.bitmap] at hmapRam
    exact recordPages_eq .ram cpu.mem8.length_page rfl hmapRam
  · intro store hstore
    rw [Snapshot.extendedData, hstore, h.extendedBitmap] at hmapExt
    exact recordPages_eq .extended store.memory.length_page rfl hmapExt

/-- The machine that reads a snapshot: it has as much RAM and extended RAM as the one that wrote
it, and takes its state. -/
structure Accepts (dev : Devices σ) (cpu cpu' : Cpu σ) (state : Value) : Prop where
  ram : cpu'.mem8.length = cpu.mem8.length
  extended : cpu'.extendedPages = cpu.extendedPages
  validated : dev.validateState state = true

namespace Snapshot.Taken

variable (h : s.Taken b dev cpu) (hsrc : src.Holds (s.bytes cpu))
include h hsrc

/-- The header is read, and its words are those that were written. -/
theorem header_read (hr : s.Readable) : ∃ v, streamRead src 0 headerSize = .ok v ∧
    ∀ i {w}, (s.words cpu)[i]? = some w → getUint32 v.bytes (4 * i) = w := by
  have hbefore : s.bytes cpu = [] ++ (s.header ++ s.restManifest cpu 0) := by
    rw [nil_append, Snapshot.bytes]
  obtain ⟨v, hheader, hbytes⟩ := streamRead_eq hsrc hbefore (by rw [h.length_header]; decide)
  rw [h.length_header, length_nil] at hheader
  refine ⟨v, hheader, fun i w hi => ?_⟩
  rw [hbytes, h.header]
  exact getUint32_flatMap (h.words_lt hr) hi

/-- The chunks of the manifest are its bytes. -/
theorem readManifest_eq :
    readManifest src s.manifest.length (ceilDiv s.manifest.length chunkSize) 0 = .ok s.manifest := by
  have hdata : s.bytes cpu = s.header ++ (s.manifest ++ s.restBuffers cpu s.buffers 0 0) := by
    rw [Snapshot.bytes, Snapshot.restManifest, drop_zero]
  have hread := State.readManifest_eq hsrc (Nat.zero_add _) h.length_header hdata
  rwa [Nat.zero_mul, drop_zero] at hread

/-- The chunks of the buffers are their bytes. -/
theorem readBuffers_eq (hr : s.Readable) :
    readBuffers src (s.buffers.map List.length) 0 (headerSize + s.manifest.length) =
      .ok (s.buffers, s.prelude.length) := by
  have hdata : s.bytes cpu = (s.header ++ s.manifest) ++
      (bufferRecords s.buffers 0 0 ++ s.restRam cpu 0) := by
    rw [Snapshot.bytes, Snapshot.restManifest, drop_zero, Snapshot.restBuffers, append_assoc]
  have hcount : 0 + s.buffers.length ≤ 2 ^ 32 := by
    have := hr.buffers
    omega
  have hread := State.readBuffers_eq hsrc hcount
    (fun bytes hb => Nat.le_trans (hr.lengths bytes hb) (by decide)) hdata
  rw [length_append, h.length_header] at hread
  rw [hread, Snapshot.prelude, length_append, length_append, h.length_header, Nat.add_assoc]

end Snapshot.Taken

/-- The properties of a manifest. -/
theorem jsonGet_manifestOf (state : List Value) (packed : Nat) :
    jsonGet (manifestOf state packed) "buffers" = .ok (some (.arr
      ((saveObject (.arr state) []).2.map fun bytes => .num (.int bytes.length)))) ∧
    jsonGet (manifestOf state packed) "extended_pages" = .ok (some (.num (.int packed))) ∧
    jsonGet (manifestOf state packed) "state" = .ok (some (saveObject (.arr state) []).1) := by
  simp [manifestOf, jsonGet, property, lookup_cons]

theorem extendedPacked_eq {packed pages : Nat} (h : packed ≤ pages) :
    extendedPacked (some (.num (.int packed))) pages = .ok packed := by
  refine (if_pos ⟨Int.natCast_nonneg _, by omega⟩).trans ?_
  rw [Int.toNat_natCast]

theorem bufferLengths_eq (hr : s.Readable) : bufferLengths (some (.arr (s.buffers.map fun bytes =>
    .num (.int bytes.length)))) s.buffers.length = .ok (s.buffers.map List.length) := by
  refine (if_pos ⟨length_map _, hr.buffers⟩).trans ?_
  rw [mapM_lengthOf hr.lengths]
  rfl

/-- The first pass accepts a taken snapshot. -/
theorem checkStream_eq (h : s.Taken b dev cpu) (hr : s.Readable) (htext : s.Text b cpu)
    (hplain : (Value.arr s.state).Plain) (hcpu : Accepts dev cpu cpu' (.arr s.state))
    (hsrc : src.Holds (s.bytes cpu)) :
    ∃ checksums, checkStream b dev cpu' src = .ok (s.checked cpu checksums) := by
  obtain ⟨ram, extended, hram, hextended, _⟩ := h.readRecords_eq hsrc
  refine ⟨ram.map View.checksum ++ extended.map View.checksum, ?_⟩
  obtain ⟨v, hheader, hword⟩ := h.header_read hsrc hr
  have hlengths : bufferLengths (some (.arr ((saveObject (.arr s.state) []).2.map fun bytes =>
      .num (.int bytes.length)))) s.buffers.length = .ok (s.buffers.map List.length) := by
    rw [← h.buffers]
    exact bufferLengths_eq hr
  -- the tree
  have hprefix : (saveObject (.arr s.state) []).2 <+: s.buffers := h.buffers ▸ prefix_refl _
  have hvalidate : validateStreamTree b (s.buffers.map List.length) 0
      (saveObject (.arr s.state) []).1 = .ok () :=
    validate_saveObject hplain hprefix (by have := hr.depth; omega)
  have hrestore : restoreBuffers b s.buffers (saveObject (.arr s.state) []).1 = .ok (.arr s.state) :=
    restore_saveObject hplain hprefix
  have hnonempty : s.manifest.length ≠ 0 := fun h0 => htext.nonempty (List.length_eq_zero_iff.1 h0)
  have hpackedSize : s.packedSize % 4096 = 0 := by
    rw [h.packedSize]
    exact Nat.mul_mod_right _ _
  have htotal := h.length_bytes
  rw [← hsrc.size] at htotal
  have hmem := h.fits
  rw [← hcpu.ram] at hmem
  have hcrc : streamCrc ⟨0, s.manifest⟩ = some ((streamCrc ⟨0, s.manifest⟩).getD 0) := by
    rw [streamCrc_of_lt (Nat.lt_of_le_of_lt h.limit (by decide)), Option.getD_some]
  unfold checkStream
  rw [require_true (decide_eq_true (by omega)), Exec.ok_bind, hheader, Exec.ok_bind]
  -- the words of the header
  have h0 : getUint32 v.bytes (4 * 0) = stateMagic := hword 0 rfl
  have h1 : getUint32 v.bytes (4 * 1) = streamVersion := hword 1 rfl
  have h2 : getUint32 v.bytes (4 * 2) = chunkSize := hword 2 rfl
  have h3 : getUint32 v.bytes (4 * 3) = s.manifest.length := hword 3 rfl
  have h4 : getUint32 v.bytes (4 * 4) = s.buffers.length := hword 4 rfl
  have h5 : getUint32 v.bytes (4 * 5) = cpu.memorySize.toNat := hword 5 rfl
  have h6 : getUint32 v.bytes (4 * 6) = s.packedSize := hword 6 rfl
  have h7 : getUint32 v.bytes (4 * 7) = (streamCrc ⟨0, s.manifest⟩).getD 0 := hword 7 rfl
  simp only [h0, h1, h2, h3, h4, h5, h6, h7]
  obtain ⟨hinfoBuffers, hinfoExtended, hinfoState⟩ :=
    jsonGet_manifestOf s.state cpu.extendedPacked
  rw [require_true (by simp), Exec.ok_bind,
    require_true (by simp [hnonempty, h.limit, hmem, h.whole, h.packedSize_le, hpackedSize]),
    Exec.ok_bind, h.readManifest_eq hsrc, Exec.ok_bind, require_true (decide_eq_true hcrc),
    Exec.ok_bind, htext.parse, Exec.okOr, Exec.ok_bind, hinfoBuffers, Exec.ok_bind, hlengths,
    Exec.ok_bind, hinfoExtended, Exec.ok_bind, hcpu.extended,
    extendedPacked_eq cpu.extendedPacked_le, Exec.ok_bind, Nat.mul_comm cpu.extendedPacked,
    ← h.extendedSize, require_true (by simpa using htotal.symm), Exec.ok_bind, hinfoState,
    Exec.ok_bind, Option.getD_some, hvalidate, Exec.ok_bind, h.readBuffers_eq hsrc hr,
    Exec.ok_bind, hrestore, Exec.ok_bind, h.ramBitmap_eq, Exec.ok_bind, h.extendedBitmap_eq,
    Exec.ok_bind, require_true hcpu.validated, Exec.ok_bind, hram, Exec.ok_bind, hextended,
    Exec.ok_bind]
  rfl

/-! ## The second pass on a taken snapshot -/

theorem clearEffect_mem8 (cpu : Cpu σ) : (clearEffect cpu).mem8 = cpu.mem8 := by
  unfold clearEffect
  split <;> rfl

theorem clearEffect_state (cpu : Cpu σ) : (clearEffect cpu).state = cpu.state := by
  unfold clearEffect
  split <;> rfl

/-- Extended RAM is zero after it is cleared. -/
theorem clearEffect_byte (cpu : Cpu σ) (a : Nat) : (clearEffect cpu).extendedByte a = 0 := by
  unfold clearEffect
  cases hstore : cpu.extendedStore with
  | none =>
    dsimp only
    rw [Cpu.extendedByte, hstore]
  | some store =>
    change (if store.touched (a / 4096) then 0 else store.memory.byte a) = 0
    split
    · rfl
    · next h =>
      exact (store.memory.isZero_iff _).1 (store.zero_of_untouched _ (by simpa using h)) a rfl

/-- The machine before the pages of extended RAM are written. -/
def Checked.cleared (c : Checked) (ram : List View) (cpu : Cpu σ) : Cpu σ :=
  clearEffect (writeAll ramEffect ((setPages c.bitmap 0).zip (recordPages ram))
    (Cpu.written { cpu with mem8 := cpu.mem8.zero c.memorySize }))

theorem Checked.restored_eq (c : Checked) (ram extended : List View) (cpu : Cpu σ) :
    c.restored ram extended cpu =
      writeAll extendedEffect ((setPages c.extendedBitmap 0).zip (recordPages extended))
        (c.cleared ram cpu) := rfl

theorem Checked.cleared_extendedPages (c : Checked) (ram : List View) (cpu : Cpu σ) :
    (c.cleared ram cpu).extendedPages = cpu.extendedPages := by
  rw [Checked.cleared, clearEffect_extendedPages, Cpu.extendedPages_eq, writeAll_ram_extendedStore,
    Cpu.extendedPages_eq]
  rfl

theorem Checked.restored_state (c : Checked) (ram extended : List View) (cpu : Cpu σ) :
    (c.restored ram extended cpu).state = cpu.state := by
  rw [Checked.restored_eq, writeAll_state extendedEffect fun _ _ _ => rfl, Checked.cleared,
    clearEffect_state, writeAll_state ramEffect fun _ _ _ => rfl]
  rfl

/-- The pages of RAM that are written are those that are not zero. -/
theorem restored_ram (hram : recordPages ram = (setPages cpu.ramPages 0).map cpu.mem8.page)
    (cpu' : Cpu σ) (ha : a < cpu.memorySize.toNat) (hwhole : cpu.memorySize.toNat % 4096 = 0) :
    ((s.checked cpu checksums).restored ram extended cpu').mem8.byte a = cpu.mem8.byte a := by
  have hbitmap : (s.checked cpu checksums).bitmap = cpu.ramPages := rfl
  rw [Checked.restored_eq, writeAll_extended_mem8, Checked.cleared, clearEffect_mem8, hram, hbitmap,
    writeAll_ram_byte]
  by_cases hmem : a / 4096 ∈ setPages cpu.ramPages 0
  · rw [if_pos hmem]
  · have hzero : (Cpu.written { cpu' with mem8 := cpu'.mem8.zero cpu.memorySize.toNat }).mem8.byte a =
        0 := if_pos ha
    have hpage : cpu.mem8.isZero (a / 4096) = true := by
      rw [cpu.setPages_ramPages, mem_filter, mem_range] at hmem
      by_contra hne
      exact hmem ⟨by omega, by simpa using hne⟩
    rw [(cpu.mem8.isZero_iff _).1 hpage a rfl]
    exact (if_neg hmem).trans hzero

/-- The extended store is that of the snapshot. -/
theorem restored_extended (hextended : ∀ store, cpu.extendedStore = some store →
      recordPages extended = (setPages cpu.extendedBitmap 0).map store.memory.page)
    (hpages : cpu'.extendedPages = cpu.extendedPages) (ha : a < cpu.extendedPages * 4096) :
    ((s.checked cpu checksums).restored ram extended cpu').extendedByte a = cpu.extendedByte a := by
  cases hstore : cpu.extendedStore with
  | none =>
    rw [Cpu.extendedPages, hstore, Nat.zero_mul] at ha
    cases ha
  | some store =>
    have hkept : ((s.checked cpu checksums).cleared ram cpu').extendedStore ≠ none := by
      intro hnone
      have hzero := (s.checked cpu checksums).cleared_extendedPages ram cpu'
      rw [Cpu.extendedPages, hnone, hpages] at hzero
      rw [← hzero, Nat.zero_mul] at ha
      cases ha
    have hof : cpu.extendedByte a = store.memory.byte a := by
      rw [Cpu.extendedByte, hstore]
    have hpagesOf : (s.checked cpu checksums).extendedBitmap = cpu.extendedBitmap := rfl
    rw [Checked.restored_eq, hextended store hstore, hpagesOf, writeAll_extended_byte _ _ hkept, hof,
      Checked.cleared, clearEffect_byte]
    split
    · rfl
    · next hmem =>
      have hbitmap : cpu.extendedBitmap = store.bitmap := by
        rw [Cpu.extendedBitmap, hstore]
      have hlt : a / 4096 < store.pages := by
        rw [Cpu.extendedPages, hstore] at ha
        dsimp only at ha
        omega
      have hpage : store.memory.isZero (a / 4096) = true := by
        by_contra hne
        refine hmem ?_
        rw [hbitmap, ExtendedStore.bitmap, setPages_bitmapOf, mem_filter, mem_range]
        refine ⟨hlt, ?_⟩
        unfold ExtendedStore.isZero
        split
        · simpa using hne
        · next h => exact absurd (store.zero_of_untouched _ (by simpa using h)) hne
      exact ((store.memory.isZero_iff _).1 hpage a rfl).symm

end

/-- Devices whose state is a list. -/
def listDevices : Devices (List Value) where
  slots := fun xs => xs
  validateState := fun _ => true
  setState := fun v xs => (.ok (), match v with
    | .arr (_ :: ys) => ys
    | _ => xs)

/-- The elements of the state of a machine that a writer saves. -/
def Cpu.streamState {σ : Type} (cpu : Cpu σ) (dev : Devices σ) : List Value :=
  setSlot (setSlot (setSlot (getState dev cpu) 77 .null) 78 (.typed .uint8 cpu.ramPages)) 99
    cpu.extendedSlot

/-- The engine that reads the manifest of a machine. -/
def Cpu.engine {σ : Type} (cpu : Cpu σ) (dev : Devices σ) : Builtins :=
  State.engine (manifestOf (cpu.streamState dev) cpu.extendedPacked)

section
variable {σ : Type} {dev : Devices σ} {cpu : Cpu σ} {s : Snapshot}

theorem plainList_setSlot {xs : List Value} (h : PlainList xs) (i : Nat) {v : Value} (hv : v.Plain) :
    PlainList (setSlot xs i v) := by
  rw [plainList_iff] at h ⊢
  intro x hx
  unfold setSlot at hx
  split at hx
  · rcases mem_or_eq_of_mem_set hx with hx | rfl
    · exact h x hx
    · exact hv
  · simp only [mem_append, mem_replicate, mem_singleton] at hx
    rcases hx with (hx | ⟨_, rfl⟩) | rfl
    · exact h x hx
    · exact trivial
    · exact hv

/-- The state that a writer saves is a tree as the devices build it. -/
theorem Cpu.plain_streamState (h : PlainList (dev.slots cpu.state)) :
    (Value.arr (cpu.streamState dev)).Plain := by
  have hextended : cpu.extendedSlot.Plain := by
    unfold Cpu.extendedSlot
    split
    · exact trivial
    · exact Nat.mod_one _
  have hdevices : PlainList (getState dev cpu) := ⟨trivial, h⟩
  have hnull : Value.null.Plain := trivial
  have hbitmap : (Value.typed .uint8 cpu.ramPages).Plain := Nat.mod_one _
  exact plainList_setSlot (plainList_setSlot (plainList_setSlot hdevices 77 hnull) 78 hbitmap) 99
    hextended

/-- A machine of whole pages, with a manifest that is not too long, is written. -/
theorem createStateStream_eq (cpu : Cpu σ) (dev : Devices σ) (b : Builtins)
    (hfits : cpu.memorySize.toNat ≤ cpu.mem8.length) (hwhole : cpu.memorySize.toNat % 4096 = 0)
    (hlimit : (b.stringify (manifestOf (cpu.streamState dev) cpu.extendedPacked)).length ≤ infoLimit) :
    ∃ s, createStateStream b dev cpu = .ok s := by
  unfold createStateStream
  dsimp only
  rw [require_true (by simp [hfits, hwhole]), Exec.ok_bind]
  have hcrc := Exec.unwrap_eq_ok.2 (streamCrc_of_lt (v := ⟨0, b.stringify (manifestOf
    (cpu.streamState dev) cpu.extendedPacked)⟩) (Nat.lt_of_le_of_lt hlimit (by decide)))
  exact ⟨_, Exec.bind_eq_ok.2 ⟨(), require_true (decide_eq_true hlimit) _,
    Exec.bind_eq_ok.2 ⟨_, hcrc, rfl⟩⟩⟩

theorem Snapshot.Taken.text (h : s.Taken (cpu.engine dev) dev cpu)
    (hne : (manifestOf (cpu.streamState dev) cpu.extendedPacked).bytes ≠ []) :
    s.Text (cpu.engine dev) cpu := by
  have hstate : s.state = cpu.streamState dev := h.state
  have hmanifest := h.manifest
  rw [hstate] at hmanifest
  refine ⟨fun hnil => hne (hmanifest.symm.trans hnil), ?_⟩
  rw [hmanifest, hstate]
  exact engine_parse _

end

/-- RAM of two pages, one of which is not zero, a page of extended RAM, and a `Map` with a typed
array and an empty one as its state. -/
def smallCpu : Cpu (List Value) where
  memorySize := 8192
  mem8 := ⟨8192, fun a => if a = 5000 then 7 else 0⟩
  extendedStore := some {
    pages := 1
    memory := ⟨4096, fun a => if a = 9 then 1 else 0⟩
    touched := fun _ => true
    length_memory := rfl
    pages_le := by decide
    zero_of_untouched := nofun }
  state := [.map [(.num (.int 1), .typed .uint8 [1, 2, 3])], .typed .uint32 []]
  writes := 0

section
variable {σ : Type} {b : Builtins}

/-- A snapshot is read back: the chunks of a writer, one after the other, are a source that the
reader takes, and RAM, extended RAM and the tree of the state are those that were written. -/
theorem stream_round_trip {s : Snapshot} {dev : Devices σ} {cpu : Cpu σ}
    (h : createStateStream b dev cpu = .ok s) (hr : s.Readable) (htext : s.Text b cpu)
    (hplain : (Value.arr s.state).Plain) :
    ∃ chunks, (∀ n, (s.bytes cpu).length < n → Writer.chunks cpu s n .start = .ok chunks) ∧
      ∀ (src : Source) (cpu' : Cpu σ), src.Holds chunks.flatten →
        Accepts dev cpu cpu' (.arr s.state) →
        ∃ cpu'', restoreStateStream b dev src cpu' = .ok (dev.setState (.arr s.state) cpu'.state).1
            cpu'' ∧ (∀ a < cpu.memorySize.toNat, cpu''.mem8.byte a = cpu.mem8.byte a) ∧
          (∀ a < cpu.extendedPages * 4096, cpu''.extendedByte a = cpu.extendedByte a) ∧
          cpu''.state = (dev.setState (.arr s.state) cpu'.state).2 := by
  have ht := createStateStream_taken h
  have hheader : s.header ≠ [] := by
    intro hnil
    have := ht.length_header
    rw [hnil] at this
    cases this
  have hstart : Writer.Inv s .start := ⟨fun _ => rfl, fun _ => rfl, nofun, fun _ => rfl, nofun,
    fun _ => rfl, nofun⟩
  obtain ⟨chunks, hflatten, hchunks⟩ := Writer.chunks_eq ht.sized hheader hstart
  have hrest : Writer.start.rest cpu s = s.bytes cpu := if_pos rfl
  rw [hrest] at hflatten hchunks
  refine ⟨chunks, hchunks, fun src cpu' hsrc hcpu => ?_⟩
  rw [hflatten] at hsrc
  obtain ⟨ram, extended, hram, hextended, hpagesRam, hpagesExt⟩ := ht.readRecords_eq hsrc
  obtain ⟨checksums, hc⟩ := checkStream_eq ht hr htext hplain hcpu hsrc
  obtain ⟨ram', extended', hram', hextended', heq⟩ := restoreStateStream_eq hc
  cases hram.symm.trans hram'
  cases hextended.symm.trans hextended'
  rw [Checked.restored_state] at heq
  exact ⟨_, heq, fun a ha => restored_ram hpagesRam cpu' ha ht.whole,
    fun a ha => restored_extended hpagesExt hcpu.extended ha, rfl⟩

end

/-- The snapshot of `smallCpu` is one that the reader takes. -/
theorem smallCpu_taken : ∃ s, createStateStream (smallCpu.engine listDevices) listDevices
      smallCpu = .ok s ∧ s.state = smallCpu.streamState listDevices ∧ s.Readable ∧
    s.Text (smallCpu.engine listDevices) smallCpu ∧ (Value.arr s.state).Plain := by
  obtain ⟨s, hs⟩ := createStateStream_eq smallCpu listDevices (smallCpu.engine listDevices)
    (by decide) (by decide) (by decide +kernel)
  have ht := createStateStream_taken hs
  have hstate : s.state = smallCpu.streamState listDevices := ht.state
  have hbuffers := ht.buffers
  rw [hstate] at hbuffers
  refine ⟨s, hs, hstate, ⟨?_, ?_, ?_⟩, ht.text (by decide +kernel), ?_⟩
  · rw [hstate]
    decide +kernel
  · rw [hbuffers]
    decide +kernel
  · rw [hbuffers]
    decide +kernel
  · rw [hstate]
    refine Cpu.plain_streamState ?_
    simp [listDevices, smallCpu, PlainList, PlainEntries, Value.Plain, Value.mapKey,
      Kind.bytesPerElement]

/-- Two pages of RAM and one of extended RAM. -/
theorem stream_round_trip_small : ∃ s, createStateStream (smallCpu.engine listDevices) listDevices
    smallCpu = .ok s ∧ ∃ chunks, (∀ n, (s.bytes smallCpu).length < n →
        Writer.chunks smallCpu s n .start = .ok chunks) ∧
      ∀ (src : Source) (cpu' : Cpu (List Value)), src.Holds chunks.flatten →
        Accepts listDevices smallCpu cpu' (.arr s.state) →
        ∃ cpu'', restoreStateStream (smallCpu.engine listDevices) listDevices src cpu' =
            .ok (.ok ()) cpu'' ∧ (∀ a < 8192, cpu''.mem8.byte a = smallCpu.mem8.byte a) ∧
          (∀ a < 4096, cpu''.extendedByte a = smallCpu.extendedByte a) ∧
          cpu''.state = s.state.tail := by
  obtain ⟨s, hs, hstate, hr, htext, hplain⟩ := smallCpu_taken
  refine ⟨s, hs, ?_⟩
  obtain ⟨chunks, hchunks, hread⟩ := stream_round_trip hs hr htext hplain
  refine ⟨chunks, hchunks, fun src cpu' hsrc hcpu => ?_⟩
  obtain ⟨cpu'', heq, hram, hextended, hdone⟩ := hread src cpu' hsrc hcpu
  refine ⟨cpu'', heq, hram, hextended, hdone.trans ?_⟩
  rw [hstate]
  rfl

/-- An empty source is rejected, and a snapshot is restored. -/
theorem restore_untouched_or_done_small :
    restoreStateStream (smallCpu.engine listDevices) listDevices (.ofBytes []) smallCpu =
      .error (.error "Snapshot source requires size and read(offset, length)") smallCpu ∧
    ∃ src out cpu', restoreStateStream (smallCpu.engine listDevices) listDevices src smallCpu =
      .ok out cpu' := by
  obtain ⟨s, hs, _, hr, htext, hplain⟩ := smallCpu_taken
  refine ⟨(restore_untouched_or_done _ _ _ _).1 _ rfl, .ofBytes (s.bytes smallCpu), ?_⟩
  obtain ⟨_, hc⟩ := checkStream_eq (createStateStream_taken hs) hr htext hplain ⟨rfl, rfl, rfl⟩
    (Source.holds_ofBytes _)
  exact (restore_untouched_or_done _ _ _ _).2 _ hc

/-- Arrays in arrays. -/
def nested : Nat → Value
  | 0 => .arr []
  | n + 1 => .arr [nested n]

/-- A machine without RAM, whose state is nested more deeply than the reader takes. -/
def nestedCpu : Cpu (List Value) where
  memorySize := 0
  mem8 := ⟨0, fun _ => 0⟩
  extendedStore := none
  state := [nested 300]
  writes := 0

theorem plain_nested (n : Nat) : (nested n).Plain := by
  induction n with
  | zero => exact trivial
  | succ n ih => exact ⟨ih, trivial⟩

/-- A snapshot that is written is not read back. -/
theorem stream_not_round_trip : ∃ s, createStateStream (nestedCpu.engine listDevices) listDevices
    nestedCpu = .ok s ∧ (Value.arr s.state).Plain ∧ s.Text (nestedCpu.engine listDevices) nestedCpu ∧
    s.buffers.length ≤ 65536 ∧ (∀ bytes ∈ s.buffers, bytes.length ≤ 0xFFFFFFFF) ∧
    ∀ src : Source, src.Holds (s.bytes nestedCpu) → ∃ e,
      restoreStateStream (nestedCpu.engine listDevices) listDevices src nestedCpu =
        .error e nestedCpu := by
  obtain ⟨s, hs⟩ := createStateStream_eq nestedCpu listDevices (nestedCpu.engine listDevices)
    (by decide) (by decide) (by decide +kernel)
  have ht := createStateStream_taken hs
  have hstate : s.state = nestedCpu.streamState listDevices := ht.state
  have hbuffers := ht.buffers
  rw [hstate] at hbuffers
  refine ⟨s, hs, ?_, ht.text (by decide +kernel), ?_, ?_, fun src _ => ?_⟩
  · rw [hstate]
    exact Cpu.plain_streamState ⟨plain_nested 300, trivial⟩
  · rw [hbuffers]
    decide +kernel
  · rw [hbuffers]
    decide +kernel
  cases hc : checkStream (nestedCpu.engine listDevices) listDevices nestedCpu src with
  | error e => exact ⟨e, restoreStateStream_error hc⟩
  | ok c =>
    -- the tree that the engine gives is nested too deeply
    have hdeep : 256 < (Value.arr (nestedCpu.streamState listDevices)).depth := by decide +kernel
    unfold checkStream at hc
    simp only [Exec.bind_eq_ok, Exec.okOr_eq_ok] at hc
    obtain ⟨_, _, _, _, _, _, _, _, manifest, _, _, _, info, hinfo, _, _, lengths, _, _, _, _, _, _, _,
      tree, htree, _, hvalid, _⟩ := hc
    have hread : info = manifestOf (nestedCpu.streamState listDevices) nestedCpu.extendedPacked := by
      have hparse : (if manifest = _ then some _ else none) = some info := hinfo
      split at hparse
      · exact (Option.some.inj hparse).symm
      · cases hparse
    have htree' : tree = some (saveObject (.arr (nestedCpu.streamState listDevices)) []).1 := by
      rw [hread] at htree
      simpa [manifestOf, jsonGet, property, lookup_cons] using htree.symm
    rw [htree'] at hvalid
    have := depth_of_validate hvalid
    omega

end V86.State
