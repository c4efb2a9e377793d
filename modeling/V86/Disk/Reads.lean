import V86.Disk.BufferCorrect
import V86.Lib.Runs

/-!
# Reads of a lazily loaded disk

A disk is used by sets and by reads, and the loads of a waiting read complete whenever they do.
Every read sees what it has to, unless it is assembled from parts: `AsyncXHRPartfileBuffer.get`
copies a loaded chunk into the read's buffer before `handle_read` puts the written blocks over it.
-/

namespace V86.Disk

variable {β : Type _} {image : Nat → β} {log more : List (Nat × β)} {d : Blocks β}
  {b i start count : Nat} {v : β}

/-! ## The system -/

/-- A `get` or `get_and_cache` that is waiting. Its place in the log is not in the code: it is
for the statement of what it may see. -/
structure Waiting (β : Type _) where
  start : Nat
  count : Nat
  keep : Bool
  issued : Nat
  reading : Reading β

/-- What a callback was called with, between two places in the log. -/
structure Answer (β : Type _) where
  start : Nat
  count : Nat
  issued : Nat
  answered : Nat
  data : List β

/-- A disk, the sets so far, the reads that wait and those answered. -/
structure System (β : Type _) where
  blocks : Blocks β
  log : List (Nat × β)
  waiting : List (Waiting β)
  answers : List (Answer β)

inductive Event (β : Type _) where
  | set (start : Nat) (data : List β)
  | get (start count : Nat) (keep : Bool)
  /-- a load of a waiting read completes -/
  | loaded (request chunk : Nat)

namespace System

variable [Inhabited β] {cfg : Config} {s : System β}

def empty : System β := ⟨.empty, [], [], []⟩

/-- A read's callback, with that of `get_and_cache` before it. -/
def answer (s : System β) (start count : Nat) (keep : Bool) (issued : Nat) (data : List β) :
    System β :=
  { s with
    blocks := if keep then s.blocks.keep start count data else s.blocks
    answers := s.answers ++ [⟨start, count, issued, s.log.length, data⟩] }

def step (cfg : Config) (image : Nat → β) (s : System β) : Event β → System β
  | .set start data =>
    { s with blocks := s.blocks.set start data, log := s.log ++ Blocks.setLog start data }
  | .get start count keep =>
    match Disk.get cfg s.blocks start count with
    | .done data => s.answer start count keep s.log.length data
    | .waits reading =>
      { s with waiting := s.waiting ++ [⟨start, count, keep, s.log.length, reading⟩] }
  | .loaded request chunk =>
    match s.waiting[request]? with
    | none => s
    | some w =>
      let (blocks, started) :=
        Disk.loaded cfg image s.blocks w.start w.count chunk w.reading
      match started with
      | .done data =>
        { s with blocks, waiting := s.waiting.eraseIdx request }.answer w.start w.count w.keep
          w.issued data
      | .waits reading =>
        { s with blocks, waiting := s.waiting.set request { w with reading } }

/-- The first block of the chunk with a block. -/
def chunkStart (c b : Nat) : Nat := b / c * c

/-- No read from parts reaches a block that was written, in a chunk that has to be loaded. -/
def Unwritten (cfg : Config) (s : System β) : Event β → Prop
  | .get start count _ =>
    cfg.kind = .partfile → s.blocks.getFromCache start count = none → ∀ c ∈ cfg.chunk,
      ∀ i, i < count → s.blocks.getFromCache (chunkStart c (start + i)) c = none →
        s.blocks.written (start + i) = false
  | _ => True

end System

/-! ## Chunks -/

section
variable {c n pos : Nat} (hc : 0 < c)
include hc

theorem div_eq_iff_between : pos / c = n ↔ n * c ≤ pos ∧ pos < n * c + c := by
  rw [Nat.div_eq_iff hc, Nat.mul_comm n c]
  omega

theorem div_lt_ceilDiv (h : pos < n) : pos / c < ceilDiv n c := by
  have : (pos + c) / c ≤ (n + c - 1) / c := Nat.div_le_div_right (by omega)
  rw [Nat.add_div_right _ hc] at this
  exact this

theorem le_ceilDiv_mul : n ≤ ceilDiv n c * c := by
  have h := Nat.div_add_mod (n + c - 1) c
  have := Nat.mod_lt (n + c - 1) hc
  rw [Nat.mul_comm] at h
  unfold ceilDiv
  omega

omit hc in
theorem mul_add_le (h : pos < n) : pos * c + c ≤ n * c := by
  rw [← Nat.succ_mul]
  exact Nat.mul_le_mul_right c h

/-- The chunk of a block of a read, counted from the chunk the read starts in. -/
theorem chunkStart_eq {start k : Nat} :
    System.chunkStart c (start + k) = (start / c + (start - start / c * c + k) / c) * c := by
  have hle := Nat.div_mul_le_self start c
  have hsum : start + k = start - start / c * c + k + start / c * c := by omega
  unfold System.chunkStart
  rw [hsum, Nat.add_mul_div_right _ _ hc, Nat.add_comm]

end

theorem length_load : (load image start count).length = count := by simp [load]

theorem getElem?_load (h : i < count) : (load image start count)[i]? = some (image (start + i)) := by
  rw [load, List.getElem?_map, List.getElem?_range h]
  rfl

theorem getElem?_subarray {block : List β} {offset : Nat} (h : i < count) :
    (subarray block offset count)[i]? = block[offset + i]? := by
  rw [subarray, List.getElem?_take_of_lt h, List.getElem?_drop]

variable [Inhabited β]

/-- The buffer of a read from parts before any load: the chunks in the cache are in it. -/
theorem startParts_spec (h : d.Ok image log) (c startIndex total : Nat) :
    (startParts d c startIndex total).1.length = total * c ∧
      (startParts d c startIndex total).2.Nodup ∧
      (∀ i ∈ (startParts d c startIndex total).2, i < total ∧
        d.getFromCache ((startIndex + i) * c) c = none) ∧
      ∀ i, i < total → i ∉ (startParts d c startIndex total).2 → ∀ j, j < c →
        (startParts d c startIndex total).1[i * c + j]? =
          some (valueAt image log ((startIndex + i) * c + j)) := by
  -- the induction is on the rounds of the loop, the buffer has its full size from the start
  suffices hloop : ∀ n, n ≤ total → ∀ s, (List.range n).foldl (startPart d c startIndex)
      (List.replicate (total * c) default, []) = s →
      s.1.length = total * c ∧ s.2.Nodup ∧
        (∀ i ∈ s.2, i < n ∧ d.getFromCache ((startIndex + i) * c) c = none) ∧
        ∀ i, i < n → i ∉ s.2 → ∀ j, j < c →
          s.1[i * c + j]? = some (valueAt image log ((startIndex + i) * c + j)) from
    hloop total le_rfl _ rfl
  intro n hn
  induction n with
  | zero =>
    rintro s rfl
    refine ⟨List.length_replicate, .nil, fun i hi => absurd hi List.not_mem_nil, fun i hi => ?_⟩
    cases hi
  | succ n ih =>
    rintro s rfl
    rw [List.range_succ, List.foldl_append, List.foldl_cons, List.foldl_nil]
    obtain ⟨hlen, hnodup, hmem, hdata⟩ := ih (Nat.le_of_succ_le hn) _ rfl
    rw [startPart]
    split
    case h_1 block hblock =>
      obtain ⟨hblen, hbget⟩ := Blocks.getFromCache_spec h hblock
      have hfit : n * c + block.length ≤ total * c := hblen ▸ mul_add_le hn
      refine ⟨(length_splice (by rw [hlen]; exact hfit)).trans hlen, hnodup,
        fun i hi => ⟨Nat.lt_succ_of_lt (hmem i hi).1, (hmem i hi).2⟩, fun i hi hni j hj => ?_⟩
      rw [getElem?_splice (by rw [hlen]; exact hfit), hblen]
      by_cases hin : i = n
      · subst hin
        rw [if_pos (by omega), Nat.add_sub_cancel_left]
        exact (hbget j hj).1
      · have hlt : i < n := by omega
        have := mul_add_le (c := c) hlt
        rw [if_neg (by omega)]
        exact hdata i hlt hni j hj
    case h_2 hnone =>
      refine ⟨hlen, ?_, ?_, ?_⟩
      · refine List.nodup_append.2 ⟨hnodup, List.pairwise_singleton _ n, ?_⟩
        rintro a ha b hb rfl
        rw [List.mem_singleton.1 hb] at ha
        exact Nat.lt_irrefl n (hmem n ha).1
      · intro i hi
        rcases List.mem_append.1 hi with hi | hi
        · exact ⟨Nat.lt_succ_of_lt (hmem i hi).1, (hmem i hi).2⟩
        · rw [List.mem_singleton.1 hi]
          exact ⟨Nat.lt_succ_self n, hnone⟩
      · intro i hi hni j hj
        rw [List.mem_append, not_or, List.mem_singleton] at hni
        exact hdata i (by omega) hni.1 j hj

/-! ## What a waiting read will see -/

/-- The blocks of a read are what it may see. -/
def Sees (image : Nat → β) (log : List (Nat × β)) (issued answered start count : Nat)
    (data : List β) : Prop :=
  ∀ i, i < count → ∃ v, data[i]? = some v ∧ Allowed image log issued answered (start + i) v

/-- A read that is being assembled from chunks: what is there is what it may see, and a block
whose chunk is still to come was the image's when the read was issued. -/
structure Parts (image : Nat → β) (log : List (Nat × β)) (issued start count c : Nat)
    (startIndex : Nat) (blocks : List β) (waiting : List Nat) : Prop where
  index : startIndex = start / c
  length : blocks.length = ceilDiv (start - startIndex * c + count) c * c
  lt : ∀ i ∈ waiting, i < ceilDiv (start - startIndex * c + count) c
  nodup : waiting.Nodup
  coming : ∀ k, k < count → (start - startIndex * c + k) / c ∈ waiting →
    valueAt image (log.take issued) (start + k) = image (start + k)
  there : ∀ k, k < count → (start - startIndex * c + k) / c ∉ waiting →
    ∃ v, blocks[start - startIndex * c + k]? = some v ∧
      Allowed image log issued log.length (start + k) v

/-- A waiting read is in order. -/
inductive InOrder (cfg : Config) (image : Nat → β) (log : List (Nat × β)) (issued : Nat)
    (start count : Nat) : Reading β → Prop
  | whole {s n : Nat} (h : s ≤ start) (h' : start + count ≤ s + n) :
      InOrder cfg image log issued start count (.whole s n)
  | parts {c startIndex : Nat} {blocks : List β} {waiting : List Nat} (hc : cfg.chunk = some c)
      (h : Parts image log issued start count c startIndex blocks waiting) :
      InOrder cfg image log issued start count (.parts startIndex blocks waiting)

variable {cfg : Config} {issued : Nat} {reading : Reading β}

omit [Inhabited β] in
theorem InOrder.later (h : InOrder cfg image log issued start count reading)
    (hi : issued ≤ log.length) : InOrder cfg image (log ++ more) issued start count reading := by
  cases h with
  | whole h h' => exact .whole h h'
  | parts hc h =>
    refine .parts hc ⟨h.index, h.length, h.lt, h.nodup, fun k hk hw => ?_, fun k hk hw => ?_⟩
    · rw [List.take_append_of_le_length hi]
      exact h.coming k hk hw
    · obtain ⟨v, hv, ha⟩ := h.there k hk hw
      exact ⟨v, hv, ha.later hi⟩

/-- Either a read has its blocks, or it waits in order. -/
def StartedOk (cfg : Config) (image : Nat → β) (log : List (Nat × β)) (issued start count : Nat) :
    Started β → Prop
  | .done data => Sees image log issued log.length start count data
  | .waits reading => InOrder cfg image log issued start count reading

omit [Inhabited β] in
/-- A read from parts of which nothing is to come. -/
theorem Parts.sees {c startIndex : Nat} {blocks : List β}
    (h : Parts image log issued start count c startIndex blocks []) :
    Sees image log issued log.length start count
      (subarray blocks (start - startIndex * c) count) := by
  intro k hk
  obtain ⟨v, hv, ha⟩ := h.there k hk List.not_mem_nil
  exact ⟨v, (getElem?_subarray hk).trans hv, ha⟩

omit [Inhabited β] in
theorem valueAt_allowed : Allowed image log log.length log.length b (valueAt image log b) :=
  .inl (by rw [List.take_length])

/-- What `get` starts. -/
theorem get_ok (h : d.Ok image log) (hun : cfg.kind = .partfile → d.getFromCache start count = none →
      ∀ c ∈ cfg.chunk, ∀ i, i < count →
        d.getFromCache (System.chunkStart c (start + i)) c = none → d.written (start + i) = false) :
    StartedOk cfg image log log.length start count (get cfg d start count) := by
  unfold get
  split
  case h_1 block hb =>
    intro i hi
    exact ⟨_, ((Blocks.getFromCache_spec h hb).2 i hi).1, valueAt_allowed⟩
  case h_2 hnone =>
    split
    case h_1 c hkind hchunk =>
      have hc := cfg.chunk_pos c hchunk
      obtain ⟨hlen, hnodup, hmem, hdata⟩ :=
        startParts_spec h c (start / c) (ceilDiv (start - start / c * c + count) c)
      have hparts : Parts image log log.length start count c (start / c)
          (startParts d c (start / c) (ceilDiv (start - start / c * c + count) c)).1
          (startParts d c (start / c) (ceilDiv (start - start / c * c + count) c)).2 := by
        refine ⟨rfl, hlen, fun i hi => (hmem i hi).1, hnodup, fun k hk hw => ?_, fun k hk hw => ?_⟩
        · have hload := (hmem _ hw).2
          rw [← chunkStart_eq hc] at hload
          rw [List.take_length]
          exact h.eq_image (hun hkind hnone c hchunk k hk hload)
        · have hpos : (start - start / c * c + k) / c <
              ceilDiv (start - start / c * c + count) c := div_lt_ceilDiv hc (by omega)
          have := hdata _ hpos hw ((start - start / c * c + k) % c) (Nat.mod_lt _ hc)
          have hle := Nat.div_mul_le_self start c
          have hsplit : (start - start / c * c + k) / c * c + (start - start / c * c + k) % c =
              start - start / c * c + k := Nat.div_add_mod' _ _
          rw [Nat.add_mul, Nat.add_assoc, hsplit] at this
          have hstart : start / c * c + (start - start / c * c + k) = start + k := by omega
          rw [hstart] at this
          exact ⟨_, this, valueAt_allowed⟩
      dsimp only
      split
      case isTrue hw =>
        rw [hw] at hparts
        exact hparts.sees
      case isFalse => exact .parts hchunk hparts
    case h_2 c hkind hchunk =>
      have hc := cfg.chunk_pos c hchunk
      have hmod := Nat.mod_le start c
      have hle := le_ceilDiv_mul hc (n := start - (start - start % c) + count)
      exact .whole (Nat.sub_le _ _) (by omega)
    case h_3 => exact .whole le_rfl le_rfl

theorem int32_le (n : Nat) : (int32 n).toNat ≤ n := by
  unfold int32
  rw [BitVec.toInt_eq_toNat_cond]
  have := Nat.mod_le n (2 ^ 32)
  split <;> simp only [BitVec.toNat_ofNat] at * <;> omega

omit [Inhabited β] in
/-- What the load of a chunk brings to a read from parts. -/
theorem Parts.load {c startIndex : Nat} {blocks : List β} {waiting : List Nat} (hc : 0 < c)
    (h : Parts image log issued start count c startIndex blocks waiting) (hi : i ∈ waiting) :
    Parts image log issued start count c startIndex
      (splice blocks (i * c) (load image ((startIndex + i) * c) c)) (waiting.erase i) := by
  have hfit : i * c + (Disk.load image ((startIndex + i) * c) c).length ≤ blocks.length := by
    rw [length_load, h.length]
    exact mul_add_le (h.lt i hi)
  refine ⟨h.index, (length_splice hfit).trans h.length, fun j hj => h.lt j (List.mem_of_mem_erase hj),
    h.nodup.erase i, fun k hk hw => h.coming k hk (List.mem_of_mem_erase hw), fun k hk hw => ?_⟩
  rw [getElem?_splice hfit, length_load]
  by_cases hpos : (start - startIndex * c + k) / c = i
  · obtain ⟨hge, hlt⟩ := (div_eq_iff_between hc).1 hpos
    have hle := Nat.div_mul_le_self start c
    rw [← h.index] at hle
    refine ⟨image (start + k), ?_, .inl (h.coming k hk (hpos ▸ hi)).symm⟩
    rw [if_pos ⟨hge, hlt⟩, getElem?_load (by omega)]
    congr 2
    rw [Nat.add_mul]
    omega
  · have hnot : (start - startIndex * c + k) / c ∉ waiting := fun hmem =>
      hw ((List.mem_erase_of_ne hpos).2 hmem)
    obtain ⟨v, hv, ha⟩ := h.there k hk hnot
    refine ⟨v, ?_, ha⟩
    rw [if_neg fun hin => hpos ((div_eq_iff_between hc).2 hin), hv]

/-- What a load that completes leaves. -/
theorem loaded_ok (h : d.Ok image log) (chunk : Nat)
    (hr : InOrder cfg image log issued start count reading) :
    (loaded cfg image d start count chunk reading).1.Ok image log ∧
      StartedOk cfg image log issued start count
        (loaded cfg image d start count chunk reading).2 := by
  cases hr with
  | @whole s n hs hn =>
    have hload : ∀ i, i < n → (load image s n)[i]? = some (image (s + i)) := fun i hi =>
      getElem?_load hi
    obtain ⟨hok, -, hget⟩ := Blocks.handleRead_spec cfg.cacheReads h hload
    refine ⟨hok, ?_⟩
    show Sees image log issued log.length start count
      (subarray (d.handleRead cfg.cacheReads s n (load image s n)).2 (start - s) count)
    refine fun i hlt => ⟨valueAt image log (start + i), ?_, allowed_valueAt⟩
    rw [getElem?_subarray hlt, hget, if_pos (by omega)]
    congr 2
    omega
  | @parts c startIndex blocks waiting hchunk hparts =>
    have hc := cfg.chunk_pos c hchunk
    simp only [loaded, hchunk, Option.getD_some]
    split
    case isFalse => exact ⟨h, .parts hchunk hparts⟩
    case isTrue hmem =>
      have hcount : (int32 (c * blockSize)).toNat / blockSize ≤ c := by
        have := int32_le (c * blockSize)
        unfold blockSize at *
        omega
      have hload : ∀ j, j < (int32 (c * blockSize)).toNat / blockSize →
          (load image ((startIndex + chunk) * c) c)[j]? =
            some (image ((startIndex + chunk) * c + j)) := fun j hj =>
        getElem?_load (hj.trans_le hcount)
      obtain ⟨hok, -, -⟩ := Blocks.handleRead_spec cfg.cacheReads h hload
      have hnext := hparts.load hc hmem
      split
      case isTrue hw =>
        rw [hw] at hnext
        exact ⟨hok, hnext.sees⟩
      case isFalse => exact ⟨hok, .parts hchunk hnext⟩

/-! ## Runs -/

namespace System

/-- What every step keeps: the disk is in order, and so are the reads that wait and those that
were answered. -/
structure Sound (cfg : Config) (image : Nat → β) (s : System β) : Prop where
  blocks : s.blocks.Ok image s.log
  waiting : ∀ w ∈ s.waiting, w.issued ≤ s.log.length ∧
    InOrder cfg image s.log w.issued w.start w.count w.reading
  answers : ∀ a ∈ s.answers, a.issued ≤ s.log.length ∧ a.answered ≤ s.log.length ∧
    Sees image s.log a.issued a.answered a.start a.count a.data

variable {s : System β}

theorem Sound.answer (h : Sound cfg image s) {keep : Bool} {data : List β}
    (hi : issued ≤ s.log.length) (hd : Sees image s.log issued s.log.length start count data) :
    Sound cfg image (s.answer start count keep issued data) where
  blocks := by
    unfold System.answer
    dsimp only
    split
    · refine h.blocks.keepAll fun i hlt hw => ?_
      obtain ⟨v, hv, ha⟩ := hd i hlt
      rw [hv]
      refine congrArg some ?_
      rcases ha with ha | ha
      · rw [ha]
        exact valueAt_of_not_mem fun w hmem =>
          h.blocks.fresh _ hw w (List.mem_of_mem_take hmem)
      · exact absurd (List.mem_of_mem_take (List.mem_of_mem_drop ha)) (h.blocks.fresh _ hw v)
    · exact h.blocks
  waiting := h.waiting
  answers a ha := by
    rcases List.mem_append.1 ha with ha | ha
    · exact h.answers a ha
    · rw [List.mem_singleton.1 ha]
      exact ⟨hi, le_rfl, hd⟩

theorem Sound.set (h : Sound cfg image s) (data : List β) :
    Sound cfg image (s.step cfg image (.set start data)) where
  blocks := h.blocks.set start data
  waiting w hw := by
    obtain ⟨hi, hr⟩ := h.waiting w hw
    refine ⟨?_, hr.later hi⟩
    rw [step, List.length_append]
    omega
  answers a ha := by
    obtain ⟨hi, ha', hs⟩ := h.answers a ha
    refine ⟨?_, ?_, fun i hlt => ?_⟩
    · rw [step, List.length_append]
      omega
    · rw [step, List.length_append]
      omega
    · obtain ⟨v, hv, hal⟩ := hs i hlt
      exact ⟨v, hv, hal.append hi ha'⟩

theorem Sound.step (h : Sound cfg image s) (e : Event β) (hun : Unwritten cfg s e) :
    Sound cfg image (s.step cfg image e) := by
  cases e with
  | set start data => exact h.set data
  | get start count keep =>
    have hget := get_ok h.blocks hun
    unfold System.step
    dsimp only
    split
    case h_1 data heq =>
      rw [heq] at hget
      exact h.answer le_rfl hget
    case h_2 reading heq =>
      rw [heq] at hget
      refine ⟨h.blocks, fun w hw => ?_, h.answers⟩
      rcases List.mem_append.1 hw with hw | hw
      · exact h.waiting w hw
      · rw [List.mem_singleton.1 hw]
        exact ⟨le_rfl, hget⟩
  | loaded request chunk =>
    unfold System.step
    dsimp only
    split
    case h_1 => exact h
    case h_2 w hw =>
      obtain ⟨hi, hr⟩ := h.waiting w (List.mem_of_getElem? hw)
      obtain ⟨hok, hst⟩ := loaded_ok h.blocks chunk hr
      split
      case h_1 data heq =>
        rw [heq] at hst
        have hs : Sound cfg image { s with
            blocks := (loaded cfg image s.blocks w.start w.count chunk w.reading).1
            waiting := s.waiting.eraseIdx request } :=
          ⟨hok, fun w hw => h.waiting w (List.mem_of_mem_eraseIdx hw), h.answers⟩
        exact hs.answer hi hst
      case h_2 reading heq =>
        rw [heq] at hst
        refine ⟨hok, fun w' hw' => ?_, h.answers⟩
        rcases List.mem_or_eq_of_mem_set hw' with hw' | rfl
        · exact h.waiting w' hw'
        · exact ⟨hi, hst⟩

omit [Inhabited β] in
theorem sound_empty (cfg : Config) (image : Nat → β) : Sound cfg image empty :=
  ⟨Blocks.ok_empty image, nofun, nofun⟩

/-- The blocks kept from reads are the image's, and none of them was written. -/
def CacheClean (image : Nat → β) (s : System β) : Prop :=
  ∀ b v, s.blocks.blockCache b = some v → s.blocks.written b = false ∧ v = image b

/-- Every callback was called with blocks that its read may see. -/
def AnswersSee (image : Nat → β) (s : System β) : Prop :=
  ∀ a ∈ s.answers, Sees image s.log a.issued a.answered a.start a.count a.data

/-- Reads see completed writes as long as no read from parts reaches a block that was already
written, in a chunk it has to load. -/
theorem reads_see_writes {events : List (Event β)}
    (h : Runs.Each (step cfg image) (Unwritten cfg) empty events) :
    AnswersSee image (events.foldl (step cfg image) empty) ∧
      CacheClean image (events.foldl (step cfg image) empty) := by
  have hstep : ∀ (s : System β) (e : Event β), True → Sound cfg image s → Unwritten cfg s e →
      Sound cfg image (s.step cfg image e) ∧ True := fun s e _ hs hc => ⟨hs.step e hc, trivial⟩
  have hs := Runs.inv_of hstep (fun _ _ => trivial) (sound_empty cfg image) h
  exact ⟨fun a ha => (hs.answers a ha).2.2, hs.blocks.cache⟩

/-! ## A read that misses a write -/

/-- A block of 256 equal bytes. -/
def filled (byte : UInt8) : Vector UInt8 256 := Vector.replicate 256 byte

instance : Inhabited (Vector UInt8 256) := ⟨filled 0⟩

/-- A disk in parts of two blocks each. -/
def twoBlockParts : Config := ⟨.partfile, some 2, by decide⟩

/-- A read with a set before its load completes. -/
def readThenSet : List (Event (Vector UInt8 256)) :=
  [.get 2 2 true, .set 2 [filled 1], .loaded 0 0]

theorem reads_see_writes_parts : AnswersSee (fun _ => filled 0)
        (readThenSet.foldl (step twoBlockParts fun _ => filled 0) empty) ∧
      CacheClean (fun _ => filled 0)
        (readThenSet.foldl (step twoBlockParts fun _ => filled 0) empty) := by
  refine reads_see_writes ?_
  exact ⟨fun _ _ _ _ _ _ _ => rfl, trivial, trivial, trivial⟩

/-- A read of two blocks after the first one was set: the part is copied before the written block
goes over it. -/
def missedWrite : List (Event (Vector UInt8 256)) :=
  [.set 0 [filled 1], .get 0 2 false, .loaded 0 0]

theorem reads_miss_write : ¬∀ events : List (Event (Vector UInt8 256)),
      AnswersSee (fun _ => filled 0) (events.foldl (step twoBlockParts fun _ => filled 0) empty) := by
  intro h
  have hanswers : (missedWrite.foldl (step twoBlockParts fun _ => filled 0) empty).answers.map
      (fun a => (a.start, a.count, a.issued, a.answered, a.data.map (·[0]))) =
        [(0, 2, 1, 1, [0, 0])] := by
    decide +kernel
  obtain ⟨a, heq, ha⟩ := List.map_eq_singleton_iff.1 hanswers
  have hs := h missedWrite a (by rw [heq]; exact List.mem_singleton_self a)
  simp only [Prod.mk.injEq] at ha
  obtain ⟨h₁, h₂, h₃, h₄, h₅⟩ := ha
  obtain ⟨v, hv, hal⟩ := hs 0 (by omega)
  have hbyte : v[0] = 0 := by
    have := congrArg (·[0]?) h₅
    simpa [hv] using this
  rw [h₁, h₃, h₄] at hal
  rcases hal with hal | hal
  · have hone : v[0] = 1 := by rw [hal]; rfl
    exact absurd (hbyte.symm.trans hone) (by decide)
  · exact absurd hal List.not_mem_nil

end System

end V86.Disk
