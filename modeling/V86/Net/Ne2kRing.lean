import V86.Net.Ne2k

/-!
# The receive ring keeps what it accepts

The pages that the guest has not given back are counted from `boundary` on. An accepted frame goes
to the pages behind them, and reading it through the data port wraps where storing it did. `curpg`
meets `boundary` when the ring is empty, but also when a frame takes the last free page; the next
one is then stored over what the guest has not read.
-/

namespace V86.Net

open List

variable {n n' : Ne2k} {memory : Memory} {data : List Byte} {page i j k a : Nat}

namespace Ne2k

/-- A ring within the memory, with its pointers in it. -/
structure Configured (n : Ne2k) : Prop where
  startPage_le : startPage ≤ n.pstart
  pstart_lt : n.pstart < n.pstop
  pstop_le : n.pstop ≤ stopPage
  le_boundary : n.pstart ≤ n.boundary
  boundary_lt : n.boundary < n.pstop
  le_curpg : n.pstart ≤ n.curpg
  curpg_lt : n.curpg < n.pstop

/-- The pages of the ring. -/
def pages (n : Ne2k) : Nat := n.pstop - n.pstart

/-- The address of the byte `i` from a page on. -/
def ringAt (n : Ne2k) (page i : Nat) : Nat :=
  if n.pstop * 256 ≤ page * 256 + i then page * 256 + i - n.pstop * 256 + n.pstart * 256
  else page * 256 + i

/-- The page `k` from `boundary` on. -/
def pageAt (n : Ne2k) (k : Nat) : Nat :=
  if n.pstop ≤ n.boundary + k then n.boundary + k - n.pstop + n.pstart else n.boundary + k

/-- Some bytes from the data port, one after another. -/
def dataPortReads : Nat → Ne2k → List Byte
  | 0, _ => []
  | k + 1, n => n.dataPortRead.1 :: dataPortReads k n.dataPortRead.2

/-- What the guest reads from a page on. -/
def readFrom (n : Ne2k) (page k : Nat) : List Byte := dataPortReads k { n with rsar := page * 256 }

/-! ## Addresses of the ring -/

theorem ringAt_lt (hpage : page < n.pstop) (hstart : n.pstart < n.pstop)
    (hi : i ≤ n.pages * 256) : n.ringAt page i < n.pstop * 256 := by
  unfold ringAt
  unfold pages at hi
  split <;> omega

theorem ringAt_inj (hi : i < n.pages * 256) (hj : j < n.pages * 256)
    (h : n.ringAt page i = n.ringAt page j) : i = j := by
  unfold ringAt at h
  unfold pages at hi hj
  split at h <;> split at h <;> omega

/-- Behind the pages given back. -/
theorem ringAt_pageAt (hboundary : n.boundary < n.pstop) (hk : k * 256 + i < n.pages * 256) :
    n.ringAt (n.pageAt k) i = n.ringAt n.boundary (k * 256 + i) := by
  unfold pages at hk
  rcases Nat.lt_or_ge (n.boundary + k) n.pstop with hlt | hge
  · have hpage : n.pageAt k = n.boundary + k := if_neg (Nat.not_le_of_lt hlt)
    have hsum : (n.boundary + k) * 256 + i = n.boundary * 256 + (k * 256 + i) := by omega
    rw [ringAt, hpage, hsum, ringAt]
  · have hpage : n.pageAt k = n.boundary + k - n.pstop + n.pstart := if_pos hge
    rw [ringAt, hpage, if_neg (by omega), ringAt, if_pos (by omega)]
    omega

theorem Configured.pageAt_bounds (h : n.Configured) (hk : k < n.pages) :
    n.pstart ≤ n.pageAt k ∧ n.pageAt k < n.pstop := by
  have hle := h.le_boundary
  have hlt := h.boundary_lt
  unfold pageAt
  unfold pages at hk
  split <;> omega

/-! ## Reading -/

theorem advanceDma_memory (n : Ne2k) : n.advanceDma.memory = n.memory := by
  unfold advanceDma
  dsimp only
  split <;> rfl

theorem advanceDma_ring (n : Ne2k) : n.advanceDma.pstart = n.pstart ∧ n.advanceDma.pstop = n.pstop ∧
      n.advanceDma.curpg = n.curpg ∧ n.advanceDma.boundary = n.boundary := by
  unfold advanceDma
  dsimp only
  split <;> exact ⟨rfl, rfl, rfl, rfl⟩

theorem advanceDma_rsar (n : Ne2k) : n.advanceDma.rsar =
      if n.pstop * 256 ≤ n.rsar + 1 then n.rsar + 1 - n.pstop * 256 + n.pstart * 256
      else n.rsar + 1 := by
  unfold advanceDma
  dsimp only
  split <;> rfl

/-- The data port reads on through the ring. -/
theorem dataPortReads_eq (hstop : n.pstop ≤ stopPage) (hstart : n.pstart < n.pstop)
    (hpage : n.pstart ≤ page ∧ page < n.pstop) (hrsar : n.rsar = n.ringAt page i)
    (hk : i + k ≤ n.pages * 256) :
    dataPortReads k n = (List.range k).map fun j => n.memory (n.ringAt page (i + j)) := by
  induction k generalizing n i with
  | zero => rfl
  | succ k ih =>
    have hlt := ringAt_lt hpage.2 hstart (i := i) (by omega)
    have hstop' : n.pstop * 256 ≤ stopPage * 256 := Nat.mul_le_mul_right 256 hstop
    have hbyte : n.dataPortRead.1 = n.memory (n.ringAt page i) := by
      rw [dataPortRead, hrsar]
      exact if_pos (Nat.lt_of_lt_of_le hlt hstop')
    obtain ⟨hpstart, hpstop, -, -⟩ := n.advanceDma_ring
    have hring : ∀ j, n.advanceDma.ringAt page j = n.ringAt page j := by
      intro j
      rw [ringAt, hpstart, hpstop, ringAt]
    have hpages : n.advanceDma.pages = n.pages := by rw [pages, hpstart, hpstop, pages]
    have hnext : n.advanceDma.rsar = n.advanceDma.ringAt page (i + 1) := by
      rw [advanceDma_rsar, hring, hrsar]
      unfold pages at hk
      unfold ringAt
      split <;> split <;> split <;> omega
    have htail := ih (n := n.advanceDma) (i := i + 1) (by rw [hpstop]; exact hstop)
      (by rw [hpstart, hpstop]; exact hstart) (by rw [hpstart, hpstop]; exact hpage) hnext
      (by rw [hpages]; omega)
    rw [dataPortReads, hbyte, show n.dataPortRead.2 = n.advanceDma from rfl, htail,
      range_succ_eq_map, map_cons, List.map_map, advanceDma_memory]
    refine congrArg _ (map_congr_left fun j _ => ?_)
    rw [hring, Function.comp_apply, Nat.succ_eq_add_one, Nat.add_assoc, Nat.add_comm 1 j]

/-- What is read from a page of the ring on. -/
theorem readFrom_eq (hstop : n.pstop ≤ stopPage) (hpage : n.pstart ≤ page ∧ page < n.pstop)
    (hk : k ≤ n.pages * 256) :
    n.readFrom page k = (List.range k).map fun j => n.memory (n.ringAt page j) := by
  have hrsar : page * 256 = ({ n with rsar := page * 256 } : Ne2k).ringAt page 0 := by
    rw [ringAt, if_neg (by dsimp only; omega), Nat.add_zero]
  have h := dataPortReads_eq (n := { n with rsar := page * 256 }) (i := 0) (k := k) hstop
    (by dsimp only; omega) hpage hrsar (by rw [Nat.zero_add]; exact hk)
  simp only [Nat.zero_add] at h
  exact h

/-! ## Storing -/

/-- What is stored of a frame: the header, and the frame padded to 60 bytes. -/
def packet (next : Nat) (data : List Byte) : List Byte :=
  [enrsrRxok, BitVec.ofNat 8 next, BitVec.ofNat 8 (totalLength data),
    BitVec.ofNat 8 (totalLength data / 256)] ++ (data ++ List.replicate (60 - data.length) 0)

theorem length_packet (next : Nat) (data : List Byte) :
    (packet next data).length = totalLength data := by
  simp only [packet, totalLength, length_append, length_cons, length_nil, length_replicate]
  omega

theorem totalLength_le (data : List Byte) : totalLength data ≤ needed data * 256 := by
  unfold needed
  omega

theorem getD_packet (next : Nat) (data : List Byte) (i : Nat) :
    (packet next data).getD (4 + i) 0 = data.getD i 0 := by
  rw [packet, getD_eq_getElem?_getD, List.getElem?_append_right (by simp)]
  have hlength : 4 + i - [enrsrRxok, BitVec.ofNat 8 next, BitVec.ofNat 8 (totalLength data),
      BitVec.ofNat 8 (totalLength data / 256)].length = i := Nat.add_sub_cancel_left 4 i
  rw [hlength, getD_eq_getElem?_getD]
  rcases Nat.lt_or_ge i data.length with hlt | hge
  · rw [List.getElem?_append_left hlt]
  · rw [List.getElem?_append_right hge, List.getElem?_replicate, List.getElem?_eq_none hge]
    split <;> rfl

theorem set_spec (memory : Memory) (data : List Byte) (hfits : a + data.length ≤ 0x8000) :
    ∃ memory', memory.set data a = some memory' ∧
      (∀ i, i < data.length → memory' (a + i) = data.getD i 0) ∧
      ∀ x, x < a ∨ a + data.length ≤ x → memory' x = memory x := by
  refine ⟨_, if_pos hfits, fun i hi => ?_, fun x hx => ?_⟩
  · rw [if_pos (by omega), Nat.add_sub_cancel_left]
  · rw [if_neg (by omega)]

theorem fill_of_le {stop : Nat} (hstop : stop ≤ 0x8000) (x : Nat) :
    memory.fill a stop x = if a ≤ x ∧ x < stop then 0 else memory x := by
  have hmin : min stop memorySize = stop := Nat.min_eq_left hstop
  unfold Memory.fill
  rw [hmin]

/-- The data is stored behind the header, wrapped as it is read. -/
theorem Configured.storeData (h : n.Configured) (hfits : totalLength data ≤ n.pages * 256) :
    ∃ memory, n.storeData data = some memory ∧
      (∀ i, 4 + i < totalLength data → memory (n.ringAt n.curpg (4 + i)) = data.getD i 0) ∧
      ∀ x, (∀ i, i < totalLength data → n.ringAt n.curpg i ≠ x) → memory x = n.memory x := by
  -- in bytes
  obtain ⟨stop, hstop⟩ : ∃ stop, stop = n.pstop * 256 := ⟨_, rfl⟩
  obtain ⟨start, hstart⟩ : ∃ start, start = n.pstart * 256 := ⟨_, rfl⟩
  obtain ⟨cur, hcur⟩ : ∃ cur, cur = n.curpg * 256 := ⟨_, rfl⟩
  have hle : start ≤ cur := by
    rw [hstart, hcur]
    exact Nat.mul_le_mul_right 256 h.le_curpg
  have hlt : cur + 256 ≤ stop := by
    rw [hcur, hstop, ← Nat.succ_mul]
    exact Nat.mul_le_mul_right 256 h.curpg_lt
  have hmemory : stop ≤ 0x8000 := by
    rw [hstop]
    exact Nat.mul_le_mul_right 256 h.pstop_le
  have hring : ∀ i, n.ringAt n.curpg i =
      if stop ≤ cur + i then cur + i - stop + start else cur + i := by
    rw [hstop, hstart, hcur]
    exact fun _ => rfl
  rw [pages, Nat.sub_mul, ← hstop, ← hstart] at hfits
  unfold Ne2k.storeData
  dsimp only
  rw [← hstop, ← hstart, ← hcur]
  clear hstop hstart hcur
  split
  case isTrue hcut =>
    have htotal : totalLength data = data.length + 4 := by
      unfold totalLength at hcut ⊢
      omega
    rw [htotal] at hcut hfits ⊢
    obtain ⟨m₁, hset₁, hin₁, hout₁⟩ := set_spec n.memory
      (data.take (stop - (cur + 4))) (a := cur + 4) (by rw [length_take]; omega)
    obtain ⟨m₂, hset₂, hin₂, hout₂⟩ := set_spec m₁
      (data.drop (stop - (cur + 4))) (a := start) (by rw [length_drop]; omega)
    rw [length_take] at hin₁ hout₁
    rw [length_drop] at hin₂ hout₂
    refine ⟨m₂, by rw [hset₁]; exact hset₂, fun i hi => ?_, fun x hx => ?_⟩
    · rcases Nat.lt_or_ge i (stop - (cur + 4)) with hi' | hi'
      · have hat : n.ringAt n.curpg (4 + i) = cur + 4 + i := by
          rw [hring, if_neg (by omega), Nat.add_assoc]
        rw [hat, hout₂ _ (by omega), hin₁ i (by omega), getD_eq_getElem?_getD,
          List.getElem?_take_of_lt hi', getD_eq_getElem?_getD]
      · have hat : n.ringAt n.curpg (4 + i) =
            start + (i - (stop - (cur + 4))) := by
          rw [hring, if_pos (by omega)]
          omega
        rw [hat, hin₂ _ (by omega), getD_eq_getElem?_getD, List.getElem?_drop,
          Nat.add_sub_cancel' hi', getD_eq_getElem?_getD]
    · -- outside both parts
      have hlow : ∀ i, cur + i < stop → i < data.length + 4 →
          cur + i ≠ x := by
        intro i hi hi'
        have := hx i hi'
        rw [hring, if_neg (by omega)] at this
        exact this
      have hhigh : ∀ i, i < data.length + 4 - (stop - cur) →
          start + i ≠ x := by
        intro i hi
        have := hx (stop - cur + i) (by omega)
        rw [hring, if_pos (by omega)] at this
        omega
      rw [hout₂, hout₁]
      · by_contra hin
        exact hlow (x - cur) (by omega) (by omega) (by omega)
      · by_contra hin
        exact hhigh (x - start) (by omega) (by omega)
  case isFalse hcut =>
    have htotal : data.length + 4 ≤ totalLength data := by
      unfold totalLength
      omega
    have hat : ∀ i, i < totalLength data → n.ringAt n.curpg i = cur + i := by
      intro i hi
      rw [hring, if_neg (by omega)]
    obtain ⟨m₁, hset, hin, hout⟩ := set_spec n.memory data (a := cur + 4) (by omega)
    refine ⟨_, by rw [hset]; rfl, fun i hi => ?_, fun x hx => ?_⟩
    · dsimp only
      rw [hat _ hi]
      have hshift : cur + (4 + i) = cur + 4 + i := by omega
      rw [hshift]
      rcases Nat.lt_or_ge i data.length with hlt' | hge
      · split
        · rw [fill_of_le (by omega), if_neg (by omega), hin i hlt']
        · exact hin i hlt'
      · have hshort : data.length < 60 ∧ i < 60 := by
          unfold totalLength at hi
          omega
        rw [if_pos hshort.1, fill_of_le (by omega), if_pos (by omega), getD_eq_getElem?_getD,
          List.getElem?_eq_none hge]
        rfl
    · have hout' : x < cur ∨ cur + totalLength data ≤ x := by
        by_contra hin'
        exact hx (x - cur) (by omega) (by rw [hat _ (by omega)]; omega)
      have hsame : m₁ x = n.memory x := hout x (by omega)
      dsimp only
      split
      case isTrue hshort =>
        have hsixty : totalLength data = 64 := by
          unfold totalLength
          omega
        rw [fill_of_le (by omega), if_neg (by omega), hsame]
      case isFalse => exact hsame

theorem put_self (ha : a < memorySize) (value : Byte) : memory.put a value a = value := by
  rw [Memory.put, if_pos ha, Function.update_self]

theorem put_of_ne {x : Nat} (hne : x ≠ a) (value : Byte) : memory.put a value x = memory x := by
  unfold Memory.put
  split
  · exact Function.update_of_ne hne value memory
  · rfl

theorem putHeader_of_ge {x next total : Nat} (hx : x < a ∨ a + 4 ≤ x) :
    putHeader memory a next total x = memory x := by
  rw [putHeader, put_of_ne (by omega), put_of_ne (by omega), put_of_ne (by omega),
    put_of_ne (by omega)]

theorem putHeader_at {next : Nat} (ha : a + 4 ≤ memorySize) (hi : i < 4) :
    putHeader memory a next (totalLength data) (a + i) = (packet next data).getD i 0 := by
  unfold putHeader
  have hcases : i = 0 ∨ i = 1 ∨ i = 2 ∨ i = 3 := by omega
  rcases hcases with rfl | rfl | rfl | rfl
  · rw [put_of_ne (by omega), put_of_ne (by omega), put_of_ne (by omega), Nat.add_zero,
      put_self (Nat.lt_of_lt_of_le (by omega) ha)]
    rfl
  · rw [put_of_ne (by omega), put_of_ne (by omega), put_self (Nat.lt_of_lt_of_le (by omega) ha)]
    rfl
  · rw [put_of_ne (by omega), put_self (Nat.lt_of_lt_of_le (by omega) ha)]
    rfl
  · rw [put_self (Nat.lt_of_lt_of_le (by omega) ha)]
    rfl

/-- The frame that the card stores, if it is for the card and there is room for it. -/
def accepted (n : Ne2k) (data : List Byte) : Option (List Byte) :=
  if n.listens data then
    (n.translated data).filter fun frame => !(n.available < needed frame && n.boundary ≠ 0)
  else none

theorem accepted_eq_some {frame : List Byte} : n.accepted data = some frame ↔
    n.listens data = true ∧ n.translated data = some frame ∧
      ¬ (n.available < needed frame ∧ n.boundary ≠ 0) := by
  unfold accepted
  split
  · next h =>
    simp only [h, Option.filter_eq_some_iff, true_and, Bool.not_eq_true', Bool.and_eq_false_iff,
      decide_eq_false_iff_not, not_and_or]
  · next h => simp [h]

/-- A frame that is not accepted leaves everything as it is. -/
theorem receive_dropped (h : n.accepted data = none)
    (htranslated : n.listens data = true → ∃ frame, n.translated data = some frame) :
    n.receive data = some n := by
  unfold receive
  cases hlistens : n.listens data with
  | false => rfl
  | true =>
    obtain ⟨frame, hframe⟩ := htranslated hlistens
    have hdrop : n.available < needed frame ∧ n.boundary ≠ 0 := by
      by_contra hroom
      rw [accepted_eq_some.2 ⟨hlistens, hframe, hroom⟩] at h
      cases h
    rw [hframe]
    exact if_pos hdrop

/-- What an accepted frame leaves. -/
structure Received (n n' : Ne2k) (data : List Byte) : Prop where
  curpg : n'.curpg = n.nextPage data
  pstart : n'.pstart = n.pstart
  pstop : n'.pstop = n.pstop
  boundary : n'.boundary = n.boundary
  packet : ∀ i, i < totalLength data →
    n'.memory (n.ringAt n.curpg i) = (packet (n.nextPage data) data).getD i 0
  other : ∀ x, (∀ i, i < totalLength data → n.ringAt n.curpg i ≠ x) → n'.memory x = n.memory x

/-- An accepted frame is stored. -/
theorem Configured.receive (h : n.Configured) {frame : List Byte}
    (haccepted : n.accepted data = some frame) (hfits : totalLength frame ≤ n.pages * 256) :
    ∃ n', n.receive data = some n' ∧ Received n n' frame := by
  obtain ⟨hlistens, hframe, hroom⟩ := accepted_eq_some.1 haccepted
  obtain ⟨memory, hstore, hdata, hother⟩ := h.storeData hfits
  have hpage : n.curpg * 256 + 256 ≤ n.pstop * 256 := by
    rw [← Nat.succ_mul]
    exact Nat.mul_le_mul_right 256 h.curpg_lt
  have hheader : n.curpg * 256 + 4 ≤ memorySize :=
    Nat.le_trans (Nat.add_le_add_left (by decide) _)
      (Nat.le_trans hpage (Nat.mul_le_mul_right 256 h.pstop_le))
  have hlow : ∀ i, i < 4 → n.ringAt n.curpg i = n.curpg * 256 + i := by
    intro i hi
    rw [ringAt, if_neg (by omega)]
  have htotal : 64 ≤ totalLength frame := by
    unfold totalLength
    omega
  have hreceive : n.receive data = (n.storeData frame).map fun memory =>
      ({ n with
        memory := putHeader memory (n.curpg * 256) (n.nextPage frame) (totalLength frame)
        curpg := n.nextPage frame } : Ne2k).doInterrupt enisrRx := by
    unfold Ne2k.receive
    rw [hlistens, if_neg (by nofun), hframe]
    exact if_neg hroom
  rw [hstore] at hreceive
  refine ⟨_, hreceive, rfl, rfl, rfl, rfl, fun i hi => ?_, fun x hx => ?_⟩
  · change putHeader memory _ _ _ _ = _
    rcases Nat.lt_or_ge i 4 with hi4 | hi4
    · rw [hlow i hi4, putHeader_at hheader hi4]
    · obtain ⟨j, rfl⟩ := Nat.exists_eq_add_of_le hi4
      rw [putHeader_of_ge, hdata j hi, getD_packet]
      have hne : ∀ k, k < 4 → n.ringAt n.curpg (4 + j) ≠ n.curpg * 256 + k := by
        intro k hk heq
        rw [← hlow k hk] at heq
        have := ringAt_inj (Nat.lt_of_lt_of_le hi hfits) (by omega) heq
        omega
      by_contra hin
      exact hne (n.ringAt n.curpg (4 + j) - n.curpg * 256) (by omega) (by omega)
  · change putHeader memory _ _ _ _ = _
    rw [putHeader_of_ge, hother x hx]
    by_contra hin
    exact hx (x - n.curpg * 256) (by omega) (by rw [hlow _ (by omega)]; omega)

end Ne2k

/-! ## The guest -/

/-- A frame that the guest has not given back: the pages between `boundary` and it, its own pages,
and what was stored. -/
structure Held where
  ahead : Nat
  pages : Nat
  bytes : List Byte
  deriving DecidableEq

/-- The card, the pages that the guest has not given back, and the frames in them. -/
structure Receiver where
  nic : Ne2k
  held : Nat
  frames : List Held

/-- Frames that arrive, and what the guest does with the ring: reads, and pages given back, no more
than it holds. -/
inductive RingOp where
  | receive (data : List Byte)
  | writeRsar (high : Bool) (dataByte : Byte)
  | writeRcnt (high : Bool) (dataByte : Byte)
  | dataPortRead8
  | dataPortRead16
  | dataPortRead32
  | advance (pages : Nat)

namespace Receiver

/-- The card with pages that nothing is known of between `boundary` and `curpg`. -/
def start (n : Ne2k) : Receiver where
  nic := n
  held := if n.boundary ≤ n.curpg then n.curpg - n.boundary else n.curpg + n.pages - n.boundary
  frames := []

/-- The card receives; an accepted frame is held. -/
def receive (s : Receiver) (data : List Byte) : Receiver :=
  match s.nic.receive data with
  -- it has thrown
  | none => s
  | some nic =>
    match s.nic.accepted data with
    | none => { s with nic := nic }
    | some frame =>
      { nic := nic
        held := s.held + Ne2k.needed frame
        frames := s.frames ++
          [⟨s.held, Ne2k.needed frame, Ne2k.packet (s.nic.nextPage frame) frame⟩] }

/-- `boundary` goes on by `k` pages, over the frames there. -/
def giveBack (s : Receiver) (k : Nat) : Receiver :=
  let nic := s.nic.writeBoundary (BitVec.ofNat 8 (s.nic.pageAt k))
  if s.nic.getPage = 0 then
    { nic := nic
      held := s.held - k
      frames := (s.frames.filter fun f => k ≤ f.ahead).map fun f => { f with ahead := f.ahead - k } }
  else { s with nic := nic }

def step (s : Receiver) : RingOp → Receiver
  | .receive data => s.receive data
  | .writeRsar high dataByte => { s with nic := s.nic.writeRsar high dataByte }
  | .writeRcnt high dataByte => { s with nic := s.nic.writeRcnt high dataByte }
  | .dataPortRead8 => { s with nic := s.nic.dataPortRead8.2 }
  | .dataPortRead16 => { s with nic := s.nic.dataPortRead16.2 }
  | .dataPortRead32 => { s with nic := s.nic.dataPortRead32.2 }
  | .advance pages => s.giveBack (min pages s.held)

/-- The guest can still read every frame that it holds. -/
def Intact (s : Receiver) : Prop :=
  ∀ f ∈ s.frames, s.nic.readFrom (s.nic.pageAt f.ahead) f.bytes.length = f.bytes

/-- The card drops a frame, or it stores it, within the memory: reading it back from the old `curpg`
gives the header, with the new `curpg`, and the frame; the pages that the guest holds are as they
were; and the ring does not look empty. -/
def Stores (s : Receiver) (data : List Byte) : Prop :=
  ∃ nic, s.nic.receive data = some nic ∧
    (nic.memory = s.nic.memory ∧ nic.curpg = s.nic.curpg ∧ nic.isr = s.nic.isr ∨
      (∃ frame, s.nic.translated data = some frame ∧
        nic.readFrom s.nic.curpg (Ne2k.totalLength frame) = Ne2k.packet nic.curpg frame ∧
        ∀ i, i < Ne2k.totalLength frame → s.nic.ringAt s.nic.curpg i < memorySize) ∧
      (∀ i, i < s.held * 256 → nic.memory (s.nic.ringAt s.nic.boundary i) =
        s.nic.memory (s.nic.ringAt s.nic.boundary i)) ∧
      nic.curpg ≠ nic.boundary)

/-- Nothing that was accepted is lost or overwritten. -/
def Keeps (s : Receiver) (op : RingOp) : Prop :=
  (s.step op).Intact ∧
    match op with
    | .receive data => s.Stores data
    | _ => True

/-- The translation of a frame for the card does not throw, and the frame does not take exactly the
pages that are free. -/
def LeavesRoom (s : Receiver) : RingOp → Prop
  | .receive data => s.nic.listens data = true →
    ∃ frame, s.nic.translated data = some frame ∧ (Ne2k.needed frame : Int) ≠ s.nic.available
  | _ => True

/-- The pages held are those from `boundary` to `curpg`, never all of them, and the frames are in
them. -/
structure Inv (s : Receiver) : Prop where
  configured : s.nic.Configured
  held_lt : s.held < s.nic.pages
  curpg_eq : s.nic.curpg = s.nic.pageAt s.held
  within : ∀ f ∈ s.frames, f.ahead + f.pages ≤ s.held ∧ f.bytes.length ≤ f.pages * 256
  stored : ∀ f ∈ s.frames, ∀ i, i < f.bytes.length →
    s.nic.memory (s.nic.ringAt s.nic.boundary (f.ahead * 256 + i)) = f.bytes.getD i 0

variable {s : Receiver} {nic : Ne2k}

/-- Bytes of some pages are before the pages behind them. -/
theorem byte_lt {l m k b : Nat} (hpages : l + m ≤ k) (hlength : b ≤ m * 256) (hi : i < b) :
    l * 256 + i < k * 256 :=
  calc l * 256 + i < l * 256 + m * 256 :=
        Nat.add_lt_add_left (Nat.lt_of_lt_of_le hi hlength) _
    _ = (l + m) * 256 := (Nat.add_mul l m 256).symm
    _ ≤ k * 256 := Nat.mul_le_mul_right 256 hpages

theorem map_range_getD (l : List Byte) : (List.range l.length).map (fun i => l.getD i 0) = l := by
  refine ext_getElem (by simp) fun i hi hi' => ?_
  simp only [getElem_map, getElem_range]
  rw [getD_eq_getElem?_getD, List.getElem?_eq_getElem hi', Option.getD_some]

theorem ringAt_congr (hstart : nic.pstart = s.nic.pstart) (hstop : nic.pstop = s.nic.pstop)
    (page i : Nat) : nic.ringAt page i = s.nic.ringAt page i := by
  rw [Ne2k.ringAt, hstart, hstop, Ne2k.ringAt]

/-- The frames that are held can be read. -/
theorem Inv.intact (h : s.Inv) : s.Intact := by
  intro f hf
  obtain ⟨hwithin, hlength⟩ := h.within f hf
  have hheld := h.held_lt
  rcases Nat.eq_zero_or_pos f.bytes.length with hempty | hpos
  · rw [hempty, eq_nil_of_length_eq_zero hempty]
    rfl
  · have hpage := h.configured.pageAt_bounds (k := f.ahead) (by omega)
    have hfits : f.bytes.length ≤ s.nic.pages * 256 :=
      Nat.le_trans hlength (Nat.mul_le_mul_right 256 (by omega))
    rw [Ne2k.readFrom_eq h.configured.pstop_le hpage hfits]
    conv_rhs => rw [← map_range_getD f.bytes]
    refine map_congr_left fun i hi => ?_
    rw [mem_range] at hi
    rw [Ne2k.ringAt_pageAt h.configured.boundary_lt
      (byte_lt (Nat.le_trans hwithin (Nat.le_of_lt hheld)) hlength hi), h.stored f hf i hi]

/-- What is free is what is not held. -/
theorem Inv.available (h : s.Inv) : s.nic.available = (s.nic.pages : Int) - s.held := by
  have hheld := h.held_lt
  have hcurpg := h.curpg_eq
  have hboundary := h.configured.le_boundary
  have hboundary' := h.configured.boundary_lt
  unfold Ne2k.available
  unfold Ne2k.pages at hheld ⊢
  unfold Ne2k.pageAt at hcurpg
  split at hcurpg <;> split <;> omega

/-- An accepted frame that leaves room fits behind the pages held. -/
theorem Inv.room (h : s.Inv) {data frame : List Byte} (haccepted : s.nic.accepted data = some frame)
    (hroom : s.LeavesRoom (.receive data)) : s.held + Ne2k.needed frame < s.nic.pages := by
  obtain ⟨hlistens, hframe, hle⟩ := Ne2k.accepted_eq_some.1 haccepted
  obtain ⟨frame', hframe', hne⟩ := hroom hlistens
  cases hframe.symm.trans hframe'
  have hboundary : s.nic.boundary ≠ 0 := by
    have h64 : 0 < s.nic.boundary :=
      Nat.lt_of_lt_of_le (by decide : 0 < startPage)
        (Nat.le_trans h.configured.startPage_le h.configured.le_boundary)
    exact Nat.ne_of_gt h64
  have hfree : ¬ s.nic.available < Ne2k.needed frame := fun hlt => hle ⟨hlt, hboundary⟩
  rw [h.available] at hne hfree
  omega

/-- The page behind a frame is the next that is free. -/
theorem Inv.nextPage (h : s.Inv) {data : List Byte}
    (hroom : s.held + Ne2k.needed data < s.nic.pages) :
    s.nic.nextPage data = s.nic.pageAt (s.held + Ne2k.needed data) := by
  have hcurpg := h.curpg_eq
  have hboundary := h.configured.le_boundary
  have hboundary' := h.configured.boundary_lt
  unfold Ne2k.nextPage
  unfold Ne2k.needed Ne2k.pages at hroom
  unfold Ne2k.needed Ne2k.pageAt
  unfold Ne2k.pageAt at hcurpg
  dsimp only
  split at hcurpg <;> split <;> split <;> omega

/-- Addresses of a frame are behind the pages held. -/
theorem Inv.ringAt_curpg (h : s.Inv) (hi : s.held * 256 + i < s.nic.pages * 256) :
    s.nic.ringAt s.nic.curpg i = s.nic.ringAt s.nic.boundary (s.held * 256 + i) := by
  rw [h.curpg_eq]
  exact Ne2k.ringAt_pageAt h.configured.boundary_lt hi

/-- The pages held are as they were. -/
theorem Inv.kept (h : s.Inv) {data : List Byte} (hreceived : Ne2k.Received s.nic nic data)
    (hroom : s.held + Ne2k.needed data < s.nic.pages) (hi : i < s.held * 256) :
    nic.memory (s.nic.ringAt s.nic.boundary i) = s.nic.memory (s.nic.ringAt s.nic.boundary i) := by
  have htotal := Ne2k.totalLength_le data
  refine hreceived.other _ fun j hj heq => ?_
  have hbehind := byte_lt (Nat.le_of_lt hroom) htotal hj
  rw [h.ringAt_curpg hbehind] at heq
  have := Ne2k.ringAt_inj hbehind
    (Nat.lt_of_lt_of_le hi (Nat.mul_le_mul_right 256 (Nat.le_of_lt h.held_lt))) heq
  omega

/-- An accepted frame is held behind the others. -/
theorem Inv.accepted (h : s.Inv) {data : List Byte} (hreceived : Ne2k.Received s.nic nic data)
    (hroom : s.held + Ne2k.needed data < s.nic.pages) :
    ({ nic := nic
       held := s.held + Ne2k.needed data
       frames := s.frames ++
        [⟨s.held, Ne2k.needed data, Ne2k.packet (s.nic.nextPage data) data⟩] } : Receiver).Inv := by
  have htotal := Ne2k.totalLength_le data
  have hnext := h.nextPage hroom
  have hpages : nic.pages = s.nic.pages := by
    rw [Ne2k.pages, hreceived.pstart, hreceived.pstop, Ne2k.pages]
  have hpageAt : ∀ k, nic.pageAt k = s.nic.pageAt k := by
    intro k
    rw [Ne2k.pageAt, hreceived.pstart, hreceived.pstop, hreceived.boundary, Ne2k.pageAt]
  have hring := ringAt_congr hreceived.pstart hreceived.pstop
  have hbounds := h.configured.pageAt_bounds hroom
  rw [← hnext, ← hreceived.curpg] at hbounds
  refine ⟨⟨?_, ?_, ?_, ?_, ?_, ?_, ?_⟩, ?_, ?_, ?_, ?_⟩
  · rw [hreceived.pstart]
    exact h.configured.startPage_le
  · rw [hreceived.pstart, hreceived.pstop]
    exact h.configured.pstart_lt
  · rw [hreceived.pstop]
    exact h.configured.pstop_le
  · rw [hreceived.pstart, hreceived.boundary]
    exact h.configured.le_boundary
  · rw [hreceived.pstop, hreceived.boundary]
    exact h.configured.boundary_lt
  · rw [hreceived.pstart]
    exact hbounds.1
  · rw [hreceived.pstop]
    exact hbounds.2
  · rw [hpages]
    exact hroom
  · rw [hpageAt, ← hnext]
    exact hreceived.curpg
  · intro f hf
    rcases List.mem_append.1 hf with hf | hf
    · obtain ⟨hwithin, hlength⟩ := h.within f hf
      exact ⟨Nat.le_add_right_of_le hwithin, hlength⟩
    · obtain rfl := List.mem_singleton.1 hf
      exact ⟨Nat.le_refl _, by rw [Ne2k.length_packet]; exact htotal⟩
  · intro f hf i hi
    dsimp only
    rw [hreceived.boundary, hring]
    rcases List.mem_append.1 hf with hf | hf
    · obtain ⟨hwithin, hlength⟩ := h.within f hf
      rw [h.kept hreceived hroom (byte_lt hwithin hlength hi)]
      exact h.stored f hf i hi
    · obtain rfl := List.mem_singleton.1 hf
      rw [Ne2k.length_packet] at hi
      rw [← h.ringAt_curpg (byte_lt (Nat.le_of_lt hroom) htotal hi)]
      exact hreceived.packet i hi

/-- What a frame that arrives leaves. -/
theorem Inv.receive (h : s.Inv) {data : List Byte} (hroom : s.LeavesRoom (.receive data)) :
    (s.receive data).Inv ∧ s.Stores data := by
  cases haccepted : s.nic.accepted data with
  | none =>
    have hdropped := Ne2k.receive_dropped haccepted fun hlistens =>
      (hroom hlistens).imp fun _ hframe => hframe.1
    have hsame : s.receive data = s := by
      rw [Receiver.receive, hdropped]
      simp only [haccepted]
    rw [hsame]
    exact ⟨h, s.nic, hdropped, .inl ⟨rfl, rfl, rfl⟩⟩
  | some frame =>
    have hlt := h.room haccepted hroom
    have htotal := Ne2k.totalLength_le frame
    have hfits : Ne2k.totalLength frame ≤ s.nic.pages * 256 :=
      Nat.le_trans htotal (Nat.mul_le_mul_right 256 (by omega))
    obtain ⟨nic, hreceive, hreceived⟩ := h.configured.receive haccepted hfits
    have hinv := h.accepted hreceived hlt
    refine ⟨?_, nic, hreceive, .inr ⟨⟨frame, (Ne2k.accepted_eq_some.1 haccepted).2.1, ?_,
      fun i hi => ?_⟩, fun i hi => ?_, ?_⟩⟩
    · rw [Receiver.receive, hreceive]
      simp only [haccepted]
      exact hinv
    · -- the frame as it is read back
      have hpages : nic.pages = s.nic.pages := by
        rw [Ne2k.pages, hreceived.pstart, hreceived.pstop, Ne2k.pages]
      have hpage : nic.pstart ≤ s.nic.curpg ∧ s.nic.curpg < nic.pstop := by
        rw [hreceived.pstart, hreceived.pstop]
        exact ⟨h.configured.le_curpg, h.configured.curpg_lt⟩
      rw [Ne2k.readFrom_eq hinv.configured.pstop_le hpage (by rw [hpages]; exact hfits),
        hreceived.curpg, ← Ne2k.length_packet (s.nic.nextPage frame)]
      conv_rhs => rw [← map_range_getD (Ne2k.packet _ _)]
      refine map_congr_left fun i hi => ?_
      rw [mem_range, Ne2k.length_packet] at hi
      rw [ringAt_congr hreceived.pstart hreceived.pstop, hreceived.packet i hi]
    · exact Nat.lt_of_lt_of_le
        (Ne2k.ringAt_lt h.configured.curpg_lt h.configured.pstart_lt
          (Nat.le_trans (Nat.le_of_lt hi) hfits))
        (Nat.mul_le_mul_right 256 h.configured.pstop_le)
    · exact h.kept hreceived hlt hi
    · -- fewer pages than all are held, and some are
      have hcurpg := hinv.curpg_eq
      have hneeded : 0 < Ne2k.needed frame := Nat.add_pos_left Nat.one_pos _
      have hboundary := hinv.configured.le_boundary
      have hheld := hinv.held_lt
      dsimp only at hcurpg hboundary hheld
      unfold Ne2k.pageAt at hcurpg
      unfold Ne2k.pages at hheld
      split at hcurpg <;> omega

/-- What reading leaves. -/
structure Reads (n n' : Ne2k) : Prop where
  pstart : n'.pstart = n.pstart
  pstop : n'.pstop = n.pstop
  curpg : n'.curpg = n.curpg
  boundary : n'.boundary = n.boundary
  memory : n'.memory = n.memory

theorem Reads.trans {n'' : Ne2k} (h : Reads n n') (h' : Reads n' n'') : Reads n n'' :=
  ⟨h'.pstart.trans h.pstart, h'.pstop.trans h.pstop, h'.curpg.trans h.curpg,
    h'.boundary.trans h.boundary, h'.memory.trans h.memory⟩

theorem reads_dataPortRead (n : Ne2k) : Reads n n.dataPortRead.2 := by
  obtain ⟨hpstart, hpstop, hcurpg, hboundary⟩ := n.advanceDma_ring
  exact ⟨hpstart, hpstop, hcurpg, hboundary, n.advanceDma_memory⟩

theorem reads_dataPortRead16 (n : Ne2k) : Reads n n.dataPortRead16.2 := by
  unfold Ne2k.dataPortRead16
  split
  · exact (reads_dataPortRead n).trans (reads_dataPortRead _)
  · exact reads_dataPortRead n

theorem reads_dataPortRead32 (n : Ne2k) : Reads n n.dataPortRead32.2 :=
  (((reads_dataPortRead n).trans (reads_dataPortRead _)).trans (reads_dataPortRead _)).trans
    (reads_dataPortRead _)

theorem reads_writeRsar (n : Ne2k) (high : Bool) (dataByte : Byte) :
    Reads n (n.writeRsar high dataByte) := by
  unfold Ne2k.writeRsar
  split <;> exact ⟨rfl, rfl, rfl, rfl, rfl⟩

theorem reads_writeRcnt (n : Ne2k) (high : Bool) (dataByte : Byte) :
    Reads n (n.writeRcnt high dataByte) := by
  unfold Ne2k.writeRcnt
  split <;> exact ⟨rfl, rfl, rfl, rfl, rfl⟩

theorem Inv.reads (h : s.Inv) (hreads : Reads s.nic nic) : ({ s with nic := nic } : Receiver).Inv := by
  have hring := ringAt_congr hreads.pstart hreads.pstop
  refine ⟨⟨?_, ?_, ?_, ?_, ?_, ?_, ?_⟩, ?_, ?_, h.within, fun f hf i hi => ?_⟩
  · exact hreads.pstart ▸ h.configured.startPage_le
  · exact hreads.pstart ▸ hreads.pstop ▸ h.configured.pstart_lt
  · exact hreads.pstop ▸ h.configured.pstop_le
  · exact hreads.pstart ▸ hreads.boundary ▸ h.configured.le_boundary
  · exact hreads.pstop ▸ hreads.boundary ▸ h.configured.boundary_lt
  · exact hreads.pstart ▸ hreads.curpg ▸ h.configured.le_curpg
  · exact hreads.pstop ▸ hreads.curpg ▸ h.configured.curpg_lt
  · rw [Ne2k.pages, hreads.pstart, hreads.pstop]
    exact h.held_lt
  · rw [Ne2k.pageAt, hreads.pstart, hreads.pstop, hreads.boundary, hreads.curpg]
    exact h.curpg_eq
  · rw [hring, hreads.memory, hreads.boundary]
    exact h.stored f hf i hi

/-- Pages given back bring `boundary` closer to the frames that remain. -/
theorem Inv.giveBack (h : s.Inv) (hk : k ≤ s.held) : (s.giveBack k).Inv := by
  have hheld := h.held_lt
  obtain ⟨hge, hlt⟩ := h.configured.pageAt_bounds (k := k) (by omega)
  have hbyte : (BitVec.ofNat 8 (s.nic.pageAt k)).toNat = s.nic.pageAt k := by
    have hpstop := h.configured.pstop_le
    unfold stopPage at hpstop
    rw [BitVec.toNat_ofNat, Nat.mod_eq_of_lt (by omega)]
  unfold Receiver.giveBack
  dsimp only
  split
  case isTrue hpage =>
    have hwrite : s.nic.writeBoundary (BitVec.ofNat 8 (s.nic.pageAt k)) =
        { s.nic with boundary := s.nic.pageAt k } := by
      rw [Ne2k.writeBoundary, if_pos hpage, hbyte]
    rw [hwrite]
    have hle := h.configured.le_boundary
    have hlt' := h.configured.boundary_lt
    have hmoved : ∀ j, k + j < s.nic.pages →
        ({ s.nic with boundary := s.nic.pageAt k } : Ne2k).pageAt j = s.nic.pageAt (k + j) := by
      intro j hj
      unfold Ne2k.pages at hj
      unfold Ne2k.pageAt
      dsimp only
      split <;> split <;> split <;> omega
    refine ⟨⟨h.configured.startPage_le, h.configured.pstart_lt, h.configured.pstop_le, hge, hlt,
      h.configured.le_curpg, h.configured.curpg_lt⟩, ?_, ?_, fun f hf => ?_, fun f hf i hi => ?_⟩
    · exact Nat.lt_of_le_of_lt (Nat.sub_le _ _) hheld
    · dsimp only
      rw [hmoved _ (by omega), Nat.add_sub_cancel' hk]
      exact h.curpg_eq
    · obtain ⟨g, hg, rfl⟩ := List.mem_map.1 hf
      rw [mem_filter, decide_eq_true_eq] at hg
      obtain ⟨hwithin, hlength⟩ := h.within g hg.1
      exact ⟨by dsimp only; omega, hlength⟩
    · obtain ⟨g, hg, rfl⟩ := List.mem_map.1 hf
      rw [mem_filter, decide_eq_true_eq] at hg
      obtain ⟨hwithin, hlength⟩ := h.within g hg.1
      have hbytes := byte_lt (Nat.le_trans hwithin (Nat.le_of_lt hheld)) hlength hi
      have hsum : k * 256 + ((g.ahead - k) * 256 + i) = g.ahead * 256 + i := by
        rw [← Nat.add_assoc, ← Nat.add_mul, Nat.add_sub_cancel' hg.2]
      have hat : s.nic.ringAt (s.nic.pageAt k) ((g.ahead - k) * 256 + i) =
          s.nic.ringAt s.nic.boundary (g.ahead * 256 + i) := by
        rw [Ne2k.ringAt_pageAt hlt' (by rw [hsum]; exact hbytes), hsum]
      have hstored := h.stored g hg.1 i hi
      rw [← hat] at hstored
      exact hstored
  case isFalse hpage =>
    refine h.reads ?_
    rw [Ne2k.writeBoundary, if_neg hpage]
    split <;> exact ⟨rfl, rfl, rfl, rfl, rfl⟩

/-- A step that leaves room keeps what was accepted. -/
theorem Inv.step (h : s.Inv) {op : RingOp} (hroom : s.LeavesRoom op) :
    (s.step op).Inv ∧ s.Keeps op := by
  have hstep : (s.step op).Inv := by
    cases op with
    | receive data => exact (h.receive hroom).1
    | writeRsar high dataByte => exact h.reads (reads_writeRsar _ _ _)
    | writeRcnt high dataByte => exact h.reads (reads_writeRcnt _ _ _)
    | dataPortRead8 | dataPortRead16 => exact h.reads (reads_dataPortRead16 _)
    | dataPortRead32 => exact h.reads (reads_dataPortRead32 _)
    | advance pages => exact h.giveBack (Nat.min_le_right _ _)
  refine ⟨hstep, hstep.intact, ?_⟩
  cases op with
  | receive data => exact (h.receive hroom).2
  | _ => trivial

theorem inv_start (h : n.Configured) : (start n).Inv where
  configured := h
  held_lt := by
    have hle := h.le_boundary
    have hlt := h.boundary_lt
    have hle' := h.le_curpg
    have hlt' := h.curpg_lt
    unfold start Ne2k.pages
    dsimp only
    split <;> omega
  curpg_eq := by
    have hle := h.le_boundary
    have hlt := h.boundary_lt
    have hle' := h.le_curpg
    have hlt' := h.curpg_lt
    unfold start Ne2k.pageAt Ne2k.pages
    dsimp only
    split <;> split <;> omega
  within := nofun
  stored := nofun

end Receiver

/-- In every run in which no frame throws or takes the last free page, nothing that was accepted is
lost or overwritten. -/
theorem ring_keeps (n : Ne2k) (h : n.Configured) (ops : List RingOp)
    (hroom : Runs.Each Receiver.step Receiver.LeavesRoom (Receiver.start n) ops) :
    Runs.Each Receiver.step Receiver.Keeps (Receiver.start n) ops :=
  Runs.each_of (A := fun _ => True) (I := Receiver.Inv)
    (fun _ _ _ hinv hleaves => hinv.step hleaves) (fun _ _ => trivial) (Receiver.inv_start h) hroom

/-- A card that takes every frame, with a ring of some pages that is empty. -/
def cardWith (pages : Nat) : Ne2k where
  isr := 0
  imr := 0
  cr := 0x22
  dcfg := 0
  rcnt := 0
  rsar := 0
  pstart := startPage
  pstop := startPage + pages
  curpg := startPage
  boundary := startPage
  rxcr := 0x10
  mac := fun _ => 0
  macAddressInState := none
  memory := fun _ => 0
  irq := false

/-- Two frames in a ring of three pages, the first given back in between. -/
theorem ring_keeps_threePages : Runs.Each Receiver.step Receiver.Keeps (Receiver.start (cardWith 3))
      [.receive [1, 2], .dataPortRead8, .advance 1, .receive [3]] := by
  refine ring_keeps (cardWith 3) ?_ _ ⟨fun _ => ⟨[1, 2], rfl, ?_⟩, trivial, trivial,
    fun _ => ⟨[3], rfl, ?_⟩, trivial⟩
  · exact ⟨by decide, by decide, by decide, by decide, by decide, by decide, by decide⟩
  · decide +kernel
  · decide +kernel

/-- Two frames fill a ring of two pages, and the third is stored over the first. -/
theorem full_ring_overwritten :
    ¬ Runs.Each Receiver.step Receiver.Keeps (Receiver.start (cardWith 2))
      [.receive [1], .receive [2], .receive [3]] := by
  intro h
  have hintact : Receiver.Intact ((((Receiver.start (cardWith 2)).step (.receive [1])).step
      (.receive [2])).step (.receive [3])) := h.2.2.1.1
  have hread := hintact ⟨0, 1, Ne2k.packet 0x41 [1]⟩ (by decide +kernel)
  exact absurd hread (by decide +kernel)

end V86.Net
