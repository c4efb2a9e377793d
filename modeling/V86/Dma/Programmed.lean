import V86.Dma.Controller

/-!
# What a channel is programmed to move

`programmed` is the transfer that a channel's registers describe, the same in both directions: the
bytes asked for up to the end of the programmed block, between the buffer and the address that the
page and address registers give, of which the latter counts units. The address goes on and the count
goes down by the units moved. With autoinit the end of the block takes both registers back to what
was programmed, and a longer transfer goes on from there.
-/

namespace V86.Dma

namespace Channel

/-- The address and count after `units` were moved. -/
def advance (c : Channel) (units : Nat) : Channel :=
  { c with addr := c.addr + BitVec.ofNat 16 units, count := c.count - BitVec.ofNat 16 units }

/-- The address and count back where they were programmed to. -/
def reload (c : Channel) : Channel := { c with addr := c.addrInit, count := c.countInit }

@[simp] theorem advance_zero (c : Channel) : c.advance 0 = c := by
  simp [advance]

end Channel

namespace DMA

/-- The bytes of the block that a channel is programmed to. -/
def blockBytes (d : DMA) (channel : Fin 8) : Nat :=
  ((d.channels channel).count.toNat + 1) * bytesPerCount channel

theorem bytesPerCount_pos (channel : Fin 8) : 0 < bytesPerCount channel := by
  unfold bytesPerCount
  split <;> omega

theorem blockBytes_pos (d : DMA) (channel : Fin 8) : 0 < d.blockBytes channel :=
  Nat.mul_pos (Nat.succ_pos _) (bytesPerCount_pos channel)

/-- The physical address that the registers of a channel give: the address in bytes, below the bits
of the pages. -/
def physicalAddress (d : DMA) (channel : Fin 8) : Nat :=
  let c := d.channels channel
  let addr : BitVec 32 := c.addr.setWidth 32 <<< if 5 ≤ channel then 1 else 0
  (addr ||| c.page.setWidth 32 <<< 16 ||| c.pagehi.setWidth 32 <<< 24).toNat

/-- The address of the channel in bytes takes 16 bits, or the page has the bit above them. -/
def Direct (d : DMA) (channel : Fin 8) : Prop :=
  channel < 5 ∨ (d.channels channel).addr.getLsbD 15 = false ∨
    (d.channels channel).page.getLsbD 0 = true

def advance (d : DMA) (channel : Fin 8) (units : Nat) : DMA :=
  d.modify channel (·.advance units)

def reload (d : DMA) (channel : Fin 8) : DMA := d.modify channel Channel.reload

end DMA

/-- Moves `n` bytes between the buffer at `start` and memory at `address`. -/
def System.move (s : System) (dir : Direction) (start n address : Nat) : System :=
  match dir with
  | .read =>
    let data := (s.buffer.drop start).take n
    { s with
      memory := (s.memory.writeBlobPhysical data address).getD s.memory
      moves := s.moves ++ [.of address start data] }
  | .write =>
    let data := (List.range n).map fun i => s.memory.bytes (address + i)
    { s with
      buffer := splice s.buffer start data
      moves := s.moves ++ [.of address start data] }

/-- The bytes that a channel moves for a request. -/
def Request.bytes (r : Request) (d : DMA) : Nat := min r.len (d.blockBytes r.channel)

/-- The end of a block with autoinit. -/
def System.afterBlock (s : System) (dir : Direction) (r : Request) : System :=
  { s.move dir r.start (r.bytes s.dma) (s.dma.physicalAddress r.channel) with
    dma := s.dma.reload r.channel }

/-- What a request still asks for at the end of a block. -/
def Request.rest (r : Request) (d : DMA) : Request :=
  { r with start := r.start + r.bytes d, len := r.len - r.bytes d }

theorem Request.rest_len_lt {r : Request} {d : DMA} (h : d.blockBytes r.channel < r.len) :
    (r.rest d).len < r.len := by
  have := d.blockBytes_pos r.channel
  simp only [rest, bytes]
  omega

/-- The transfer that the registers describe, and whether a range check fails on the way. -/
def programmed (dir : Direction) (s : System) (r : Request) : System × Bool :=
  let n := r.bytes s.dma
  let address := s.dma.physicalAddress r.channel
  let block := s.dma.blockBytes r.channel
  if s.accepts r.start n address then
    if (s.dma.channels r.channel).autoinit && block ≤ r.len then
      if block < r.len then programmed dir (s.afterBlock dir r) (r.rest s.dma)
      else (s.afterBlock dir r, false)
    else
      ({ s.move dir r.start n address with
        dma := s.dma.advance r.channel (n / DMA.bytesPerCount r.channel) }, false)
  else (s, true)
termination_by r.len
decreasing_by exact Request.rest_len_lt ‹_›

section

variable {dir : Direction} {s : System} {r : Request}

theorem programmed_refused
    (h : s.accepts r.start (r.bytes s.dma) (s.dma.physicalAddress r.channel) = false) :
    programmed dir s r = (s, true) := by
  rw [programmed]
  simp [h]

section
variable (h : s.accepts r.start (r.bytes s.dma) (s.dma.physicalAddress r.channel) = true)
include h

theorem programmed_again (hauto : (s.dma.channels r.channel).autoinit = true)
    (hlt : s.dma.blockBytes r.channel < r.len) :
    programmed dir s r = programmed dir (s.afterBlock dir r) (r.rest s.dma) := by
  rw [programmed]
  simp [h, hauto, hlt, Nat.le_of_lt hlt]

theorem programmed_complete (hauto : (s.dma.channels r.channel).autoinit = true)
    (heq : s.dma.blockBytes r.channel = r.len) :
    programmed dir s r = (s.afterBlock dir r, false) := by
  rw [programmed]
  simp [h, hauto, heq]

theorem programmed_last
    (hlast : (s.dma.channels r.channel).autoinit = true → r.len < s.dma.blockBytes r.channel) :
    programmed dir s r =
      ({ s.move dir r.start (r.bytes s.dma) (s.dma.physicalAddress r.channel) with
        dma := s.dma.advance r.channel (r.bytes s.dma / DMA.bytesPerCount r.channel) }, false) := by
  rw [programmed]
  cases hauto : (s.dma.channels r.channel).autoinit with
  | false => simp [h]
  | true => simp [h, Nat.not_le.2 (hlast hauto)]

end

/-- Induction on the blocks of a request. -/
theorem programmed_rec (dir : Direction) {P : System → Request → Prop}
    (h : ∀ s r, (s.dma.blockBytes r.channel < r.len → P (s.afterBlock dir r) (r.rest s.dma)) → P s r)
    (s : System) (r : Request) : P s r := by
  induction hlen : r.len using Nat.strongRecOn generalizing s r with
  | ind len ih =>
    subst hlen
    exact h s r fun hlt => ih _ (Request.rest_len_lt hlt) _ _ rfl

end

/-- The code does as programmed, and is done with it some time. -/
def AsProgrammed (dir : Direction) (s : System) (r : Request) : Prop :=
  ∃ fuel, transfer dir fuel s r = some (programmed dir s r)

/-- A count that goes down by one more than itself ends at `0xFFFF`. -/
theorem sub_ofNat_succ (count : BitVec 16) : count - BitVec.ofNat 16 (count.toNat + 1) = 0xFFFF := by
  bv_omega

end V86.Dma
