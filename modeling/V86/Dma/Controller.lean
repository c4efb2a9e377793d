import V86.Lib.Splice
import Mathlib.Tactic.IntervalCases

/-!
# The ISA DMA controllers

`src/dma.js`: eight channels with a 16-bit address and count and two page registers each, the port
handlers that program them, and the transfers `do_read` (from a buffer to memory) and `do_write`
(from memory to a buffer) that devices ask for. A transfer starts, waits for its buffer and is
completed; a completion that comes after a reset of the machine has no effect.
-/

namespace V86.Dma

abbrev Byte := BitVec 8

scoped instance neZeroChannels : NeZero 8 := ⟨by decide⟩

/-- The registers of a channel, one element of each of the arrays `channel_page`, `channel_pagehi`,
`channel_addr`, `channel_addr_init`, `channel_count`, `channel_count_init` and `channel_mode`. -/
@[ext] structure Channel where
  page : Byte
  pagehi : Byte
  addr : BitVec 16
  addrInit : BitVec 16
  count : BitVec 16
  countInit : BitVec 16
  mode : Byte
  deriving DecidableEq

/-- `DMA`. -/
structure DMA where
  channels : Fin 8 → Channel
  lsbMsbFlipflop : Bool
  epoch : Nat

namespace DMA

/-- The controller with a channel changed. -/
def modify (d : DMA) (channel : Fin 8) (f : Channel → Channel) : DMA :=
  { d with channels := Function.update d.channels channel (f (d.channels channel)) }

@[simp] theorem channels_modify_self (d : DMA) (channel : Fin 8) (f : Channel → Channel) :
    (d.modify channel f).channels channel = f (d.channels channel) :=
  Function.update_self ..

theorem modify_inj {d : DMA} {channel : Fin 8} {f g : Channel → Channel} :
    d.modify channel f = d.modify channel g ↔ f (d.channels channel) = g (d.channels channel) := by
  constructor
  · intro h
    rw [← channels_modify_self d channel f, h, channels_modify_self]
  · intro h
    rw [modify, modify, h]

/-! ## The port handlers -/

/-- `flipflop_get`: the byte goes to the half that the flipflop tells. -/
def flipflopGet (low : Bool) (oldDword : BitVec 16) (newByte : Byte) : BitVec 16 :=
  if low then oldDword &&& ~~~0xFF#16 ||| newByte.setWidth 16
  else oldDword &&& ~~~0xFF00#16 ||| newByte.setWidth 16 <<< 8

/-- `port_addr_write`. -/
def portAddrWrite (d : DMA) (channel : Fin 8) (dataByte : Byte) : DMA :=
  let low := !d.lsbMsbFlipflop
  { d with lsbMsbFlipflop := low }.modify channel fun c =>
    { c with
      addr := flipflopGet low c.addr dataByte
      addrInit := flipflopGet low c.addrInit dataByte }

/-- `port_count_write`. -/
def portCountWrite (d : DMA) (channel : Fin 8) (dataByte : Byte) : DMA :=
  let low := !d.lsbMsbFlipflop
  { d with lsbMsbFlipflop := low }.modify channel fun c =>
    { c with
      count := flipflopGet low c.count dataByte
      countInit := flipflopGet low c.countInit dataByte }

/-- `port_page_write`. -/
def portPageWrite (d : DMA) (channel : Fin 8) (dataByte : Byte) : DMA :=
  d.modify channel fun c => { c with page := dataByte }

/-- `port_pagehi_write`. -/
def portPagehiWrite (d : DMA) (channel : Fin 8) (dataByte : Byte) : DMA :=
  d.modify channel fun c => { c with pagehi := dataByte }

/-- `port_mode_write`, the channel being that of the two low bits. -/
def portModeWrite (d : DMA) (channel : Fin 8) (dataByte : Byte) : DMA :=
  d.modify channel fun c => { c with mode := dataByte }

/-- `portC_write`. -/
def portCWrite (d : DMA) : DMA := { d with lsbMsbFlipflop := false }

/-! ## What a channel is programmed to -/

/-- `address_get_8bit`. -/
def addressGet8bit (d : DMA) (channel : Fin 8) : Nat :=
  let c := d.channels channel
  let addr : BitVec 32 := c.addr.setWidth 32
  let addr := if 5 ≤ channel then addr <<< 1 else addr
  let addr := addr &&& 0xFFFF
  let addr := addr ||| c.page.setWidth 32 <<< 16
  let addr := addr ||| c.pagehi.setWidth 32 <<< 24
  addr.toNat

/-- `count_get_8bit`. -/
def countGet8bit (d : DMA) (channel : Fin 8) : Nat :=
  let count := (d.channels channel).count.toNat + 1
  if 5 ≤ channel then count * 2 else count

/-- `bytes_per_count`. -/
def bytesPerCount (channel : Fin 8) : Nat := if 5 ≤ channel then 2 else 1

end DMA

/-- `channel_mode[channel] & 0x10`. -/
def Channel.autoinit (c : Channel) : Bool := c.mode &&& 0x10 ≠ 0

/-! ## Physical memory -/

/-- The physical bus as `cpu.js` sees it: which pages resolve, and the bytes behind them. -/
structure Memory where
  mapped : Nat → Bool
  bytes : Nat → Byte

namespace Memory

/-- The loop of `validate_physical_range`, page by page. -/
def resolves (mapped : Nat → Bool) (start stop : Nat) : Bool :=
  if start < stop then
    let stop' := min stop ((start / 4096 + 1) * 4096)
    mapped (start / 4096) && mapped ((stop' - 1) / 4096) && resolves mapped stop' stop
  else true
termination_by stop - start
decreasing_by omega

/-- `validate_physical_range`, `false` where it throws. -/
def validatePhysicalRange (m : Memory) (address length : Nat) : Bool :=
  address < 0x1000000000 && address + length ≤ 0x1000000000 &&
    resolves m.mapped address (address + length)

/-- `read_blob_physical`. -/
def readBlobPhysical (m : Memory) (address length : Nat) : Option (List Byte) :=
  if m.validatePhysicalRange address length then
    some ((List.range length).map fun i => m.bytes (address + i))
  else none

/-- `write_blob_physical`. -/
def writeBlobPhysical (m : Memory) (blob : List Byte) (address : Nat) : Option Memory :=
  if m.validatePhysicalRange address blob.length then
    some { m with
      bytes := fun a =>
        if address ≤ a ∧ a < address + blob.length then blob.getD (a - address) 0 else m.bytes a }
  else none

theorem resolves_iff {mapped : Nat → Bool} {start stop : Nat} :
    resolves mapped start stop = true ↔ ∀ a, start ≤ a → a < stop → mapped (a / 4096) = true := by
  fun_induction resolves mapped start stop with
  | case1 start hlt stop' ih =>
    simp only [Bool.and_eq_true, ih]
    constructor
    · rintro ⟨⟨hfirst, -⟩, hrest⟩ a hle ha
      rcases Nat.lt_or_ge a stop' with hin | hout
      · have hpage : a / 4096 = start / 4096 := by omega
        rw [hpage]
        exact hfirst
      · exact hrest a hout ha
    · intro h
      refine ⟨⟨h start (Nat.le_refl _) hlt, h _ (by omega) (by omega)⟩, ?_⟩
      intro a hle ha
      exact h a (by omega) ha
  | case2 start hge =>
    refine ⟨fun _ a hle ha => ?_, fun _ => rfl⟩
    omega

end Memory

/-! ## Transfers -/

/-- The bytes that a transfer has moved, with the physical address and the place in the buffer
that it moved them between. -/
structure Move where
  address : Nat
  offset : Nat
  data : List Byte
  deriving DecidableEq

/-- A move of no bytes has no address. -/
def Move.of (address offset : Nat) (data : List Byte) : Move :=
  ⟨if data = [] then 0 else address, offset, data⟩

/-- The controller with what its transfers reach: memory, and the buffer of the device. -/
structure System where
  dma : DMA
  memory : Memory
  buffer : List Byte
  moves : List Move

/-- `start`, `len` and `channel` of a transfer that a device asks for. -/
structure Request where
  start : Nat
  len : Nat
  channel : Fin 8

/-- A transfer that waits for its buffer, with the epoch it started in: `do_read` for `count` bytes,
`do_write` for the buffer to have taken `data`, going on with `more` then. -/
inductive Pending where
  | get (epoch start count address : Nat)
  | set (epoch start address : Nat) (data : List Byte) (more : Option Request)

/-- `do_read` up to the request to the buffer; `none` where it calls back with an error. -/
def doRead (s : System) (r : Request) : Option (System × Pending) :=
  let readCount := s.dma.countGet8bit r.channel
  let addr := s.dma.addressGet8bit r.channel
  if r.start + readCount > s.buffer.length then none
  else if addr + readCount > 0x100000000 then none
  else if !s.memory.validatePhysicalRange addr readCount then none
  else
    let dma := s.dma.modify r.channel fun c => { c with addr := c.addr + BitVec.ofNat 16 readCount }
    some ({ s with dma := dma }, .get s.dma.epoch r.start readCount addr)

namespace Request

variable (r : Request) (d : DMA)

/-- `read_count` of `do_write` as it is first. -/
def programmedCount : Nat := ((d.channels r.channel).count + 1).toNat

/-- `unfinished`. -/
def unfinished : Bool := r.len < r.programmedCount d * DMA.bytesPerCount r.channel

/-- `want_more`. -/
def wantMore : Bool := r.programmedCount d * DMA.bytesPerCount r.channel < r.len

/-- `read_count` of `do_write`. -/
def readCount : Nat :=
  if r.unfinished d then r.len / DMA.bytesPerCount r.channel else r.programmedCount d

/-- `read_bytes`. -/
def readBytes : Nat := r.readCount d * DMA.bytesPerCount r.channel

/-- The channel's registers as `do_write` leaves them. -/
def written (c : Channel) : Channel :=
  let c := { c with
    addr := c.addr + BitVec.ofNat 16 (r.readCount d)
    count := c.count - BitVec.ofNat 16 (r.readCount d) }
  if !r.unfinished d && c.autoinit then { c with addr := c.addrInit, count := c.countInit } else c

/-- The request that `do_write` goes on with. -/
def more : Option Request :=
  if r.wantMore d && (d.channels r.channel).autoinit then
    some { r with start := r.start + r.readBytes d, len := r.len - r.readBytes d }
  else none

end Request

/-- `do_write` up to the request to the buffer; `none` where it calls back with an error. -/
def doWrite (s : System) (r : Request) : Option (System × Pending) :=
  let readBytes := r.readBytes s.dma
  let addr := s.dma.addressGet8bit r.channel
  if r.start + readBytes > s.buffer.length then none
  else if addr + readBytes > 0x100000000 then none
  else
    match s.memory.readBlobPhysical addr readBytes with
    | none => none
    | some data =>
      some ({ s with dma := s.dma.modify r.channel (r.written s.dma) },
        .set s.dma.epoch r.start addr data (r.more s.dma))

/-- How a completion ends: without effect, by calling back, with an error or without one, or by
going on with another request. -/
inductive Finished where
  | dropped
  | done (error : Bool)
  | again (r : Request)

/-- The callbacks that `do_read` and `do_write` give to the buffer. -/
def complete (s : System) : Pending → System × Finished
  | .get epoch start count address =>
    let data := (s.buffer.drop start).take count
    if epoch ≠ s.dma.epoch then (s, .dropped)
    else
      match s.memory.writeBlobPhysical data address with
      | none => (s, .done true)
      | some memory =>
        ({ s with memory := memory, moves := s.moves ++ [.of address start data] }, .done false)
  | .set epoch start address data more =>
    -- the buffer takes the data whether or not the completion still counts
    let s' := { s with
      buffer := splice s.buffer start data
      moves := s.moves ++ [.of address start data] }
    if epoch ≠ s.dma.epoch then (s', .dropped)
    else
      match more with
      | none => (s', .done false)
      | some r => (s', .again r)

/-- `cancel_transfers`. -/
def cancelTransfers (s : System) : System := { s with dma.epoch := s.dma.epoch + 1 }

/-- The two directions. -/
inductive Direction where
  | read
  | write

/-- `do_read` or `do_write`. -/
def Direction.start : Direction → System → Request → Option (System × Pending)
  | .read => doRead
  | .write => doWrite

/-- A transfer from the request to the call of `fn`, with the error it is called with: `do_write`
may go on in its completion, each time for one unit of fuel. -/
def transfer (dir : Direction) : Nat → System → Request → Option (System × Bool)
  | 0, _, _ => none
  | fuel + 1, s, r =>
    match dir.start s r with
    | none => some (s, true)
    | some (s₁, p) =>
      match complete s₁ p with
      | (_, .dropped) => none
      | (s₂, .done error) => some (s₂, error)
      | (s₂, .again r') => transfer dir fuel s₂ r'

/-- The range checks of a transfer of `n` bytes. -/
def System.accepts (s : System) (start n address : Nat) : Bool :=
  start + n ≤ s.buffer.length && address + n ≤ 0x100000000 &&
    s.memory.validatePhysicalRange address n

/-- The range checks, one after the other. -/
theorem System.ite_accepts {α : Type} (s : System) (start n address : Nat) (x : Option α) :
    (if start + n > s.buffer.length then none
      else if address + n > 0x100000000 then none
      else if !s.memory.validatePhysicalRange address n then none else x) =
      if s.accepts start n address then x else none := by
  by_cases hbuffer : start + n ≤ s.buffer.length
  · rw [if_neg (Nat.not_lt.2 hbuffer)]
    by_cases haddress : address + n ≤ 0x100000000
    · rw [if_neg (Nat.not_lt.2 haddress)]
      cases hvalid : s.memory.validatePhysicalRange address n <;>
        simp [accepts, hbuffer, haddress, hvalid]
    · rw [if_pos (Nat.lt_of_not_le haddress)]
      simp [accepts, haddress]
  · rw [if_pos (Nat.lt_of_not_le hbuffer)]
    simp [accepts, hbuffer]

theorem doRead_eq (s : System) (r : Request) :
    doRead s r =
      let n := s.dma.countGet8bit r.channel
      let address := s.dma.addressGet8bit r.channel
      if s.accepts r.start n address then
        some ({ s with
          dma := s.dma.modify r.channel fun c => { c with addr := c.addr + BitVec.ofNat 16 n } },
          .get s.dma.epoch r.start n address)
      else none :=
  s.ite_accepts r.start _ _ _

theorem doWrite_eq (s : System) (r : Request) :
    doWrite s r =
      let n := r.readBytes s.dma
      let address := s.dma.addressGet8bit r.channel
      if s.accepts r.start n address then
        some ({ s with dma := s.dma.modify r.channel (r.written s.dma) },
          .set s.dma.epoch r.start address
            ((List.range n).map fun i => s.memory.bytes (address + i)) (r.more s.dma))
      else none := by
  dsimp only
  rw [doWrite, Memory.readBlobPhysical, ← s.ite_accepts]
  cases s.memory.validatePhysicalRange (s.dma.addressGet8bit r.channel) (r.readBytes s.dma) <;> rfl

/-- The epoch that a transfer started in. -/
def Pending.epoch : Pending → Nat
  | .get epoch .. => epoch
  | .set epoch .. => epoch

end V86.Dma
