import V86.Net.Ringbuffer

/-!
# The NE2000 network card

`src/ne2k.js`: received frames go to a ring of pages of 256 bytes between `pstart` and `pstop`, each
from the page `curpg` on, with a header of four bytes; the guest reads them byte by byte through the
remote DMA data port, which wraps at `pstop`, and gives pages back by moving `boundary`.
-/

namespace V86.Net

def startPage : Nat := 0x40
def stopPage : Nat := 0x80

def enisrRx : Byte := 0x01
def enisrRdc : Byte := 0x40
def enrsrRxok : Byte := 0x01

/-- A MAC address. -/
abbrev Mac := Fin 6 → Byte

/-! ## MAC address translation -/

/-- The bytes of the packet from `at_` on are the address. -/
def macAt (packet : List Byte) (at_ : Nat) (mac : Mac) : Bool :=
  ∀ i : Fin 6, packet[at_ + i.val]? = some (mac i)

/-- The address is written there. -/
def putMac (packet : List Byte) (at_ : Nat) (mac : Mac) : List Byte :=
  (List.finRange 6).foldl (fun packet (i : Fin 6) => packet.set (at_ + i.val) (mac i)) packet

/-- The address there is replaced. -/
def replaceMac (packet : List Byte) (at_ : Nat) (search replacement : Mac) : List Byte :=
  if macAt packet at_ search then putMac packet at_ replacement else packet

/-- The bytes of the UDP checksum become 0. -/
def zeroChecksum (packet : List Byte) : List Byte := (packet.set 40 0).set 41 0

/-- The offset of the DHCP packet in an Ethernet frame. -/
def dhcpStart : Nat := 14 + 5 * 4 + 8

/-- The loop over the DHCP options, from an offset in the DHCP packet on, whose length is `n`. -/
def translateOptions (search replacement : Mac) (n : Nat) (packet : List Byte) (offset : Nat) :
    List Byte :=
  if offset < n then
    match packet[dhcpStart + offset]? with
    | none => packet
    | some type =>
      if type = 0xFF then packet
      else
        match packet[dhcpStart + (offset + 1)]? with
        -- the option has no length
        | none => packet
        | some length =>
          let offset' := offset + 2
          let packet :=
            if type = 0x3D && packet[dhcpStart + offset']? = some 0x01 &&
                macAt packet (dhcpStart + offset' + 1) search then
              zeroChecksum (putMac packet (dhcpStart + offset' + 1) replacement)
            else packet
          translateOptions search replacement n packet (offset' + length.toNat)
  else packet
termination_by n - offset

/-- `translate_mac_address` of a DHCP packet. -/
def translateDhcp (packet : List Byte) (search replacement : Mac) : List Byte :=
  if (packet.drop (dhcpStart + 0xEC)).take 4 ≠ [0x63, 0x82, 0x53, 0x63] then packet
  else
    let packet :=
      if macAt packet (dhcpStart + 28) search then
        zeroChecksum (putMac packet (dhcpStart + 28) replacement)
      else packet
    translateOptions search replacement (packet.length - dhcpStart) packet 0xF0

/-- Two bytes of the packet, the missing ones as 0. -/
def word (packet : List Byte) (at_ : Nat) : Nat :=
  (packet.getD at_ 0).toNat * 256 + (packet.getD (at_ + 1) 0).toNat

/-- `translate_mac_address`; `none` if it throws. -/
def translateMacAddress (packet : List Byte) (search replacement : Mac) : Option (List Byte) :=
  let packet := replaceMac packet 0 search replacement
  let packet := replaceMac packet 6 search replacement
  let ethertype := word packet 12
  if ethertype = 0x0800 then
    if (packet.getD 14 0).toNat / 16 ≠ 4 then some packet
    -- UDP, from or to the DHCP port
    else if packet.getD (14 + 9) 0 = 0x11 && (word packet 34 = 67 || word packet 36 = 67) then
      some (translateDhcp packet search replacement)
    else some packet
  else if ethertype = 0x0806 then
    -- `format_mac` of the addresses in the packet, for the log
    if packet.length < 14 + 18 + 6 then none
    else some (replaceMac packet (14 + 8) search replacement)
  else some packet

/-! ## Memory -/

/-- The length of `memory`. -/
def memorySize : Nat := 256 * 0x80

abbrev Memory := Nat → Byte

namespace Memory

variable (memory : Memory)

/-- `memory.set(data, at)`, which throws if the data does not fit. -/
def set (data : List Byte) (at_ : Nat) : Option Memory :=
  if at_ + data.length ≤ memorySize then
    some fun a => if at_ ≤ a ∧ a < at_ + data.length then data.getD (a - at_) 0 else memory a
  else none

/-- `memory.fill(0, start, end)`. -/
def fill (start stop : Nat) : Memory :=
  fun a => if start ≤ a ∧ a < min stop memorySize then 0 else memory a

/-- `memory[at] = value`, which is ignored outside. -/
def put (at_ : Nat) (value : Byte) : Memory :=
  if at_ < memorySize then Function.update memory at_ value else memory

end Memory

/-! ## The card -/

/-- `Ne2k`, and whether its interrupt is raised. -/
structure Ne2k where
  isr : Byte
  imr : Byte
  cr : Byte
  dcfg : Byte
  rcnt : Int
  rsar : Nat
  pstart : Nat
  pstop : Nat
  curpg : Nat
  boundary : Nat
  rxcr : Byte
  mac : Mac
  macAddressInState : Option Mac
  memory : Memory
  irq : Bool

namespace Ne2k

variable (n : Ne2k)

/-- `update_irq`. -/
def updateIrq : Ne2k := { n with irq := n.imr &&& n.isr ≠ 0 }

/-- `do_interrupt`. -/
def doInterrupt (mask : Byte) : Ne2k := ({ n with isr := n.isr ||| mask } : Ne2k).updateIrq

/-- `get_page`. -/
def getPage : Nat := n.cr.toNat / 64

/-! ## The data port -/

/-- `rsar` and `rcnt` go on to the next byte. -/
def advanceDma : Ne2k :=
  let rsar := n.rsar + 1
  let n := { n with
    rsar := if n.pstop * 256 ≤ rsar then rsar - n.pstop * 256 + n.pstart * 256 else rsar
    rcnt := n.rcnt - 1 }
  if n.rcnt = 0 then n.doInterrupt enisrRdc else n

/-- `data_port_read`. -/
def dataPortRead : Byte × Ne2k :=
  (if n.rsar < stopPage * 256 then n.memory n.rsar else 0, n.advanceDma)

/-- `data_port_write`. -/
def dataPortWrite (dataByte : Byte) : Ne2k :=
  let n :=
    if n.rsar ≤ 0x10 ∨ startPage * 256 ≤ n.rsar ∧ n.rsar < stopPage * 256 then
      { n with memory := n.memory.put n.rsar dataByte }
    else n
  n.advanceDma

/-- `data_port_read16`. -/
def dataPortRead16 : Nat × Ne2k :=
  if n.dcfg &&& 1 ≠ 0 then
    let (low, n) := n.dataPortRead
    let (high, n) := n.dataPortRead
    (low.toNat + high.toNat * 256, n)
  else
    let (data, n) := n.dataPortRead
    (data.toNat, n)

/-- `data_port_read8`. -/
def dataPortRead8 : Nat × Ne2k :=
  let (data, n) := n.dataPortRead16
  (data % 256, n)

/-- `data_port_read32`. -/
def dataPortRead32 : Nat × Ne2k :=
  let (b₀, n) := n.dataPortRead
  let (b₁, n) := n.dataPortRead
  let (b₂, n) := n.dataPortRead
  let (b₃, n) := n.dataPortRead
  (b₀.toNat + b₁.toNat * 0x100 + b₂.toNat * 0x10000 + b₃.toNat * 0x1000000, n)

/-! ## Registers -/

/-- The writes to `EN0_RSARLO` and `EN0_RSARHI`. -/
def writeRsar (high : Bool) (dataByte : Byte) : Ne2k :=
  if n.getPage = 0 then
    { n with rsar :=
        if high then n.rsar % 256 + dataByte.toNat * 256
        else n.rsar / 256 % 256 * 256 + dataByte.toNat }
  else n

/-- The writes to `EN0_RCNTLO` and `EN0_RCNTHI`. -/
def writeRcnt (high : Bool) (dataByte : Byte) : Ne2k :=
  if n.getPage = 0 then
    { n with rcnt :=
        if high then n.rcnt % 256 + dataByte.toNat * 256
        else n.rcnt / 256 % 256 * 256 + dataByte.toNat }
  else n

/-- The write to `EN0_BOUNDARY`. -/
def writeBoundary (dataByte : Byte) : Ne2k :=
  if n.getPage = 0 then { n with boundary := dataByte.toNat }
  else if n.getPage = 1 then { n with mac := Function.update n.mac 2 dataByte }
  else n

/-! ## Receiving -/

/-- The frame is for this card, and the card is not stopped. -/
def listens (data : List Byte) : Bool :=
  n.cr &&& 1 = 0 &&
    (n.rxcr &&& 0x10 ≠ 0 ||
      if n.rxcr &&& 4 ≠ 0 && macAt data 0 fun _ => 0xFF then true
      -- multicast
      else if n.rxcr &&& 8 ≠ 0 && (data.getD 0 0) &&& 1 = 1 then false
      else macAt data 0 n.mac)

/-- The frame as the guest knows its address. -/
def translated (data : List Byte) : Option (List Byte) :=
  match n.macAddressInState with
  | none => some data
  | some mac => translateMacAddress data n.mac mac

/-- `total_length`. -/
def totalLength (data : List Byte) : Nat := max 60 data.length + 4

/-- `needed`. -/
def needed (data : List Byte) : Nat := 1 + totalLength data / 256

/-- `available`. -/
def available : Int :=
  if n.curpg < n.boundary then (n.boundary : Int) - n.curpg
  else (n.pstop : Int) - n.curpg + n.boundary - n.pstart

/-- `data` is written behind the header that is to come. -/
def storeData (data : List Byte) : Option Memory :=
  let dataStart := n.curpg * 256 + 4
  if n.pstop * 256 < n.curpg * 256 + totalLength data then
    let cut := n.pstop * 256 - dataStart
    (n.memory.set (data.take cut) dataStart).bind fun memory =>
      memory.set (data.drop cut) (n.pstart * 256)
  else
    (n.memory.set data dataStart).map fun memory =>
      if data.length < 60 then memory.fill (dataStart + data.length) (dataStart + 60) else memory

/-- The page behind the frame. -/
def nextPage (data : List Byte) : Nat :=
  let next := n.curpg + 1 + totalLength data / 256
  if n.pstop ≤ next then next + n.pstart - n.pstop else next

/-- The packet header at `offset`. -/
def putHeader (memory : Memory) (offset next total : Nat) : Memory :=
  (((memory.put offset enrsrRxok).put (offset + 1) (BitVec.ofNat 8 next)).put (offset + 2)
    (BitVec.ofNat 8 total)).put (offset + 3) (BitVec.ofNat 8 (total / 256))

/-- `receive`; `none` if it throws. -/
def receive (data : List Byte) : Option Ne2k :=
  if !n.listens data then some n
  else
    (n.translated data).bind fun data =>
      if n.available < needed data ∧ n.boundary ≠ 0 then some n
      else
        (n.storeData data).map fun memory =>
          let next := n.nextPage data
          ({ n with
            memory := putHeader memory (n.curpg * 256) next (totalLength data)
            curpg := next } : Ne2k).doInterrupt enisrRx

end Ne2k

end V86.Net
