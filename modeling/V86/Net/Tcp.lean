import V86.Net.Ringbuffer

/-!
# The built-in TCP endpoint

`TCPConnection` of `browser/fake_network.js`: one connection of the guest to the host. Sequence
numbers are counted in `seq` and `ack` without bound and stored in 32 bits when a segment is made.
The handlers of events belong to the host: what they do to the connection is an argument of
`process`.
-/

namespace V86.Net

/-- The states `TCP_STATE_*`. -/
inductive TcpState
  | closed
  | synReceived
  | synSent
  | synProbe
  | established
  | finWait1
  | closeWait
  | finWait2
  | lastAck
  | closing
  deriving DecidableEq

/-- A segment of the guest, as `parse_tcp` reads it. -/
structure Packet where
  seq : BitVec 32
  ackn : BitVec 32
  winsize : BitVec 16
  fin : Bool
  syn : Bool
  rst : Bool
  ack : Bool
  data : List Byte

/-- A segment for the guest. `write_tcp` stores `seq` and `ackn` in 32 bits. -/
structure Segment where
  seq : Nat
  ackn : Nat
  winsize : BitVec 16
  fin : Bool := false
  syn : Bool := false
  rst : Bool := false
  psh : Bool := false
  ack : Bool := false
  mss : Option Nat := none
  data : List Byte := []

inductive Event
  | data (bytes : List Byte)
  | shutdown
  | close
  | connect
  | probe (success : Bool)

inductive Output
  | segment (s : Segment)
  | event (e : Event)

/-- `TCPConnection`. `outputs` and `written` are history variables: all that was sent to the guest
and emitted to the host, and the bytes that `write` and `writev` took. -/
structure Conn where
  state : TcpState
  sendBuffer : Ringbuffer
  /-- The length of `send_chunk_buf`. -/
  chunk : Nat
  inActiveClose : Bool
  delayedSendFin : Bool
  delayedState : TcpState
  seq : Nat
  ack : Nat
  startSeq : Nat
  winsize : BitVec 16
  lastReceivedAckn : Option Nat
  pending : Bool
  /-- `net.tcp_conn[tuple]` is this connection. -/
  registered : Bool
  outputs : List Output
  written : List Byte

/-- A call of the host. -/
inductive HostOp
  | write (data : List Byte)
  | writev (dataArray : List (List Byte))
  | close

namespace Conn

/-- The constructor. -/
def new (mtu : Nat) : Conn where
  state := .closed
  sendBuffer := .new 2048 0 (by decide)
  chunk := mtu - 20 - 20
  inActiveClose := false
  delayedSendFin := false
  delayedState := .closed
  seq := 0
  ack := 0
  startSeq := 0
  winsize := 0
  lastReceivedAckn := none
  pending := false
  registered := false
  outputs := []
  written := []

variable (c : Conn)

/-- `net.receive`: the segment goes to the guest. -/
def send (s : Segment) : Conn := { c with outputs := c.outputs ++ [.segment s] }

def emit (e : Event) : Conn := { c with outputs := c.outputs ++ [.event e] }

/-- `ipv4_reply`. -/
def ipv4Reply : Segment where
  winsize := c.winsize
  ackn := c.ack
  seq := c.seq
  ack := true

/-- `packet_reply`, without options. -/
def packetReply (p : Packet) : Segment where
  winsize := p.winsize
  ackn := c.ack
  seq := c.seq

def release : Conn :=
  if c.registered then { c with state := .closed, registered := false } else c

/-- Send a FIN. -/
def sendFin : Conn := c.send { c.ipv4Reply with fin := true }

/-! ## Calls of the host -/

def pump : Conn :=
  if c.sendBuffer.length ≠ 0 ∧ c.pending = false then
    { c.send { c.ipv4Reply with psh := true, data := c.sendBuffer.peek c.chunk } with
      pending := true }
  else c

/-- The loop in `writev`; `none` where a write throws. -/
def enqueue (c : Conn) : List (List Byte) → Option Conn
  | [] => some c
  | data :: dataArray =>
    match c.sendBuffer.write data with
    | .ok buffer => enqueue { c with sendBuffer := buffer, written := c.written ++ data } dataArray
    | .error _ => none

def writev (dataArray : List (List Byte)) : Conn :=
  if c.inActiveClose then c.pump
  else match c.enqueue dataArray with
    | some c => c.pump
    | none => c

def write (data : List Byte) : Conn := c.writev [data]

/-- The state after the own FIN. -/
def closeState : Option TcpState :=
  match c.state with
  | .established | .synReceived => some .finWait1
  | .closeWait => some .lastAck
  | _ => none

def close : Conn :=
  if c.inActiveClose then c.pump
  else
    let c := { c with inActiveClose := true }
    match c.closeState with
    | none => c.release
    | some nextState =>
      if c.sendBuffer.length ≠ 0 ∨ c.pending then
        { c with delayedSendFin := true, delayedState := nextState }.pump
      else { c with state := nextState }.sendFin.pump

def perform (c : Conn) : HostOp → Conn
  | .write data => c.write data
  | .writev dataArray => c.writev dataArray
  | .close => c.close

/-- An event, and what its handler calls. -/
def emitTo (e : Event) (reactions : List HostOp) : Conn :=
  reactions.foldl perform (c.emit e)

/-! ## Opening -/

def connect : Conn :=
  let c := { c with seq := 1338, ack := 1, startSeq := 0, winsize := 64240 }
  let c := if c.state ≠ .synProbe then { c with state := .synSent } else c
  c.send { seq := 1337, ackn := 0, winsize := 0, syn := true }

def accept (p : Packet) : Conn :=
  let c := { c with
    registered := true
    seq := 1338
    ack := p.seq.toNat + 1
    startSeq := p.seq.toNat
    winsize := p.winsize
    state := .established }
  c.send
    { seq := 1337, ackn := c.ack, winsize := p.winsize, syn := true, ack := true,
      mss := some c.chunk }

/-! ## Segments of the guest -/

/-- A segment with SYN. -/
def processSyn (p : Packet) (reactions : List HostOp) : Conn :=
  if c.state = .synSent ∧ p.ack then
    let c := { c with
      ack := p.seq.toNat + 1, startSeq := p.seq.toNat, lastReceivedAckn := some p.ackn.toNat }
    let c := c.send c.ipv4Reply
    { c with state := .established }.emitTo .connect reactions
  else if c.state = .synProbe ∧ p.ack then
    let c := c.emitTo (.probe true) reactions
    (c.send { c.packetReply p with rst := true }).release
  else c

/-- What an acknowledgement does to the state, unless it releases the connection. -/
def acknowledgedState (p : Packet) : TcpState :=
  if p.ack then
    match c.state with
    | .synReceived => .established
    | .finWait1 => if p.fin then .finWait1 else .finWait2
    | state => state
  else c.state

/-- The acknowledged bytes leave the buffer. -/
def acknowledge (ackn nAck : Nat) : Conn :=
  { c with
    lastReceivedAckn := some ackn
    sendBuffer := c.sendBuffer.remove nAck
    seq := c.seq + nAck
    pending := false }

/-- What becomes of a segment after its acknowledgement number was looked at. -/
inductive Progress
  | done (c : Conn)
  | goOn (c : Conn)

/-- The acknowledgement number. -/
def processAckn (p : Packet) (reactions : List HostOp) : Progress :=
  let ackn := p.ackn.toNat
  match c.lastReceivedAckn with
  | none => .goOn { c with lastReceivedAckn := some ackn }
  | some last =>
    if last < ackn then
      let c := c.acknowledge ackn (ackn - last)
      if c.delayedSendFin ∧ c.sendBuffer.length = 0 then
        .done { c with delayedSendFin := false, state := c.delayedState }.sendFin
      else .goOn c
    else if ackn < last then
      .done ((c.send { c.packetReply p with rst := true }).emitTo .close reactions).release
    else .goOn c

/-- A segment with FIN. -/
def processFin (p : Packet) (reactions : List HostOp) : Conn :=
  let c := { c with ack := c.ack + 1 }
  let reply := c.packetReply p
  match c.state with
  | .established =>
    ({ c with state := .closeWait }.emitTo .shutdown reactions).send { reply with ack := true }
  | .finWait1 =>
    (if p.ack then c.release else { c with state := .closing }).send { reply with ack := true }
  | .finWait2 => c.release.send { reply with ack := true }
  | _ => (c.release.emitTo .close reactions).send { reply with rst := true }

/-- A segment without FIN. -/
def processData (p : Packet) (reactions : List HostOp) : Conn :=
  if c.ack ≠ p.seq.toNat then c.send { c.packetReply p with ack := true }
  else if p.ack ∧ p.data.length ≠ 0 then
    let c := { c with ack := c.ack + p.data.length }
    (c.send c.ipv4Reply).emitTo (.data p.data) reactions
  else c

/-- `process`. -/
def process (p : Packet) (reactions : List HostOp) : Conn :=
  if c.state = .closed then c.send { c.packetReply p with rst := true }
  else if p.rst then
    if c.state = .synProbe then (c.emitTo (.probe false) reactions).release
    else (c.emitTo .close reactions).release
  else if p.syn then c.processSyn p reactions
  else if p.ack ∧ (c.state = .closing ∨ c.state = .lastAck) then c.release
  else
    match { c with state := c.acknowledgedState p }.processAckn p reactions with
    | .done c => c
    | .goOn c =>
      (if p.fin then c.processFin p reactions else c.processData p reactions).pump

/-! ## Acknowledgement numbers by cases -/

/-- All bytes are acknowledged, and the delayed FIN is sent. -/
def finish (ackn nAck : Nat) : Conn :=
  { c.acknowledge ackn nAck with delayedSendFin := false, state := c.delayedState }.sendFin

/-- The acknowledgement number is below the last one. -/
def reset (p : Packet) (reactions : List HostOp) : Conn :=
  ((c.send { c.packetReply p with rst := true }).emitTo .close reactions).release

/-- The delayed FIN can be sent once `nAck` more bytes are acknowledged. -/
def Finishes (nAck : Nat) : Prop := c.delayedSendFin = true ∧ c.sendBuffer.length ≤ nAck

variable {c}

theorem processAckn_none {p : Packet} {reactions : List HostOp} (h : c.lastReceivedAckn = none) :
    c.processAckn p reactions = .goOn { c with lastReceivedAckn := some p.ackn.toNat } := by
  unfold processAckn
  rw [h]

theorem processAckn_some {last : Nat} (h : c.lastReceivedAckn = some last) (p : Packet)
    (reactions : List HostOp) : last < p.ackn.toNat ∧ c.Finishes (p.ackn.toNat - last) ∧
        c.processAckn p reactions = .done (c.finish p.ackn.toNat (p.ackn.toNat - last)) ∨
      last < p.ackn.toNat ∧ ¬c.Finishes (p.ackn.toNat - last) ∧
        c.processAckn p reactions = .goOn (c.acknowledge p.ackn.toNat (p.ackn.toNat - last)) ∨
      p.ackn.toNat < last ∧ c.processAckn p reactions = .done (c.reset p reactions) ∨
      p.ackn.toNat = last ∧ c.processAckn p reactions = .goOn c := by
  unfold processAckn
  rw [h]
  dsimp only
  split
  case isTrue habove =>
    have hlength : (c.acknowledge p.ackn.toNat (p.ackn.toNat - last)).sendBuffer.length = 0 ↔
        c.sendBuffer.length ≤ p.ackn.toNat - last := by
      change c.sendBuffer.length - min (p.ackn.toNat - last) c.sendBuffer.length = 0 ↔ _
      omega
    split
    case isTrue hfin => exact .inl ⟨habove, ⟨hfin.1, hlength.1 hfin.2⟩, rfl⟩
    case isFalse hfin =>
      exact .inr (.inl ⟨habove, fun hf => hfin ⟨hf.1, hlength.2 hf.2⟩, rfl⟩)
  · split
    case isTrue hbelow => exact .inr (.inr (.inl ⟨hbelow, rfl⟩))
    case isFalse => exact .inr (.inr (.inr ⟨by omega, rfl⟩))

end Conn
end V86.Net
