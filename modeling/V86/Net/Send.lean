import Mathlib.Data.List.Infix
import V86.Net.Receive

/-!
# The host's stream

The host writes its stream and closes, at any time and from any handler; the guest acknowledges
any part of what was sent. What the connection sends is the stream, each byte until it is
acknowledged, and then one FIN: as long as the first acknowledgement number covers no byte, none
wraps and a FIN of the guest is not repeated.
-/

namespace V86.Net

open List

/-- The number behind a segment. -/
def Segment.stop (s : Segment) : Nat := s.seq + s.syn.toNat + s.data.length + s.fin.toNat

/-- How many FINs were sent. -/
def fins (outputs : List Output) : Nat :=
  outputs.countP fun
    | .segment s => s.fin
    | .event _ => false

@[simp] theorem fins_append (os os' : List Output) : fins (os ++ os') = fins os + fins os' :=
  countP_append

theorem fins_segment (s : Segment) : fins [.segment s] = s.fin.toNat := by
  unfold fins
  rw [countP_singleton]
  change (if s.fin = true then 1 else 0) = _
  cases s.fin <;> rfl

theorem fins_event (e : Event) : fins [.event e] = 0 := rfl

theorem not_fin_of_fins {os : List Output} (h : fins os = 0) {s : Segment}
    (hs : .segment s ∈ os) : s.fin ≠ true := List.countP_eq_zero.1 h _ hs

/-! ## The guest and the host -/

structure Exchange where
  conn : Conn
  /-- The acknowledgement number of the guest, without bound. -/
  acked : Nat

/-- A segment of the guest, and what the handlers call meanwhile, or a call of the host. -/
inductive Turn
  | segment (p : Packet) (reactions : List HostOp)
  | host (op : HostOp)

namespace Exchange

variable (w : Exchange)

/-- The acknowledgement number after a turn: the next one that agrees with the segment modulo
`2^32`. -/
def ackedBy : Turn → Nat
  | .segment p _ =>
    if p.ack then w.acked + (p.ackn - BitVec.ofNat 32 w.acked).toNat else w.acked
  | .host _ => w.acked

def step (a : Turn) : Exchange where
  conn :=
    match a with
    | .segment p reactions => w.conn.deliver p reactions
    | .host op => w.conn.perform op
  acked := w.ackedBy a

/-- The guest acknowledges nothing that was not sent. All its segments have an acknowledgement
number, but for resets. A SYN answers the one of `connect`; a repeated one acknowledges nothing
new. -/
def Allows : Turn → Prop
  | .segment p reactions =>
    (∃ s, .segment s ∈ w.conn.outputs ∧ w.ackedBy (.segment p reactions) ≤ s.stop) ∧
    (p.ack = true ∨ p.rst = true) ∧
    (w.conn.state = .synSent → p.syn = true ∨ p.rst = true) ∧
    (p.syn = true → w.conn.state = .synSent ∨ w.ackedBy (.segment p reactions) = w.acked)
  | .host _ => True

/-- What was sent up to and in a turn. -/
structure Sends (a : Turn) : Prop where
  /-- The data of a segment is in the stream, at its position. -/
  carries : ∀ s, .segment s ∈ (w.step a).conn.outputs →
    s.data <+: (w.step a).conn.written.drop (s.seq - 1338)
  /-- What is acknowledged is not sent again. -/
  fresh : ∀ s, .segment s ∈ (w.step a).conn.outputs.drop w.conn.outputs.length → s.data ≠ [] →
    1338 ≤ s.seq ∧ (w.step a).acked ≤ s.seq
  /-- What is not acknowledged is in the buffer. -/
  keeps : (w.step a).conn.written.drop ((w.step a).acked - 1338) <:+
    (w.step a).conn.sendBuffer.toList
  /-- A FIN follows the stream, which is acknowledged. -/
  closes : ∀ s, .segment s ∈ (w.step a).conn.outputs → s.fin = true →
    s.seq = 1338 + (w.step a).conn.written.length ∧
      1338 + (w.step a).conn.written.length ≤ (w.step a).acked
  once : fins (w.step a).conn.outputs ≤ 1
  /-- Where the host has closed and all is acknowledged, there was one. -/
  ends : (w.step a).conn.registered = true → (w.step a).conn.inActiveClose = true →
    1338 + (w.step a).conn.written.length ≤ (w.step a).acked →
    fins (w.step a).conn.outputs = 1
  /-- The connection is not reset. -/
  stays : ∀ s, .segment s ∈ (w.step a).conn.outputs → s.rst = false

end Exchange

/-- The acknowledgement number of a segment is looked at. -/
def Conn.Heeds (c : Conn) (p : Packet) : Prop :=
  c.registered = true ∧ p.rst = false ∧ c.state ≠ .closing ∧ c.state ≠ .lastAck

/-- An acknowledgement number is below `2^32`, the first one acknowledges no byte, and a FIN is
not read again while the host has not closed. -/
def Exchange.Clean (w : Exchange) : Turn → Prop
  | .segment p reactions => w.conn.Heeds p →
    w.ackedBy (.segment p reactions) < 2 ^ 32 ∧
    (w.conn.state = .synSent ∨ w.conn.lastReceivedAckn = none →
      w.ackedBy (.segment p reactions) = w.acked ∨ w.conn.sendBuffer.length = 0) ∧
    (p.fin = true → w.conn.state = .closeWait → w.conn.Completes p.ackn)
  | .host _ => True

/-! ## Phases -/

namespace Conn

/-- Before the FIN: the buffer holds the stream from `seq` on, and unless a segment is pending all
before `seq` and no more is acknowledged. -/
structure Streams (A : Nat) (c : Conn) : Prop where
  first : 1338 ≤ c.seq
  toList : c.sendBuffer.toList = c.written.drop (c.seq - 1338)
  current : c.pending = false → c.seq = A
  delayed : c.delayedSendFin = true → c.inActiveClose = true

/-- After the FIN. -/
structure Finished (A : Nat) (c : Conn) : Prop where
  closes : c.inActiveClose = true
  delayed : c.delayedSendFin = false
  empty : c.sendBuffer.length = 0
  acked : 1338 + c.written.length ≤ A

/-- What a segment that was sent says. -/
structure Says (c : Conn) (s : Segment) : Prop where
  rst : s.rst = false
  carries : s.data <+: c.written.drop (s.seq - 1338)
  stop : s.stop ≤ 1338 + c.written.length + fins c.outputs
  fin : s.fin = true → s.seq = 1338 + c.written.length

/-- A state in which segments with a FIN are expected at some time. -/
def Opens (state : TcpState) : Prop :=
  state ≠ .closed ∧ state ≠ .synReceived ∧ state ≠ .synProbe

/-- The guest has acknowledged the numbers before `A`. -/
structure Sound (A : Nat) (c : Conn) : Prop where
  unlimited : c.sendBuffer.maximumCapacity = 0
  opens : c.registered = true → Opens c.state
  delayedOpens : c.delayedSendFin = true → Opens c.delayedState
  said : ∀ s, .segment s ∈ c.outputs → c.Says s
  seq_le : c.seq ≤ A
  acked_le : A ≤ 1338 + c.written.length + fins c.outputs
  phase : fins c.outputs = 0 ∧ c.Streams A ∨ fins c.outputs = 1 ∧ c.Finished A

/-- Nothing waits that could be sent. -/
def Pumped (c : Conn) : Prop := c.pending = false → c.sendBuffer.length = 0

/-- A segment is pending only for bytes that are not acknowledged; and where the host has closed and
there was no FIN, it is delayed for their sake. -/
structure Owes (c : Conn) : Prop where
  pending : c.pending = true → c.sendBuffer.length ≠ 0
  delayed : c.registered = true → c.inActiveClose = true → fins c.outputs = 0 →
    c.delayedSendFin = true ∧ c.sendBuffer.length ≠ 0

/-- No byte below `A` was sent in between. -/
def Fresh (A : Nat) (c d : Conn) : Prop :=
  ∃ os, d.outputs = c.outputs ++ os ∧
    ∀ s, .segment s ∈ os → s.data ≠ [] → 1338 ≤ s.seq ∧ A ≤ s.seq

/-- What calls and answers leave. -/
structure Passes (A : Nat) (c d : Conn) : Prop where
  sound : d.Sound A
  fresh : Fresh A c d
  seq : d.seq = c.seq
  last : d.lastReceivedAckn = c.lastReceivedAckn
  registered : d.registered = true → c.registered = true

variable {A : Nat} {c d : Conn}

theorem Fresh.refl (A : Nat) (c : Conn) : Fresh A c c := ⟨[], (append_nil _).symm, nofun⟩

variable {e : Conn} {s : Segment} {dataArray : List (List Byte)} {state : TcpState}

theorem Fresh.trans (h : Fresh A c d) (h' : Fresh A d e) : Fresh A c e := by
  obtain ⟨os, hos, hfresh⟩ := h
  obtain ⟨os', hos', hfresh'⟩ := h'
  refine ⟨os ++ os', ?_, fun s hs => ?_⟩
  · rw [hos', hos, append_assoc]
  · exact (List.mem_append.1 hs).elim (hfresh s) (hfresh' s)

theorem Fresh.fins_le (h : Fresh A c d) : fins c.outputs ≤ fins d.outputs := by
  obtain ⟨os, hos, -⟩ := h
  rw [hos, fins_append]
  exact Nat.le_add_right ..

theorem Passes.refl (h : c.Sound A) : Passes A c c := ⟨h, .refl A c, rfl, rfl, id⟩

theorem Passes.trans (h : Passes A c d) (h' : Passes A d e) : Passes A c e :=
  ⟨h'.sound, h.fresh.trans h'.fresh, h'.seq.trans h.seq, h'.last.trans h.last,
    h.registered ∘ h'.registered⟩

/-- Nothing is sent. -/
theorem Passes.silent (h : d.Sound A) (houtputs : d.outputs = c.outputs) (hseq : d.seq = c.seq)
    (hlast : d.lastReceivedAckn = c.lastReceivedAckn)
    (hregistered : d.registered = true → c.registered = true) : Passes A c d :=
  ⟨h, ⟨[], houtputs.trans (append_nil _).symm, nofun⟩, hseq, hlast, hregistered⟩

theorem Says.mono (h : c.Says s) (hwritten : c.written <+: d.written)
    (hfins : fins c.outputs ≤ fins d.outputs) (hfin : s.fin = true → d.written = c.written) :
    d.Says s where
  rst := h.rst
  carries := h.carries.trans (List.IsPrefix.drop hwritten _)
  stop := by
    have := h.stop
    have := hwritten.length_le
    omega
  fin := fun hs => (h.fin hs).trans (by rw [hfin hs])

/-! ## The buffer -/

/-- The host has not closed: no FIN was sent. -/
theorem Sound.streams (h : c.Sound A) (hactive : c.inActiveClose = false) :
    fins c.outputs = 0 ∧ c.Streams A :=
  h.phase.resolve_right fun hf => nomatch hactive.symm.trans hf.2.closes

theorem Streams.length_buffer (hs : c.Streams A) (hle : c.seq ≤ 1338 + c.written.length) :
    c.seq + c.sendBuffer.length = 1338 + c.written.length := by
  have hfirst := hs.first
  have hlength := congrArg List.length hs.toList
  rw [Ringbuffer.length_toList, length_drop] at hlength
  omega

/-- Where the buffer ends. -/
theorem Sound.seq_add (h : c.Sound A) (hfins : fins c.outputs = 0) (hs : c.Streams A) :
    c.seq + c.sendBuffer.length = 1338 + c.written.length := by
  have hseq := h.seq_le
  have hacked := h.acked_le
  exact hs.length_buffer (by omega)

/-! ## What a connection says -/

/-- Segments without a FIN, and events. -/
theorem Sound.tells {os : List Output} (h : c.Sound A) (hfins : fins os = 0)
    (hos : ∀ s, .segment s ∈ os → c.Says s) : Sound A { c with outputs := c.outputs ++ os } := by
  have hsame : fins (c.outputs ++ os) = fins c.outputs := by
    rw [fins_append, hfins, Nat.add_zero]
  refine ⟨h.unlimited, h.opens, h.delayedOpens, fun s hs => ?_, h.seq_le, ?_, ?_⟩
  · have hword : c.Says s := (List.mem_append.1 hs).elim (h.said s) (hos s)
    exact hword.mono (prefix_refl _) hsame.ge fun _ => rfl
  · exact h.acked_le.trans_eq (congrArg _ hsame.symm)
  · rcases h.phase with ⟨h0, hs⟩ | ⟨h1, hf⟩
    · exact .inl ⟨hsame.trans h0, hs.first, hs.toList, hs.current, hs.delayed⟩
    · exact .inr ⟨hsame.trans h1, hf.closes, hf.delayed, hf.empty, hf.acked⟩

/-- A segment that carries nothing but flags. -/
structure Answer (n : Nat) (s : Segment) : Prop where
  seq : s.seq = n
  data : s.data = []
  fin : s.fin = false
  syn : s.syn = false
  rst : s.rst = false

theorem passes_send (h : c.Sound A) (hs : Answer c.seq s) : Passes A c (c.send s) := by
  have hseq := h.seq_le
  have hacked := h.acked_le
  refine ⟨h.tells ?_ ?_, ⟨[.segment s], rfl, ?_⟩, rfl, rfl, id⟩
  · rw [fins_segment, hs.fin]
    rfl
  · intro t ht
    cases List.mem_singleton.1 ht
    refine ⟨hs.rst, ?_, ?_, fun hfin => nomatch hs.fin.symm.trans hfin⟩
    · rw [hs.data]
      exact nil_prefix
    · rw [Segment.stop, hs.seq, hs.data, hs.fin, hs.syn]
      exact hseq.trans hacked
  · intro t ht hdata
    cases List.mem_singleton.1 ht
    exact absurd hs.data hdata

theorem passes_emit (h : c.Sound A) (e : Event) : Passes A c (c.emit e) := by
  refine ⟨h.tells (fins_event e) ?_, ⟨[.event e], rfl, ?_⟩, rfl, rfl, id⟩
  · intro t ht
    cases List.mem_singleton.1 ht
  · intro t ht
    cases List.mem_singleton.1 ht

/-- The bytes that are sent are the first ones of the buffer, none of which is acknowledged. -/
theorem passes_pump (h : c.Sound A) : Passes A c c.pump := by
  unfold pump
  split
  case isFalse => exact .refl h
  case isTrue hready =>
    obtain ⟨hfins, hs⟩ := h.phase.resolve_right fun hf => hready.1 hf.2.empty
    have hlength := h.seq_add hfins hs
    have hcurrent := hs.current hready.2
    have hdata : (c.sendBuffer.peek c.chunk).length ≤ c.sendBuffer.length := by
      rw [Ringbuffer.length_peek]
      exact Nat.min_le_left ..
    have htold : Sound A { c with outputs := c.outputs ++
        [.segment { c.ipv4Reply with psh := true, data := c.sendBuffer.peek c.chunk }] } := by
      refine h.tells (fins_segment _) ?_
      intro t ht
      cases List.mem_singleton.1 ht
      refine ⟨rfl, ?_, ?_, nofun⟩
      · change c.sendBuffer.peek c.chunk <+: c.written.drop (c.seq - 1338)
        rw [Ringbuffer.peek_eq, hs.toList]
        exact take_prefix ..
      · change c.seq + 0 + (c.sendBuffer.peek c.chunk).length + 0 ≤ _
        omega
    refine ⟨⟨htold.unlimited, htold.opens, htold.delayedOpens, fun s hs => ?_, htold.seq_le,
      htold.acked_le, ?_⟩, ⟨[.segment _], rfl, ?_⟩, rfl, rfl, id⟩
    · have hword := htold.said s hs
      exact ⟨hword.rst, hword.carries, hword.stop, hword.fin⟩
    · refine .inl ⟨?_, hs.first, hs.toList, nofun, hs.delayed⟩
      exact (fins_append ..).trans ((congrArg _ (fins_segment _)).trans hfins)
    · intro t ht _
      cases List.mem_singleton.1 ht
      exact ⟨hs.first, hcurrent.ge⟩

theorem pumped_pump (c : Conn) : c.pump.Pumped := by
  unfold pump
  split
  case isTrue => exact nofun
  case isFalse hidle =>
    intro hpending
    by_contra hlength
    exact hidle ⟨hlength, hpending⟩

theorem Owes.mono (h : c.Owes) (hpending : d.pending = c.pending)
    (hbuffer : d.sendBuffer = c.sendBuffer)
    (hregistered : d.registered = true → c.registered = true)
    (hactive : d.inActiveClose = c.inActiveClose) (hdelayed : d.delayedSendFin = c.delayedSendFin)
    (hfins : fins c.outputs ≤ fins d.outputs) : d.Owes := by
  refine ⟨fun hp => ?_, fun hr ha h0 => ?_⟩
  · rw [hbuffer]
    exact h.pending (hpending ▸ hp)
  · rw [hdelayed, hbuffer]
    exact h.delayed (hregistered hr) (hactive ▸ ha) (Nat.le_zero.1 (hfins.trans h0.le))

theorem fins_tell (c : Conn) (os : List Output) : fins c.outputs ≤ fins (c.outputs ++ os) :=
  (Nat.le_add_right ..).trans_eq (fins_append ..).symm

theorem owes_send (h : c.Owes) (s : Segment) : (c.send s).Owes :=
  h.mono rfl rfl id rfl rfl (fins_tell c _)

theorem owes_pump (h : c.Owes) : c.pump.Owes := by
  unfold pump
  split
  case isFalse => exact h
  case isTrue hready =>
    have hsent := owes_send h
      { c.ipv4Reply with psh := true, data := c.sendBuffer.peek c.chunk }
    exact ⟨fun _ => hready.1, hsent.delayed⟩

/-! ## Calls of the host -/

theorem owes_release (h : c.pending = true → c.sendBuffer.length ≠ 0) : c.release.Owes := by
  unfold release
  split
  · exact ⟨h, nofun⟩
  case isFalse hregistered => exact ⟨h, fun hr => absurd hr hregistered⟩

/-- The state and the numbers of the guest's stream do not matter. -/
theorem Sound.updated {state : TcpState} {registered : Bool} {ack startSeq : Nat}
    {last : Option Nat} (h : c.Sound A) (hstate : registered = true → Opens state) : Sound A
      { c with state, registered, ack, startSeq, lastReceivedAckn := last } := by
  refine ⟨h.unlimited, hstate, h.delayedOpens, fun s hs => ?_, h.seq_le, h.acked_le, ?_⟩
  · exact (h.said s hs).mono (prefix_refl _) (Nat.le_refl _) fun _ => rfl
  · rcases h.phase with ⟨h0, hs⟩ | ⟨h1, hf⟩
    · exact .inl ⟨h0, hs.first, hs.toList, hs.current, hs.delayed⟩
    · exact .inr ⟨h1, hf.closes, hf.delayed, hf.empty, hf.acked⟩

theorem passes_release (h : c.Sound A) : Passes A c c.release := by
  unfold release
  split
  case isFalse => exact .refl h
  case isTrue => exact .silent (h.updated nofun) rfl rfl rfl nofun

theorem registered_release (c : Conn) : c.release.registered = false := by
  unfold release
  split
  · rfl
  case isFalse h => exact Bool.eq_false_iff.2 h

theorem pumped_release (h : c.Pumped) : c.release.Pumped := by
  unfold release
  split
  · exact h
  · exact h

theorem passes_enqueue (h : c.Sound A) (hactive : c.inActiveClose = false) :
    ∃ d, c.enqueue dataArray = some d ∧ Passes A c d := by
  induction dataArray generalizing c with
  | nil => exact ⟨c, rfl, .refl h⟩
  | cons data dataArray ih =>
    obtain ⟨buffer, hwrite, htoList, hunlimited⟩ := c.sendBuffer.write_eq data h.unlimited
    obtain ⟨hfins, hs⟩ := h.streams hactive
    have hseq := h.seq_le
    have hacked := h.acked_le
    have hstored : Passes A c { c with sendBuffer := buffer, written := c.written ++ data } := by
      refine .silent ⟨hunlimited, h.opens, h.delayedOpens, fun s hs => ?_, hseq, ?_,
        .inl ⟨hfins, hs.first, ?_, hs.current, hs.delayed⟩⟩ rfl rfl rfl id
      · exact (h.said s hs).mono (prefix_append ..) (Nat.le_refl _)
          fun hfin => absurd hfin (not_fin_of_fins hfins hs)
      · change A ≤ 1338 + (c.written ++ data).length + fins c.outputs
        rw [length_append]
        omega
      · change buffer.toList = (c.written ++ data).drop (c.seq - 1338)
        rw [htoList, hs.toList, drop_append_of_le_length (by omega)]
    obtain ⟨d, hd, hpasses⟩ := ih hstored.sound hactive
    refine ⟨d, ?_, hstored.trans hpasses⟩
    unfold enqueue
    rw [hwrite]
    exact hd

theorem passes_writev (h : c.Sound A) (dataArray : List (List Byte)) :
    Passes A c (c.writev dataArray) := by
  unfold writev
  split
  · exact passes_pump h
  case isFalse hactive =>
    obtain ⟨d, hd, hpasses⟩ := passes_enqueue h (Bool.eq_false_iff.2 hactive)
    rw [hd]
    exact hpasses.trans (passes_pump hpasses.sound)

theorem pumped_writev (h : c.Sound A) (dataArray : List (List Byte)) :
    (c.writev dataArray).Pumped := by
  unfold writev
  split
  · exact pumped_pump c
  case isFalse hactive =>
    obtain ⟨d, hd, -⟩ := passes_enqueue h (Bool.eq_false_iff.2 hactive)
    rw [hd]
    exact pumped_pump d

theorem owes_enqueue (h : c.Owes) (hunlimited : c.sendBuffer.maximumCapacity = 0)
    (hactive : c.inActiveClose = false) (hd : c.enqueue dataArray = some d) : d.Owes := by
  induction dataArray generalizing c with
  | nil => exact Option.some.inj hd ▸ h
  | cons data dataArray ih =>
    obtain ⟨buffer, hwrite, htoList, hunlimited'⟩ := c.sendBuffer.write_eq data hunlimited
    unfold enqueue at hd
    rw [hwrite] at hd
    have hstored : Owes { c with sendBuffer := buffer, written := c.written ++ data } := by
      refine ⟨fun hpending => ?_, fun _ ha => (by cases hactive.symm.trans ha)⟩
      have hlength := congrArg List.length htoList
      rw [length_append, Ringbuffer.length_toList, Ringbuffer.length_toList] at hlength
      have hbefore := h.pending hpending
      change buffer.length ≠ 0
      omega
    exact ih hstored hunlimited' hactive hd

theorem owes_writev (h : c.Sound A) (ho : c.Owes) (dataArray : List (List Byte)) :
    (c.writev dataArray).Owes := by
  unfold writev
  split
  · exact owes_pump ho
  case isFalse hactive =>
    have hactive := Bool.eq_false_iff.2 hactive
    obtain ⟨d, hd, -⟩ := passes_enqueue h hactive
    rw [hd]
    exact owes_pump (owes_enqueue ho h.unlimited hactive hd)

/-- The FIN. All bytes are acknowledged. -/
theorem passes_sendFin (h : c.Sound A) (hfins : fins c.outputs = 0)
    (hactive : c.inActiveClose = true) (hdelayed : c.delayedSendFin = false)
    (hempty : c.sendBuffer.length = 0) (hseq : c.seq = 1338 + c.written.length) :
    Passes A c c.sendFin := by
  have hle := h.seq_le
  have hacked := h.acked_le
  have hone : fins (c.outputs ++ [.segment { c.ipv4Reply with fin := true }]) = 1 := by
    rw [fins_append, hfins]
    rfl
  refine ⟨⟨h.unlimited, h.opens, h.delayedOpens, ?_, hle, ?_,
    .inr ⟨hone, hactive, hdelayed, hempty, ?_⟩⟩, ⟨[.segment _], rfl, ?_⟩, rfl, rfl, id⟩
  · intro s hs
    rcases List.mem_append.1 hs with hs | hs
    · refine (h.said s hs).mono (prefix_refl _) ?_ fun _ => rfl
      exact (Nat.le_add_right ..).trans_eq (fins_append ..).symm
    · cases List.mem_singleton.1 hs
      refine ⟨rfl, nil_prefix, ?_, fun _ => hseq⟩
      exact (congrArg (· + 1) hseq).trans_le (Nat.add_le_add_left hone.ge _)
  · exact hacked.trans (Nat.add_le_add_left (by omega) _)
  · exact hseq ▸ hle
  · intro t ht hdata
    cases List.mem_singleton.1 ht
    exact absurd rfl hdata

theorem opens_of_closeState (h : c.closeState = some state) : Opens state := by
  unfold closeState at h
  split at h <;> cases h <;> exact ⟨nofun, nofun, nofun⟩

/-- The host closes, in another state. -/
theorem Sound.closing {delayed : Bool} {delayedState : TcpState} (h : c.Sound A)
    (hactive : c.inActiveClose = false) (hstate : c.registered = true → Opens state)
    (hdelayed : delayed = true → Opens delayedState) :
    Sound A { c with
      inActiveClose := true, state := state, delayedSendFin := delayed
      delayedState := delayedState } := by
  obtain ⟨hfins, hs⟩ := h.streams hactive
  refine ⟨h.unlimited, hstate, hdelayed, fun s hs => ?_, h.seq_le, h.acked_le,
    .inl ⟨hfins, hs.first, hs.toList, hs.current, fun _ => rfl⟩⟩
  exact (h.said s hs).mono (prefix_refl _) (Nat.le_refl _) fun _ => rfl

theorem passes_close (h : c.Sound A) : Passes A c c.close := by
  unfold close
  split
  · exact passes_pump h
  case isFalse hactive =>
    have hactive := Bool.eq_false_iff.2 hactive
    obtain ⟨hfins, hs⟩ := h.streams hactive
    have hnone : c.delayedSendFin = false := Bool.eq_false_iff.2 fun hdelayed =>
      nomatch hactive.symm.trans (hs.delayed hdelayed)
    dsimp only
    split
    · have hclosing : Sound A { c with inActiveClose := true } :=
        h.closing hactive h.opens h.delayedOpens
      exact (Passes.silent (c := c) hclosing rfl rfl rfl id).trans (passes_release hclosing)
    case h_2 nextState hnext =>
      have hopens : Opens nextState := opens_of_closeState hnext
      split
      · have hclosing : Sound A { c with
            inActiveClose := true, delayedSendFin := true, delayedState := nextState } :=
          h.closing hactive h.opens fun _ => hopens
        exact (Passes.silent (c := c) hclosing rfl rfl rfl id).trans (passes_pump hclosing)
      case isFalse hidle =>
        have hempty : c.sendBuffer.length = 0 := by
          by_contra hlength
          exact hidle (.inl hlength)
        have hseq := h.seq_add hfins hs
        have hclosing : Sound A { c with inActiveClose := true, state := nextState } :=
          h.closing hactive (fun _ => hopens) h.delayedOpens
        have hfin := passes_sendFin hclosing hfins rfl hnone hempty (by
          change c.seq = 1338 + c.written.length
          omega)
        exact (Passes.silent (c := c) hclosing rfl rfl rfl id).trans (hfin.trans (passes_pump hfin.sound))

theorem pumped_close (h : c.Pumped) : c.close.Pumped := by
  unfold close
  split
  · exact pumped_pump c
  · dsimp only
    split
    · exact pumped_release h
    · split
      · exact pumped_pump _
      · exact pumped_pump _

/-- Where there was a FIN, none is owed. -/
theorem owes_sendFin (h : c.pending = true → c.sendBuffer.length ≠ 0) : c.sendFin.Owes :=
  ⟨h, fun _ _ h0 => not_fin_of_fins h0 (mem_append_right _ mem_cons_self) rfl |>.elim⟩

theorem owes_close (h : c.Owes) : c.close.Owes := by
  unfold close
  split
  · exact owes_pump h
  · dsimp only
    split
    · exact owes_release h.pending
    · split
      case isTrue hbusy => exact owes_pump ⟨h.pending, fun _ _ _ => ⟨rfl, hbusy.elim id h.pending⟩⟩
      case isFalse => exact owes_pump (owes_sendFin h.pending)

theorem passes_perform (h : c.Sound A) (op : HostOp) : Passes A c (c.perform op) := by
  cases op with
  | write data => exact passes_writev h [data]
  | writev dataArray => exact passes_writev h dataArray
  | close => exact passes_close h

theorem pumped_perform (h : c.Sound A) (hp : c.Pumped) (op : HostOp) : (c.perform op).Pumped := by
  cases op with
  | write data => exact pumped_writev h [data]
  | writev dataArray => exact pumped_writev h dataArray
  | close => exact pumped_close hp

theorem owes_perform (h : c.Sound A) (ho : c.Owes) (op : HostOp) : (c.perform op).Owes := by
  cases op with
  | write data => exact owes_writev h ho [data]
  | writev dataArray => exact owes_writev h ho dataArray
  | close => exact owes_close ho

theorem passes_foldl (ops : List HostOp) (h : c.Sound A) : Passes A c (ops.foldl perform c) := by
  induction ops generalizing c with
  | nil => exact .refl h
  | cons op ops ih =>
    have hop := passes_perform h op
    exact hop.trans (ih hop.sound)

theorem pumped_foldl (ops : List HostOp) (h : c.Sound A) (hp : c.Pumped) :
    (ops.foldl perform c).Pumped := by
  induction ops generalizing c with
  | nil => exact hp
  | cons op ops ih => exact ih (passes_perform h op).sound (pumped_perform h hp op)

theorem owes_foldl (ops : List HostOp) (h : c.Sound A) (ho : c.Owes) :
    (ops.foldl perform c).Owes := by
  induction ops generalizing c with
  | nil => exact ho
  | cons op ops ih => exact ih (passes_perform h op).sound (owes_perform h ho op)

/-- An event, and the calls of its handler. -/
theorem passes_emitTo (h : c.Sound A) (e : Event) (ops : List HostOp) :
    Passes A c (c.emitTo e ops) := by
  have hemit := passes_emit h e
  exact hemit.trans (passes_foldl ops hemit.sound)

theorem pumped_emitTo (h : c.Sound A) (hp : c.Pumped) (e : Event) (ops : List HostOp) :
    (c.emitTo e ops).Pumped :=
  pumped_foldl ops (passes_emit h e).sound hp

theorem owes_emitTo (h : c.Sound A) (ho : c.Owes) (e : Event) (ops : List HostOp) :
    (c.emitTo e ops).Owes :=
  owes_foldl ops (passes_emit h e).sound (ho.mono rfl rfl id rfl rfl (fins_tell c _))

/-! ## Segments of the guest -/

/-- The connection between two turns. As long as the adapter knows it, it has counted what is
acknowledged. -/
structure Settled (A : Nat) (c : Conn) : Prop where
  sound : c.Sound A
  pumped : c.Pumped
  owes : c.Owes
  live : c.registered = true → fins c.outputs = 0 → c.seq = A
  last : c.registered = true →
    c.lastReceivedAckn = none ∨ c.lastReceivedAckn = some A

variable {B : Nat} {p : Packet} {reactions : List HostOp}

/-- More is acknowledged, and nothing is sent before the connection has counted it. -/
theorem Sound.later (h : c.Sound A) (hp : c.Pumped) (hAB : A ≤ B)
    (hsent : ∃ s, .segment s ∈ c.outputs ∧ B ≤ s.stop) : c.Sound B := by
  obtain ⟨s, hs, hstop⟩ := hsent
  have hacked := hstop.trans (h.said s hs).stop
  refine ⟨h.unlimited, h.opens, h.delayedOpens, h.said, h.seq_le.trans hAB, hacked, ?_⟩
  rcases h.phase with ⟨h0, hs⟩ | ⟨h1, hf⟩
  · refine .inl ⟨h0, hs.first, hs.toList, fun hpending => ?_, hs.delayed⟩
    have hseq := h.seq_add h0 hs
    have hempty := hp hpending
    have hle := h.seq_le
    omega
  · exact .inr ⟨h1, hf.closes, hf.delayed, hf.empty, hf.acked.trans hAB⟩

/-- A connection that the adapter no longer knows. -/
theorem Sound.settled (h : c.Sound A) (hp : c.Pumped) (ho : c.Owes)
    (hregistered : c.registered = false) : c.Settled A :=
  ⟨h, hp, ho, fun hr => (nomatch hregistered.symm.trans hr),
    fun hr => (nomatch hregistered.symm.trans hr)⟩

/-- What follows once the acknowledgement number was counted. -/
theorem Settled.of_passes (h : Passes B c d) (hp : d.Pumped) (ho : d.Owes)
    (hlive : c.registered = true → fins c.outputs = 0 → c.seq = B)
    (hlast : c.lastReceivedAckn = none ∨ c.lastReceivedAckn = some B) : d.Settled B := by
  refine ⟨h.sound, hp, ho, fun hr hfins => ?_, fun _ => ?_⟩
  · have hle := h.fresh.fins_le
    exact h.seq.trans (hlive (h.registered hr) (by omega))
  · rw [h.last]
    exact hlast

theorem Sound.withState {state : TcpState} (h : c.Sound A)
    (hstate : c.registered = true → Opens state) : Sound A { c with state := state } :=
  h.updated hstate

theorem Sound.withAck {ack startSeq : Nat} {last : Option Nat} (h : c.Sound A) :
    Sound A { c with ack := ack, startSeq := startSeq, lastReceivedAckn := last } :=
  h.updated h.opens

theorem passes_processData (h : c.Sound A) (p : Packet) (reactions : List HostOp) :
    Passes A c (c.processData p reactions) := by
  unfold processData
  split
  · exact passes_send h ⟨rfl, rfl, rfl, rfl, rfl⟩
  · split
    · have hack : Sound A { c with ack := c.ack + p.data.length } := h.withAck
      have hreply := passes_send hack (s := { c with ack := c.ack + p.data.length }.ipv4Reply)
        ⟨rfl, rfl, rfl, rfl, rfl⟩
      have hemit := passes_emitTo hreply.sound (.data p.data) reactions
      exact (Passes.silent (c := c) hack rfl rfl rfl id).trans (hreply.trans hemit)
    · exact .refl h

theorem owes_processData (h : c.Sound A) (ho : c.Owes) (p : Packet) (reactions : List HostOp) :
    (c.processData p reactions).Owes := by
  unfold processData
  split
  · exact owes_send ho _
  · split
    · have hack : Sound A { c with ack := c.ack + p.data.length } := h.withAck
      have hreply := passes_send hack (s := { c with ack := c.ack + p.data.length }.ipv4Reply)
        ⟨rfl, rfl, rfl, rfl, rfl⟩
      have hcounted : Owes { c with ack := c.ack + p.data.length } :=
        ho.mono rfl rfl id rfl rfl (Nat.le_refl _)
      exact owes_emitTo hreply.sound (owes_send hcounted _) (.data p.data) reactions
    · exact ho

/-- A FIN in a state in which it is expected. -/
theorem passes_processFin (h : c.Sound A)
    (hstate : c.state = .established ∨ c.state = .finWait1 ∨ c.state = .finWait2) (p : Packet)
    (reactions : List HostOp) : Passes A c (c.processFin p reactions) := by
  have hack : Sound A { c with ack := c.ack + 1 } := h.withAck
  have hcounted : Passes A c { c with ack := c.ack + 1 } := .silent hack rfl rfl rfl id
  have hreply : ∀ {d : Conn}, Passes A c d →
      Passes A c (d.send { { c with ack := c.ack + 1 }.packetReply p with ack := true }) :=
    fun hd => hd.trans (passes_send hd.sound ⟨hd.seq.symm, rfl, rfl, rfl, rfl⟩)
  have hreleased := hcounted.trans (passes_release hack)
  unfold processFin
  dsimp only
  split
  · have hwaits : Sound A { c with ack := c.ack + 1, state := .closeWait } :=
      hack.withState fun _ => ⟨nofun, nofun, nofun⟩
    have hsilent : Passes A c { c with ack := c.ack + 1, state := .closeWait } :=
      .silent hwaits rfl rfl rfl id
    exact hreply (hsilent.trans (passes_emitTo hwaits .shutdown reactions))
  · refine hreply ?_
    split
    · exact hreleased
    · exact .silent (hack.withState fun _ => ⟨nofun, nofun, nofun⟩) rfl rfl rfl id
  · exact hreply hreleased
  case h_4 hestablished hwait1 hwait2 =>
    rcases hstate with hstate | hstate | hstate
    · exact absurd hstate hestablished
    · exact absurd hstate hwait1
    · exact absurd hstate hwait2

theorem owes_processFin (h : c.Sound A) (ho : c.Owes) (p : Packet) (reactions : List HostOp) :
    (c.processFin p reactions).Owes := by
  have hack : Sound A { c with ack := c.ack + 1 } := h.withAck
  have hreleased : Owes ({ c with ack := c.ack + 1 } : Conn).release := owes_release ho.pending
  unfold processFin
  dsimp only
  split
  · have hwaits : Sound A { c with ack := c.ack + 1, state := .closeWait } :=
      hack.withState fun _ => ⟨nofun, nofun, nofun⟩
    exact owes_send (owes_emitTo hwaits (ho.mono rfl rfl id rfl rfl (Nat.le_refl _)) _ _) _
  · refine owes_send ?_ _
    split
    · exact hreleased
    · exact ho.mono rfl rfl id rfl rfl (Nat.le_refl _)
  · exact owes_send hreleased _
  · exact owes_send (owes_emitTo (passes_release hack).sound hreleased _ _) _

/-! ## Acknowledgement numbers -/

/-- Acknowledged bytes leave the buffer. -/
theorem Sound.acknowledge (h : c.Sound A) (hlive : fins c.outputs = 0 → c.seq = A) (hAB : A ≤ B)
    (hB : B ≤ 1338 + c.written.length + fins c.outputs) (ackn : Nat) :
    Sound B (c.acknowledge ackn (B - A)) := by
  have hseq := h.seq_le
  refine ⟨h.unlimited, h.opens, h.delayedOpens, fun s hs => ?_, ?_, hB, ?_⟩
  · exact (h.said s hs).mono (prefix_refl _) (Nat.le_refl _) fun _ => rfl
  · change c.seq + (B - A) ≤ B
    omega
  · rcases h.phase with ⟨h0, hs⟩ | ⟨h1, hf⟩
    · have hfirst := hs.first
      have hcurrent := hlive h0
      have hnext : c.seq + (B - A) = B := by omega
      refine .inl ⟨h0, ?_, ?_, fun _ => hnext, hs.delayed⟩
      · change 1338 ≤ c.seq + (B - A)
        omega
      · change (c.sendBuffer.remove (B - A)).toList = c.written.drop (c.seq + (B - A) - 1338)
        rw [Ringbuffer.toList_remove, hs.toList, drop_drop,
          show c.seq - 1338 + (B - A) = c.seq + (B - A) - 1338 by omega]
    · refine .inr ⟨h1, hf.closes, hf.delayed, ?_, hf.acked.trans hAB⟩
      exact Nat.le_zero.1 ((Nat.sub_le ..).trans_eq hf.empty)

/-- All bytes are acknowledged, and the delayed FIN is sent. -/
theorem settled_finish (h : c.Settled A) (hregistered : c.registered = true) (hAB : A ≤ B)
    (hB : B ≤ 1338 + c.written.length + fins c.outputs) (hfinishes : c.Finishes (B - A)) :
    (c.finish B (B - A)).Settled B ∧ Fresh B c (c.finish B (B - A)) := by
  obtain ⟨h0, hs⟩ := h.sound.phase.resolve_right fun hf =>
    nomatch hf.2.delayed.symm.trans hfinishes.1
  have hlive := h.live hregistered
  have hseq := hlive h0
  have hadd := h.sound.seq_add h0 hs
  have hlength := hfinishes.2
  have hack := h.sound.acknowledge hlive hAB hB B
  obtain ⟨-, hs'⟩ := hack.phase.resolve_right fun hf =>
    nomatch hf.2.delayed.symm.trans hfinishes.1
  have hclosed : Sound B { c.acknowledge B (B - A) with
      delayedSendFin := false, state := c.delayedState } := by
    refine ⟨hack.unlimited, fun _ => h.sound.delayedOpens hfinishes.1, nofun, fun s hs => ?_,
      hack.seq_le, hack.acked_le, .inl ⟨h0, hs'.first, hs'.toList, hs'.current, nofun⟩⟩
    exact (hack.said s hs).mono (prefix_refl _) (Nat.le_refl _) fun _ => rfl
  have hempty : (c.sendBuffer.remove (B - A)).length = 0 := by
    change c.sendBuffer.length - min (B - A) c.sendBuffer.length = 0
    omega
  have hfin := passes_sendFin hclosed h0 (hs.delayed hfinishes.1) rfl hempty (by
    change c.seq + (B - A) = 1338 + c.written.length
    omega)
  have hsent : (c.finish B (B - A)).seq = B := hfin.seq.trans (show c.seq + (B - A) = B by omega)
  exact ⟨⟨hfin.sound, fun _ => hempty, owes_sendFin nofun, fun _ _ => hsent, fun _ => .inr rfl⟩,
    (Passes.silent (d := c.acknowledge B (B - A)) hack rfl rfl rfl id).fresh.trans hfin.fresh⟩

/-- How far a segment gets with its acknowledgement number. -/
theorem settled_processAckn (h : c.Settled A) (hregistered : c.registered = true) (hAB : A ≤ B)
    (hsent : ∃ s, .segment s ∈ c.outputs ∧ B ≤ s.stop) (hackn : p.ackn.toNat = B)
    (hfirst : c.lastReceivedAckn = none → B = A ∨ c.sendBuffer.length = 0)
    (reactions : List HostOp) :
    (∃ d, c.processAckn p reactions = .done d ∧ d.Settled B ∧ Fresh B c d) ∨
    ∃ d, c.processAckn p reactions = .goOn d ∧ ¬c.Completes p.ackn ∧ d.Sound B ∧ d.Owes ∧
      d.outputs = c.outputs ∧ d.state = c.state ∧ d.lastReceivedAckn = some B ∧
      (fins c.outputs = 0 → d.seq = B) := by
  have hlater := h.sound.later h.pumped hAB hsent
  have hlive := h.live hregistered
  have hacked := hlater.acked_le
  cases hlast : c.lastReceivedAckn with
  | none =>
    refine .inr ⟨_, processAckn_none hlast, ?_, hlater.withAck,
      h.owes.mono rfl rfl id rfl rfl (Nat.le_refl _), rfl, rfl, congrArg some hackn, fun h0 => ?_⟩
    · rintro ⟨last, hl, -⟩
      cases hlast.symm.trans hl
    · change c.seq = B
      have hseq := hlive h0
      rcases hfirst hlast with hsame | hempty
      · rw [hsame, hseq]
      · obtain ⟨-, hs⟩ := h.sound.phase.resolve_right fun hf => by omega
        have hadd := h.sound.seq_add h0 hs
        omega
  | some last =>
    obtain rfl : last = A := by
      rcases h.last hregistered with hnone | hsome
      · cases hlast.symm.trans hnone
      · exact Option.some.inj (hlast.symm.trans hsome)
    rcases processAckn_some hlast p reactions with
      ⟨-, hfinishes, heq⟩ | ⟨-, hnot, heq⟩ | ⟨hbelow, -⟩ | ⟨hsame, heq⟩
    · rw [hackn] at heq hfinishes
      exact .inl ⟨_, heq, settled_finish h hregistered hAB hacked hfinishes⟩
    · refine .inr ⟨_, heq, ?_, ?_, ⟨nofun, fun hr ha h0 => ?_⟩, rfl, rfl, congrArg some hackn,
        fun h0 => ?_⟩
      · rintro ⟨last', hl, -, hfinishes⟩
        rw [← Option.some.inj (hlast.symm.trans hl)] at hfinishes
        exact hnot hfinishes
      · rw [hackn]
        exact h.sound.acknowledge hlive hAB hacked B
      · obtain ⟨hdelayed, -⟩ := h.owes.delayed hr ha h0
        refine ⟨hdelayed, ?_⟩
        change c.sendBuffer.length - min (p.ackn.toNat - last) c.sendBuffer.length ≠ 0
        have hmore := Nat.lt_of_not_le fun hle => hnot ⟨hdelayed, hle⟩
        omega
      · change c.seq + (p.ackn.toNat - last) = B
        have hseq := hlive h0
        omega
    · omega
    · refine .inr ⟨c, heq, ?_, ?_, h.owes, rfl, rfl, ?_, fun h0 => ?_⟩
      · rintro ⟨last', hl, habove, -⟩
        rw [← Option.some.inj (hlast.symm.trans hl)] at habove
        omega
      · exact hlater
      · rw [hlast, ← hackn, hsame]
      · rw [hlive h0, ← hackn, hsame]

/-! ## A segment -/

theorem opens_acknowledgedState (h : Opens c.state) (p : Packet) :
    Opens (c.acknowledgedState p) := by
  unfold acknowledgedState
  split
  · split
    · exact ⟨nofun, nofun, nofun⟩
    · split <;> exact ⟨nofun, nofun, nofun⟩
    · exact h
  · exact h

/-- A FIN that is not a repeated one is expected. -/
theorem expects_acknowledgedState (hopens : Opens c.state) (hsyn : c.state ≠ .synSent)
    (hheeds : c.Heeds p) (hwait : c.state ≠ .closeWait) :
    c.acknowledgedState p = .established ∨ c.acknowledgedState p = .finWait1 ∨
      c.acknowledgedState p = .finWait2 := by
  have hstate : c.state = .established ∨ c.state = .finWait1 ∨ c.state = .finWait2 := by
    cases hs : c.state with
    | established => exact .inl rfl
    | finWait1 => exact .inr (.inl rfl)
    | finWait2 => exact .inr (.inr rfl)
    | closed => exact absurd hs hopens.1
    | synReceived => exact absurd hs hopens.2.1
    | synProbe => exact absurd hs hopens.2.2
    | synSent => exact absurd hs hsyn
    | closeWait => exact absurd hs hwait
    | lastAck => exact absurd hs hheeds.2.2.2
    | closing => exact absurd hs hheeds.2.2.1
  unfold acknowledgedState
  rcases hstate with hstate | hstate | hstate <;> rw [hstate] <;> dsimp only
  · rw [ite_self]
    exact .inl rfl
  · cases p.ack <;> cases p.fin <;> simp
  · rw [ite_self]
    exact .inr (.inr rfl)

/-- A segment with SYN opens the connection, or tells nothing new. -/
theorem settled_processSyn (h : c.Settled A) (hregistered : c.registered = true) (hAB : A ≤ B)
    (hsent : ∃ s, .segment s ∈ c.outputs ∧ B ≤ s.stop)
    (hackn : c.state = .synSent → p.ackn.toNat = B) (hack : p.ack = true)
    (hsyn : c.state = .synSent ∨ B = A)
    (hfirst : c.state = .synSent → B = A ∨ c.sendBuffer.length = 0) (reactions : List HostOp) :
    (c.processSyn p reactions).Settled B ∧ Fresh B c (c.processSyn p reactions) := by
  have hlater := h.sound.later h.pumped hAB hsent
  unfold processSyn
  split
  case isTrue hstate =>
    have hlive : fins c.outputs = 0 → c.seq = B := fun h0 => by
      have hseq := h.live hregistered h0
      have hacked := hlater.acked_le
      rcases hfirst hstate.1 with hsame | hempty
      · rw [hsame, hseq]
      · obtain ⟨-, hs⟩ := h.sound.phase.resolve_right fun hf => by omega
        have hadd := h.sound.seq_add h0 hs
        omega
    dsimp only
    generalize hd : ({ c with
      ack := p.seq.toNat + 1, startSeq := p.seq.toNat
      lastReceivedAckn := some p.ackn.toNat } : Conn) = d
    have hsilent : d.Sound B ∧ Fresh B c d ∧ d.Pumped ∧ d.Owes ∧ d.seq = c.seq ∧
        d.outputs = c.outputs ∧ d.lastReceivedAckn = some B := by
      subst hd
      exact ⟨hlater.withAck, .refl B c, h.pumped, h.owes.mono rfl rfl id rfl rfl (Nat.le_refl _),
        rfl, rfl, congrArg some (hackn hstate.1)⟩
    obtain ⟨hd, hfresh, hpumped, howes, hseq, houtputs, hlast⟩ := hsilent
    have hreply := passes_send hd (s := d.ipv4Reply) ⟨rfl, rfl, rfl, rfl, rfl⟩
    have hopen : Sound B { d.send d.ipv4Reply with state := .established } :=
      hreply.sound.withState fun _ => ⟨nofun, nofun, nofun⟩
    have hopened : Passes B d { d.send d.ipv4Reply with state := .established } :=
      hreply.trans (.silent hopen rfl rfl rfl id)
    have hemit := hopened.trans (passes_emitTo hopen .connect reactions)
    have howed : Owes { d.send d.ipv4Reply with state := .established } :=
      (owes_send howes _).mono rfl rfl id rfl rfl (Nat.le_refl _)
    refine ⟨.of_passes hemit (pumped_emitTo hopen hpumped .connect reactions)
      (owes_emitTo hopen howed .connect reactions) (fun _ h0 => ?_) (.inr hlast),
      hfresh.trans hemit.fresh⟩
    rw [hseq]
    exact hlive (houtputs ▸ h0)
  case isFalse hstate =>
    have hsame : B = A := hsyn.resolve_left fun hs => hstate ⟨hs, hack⟩
    rw [if_neg fun hprobe => (h.sound.opens hregistered).2.2 hprobe.1, hsame]
    exact ⟨h, .refl A c⟩

end Conn

open Conn

namespace Exchange

variable {w : Exchange} {p : Packet} {reactions : List HostOp}

theorem le_ackedBy (w : Exchange) (a : Turn) : w.acked ≤ w.ackedBy a := by
  unfold ackedBy
  split
  · split
    · exact Nat.le_add_right ..
    · exact Nat.le_refl _
  · exact Nat.le_refl _

/-- The acknowledgement number agrees with the segment. -/
theorem ackn_of_lt (hack : p.ack = true) (hlt : w.ackedBy (.segment p reactions) < 2 ^ 32) :
    p.ackn.toNat = w.ackedBy (.segment p reactions) := by
  unfold ackedBy at *
  dsimp only at *
  rw [if_pos hack] at *
  have hackn := p.ackn.isLt
  rw [BitVec.toNat_sub, BitVec.toNat_ofNat] at *
  omega

/-- What a segment does that the adapter passes on. -/
theorem settled_process (h : w.conn.Settled w.acked) (hregistered : w.conn.registered = true)
    (hallows : w.Allows (.segment p reactions)) (hclean : w.Clean (.segment p reactions)) :
    (w.conn.process p reactions).Settled (w.ackedBy (.segment p reactions)) ∧
      Fresh (w.ackedBy (.segment p reactions)) w.conn (w.conn.process p reactions) := by
  obtain ⟨hsent, hflags, hopening, hsyn⟩ := hallows
  have hAB := w.le_ackedBy (.segment p reactions)
  have hopens := h.sound.opens hregistered
  have hlater := h.sound.later h.pumped hAB hsent
  have hackn := @ackn_of_lt w p reactions
  simp only [Clean] at hclean
  generalize w.ackedBy (.segment p reactions) = B at *
  generalize w.acked = A at *
  generalize w.conn = c at *
  have hreleased : ∀ {d : Conn}, Passes B c d → d.Pumped → d.Owes →
      d.release.Settled B ∧ Fresh B c d.release := fun hd hp ho =>
    ⟨(passes_release hd.sound).sound.settled (pumped_release hp) (owes_release ho.pending)
      (registered_release _), (hd.trans (passes_release hd.sound)).fresh⟩
  unfold process
  rw [if_neg hopens.1]
  split
  · rw [if_neg hopens.2.2]
    exact hreleased (passes_emitTo hlater .close reactions)
      (pumped_emitTo hlater h.pumped .close reactions)
      (owes_emitTo hlater h.owes .close reactions)
  case isFalse hrst =>
    have hrst := Bool.eq_false_iff.2 hrst
    have hack : p.ack = true := hflags.resolve_right (by rw [hrst]; decide)
    split
    case isTrue hisSyn =>
      have hheeds : c.state = .synSent → c.Heeds p := fun hs =>
        ⟨hregistered, hrst, by rw [hs]; decide, by rw [hs]; decide⟩
      exact settled_processSyn h hregistered hAB hsent
        (fun hs => hackn hack (hclean (hheeds hs)).1) hack (hsyn hisSyn)
        (fun hs => (hclean (hheeds hs)).2.1 (.inl hs)) reactions
    case isFalse hisSyn =>
      split
      · exact hreleased (.refl hlater) h.pumped h.owes
      case isFalse hlast =>
        have hheeds : c.Heeds p :=
          ⟨hregistered, hrst, fun hs => hlast ⟨hack, .inl hs⟩, fun hs => hlast ⟨hack, .inr hs⟩⟩
        obtain ⟨hlt, hfirst, hfin⟩ := hclean hheeds
        have hstate : ({ c with state := c.acknowledgedState p } : Conn).Settled A :=
          ⟨h.sound.withState fun _ => opens_acknowledgedState hopens p, h.pumped,
            h.owes.mono rfl rfl id rfl rfl (Nat.le_refl _), h.live, h.last⟩
        rcases settled_processAckn hstate hregistered hAB hsent (hackn hack hlt)
          (fun hnone => hfirst (.inr hnone)) reactions with
          ⟨d, heq, hsettled⟩ | ⟨d, heq, hcompletes, hd, howes, houtputs, hdstate, hdlast, hseq⟩
        · rw [heq]
          exact hsettled
        · rw [heq]
          have hfresh : Fresh B c d := ⟨[], houtputs.trans (append_nil _).symm, nofun⟩
          have hpasses : Passes B d
              (if p.fin then d.processFin p reactions else d.processData p reactions) := by
            split
            case isTrue hisFin =>
              refine passes_processFin hd ?_ p reactions
              rw [hdstate]
              refine expects_acknowledgedState hopens (fun hs => ?_) hheeds
                fun hs => hcompletes (hfin hisFin hs)
              exact (hopening hs).elim hisSyn fun hr => nomatch hrst.symm.trans hr
            case isFalse => exact passes_processData hd p reactions
          have howed :
              (if p.fin then d.processFin p reactions else d.processData p reactions).Owes := by
            split
            · exact owes_processFin hd howes p reactions
            · exact owes_processData hd howes p reactions
          have hpumped := hpasses.trans (passes_pump hpasses.sound)
          refine ⟨.of_passes hpumped (pumped_pump _) (owes_pump howed) (fun _ h0 => ?_)
            (.inr hdlast), hfresh.trans hpumped.fresh⟩
          exact hseq (houtputs ▸ h0)

/-- What holds between two turns. -/
theorem settled_step {a : Turn} (h : w.conn.Settled w.acked) (hallows : w.Allows a)
    (hclean : w.Clean a) :
    (w.step a).conn.Settled (w.step a).acked ∧ Fresh (w.step a).acked w.conn (w.step a).conn := by
  cases a with
  | segment p reactions =>
    unfold step
    dsimp only
    unfold deliver
    split
    case isTrue hregistered => exact settled_process h hregistered hallows hclean
    case isFalse hregistered =>
      have hlater := h.sound.later h.pumped (w.le_ackedBy _) hallows.1
      exact ⟨hlater.settled h.pumped h.owes (Bool.eq_false_iff.2 hregistered), .refl _ _⟩
  | host op =>
    have hpasses := passes_perform h.sound op
    refine ⟨⟨hpasses.sound, pumped_perform h.sound h.pumped op, owes_perform h.sound h.owes op,
      fun hr h0 => ?_, fun hr => ?_⟩, hpasses.fresh⟩
    · have hle := hpasses.fresh.fins_le
      have h0 : fins (w.conn.perform op).outputs = 0 := h0
      exact hpasses.seq.trans (h.live (hpasses.registered hr) (by omega))
    · have hlast := h.last (hpasses.registered hr)
      rwa [← hpasses.last] at hlast

theorem sends_of_settled {a : Turn} (h : (w.step a).conn.Settled (w.step a).acked)
    (hfresh : Fresh (w.step a).acked w.conn (w.step a).conn) : w.Sends a := by
  refine ⟨fun s hs => (h.sound.said s hs).carries, fun s hs hdata => ?_, ?_, fun s hs hfin => ?_,
    ?_, fun hr ha hacked => ?_, fun s hs => (h.sound.said s hs).rst⟩
  · obtain ⟨os, hos, hnew⟩ := hfresh
    rw [hos, drop_left] at hs
    exact hnew s hs hdata
  · rcases h.sound.phase with ⟨-, hs⟩ | ⟨-, hf⟩
    · rw [hs.toList]
      exact drop_suffix_drop_left _ (Nat.sub_le_sub_right h.sound.seq_le _)
    · have hacked := hf.acked
      rw [drop_of_length_le (by omega)]
      exact nil_suffix
  · refine ⟨(h.sound.said s hs).fin hfin, ?_⟩
    rcases h.sound.phase with ⟨h0, -⟩ | ⟨-, hf⟩
    · exact absurd hfin (not_fin_of_fins h0 hs)
    · exact hf.acked
  · rcases h.sound.phase with ⟨h0, -⟩ | ⟨h1, -⟩
    · rw [h0]
      exact Nat.zero_le 1
    · exact h1.le
  · rcases h.sound.phase with ⟨h0, hs⟩ | ⟨h1, -⟩
    · have hlive := h.live hr h0
      have hadd := h.sound.seq_add h0 hs
      obtain ⟨-, hwaiting⟩ := h.owes.delayed hr ha h0
      omega
    · exact h1

end Exchange

/-! ## Opening -/

/-- A connection that was just accepted, or whose SYN was just sent. -/
inductive Conn.Opening : Conn → Prop
  | accepted (mtu : Nat) (p : Packet) :
    Opening ({ Conn.new mtu with state := .synReceived }.accept p)
  | connected (mtu : Nat) : Opening { Conn.new mtu with registered := true }.connect

theorem Conn.Opening.settled {c : Conn} (h : c.Opening) : c.Settled 1338 := by
  cases h with
  | accepted mtu p | connected mtu =>
    refine ⟨⟨rfl, fun _ => ⟨nofun, nofun, nofun⟩, nofun, fun s hs => ?_, le_rfl, le_rfl,
      .inl ⟨rfl, le_rfl, List.take_zero.trans List.drop_nil.symm, fun _ => rfl, nofun⟩⟩,
      fun _ => rfl, ⟨nofun, nofun⟩, fun _ _ => rfl, fun _ => .inl rfl⟩
    cases List.mem_singleton.1 hs
    exact ⟨rfl, nil_prefix, show 1337 + 1 ≤ 1338 from Nat.le_refl _, nofun⟩

/-- From any connection that opens: every turn of a run whose turns are clean sends the host's
stream. -/
theorem sends_stream {c : Conn} (hopening : c.Opening) (turns : List Turn)
    (hallows : Runs.Each Exchange.step Exchange.Allows ⟨c, 1338⟩ turns)
    (hclean : Runs.Each Exchange.step Exchange.Clean ⟨c, 1338⟩ turns) :
    Runs.Each Exchange.step Exchange.Sends ⟨c, 1338⟩ turns :=
  Runs.each_of (A := fun _ => True) (I := fun w => w.conn.Settled w.acked)
    (fun w a _ h hc => by
      obtain ⟨hsettled, hfresh⟩ := w.settled_step h hc.1 hc.2
      exact ⟨hsettled, Exchange.sends_of_settled hsettled hfresh⟩)
    (fun _ _ => trivial) hopening.settled (hallows.and hclean)

/-- A bare acknowledgement. -/
def sampleAck (ackn : BitVec 32) : Turn :=
  .segment ⟨1, ackn, 64240, false, false, false, true, []⟩ []

theorem exists_segment {outputs : List Output} {n : Nat}
    (h : (outputs.any fun o => match o with
      | .segment s => decide (n ≤ s.stop)
      | .event _ => false) = true) : ∃ s, .segment s ∈ outputs ∧ n ≤ s.stop := by
  obtain ⟨o, ho, hn⟩ := List.any_eq_true.1 h
  cases o with
  | segment s => exact ⟨s, ho, of_decide_eq_true hn⟩
  | event e => cases hn

/-- Two bytes, acknowledged after the SYN, and the FIN. -/
theorem sends_sample : Runs.Each Exchange.step Exchange.Sends ⟨sampleConn, 1338⟩
    [.host (.write [1, 2]), sampleAck 1338, sampleAck 1340, .host .close, sampleAck 1341] := by
  refine sends_stream (.accepted 1500 sampleSyn) _ ⟨trivial, ⟨?_, .inl rfl, ?_, nofun⟩,
    ⟨?_, .inl rfl, ?_, nofun⟩, trivial, ⟨?_, .inl rfl, ?_, nofun⟩, trivial⟩
    ⟨trivial, fun _ => ⟨?_, fun _ => .inl ?_, nofun⟩, fun _ => ⟨?_, fun hfirst => ?_, nofun⟩,
      trivial, fun _ => ⟨?_, fun hfirst => ?_, nofun⟩, trivial⟩
  iterate 3
    · exact exists_segment (by decide +kernel)
    · exact fun hs => absurd hs (by decide +kernel)
  · decide +kernel
  · decide +kernel
  · decide +kernel
  · exact absurd hfirst (by decide +kernel)
  · decide +kernel
  · exact absurd hfirst (by decide +kernel)

/-- A segment repeats a byte below `n`. -/
def Output.repeats (n : Nat) : Output → Bool
  | .segment s => decide (s.data ≠ [] ∧ s.seq < n)
  | .event _ => false

theorem Exchange.Sends.not_repeats {w : Exchange} {a : Turn} (h : w.Sends a) :
    ((w.step a).conn.outputs.drop w.conn.outputs.length).any
      (Output.repeats (w.step a).acked) = false := by
  refine List.any_eq_false.2 fun o ho hrepeats => ?_
  cases o with
  | segment s =>
    obtain ⟨hdata, hlt⟩ := of_decide_eq_true hrepeats
    exact absurd (h.fresh s ho hdata).2 (Nat.not_le_of_lt hlt)
  | event e => cases hrepeats

/-- The first acknowledgement covers a byte: the second byte is sent again after it was
acknowledged. -/
theorem first_acknowledgement_resends : ¬∀ c : Conn, c.Opening → ∀ turns : List Turn,
    Runs.Each Exchange.step Exchange.Allows ⟨c, 1338⟩ turns →
    Runs.Each Exchange.step Exchange.Sends ⟨c, 1338⟩ turns := by
  intro h
  have hsends := h sampleConn (.accepted 1500 sampleSyn)
    [.host (.write [1, 2]), sampleAck 1339, sampleAck 1340]
    ⟨trivial, ⟨exists_segment (by decide +kernel), .inl rfl,
      fun hs => absurd hs (by decide +kernel), nofun⟩, ⟨exists_segment (by decide +kernel),
      .inl rfl, fun hs => absurd hs (by decide +kernel), nofun⟩, trivial⟩
  exact absurd hsends.2.2.1.not_repeats (by decide +kernel)

end V86.Net
